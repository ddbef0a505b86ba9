import StraightLine.Session.Code
import StraightLine.Session.Lifecycle

/-!
# Requests as data

Everything that can be asked of an open session to build, so that a history of a session is a list
of requests.
-/

namespace StraightLine

/-- A request to an open session. -/
inductive Request where
  | floatConstant (c : Numeral)
  | stringConstant (bytes : List UInt8)
  | beginFunction (name : String) (params : List String)
  | declareFunction (name : String) (arity : Nat)
  | endFunction (function : FunctionId) (value : ValueId)
  | verifyFunction (function : FunctionId)
  | abandonFunction (function : FunctionId)
  | declareVariable (initial : ValueId) (name : String)
  | assign (slot : SlotId) (value : ValueId)
  | read (slot : SlotId)
  | arith (op : Arith) (lhs rhs : ValueId)
  | compare (pred : Predicate) (lhs rhs : ValueId)
  | widen (value : ValueId)
  | call (callee : FunctionId) (args : List ValueId)
  | beginTopLevel
  | finishTopLevel (wrapper : FunctionId) (value : ValueId)
  | wrapTopLevel (value : ValueId)
  deriving DecidableEq, Repr

/-- What a request that succeeds gives. -/
inductive Reply where
  | done
  | value (v : ValueId)
  | slot (s : SlotId)
  | function (f : FunctionId)
  deriving DecidableEq, Repr

namespace Request

/-- Makes a request. -/
def perform : Request → SessionM Reply
  | floatConstant c => .value <$> Session.floatConstant c
  | stringConstant bs => .value <$> Session.stringConstant bs
  | beginFunction n ps => .function <$> Session.beginFunction n ps
  | declareFunction n k => .function <$> Session.declareFunction n k
  | endFunction f v => (fun _ => .done) <$> Session.endFunction f v
  | verifyFunction f => (fun _ => .done) <$> Session.verifyFunction f
  | abandonFunction f => (fun _ => .done) <$> Session.abandonFunction f
  | declareVariable v n => .slot <$> Session.declareVariable v n
  | assign s v => (fun _ => .done) <$> Session.assign s v
  | read s => .value <$> Session.read s
  | arith op a b => .value <$> Session.arith op a b
  | compare p a b => .value <$> Session.compare p a b
  | widen v => .value <$> Session.widen v
  | call f args => .value <$> Session.call f args
  | beginTopLevel => .function <$> Session.beginTopLevel
  | finishTopLevel f v => (fun _ => .done) <$> Session.finishTopLevel f v
  | wrapTopLevel v => .function <$> Session.wrapTopLevel v

end Request

namespace Session

/-- What a request gives, and the session after it. -/
def request (s : Session) (r : Request) : Except Error Reply × Session :=
  match r.perform s with
  | .ok a s => (.ok a, s)
  | .error e s => (.error e, s)

/-- The session after a history of requests, whether they succeed or not. -/
def after (s : Session) (history : List Request) : Session :=
  history.foldl (fun s r => (s.request r).2) s

end Session

end StraightLine
