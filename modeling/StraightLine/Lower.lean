import StraightLine.Ast.Basic
import StraightLine.Eval
import StraightLine.Session.Code
import StraightLine.Session.Lifecycle

/-!
# Lowering programs

The items of a program are lowered one at a time through a session. An item that is refused leaves
its function abandoned, and the next item can follow. Parameters are values; every `let` makes a
slot, and the latest binding of a name is the one that counts.
-/

namespace StraightLine.Lower

open Session (query)

/-- The function that a program runs. -/
def mainName : String := "main"

/-- What a name stands for inside a function. -/
inductive Binding where
  /-- A parameter, which cannot be assigned. -/
  | param (value : ValueId)
  | slot (slot : SlotId)
  deriving DecidableEq, Repr

/-- The bindings inside a function, the latest first. -/
abbrev Scope := List (String × Binding)

/-- What an item has become. -/
inductive Lowered where
  | function (f : FunctionId)
  | external (f : FunctionId)
  /-- A function around an expression, ready to be evaluated. -/
  | topLevel (f : FunctionId)
  deriving DecidableEq, Repr

/-- Refuses something inside the function under the cursor. -/
def refuse {α : Type} (r : Refusal) : SessionM α := do
  let s ← get
  throw (r.error (match s.draft.current? with
    | some f => f.name
    | none => "<none>"))

/-! ### Expressions -/

/-- The value of a name. -/
def useVariable (scope : Scope) (name : String) : SessionM ValueId :=
  match scope.lookup name with
  | some (.param v) => pure v
  | some (.slot s) => Session.read s
  | none => refuse (.noVariable name)

/-- The value of an operator. -/
def binary (op : BinaryOp) (lhs rhs : ValueId) : SessionM ValueId :=
  match op.meaning with
  | .arithmetic a => Session.arith a lhs rhs
  | .comparison p => do
    let flag ← Session.compare p lhs rhs
    Session.widen flag

/-- The function that a call goes to, which takes as many arguments as there are. -/
def callee (name : String) (given : Nat) : SessionM FunctionId := do
  match (← get).functionNamed? name with
  | none => refuse (.noFunction name)
  | some f =>
    let g ← query fun s => s.function f
    if g.arity ≠ given then refuse (.wrongArity name g.arity given)
    pure f

mutual

/-- Lowers an expression and gives its value. -/
def expr (scope : Scope) : Expr → SessionM ValueId
  | .number c => Session.floatConstant c
  | .string s => Session.stringConstant s.toUTF8.toList
  | .var name => useVariable scope name
  | .binary op l r => do
    let lhs ← expr scope l
    let rhs ← expr scope r
    binary op lhs rhs
  | .call name args => do
    let f ← callee name args.length
    let vs ← exprs scope args
    Session.call f vs

/-- Lowers expressions from left to right and gives their values. -/
def exprs (scope : Scope) : List Expr → SessionM (List ValueId)
  | [] => pure []
  | e :: es => do
    let v ← expr scope e
    let vs ← exprs scope es
    pure (v :: vs)

end

/-! ### Functions -/

/-- Lowers a statement of a function and gives the bindings after it. -/
def stmt (function : FunctionId) (scope : Scope) : Stmt → SessionM Scope
  | .bind name value => do
    let v ← expr scope value
    let slot ← Session.declareVariable v name
    pure ((name, .slot slot) :: scope)
  | .assign name value =>
    match scope.lookup name with
    | some (.slot slot) => do
      let v ← expr scope value
      Session.assign slot v
      pure scope
    | some (.param _) => refuse (.constant name)
    | none => refuse (.noVariable name)
  | .eval value => do
    let _ ← expr scope value
    pure scope
  | .ret value => do
    let v ← expr scope value
    Session.endFunction function v
    pure scope

/-- Lowers statements in order. -/
def stmts (function : FunctionId) : Scope → List Stmt → SessionM Unit
  | _, [] => pure ()
  | scope, s :: rest => do
    let scope ← stmt function scope s
    stmts function scope rest

/-- The bindings of parameters from an index on. -/
def paramScope (function : FunctionId) : Nat → List String → SessionM Scope
  | _, [] => pure []
  | i, name :: rest => do
    let v ← query fun s => s.param function i
    let scope ← paramScope function (i + 1) rest
    pure ((name, .param v) :: scope)

/-- The names of the parameters of a function, as its definition in the module has them. -/
def paramNames (function : FunctionId) (s : Session) : Except Error (List String) := do
  let name := (← s.function function).name
  match s.module.find? name with
  | some g => pure (g.params.map Prod.snd)
  | none => throw (.internal ("Function " ++ name ++ " is missing from the module"))

/-- Lowers the body of a function with these parameters and verifies it. -/
def body (function : FunctionId) (params : List String) (b : List Stmt) : SessionM Unit := do
  let scope ← paramScope function 0 params
  stmts function scope b
  Session.verifyFunction function

/-- Abandons a function whose lowering fails, unless the session is poisoned, and lets the failure
stand. -/
def settle (function : FunctionId) (lowering : SessionM Unit) : SessionM Unit := fun s =>
  match lowering s with
  | .ok () s => .ok () s
  | .error e s =>
    if s.isPoisoned then .error e s
    else match Session.abandonFunction function s with
      | .ok () s | .error _ s => .error e s

/-- Refuses a body that does not return exactly once, at its end. -/
def checkReturns (name : String) (b : List Stmt) : Except Error Unit :=
  if b.countP Stmt.isReturn ≠ 1 then .error ((Refusal.returnCount name).error name)
  else if b.getLast?.any Stmt.isReturn then .ok ()
  else .error ((Refusal.unreachable name).error name)

/-! ### Items -/

/-- Lowers an item. -/
def item : Item → SessionM Lowered
  | .function proto b => do
    query fun _ => checkReturns proto.name b
    let f ← Session.beginFunction proto.name proto.params
    settle f (do body f (← query (paramNames f)) b)
    pure (.function f)
  | .external proto => .external <$> Session.declareFunction proto.name proto.params.length
  | .topLevel value => do
    let f ← Session.beginTopLevel
    settle f (do Session.finishTopLevel f (← expr [] value))
    pure (.topLevel f)

/-- Lowers items in order up to the first that is refused. -/
def items : List Item → SessionM (List Lowered)
  | [] => pure []
  | i :: is => do
    let x ← item i
    let xs ← items is
    pure (x :: xs)

/-- Declares host functions that no live function shares the name of. -/
def declareHosts : List (String × Nat) → SessionM Unit
  | [] => pure ()
  | (name, arity) :: rest => do
    if ((← get).functionNamed? name).isNone then
      let _ ← Session.declareFunction name arity
    declareHosts rest

/-- Declares the host library. -/
def declareHostLibrary : SessionM Unit := declareHosts Eval.hostLibrary

/-- Evaluates a function without parameters, and gives what it writes. -/
def evaluate (s : Session) (f : FunctionId) : Except Error Float × String :=
  match s.function f with
  | .error e => (.error e, "")
  | .ok g =>
    let (r, out) := Eval.call s.module g.name []
    (r.mapError Eval.Failure.error, out)

end StraightLine.Lower
