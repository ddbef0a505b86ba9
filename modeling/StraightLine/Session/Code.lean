import StraightLine.Session.Basic

/-!
# Building code

Constants, variables and expressions. A request is checked in full before anything is built, and
the instructions go to the cursor.
-/

namespace StraightLine.Session

/-- The place of the function that instructions go to. -/
def cursorFunction : SessionM Nat := do
  query ensureUsable
  query underConstruction

/-! ### Constants -/

/-- Makes a constant double. -/
def floatConstant (c : Numeral) : SessionM ValueId := addValue ⟨.float c, .double, none⟩

/-- Makes a constant string of bytes. -/
def stringConstant (bytes : List UInt8) : SessionM ValueId :=
  addValue ⟨.string bytes, .bytes bytes.length, none⟩

/-! ### Variables -/

/-- Makes a variable that holds a value. -/
def declareVariable (initial : ValueId) (name : String) : SessionM SlotId := do
  let f ← cursorFunction
  let v ← query fun s => s.doubleIn f initial
  let ptr ← build (Draft.define fun r => .alloca r .double name)
  build (Draft.append (.store v ptr))
  addSlot ⟨ptr, f, name⟩

/-- Gives a variable a value. -/
def assign (slot : SlotId) (value : ValueId) : SessionM Unit := do
  let f ← cursorFunction
  let ptr ← query fun s => s.pointerIn f slot
  let v ← query fun s => s.doubleIn f value
  build (Draft.append (.store v ptr))

/-- The value that a variable has now. -/
def read (slot : SlotId) : SessionM ValueId := do
  let f ← cursorFunction
  let ptr ← query fun s => s.pointerIn f slot
  let v ← build (Draft.define fun r => .load r ptr .double)
  addValue ⟨v, .double, some f⟩

/-! ### Expressions -/

/-- An operation on two doubles. -/
def arith (op : Arith) (lhs rhs : ValueId) : SessionM ValueId := do
  let f ← cursorFunction
  let a ← query fun s => s.doubleIn f lhs
  let b ← query fun s => s.doubleIn f rhs
  let v ← build (Draft.define fun r => .arith r op a b)
  addValue ⟨v, .double, some f⟩

/-- A comparison of two doubles. -/
def compare (pred : Predicate) (lhs rhs : ValueId) : SessionM ValueId := do
  let f ← cursorFunction
  let a ← query fun s => s.doubleIn f lhs
  let b ← query fun s => s.doubleIn f rhs
  let v ← build (Draft.define fun r => .compare r pred a b)
  addValue ⟨v, .i1, some f⟩

/-- The double for a comparison result. -/
def widen (value : ValueId) : SessionM ValueId := do
  let f ← cursorFunction
  let a ← query fun s => s.flagIn f value
  let v ← build (Draft.define fun r => .widen r a)
  addValue ⟨v, .double, some f⟩

/-- The function that a call goes to, which must not be abandoned. -/
def callee (s : Session) (f : FunctionId) : Except Error Function := do
  let g ← s.function f
  if g.isLive then pure g else throw ((Refusal.abandoned g.name).error g.name)

/-- Checks the number of arguments of a call in the function at a place. -/
def checkArity (s : Session) (function : Nat) (g : Function) (given : Nat) : Except Error Unit :=
  if g.arity = given then .ok ()
  else .error ((Refusal.wrongArity g.name g.arity given).error (s.functionAt function).name)

/-- A call. -/
def call (callee : FunctionId) (args : List ValueId) : SessionM ValueId := do
  let f ← cursorFunction
  let g ← query fun s => s.callee callee
  query fun s => s.checkArity f g args.length
  let vs ← query fun s => args.mapM (s.doubleIn f)
  let v ← build (Draft.define fun r => .call r (.function g.name) vs)
  addValue ⟨v, .double, some f⟩

end StraightLine.Session
