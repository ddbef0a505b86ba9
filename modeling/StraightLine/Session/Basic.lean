import StraightLine.Draft
import StraightLine.Session.Refusal
import StraightLine.Target

/-!
# Sessions

A session builds one module. It gives out handles and keeps what they stand for: operands with
their types, slots of variables, and functions. When a function fails verification the session is
poisoned and refuses every further request to build.

Requests are steps in `SessionM`. What a request only asks of the session is a query, a function of
the session that cannot change it.
-/

namespace StraightLine

/-- What a session can be told when it is opened. -/
structure SessionOptions where
  moduleName : String := Module.defaultName
  /-- Whether closing verifies the module after every pass. -/
  verifyEach : Bool := true
  /-- Whether closing runs the passes. -/
  optimize : Bool := true
  deriving DecidableEq, Repr

/-- What a value handle stands for. -/
structure ValueEntry where
  operand : Operand
  type : Ty
  /-- The place of the function that the value is local to; constants have none. -/
  owner : Option Nat
  deriving DecidableEq, Repr

/-- What a slot handle stands for. -/
structure SlotEntry where
  ptr : Operand
  /-- The place of the function that the slot belongs to. -/
  owner : Nat
  name : String
  deriving DecidableEq, Repr

/-- What a function handle stands for. -/
structure FunctionEntry where
  /-- The place of the function in the module. -/
  index : Nat
  params : List ValueId
  deriving DecidableEq, Repr

/-- The construction of one module. -/
structure Session where
  id : Nat
  options : SessionOptions
  target : Target
  draft : Draft
  values : Array ValueEntry := #[]
  slots : Array SlotEntry := #[]
  functions : Array FunctionEntry := #[]
  /-- The names of the functions around top-level expressions. -/
  wrappers : NameFamily
  /-- The function whose verification has failed. -/
  poisonedBy : Option String := none
  deriving DecidableEq, Repr

/-- A request to a session. -/
abbrev SessionM := EStateM Error Session

namespace Session

/-- The stem of the names of functions around top-level expressions. -/
def wrapperStem : String := "__anon_expr"

/-- A new session. Without optimisation the target is only asked for verification. -/
def start (id : Nat) (options : SessionOptions) (target : Target) : Session where
  id := id
  options := options
  target := if options.optimize then target else { target with effort := .none }
  draft := { module := { name := options.moduleName, triple := some target.triple } }
  wrappers := { stem := wrapperStem }

/-- The module as built so far. -/
def module (s : Session) : Module := s.draft.module

/-- Whether a function has failed verification. -/
def isPoisoned (s : Session) : Bool := s.poisonedBy.isSome

/-! ### Queries -/

/-- Asks the session something. -/
def query {α : Type} (q : Session → Except Error α) : SessionM α := fun s =>
  match q s with
  | .ok a => .ok a s
  | .error e => .error e s

/-- Builds at the cursor. -/
def build {α : Type} (b : Building α) : SessionM α := fun s =>
  match b s.draft with
  | .ok a d => .ok a { s with draft := d }
  | .error e d => .error e { s with draft := d }

/-- Refuses requests to a session that is poisoned. -/
def ensureUsable (s : Session) : Except Error Unit :=
  match s.poisonedBy with
  | some f => .error (.poisoned f)
  | none => .ok ()

/-- What a value handle stands for. -/
def value (s : Session) (v : ValueId) : Except Error ValueEntry := v.resolve s.id s.values

/-- What a slot handle stands for. -/
def slot (s : Session) (h : SlotId) : Except Error SlotEntry := h.resolve s.id s.slots

/-- What a function handle stands for. -/
def entry (s : Session) (f : FunctionId) : Except Error FunctionEntry := f.resolve s.id s.functions

/-- The function at a place of the module. -/
def functionAt (s : Session) (index : Nat) : Function :=
  s.module.functions[index]?.getD { name := "" }

/-- The function that a handle stands for. -/
def function (s : Session) (f : FunctionId) : Except Error Function :=
  (s.entry f).map fun e => s.functionAt e.index

/-- The place of the function under the cursor, which must still take instructions. -/
def underConstruction (s : Session) : Except Error Nat :=
  match s.draft.cursor with
  | none => .error (Refusal.noCursor.error "<none>")
  | some c =>
    let f := s.functionAt c.function
    if f.stage = .building then .ok c.function
    else .error ((Refusal.notBuilding f.name f.stage).error f.name)

/-- The operand behind a value handle, for use in the function at a place. -/
def operandIn (s : Session) (function : Nat) (v : ValueId) : Except Error ValueEntry := do
  let e ← s.value v
  match e.owner with
  | some owner =>
    if owner = function then pure e
    else
      throw ((Refusal.foreignValue v (s.functionAt owner).name).error (s.functionAt function).name)
  | none => pure e

/-- The operand behind a handle to a double, for use in the function at a place. -/
def doubleIn (s : Session) (function : Nat) (v : ValueId) : Except Error Operand := do
  let e ← s.operandIn function v
  if e.type = .double then pure e.operand
  else throw ((Refusal.notDouble v e.type).error (s.functionAt function).name)

/-- The operand behind a handle to a comparison result, for use in the function at a place. -/
def flagIn (s : Session) (function : Nat) (v : ValueId) : Except Error Operand := do
  let e ← s.operandIn function v
  if e.type = .i1 then pure e.operand
  else throw ((Refusal.notFlag v e.type).error (s.functionAt function).name)

/-- The address of a slot, for use in the function at a place. -/
def pointerIn (s : Session) (function : Nat) (h : SlotId) : Except Error Operand := do
  let e ← s.slot h
  if e.owner = function then pure e.ptr
  else
    let refusal := Refusal.foreignSlot e.name (s.functionAt e.owner).name
    throw (refusal.error (s.functionAt function).name)

/-- The parameter of a function at an index. -/
def param (s : Session) (f : FunctionId) (index : Nat) : Except Error ValueId := do
  let e ← s.entry f
  match e.params[index]? with
  | some v => pure v
  | none =>
    let name := (s.functionAt e.index).name
    throw ((Refusal.noParam name e.params.length index).error name)

/-- The parameter of a function with a name. External functions have none. -/
def paramNamed (s : Session) (f : FunctionId) (name : String) : Except Error ValueId := do
  let g ← s.function f
  match g.paramIndex? name, g.isExternal with
  | some i, false => s.param f i
  | _, _ => throw ((Refusal.noNamedParam g.name name).error g.name)

/-- The handle of the live function with a name. -/
def functionNamed? (s : Session) (name : String) : Option FunctionId := do
  let index ← s.module.index? name
  let i ← s.functions.findIdx? fun e => e.index = index
  pure ⟨s.id, i⟩

/-- Whether a function is one around a top-level expression. -/
def isTopLevel (s : Session) (f : FunctionId) : Except Error Bool :=
  (s.function f).map fun g => s.wrappers.reserves g.name

/-! ### Keeping things -/

/-- Keeps a value. -/
def addValue (e : ValueEntry) : SessionM ValueId :=
  modifyGet fun s => (⟨s.id, s.values.size⟩, { s with values := s.values.push e })

/-- Keeps a slot. -/
def addSlot (e : SlotEntry) : SessionM SlotId :=
  modifyGet fun s => (⟨s.id, s.slots.size⟩, { s with slots := s.slots.push e })

/-- Keeps a function. -/
def addEntry (e : FunctionEntry) : SessionM FunctionId :=
  modifyGet fun s => (⟨s.id, s.functions.size⟩, { s with functions := s.functions.push e })

end Session

end StraightLine
