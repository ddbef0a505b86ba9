import StraightLine.Pipeline
import StraightLine.Session.Basic

/-!
# The life of functions

Functions are begun, ended and verified, or abandoned, and never opened again. A top-level
expression lives in a function of its own, without parameters and under a reserved name. Closing a
session drops the abandoned functions and finishes the module.
-/

namespace StraightLine.Session

/-- The name of the only block of a function. -/
def entryName : String := "entry"

/-! ### Beginning -/

/-- Refuses a name that users may not choose. -/
def checkNotReserved (s : Session) (name : String) : Except Error Unit :=
  if s.wrappers.reserves name then .error ((Refusal.reservedName name).error name) else .ok ()

/-- Refuses a name that is empty or that a live function has. -/
def checkNewName (s : Session) (name : String) : Except Error Unit :=
  if name.isEmpty then .error (Refusal.emptyName.error name)
  else if (s.module.find? name).isSome then .error ((Refusal.takenName name).error name)
  else .ok ()

/-- The first name that has occurred before. -/
def firstRepeated : List String → List String → Option String
  | _, [] => none
  | seen, x :: xs => if x ∈ seen then some x else firstRepeated (x :: seen) xs

/-- Refuses parameters of the same name. -/
def checkParams (name : String) (params : List String) : Except Error Unit :=
  match firstRepeated [] params with
  | some p => .error ((Refusal.repeatedParam p).error name)
  | none => .ok ()

/-- Begins a function under any new name, and moves the cursor into it. -/
def openFunction (name : String) (params : List String) : SessionM FunctionId := do
  query fun s => s.checkNewName name
  query fun _ => checkParams name params
  let index ← build (Draft.addFunction { Function.declare name params with stage := .building })
  let label ← build (Draft.appendBlock index entryName)
  build (Draft.position index label)
  let ids ← (List.range params.length).mapM fun i => addValue ⟨.temp i, .double, some index⟩
  addEntry ⟨index, ids⟩

/-- Begins a function, and moves the cursor into it. -/
def beginFunction (name : String) (params : List String) : SessionM FunctionId := do
  query ensureUsable
  query fun s => s.checkNotReserved name
  openFunction name params

/-- Declares a function that the host provides. -/
def declareFunction (name : String) (arity : Nat) : SessionM FunctionId := do
  query ensureUsable
  query fun s => s.checkNotReserved name
  query fun s => s.checkNewName name
  let index ← build (Draft.addFunction (Function.external name arity))
  addEntry ⟨index, []⟩

/-- Begins a function around a top-level expression, and moves the cursor into it. -/
def beginTopLevel : SessionM FunctionId := do
  query ensureUsable
  let name ← modifyGet fun s => (s.wrappers.take.1, { s with wrappers := s.wrappers.take.2 })
  openFunction name []

/-! ### Ending -/

/-- Refuses to end a function that is not the one under construction. -/
def checkEnds (s : Session) (index : Nat) : Except Error Unit :=
  let f := s.functionAt index
  let refusal := (Refusal.cannotEnd f.name f.stage).error f.name
  match s.underConstruction with
  | .ok i => if i = index then .ok () else .error refusal
  | .error _ => .error refusal

/-- Ends the function under construction with a value. -/
def endFunction (function : FunctionId) (value : ValueId) : SessionM Unit := do
  query ensureUsable
  let e ← query fun s => s.entry function
  query fun s => s.checkEnds e.index
  let v ← query fun s => s.doubleIn e.index value
  build (Draft.append (.ret v))
  build (Draft.modifyFunction e.index fun f => { f with stage := .terminated })

/-- Marks the session as one in which a function has failed, and takes the cursor away. -/
def poison (function : String) : SessionM Unit := do
  modify fun s => { s with poisonedBy := some function }
  build Draft.clearCursor

/-- Verifies a function. If that fails, the session is poisoned. -/
def verifyFunction (function : FunctionId) : SessionM Unit := do
  query ensureUsable
  let e ← query fun s => s.entry function
  let s ← get
  let f := s.functionAt e.index
  match f.stage with
  | .verified => pure ()
  | .abandoned => throw ((Refusal.abandoned f.name).error f.name)
  | _ =>
    match s.module.verifyFunction f with
    | .error err =>
      poison f.name
      throw err
    | .ok () =>
      if !f.isExternal then
        build (Draft.modifyFunction e.index fun g => { g with stage := .verified })

/-- Abandons a function that is not verified, with its body. -/
def abandonFunction (function : FunctionId) : SessionM Unit := do
  query ensureUsable
  let e ← query fun s => s.entry function
  let s ← get
  let f := s.functionAt e.index
  if f.stage = .verified then throw ((Refusal.alreadyVerified f.name).error f.name)
  build (Draft.modifyFunction e.index fun g => { g with stage := .abandoned, blocks := [] })
  if s.draft.cursor.any fun c => c.function = e.index then build Draft.clearCursor

/-- Ends a function around a top-level expression and verifies it. -/
def finishTopLevel (wrapper : FunctionId) (value : ValueId) : SessionM Unit := do
  endFunction wrapper value
  verifyFunction wrapper

/-- Refuses to wrap a value of a function. -/
def checkNotLocal (s : Session) (v : ValueId) : Except Error Unit := do
  let e ← s.value v
  match e.owner with
  | some owner => throw ((Refusal.localValue v).error (s.functionAt owner).name)
  | none => pure ()

/-- Makes a function that returns a constant. -/
def wrapTopLevel (value : ValueId) : SessionM FunctionId := do
  query ensureUsable
  query fun s => s.checkNotLocal value
  let wrapper ← beginTopLevel
  finishTopLevel wrapper value
  pure wrapper

/-! ### Closing -/

/-- The passes that finish the module of a session. -/
def pipeline (s : Session) : Pipeline :=
  let p := match s.target.effort with
    | .aggressive => Pipeline.standard
    | .none => Pipeline.empty
  { p with verifyEach := s.options.verifyEach }

/-- Marks a function as verified, unless it is external. -/
def markVerified (f : Function) : Function :=
  if f.isExternal then f else { f with stage := .verified }

/-- Finishes the module: drops what was abandoned, runs the passes and marks the functions as
verified. -/
def close (s : Session) : Except Error Module := do
  s.ensureUsable
  let (result, m) := s.pipeline.run s.module.dropAbandoned
  result
  pure { m with functions := m.functions.map markVerified }

end StraightLine.Session
