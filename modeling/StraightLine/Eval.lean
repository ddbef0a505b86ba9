import StraightLine.Decimal.Fixed
import StraightLine.Error
import StraightLine.Ir.Module

/-!
# Evaluation

Verified functions are run directly. A body is one list of instructions, so the only repetition is
by calls, and those may nest at most `maxDepth` deep: evaluation is recursion on the number of
nested calls that are left. External functions are the four host functions. What they write is kept
also when the evaluation fails.
-/

namespace StraightLine.Eval

/-- How deep calls may nest. -/
def maxDepth : Nat := 256

/-- The value of a temp while a function runs. -/
inductive Cell where
  | float (x : Float)
  | bool (b : Bool)
  | slot (index : Nat)
  deriving DecidableEq, Repr

/-- The text of a cell in a message. -/
def Cell.text : Cell → String
  | float x => "Float(" ++ floatText x ++ ")"
  | bool b => "Bool(" ++ (if b then "true" else "false") ++ ")"
  | slot i => "Slot(" ++ toString i ++ ")"

/-- The sorts of cells that an instruction can ask for. -/
inductive Shape where
  | double
  | flag
  | slot
  deriving DecidableEq, Repr

/-- The words for a sort of cell in a message. -/
def Shape.text : Shape → String
  | double => "a double"
  | flag => "an i1"
  | slot => "a slot"

/-- Why a function cannot be run to its end. -/
inductive Fault where
  | noFunction (name : String)
  | arity (expected given : Nat)
  | notVerified (name : String) (stage : Stage)
  | depthExceeded
  | noHost (name : String) (given : Nat)
  | noBody
  | noReturn
  | noValue (id : Nat)
  | noMeaning (operand : Operand)
  | wrongShape (operand : Operand) (found : Cell) (expected : Shape)
  | unstored (ptr : Operand)
  | noSlot (index count : Nat)
  | notCallable (operand : Operand)
  deriving DecidableEq, Repr

/-- A fault in words. -/
def Fault.text : Fault → String
  | noFunction n => "No function " ++ n
  | arity expected given =>
    "Expected " ++ toString expected ++ " argument(s), but got " ++ toString given
  | notVerified n s =>
    "Function " ++ n ++ " is " ++ s.text ++ " and cannot run before verification"
  | depthExceeded => "Call depth exceeded " ++ toString maxDepth
  | noHost n k => "No host function " ++ n ++ " taking " ++ toString k ++ " argument(s)"
  | noBody => "function has no body"
  | noReturn => "entry block ended without a return"
  | noValue id => "%" ++ toString id ++ " has no value"
  | noMeaning v => v.text ++ " cannot be evaluated"
  | wrongShape v found expected =>
    v.text ++ " is " ++ found.text ++ ", expected " ++ expected.text
  | unstored p => "load from " ++ p.text ++ " before any store"
  | noSlot i n =>
    "index out of bounds: the len is " ++ toString n ++ " but the index is " ++ toString i
  | notCallable v => "cannot call " ++ v.text

/-- A fault and the function that was running. -/
structure Failure where
  function : String
  fault : Fault
  deriving DecidableEq, Repr

/-- A failure as an error. -/
def Failure.error (e : Failure) : Error := .execution e.function e.fault.text

/-- A computation that writes text and may fail; what it has written stays. -/
abbrev Run := EStateM Failure String

/-! ### Host functions -/

/-- The functions that the host provides, with their arities. -/
def hostLibrary : List (String × Nat) := [("print", 1), ("putchar", 1), ("max", 2), ("min", 2)]

/-- The larger of two doubles; a side that is not a number gives way to the other. -/
def larger (a b : Float) : Float :=
  if a.isNaN then b else if b.isNaN then a else if a < b then b else a

/-- The smaller of two doubles; a side that is not a number gives way to the other. -/
def smaller (a b : Float) : Float :=
  if a.isNaN then b else if b.isNaN then a else if b < a then b else a

/-- The character whose code is a double cut off to a byte. -/
def charOf (x : Float) : Char := Char.ofNat x.toUInt8.toNat

/-- Writes text. -/
def write (s : String) : Run Unit := modify (· ++ s)

/-- Calls a host function. -/
def host (name : String) (args : List Float) : Run Float :=
  match name, args with
  | "print", [x] => do
    write (Decimal.fixed 2 x ++ "\n")
    pure x
  | "putchar", [x] => do
    write (String.singleton (charOf x))
    pure x
  | "max", [a, b] => pure (larger a b)
  | "min", [a, b] => pure (smaller a b)
  | _, _ => throw ⟨name, .noHost name args.length⟩

/-! ### Frames -/

/-- The values of a running function: its temps, the latest first, and the contents of its slots in
the order of their making. -/
structure Frame where
  temps : List (Nat × Cell) := []
  slots : List (Option Float) := []
  deriving DecidableEq, Repr

namespace Frame

/-- Gives a temp a value. -/
def set (fr : Frame) (id : Nat) (c : Cell) : Frame := { fr with temps := (id, c) :: fr.temps }

/-- Makes an empty slot and gives a temp its address. -/
def allocate (fr : Frame) (id : Nat) : Frame :=
  { temps := (id, .slot fr.slots.length) :: fr.temps, slots := fr.slots ++ [none] }

/-- Writes a slot. -/
def store (fr : Frame) (slot : Nat) (x : Float) : Frame :=
  { fr with slots := fr.slots.set slot (some x) }

/-- The contents of a slot. -/
def contents? (fr : Frame) (slot : Nat) : Option Float := fr.slots[slot]?.join

/-- Refuses the place of a slot that was never made. -/
def checkSlot (fr : Frame) (slot : Nat) : Except Fault Unit :=
  if slot < fr.slots.length then .ok () else .error (.noSlot slot fr.slots.length)

/-- The value of an operand. -/
def cell (fr : Frame) (v : Operand) : Except Fault Cell :=
  match v with
  | .temp id =>
    match fr.temps.lookup id with
    | some c => .ok c
    | none => .error (.noValue id)
  | .float c => .ok (.float c.value)
  | .bool b => .ok (.bool b)
  | .string _ | .function _ | .undef => .error (.noMeaning v)

/-- The value of an operand that must be a double. -/
def float (fr : Frame) (v : Operand) : Except Fault Float := do
  match ← fr.cell v with
  | .float x => pure x
  | c => throw (.wrongShape v c .double)

/-- The value of an operand that must be a comparison result. -/
def flag (fr : Frame) (v : Operand) : Except Fault Bool := do
  match ← fr.cell v with
  | .bool b => pure b
  | c => throw (.wrongShape v c .flag)

/-- The value of an operand that must be the address of a slot. -/
def slot (fr : Frame) (v : Operand) : Except Fault Nat := do
  match ← fr.cell v with
  | .slot i => pure i
  | c => throw (.wrongShape v c .slot)

/-- The frame that a call starts with. -/
def ofArgs (params : List (Nat × String)) (args : List Float) : Frame :=
  { temps := ((params.zip args).map fun p => (p.1.1, Cell.float p.2)).reverse }

/-- The effect of an instruction that neither calls nor returns. -/
def step (fr : Frame) : Instr → Except Fault Frame
  | .alloca r _ _ => pure (fr.allocate r)
  | .load r p _ => do
    let s ← fr.slot p
    fr.checkSlot s
    match fr.contents? s with
    | some x => pure (fr.set r (.float x))
    | none => throw (.unstored p)
  | .store v p => do
    let s ← fr.slot p
    let x ← fr.float v
    fr.checkSlot s
    pure (fr.store s x)
  | .arith r op a b => do
    let x ← fr.float a
    let y ← fr.float b
    pure (fr.set r (.float (op.eval x y)))
  | .compare r p a b => do
    let x ← fr.float a
    let y ← fr.float b
    pure (fr.set r (.bool (p.eval x y)))
  | .widen r v => do
    let b ← fr.flag v
    pure (fr.set r (.float (StraightLine.widen b)))
  | .call _ _ _ | .ret _ => pure fr

end Frame

/-! ### Functions -/

/-- Lets a fault of the running function end the evaluation. -/
def within (name : String) {α : Type} : Except Fault α → Run α
  | .ok a => pure a
  | .error e => throw ⟨name, e⟩

/-- Runs instructions in a frame, where `callee` runs the functions that they call. -/
def body (callee : String → List Float → Run Float) (name : String) :
    Frame → List Instr → Run Float
  | _, [] => throw ⟨name, .noReturn⟩
  | fr, .ret v :: _ => within name (fr.float v)
  | fr, .call r f args :: rest =>
    match f with
    | .function g => do
      let xs ← within name (args.mapM fr.float)
      let x ← callee g xs
      body callee name (fr.set r (.float x)) rest
    | _ => throw ⟨name, .notCallable f⟩
  | fr, i :: rest => do
    let fr ← within name (fr.step i)
    body callee name fr rest

/-- Runs the entry block of a function. -/
def enter (callee : String → List Float → Run Float) (f : Function) (args : List Float) :
    Run Float :=
  match f.entry? with
  | some b => body callee f.name (Frame.ofArgs f.params args) b.instrs
  | none => throw ⟨f.name, .noBody⟩

/-- Calls a function by name, where calls may still nest `depth` deep. -/
def callAt (m : Module) (depth : Nat) (name : String) (args : List Float) : Run Float :=
  match m.find? name with
  | none => throw ⟨name, .noFunction name⟩
  | some f =>
    if f.arity ≠ args.length then throw ⟨name, .arity f.arity args.length⟩
    else if f.isExternal then host name args
    else if f.stage ≠ .verified then throw ⟨name, .notVerified name f.stage⟩
    else match depth with
      | 0 => throw ⟨name, .depthExceeded⟩
      | d + 1 => enter (callAt m d) f args

/-- What a call gives and the text that it writes. -/
def call (m : Module) (name : String) (args : List Float) : Except Failure Float × String :=
  match callAt m maxDepth name args "" with
  | .ok x out => (.ok x, out)
  | .error e out => (.error e, out)

end StraightLine.Eval
