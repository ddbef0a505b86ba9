import StraightLine.Error
import StraightLine.Ir.Module
import StraightLine.Naming

/-!
# Drafts

A draft is a module under construction with a cursor at the end of one of its blocks. Instructions
are only ever put at the cursor, and never behind a terminator. Temps and labels are numbered by
counters; a number is taken before the place that it is meant for is looked up, and is not given
back when that fails.

What is *not* modelled: that a temp and a label are words of 32 bits. Both are natural numbers, of
which there is always a next one.
-/

namespace StraightLine

/-- The end of a block: the place of its function in the module, and its label. -/
structure Cursor where
  function : Nat
  block : Nat
  deriving DecidableEq, Repr

/-- A module under construction. -/
structure Draft where
  module : Module
  cursor : Option Cursor := none
  temps : Counter := {}
  labels : Counter := {}
  deriving DecidableEq, Repr

/-- A step of construction. -/
abbrev Building := EStateM Error Draft

namespace Draft

/-- Why a step of construction fails. -/
inductive Fault where
  | noFunction (index : Nat)
  | noBlock (function : String) (block : Nat)
  | noCursor
  | lostFunction
  | lostBlock (function : String)
  | terminated (function : String) (instr : Instr)
  deriving DecidableEq, Repr

/-- A fault as an error. -/
def Fault.error : Fault → Error
  | noFunction i => .internal ("No function at index " ++ toString i)
  | noBlock f b => .internal ("Function " ++ f ++ " has no block " ++ toString b)
  | noCursor => .internal "No insertion point"
  | lostFunction => .internal "Current function not found"
  | lostBlock f => .internal ("Current block not found in " ++ f)
  | terminated f i =>
    .construction f ("Cannot append `" ++ i.text ++ "` after the block terminator")

/-- The function that the cursor is in. -/
def current? (d : Draft) : Option Function :=
  d.cursor.bind fun c => d.module.functions[c.function]?

/-- Takes a number for a temp. -/
def newTemp : Building Nat :=
  modifyGet fun d => (d.temps.take.1, { d with temps := d.temps.take.2 })

/-- Takes a number for a label. -/
def newLabel : Building Nat :=
  modifyGet fun d => (d.labels.take.1, { d with labels := d.labels.take.2 })

/-- Adds a function and gives its place. -/
def addFunction (f : Function) : Building Nat :=
  modifyGet fun d => (d.module.functions.length, { d with module := d.module.add f })

/-- Adds an empty block to a function and gives its label. -/
def appendBlock (function : Nat) (name : String) : Building Nat := do
  let label ← newLabel
  let d ← get
  if function < d.module.functions.length then
    set { d with module := d.module.modify function (·.addBlock { id := label, name := name }) }
    pure label
  else throw (Fault.noFunction function).error

/-- Moves the cursor to the end of a block. The temps are numbered from the arity of its function
on. -/
def position (function block : Nat) : Building Unit := do
  let d ← get
  match d.module.functions[function]? with
  | none => throw (Fault.noFunction function).error
  | some f =>
    if (f.block? block).isNone then throw (Fault.noBlock f.name block).error
    set { d with cursor := some ⟨function, block⟩, temps := ⟨f.arity⟩ }

/-- Takes the cursor away. -/
def clearCursor : Building Unit := modify fun d => { d with cursor := none }

/-- Changes a function. -/
def modifyFunction (function : Nat) (g : Function → Function) : Building Unit :=
  modify fun d => { d with module := d.module.modify function g }

/-- Puts an instruction at the cursor. -/
def append (i : Instr) : Building Unit := do
  let d ← get
  match d.cursor with
  | none => throw Fault.noCursor.error
  | some c =>
    match d.module.functions[c.function]? with
    | none => throw Fault.lostFunction.error
    | some f =>
      match f.block? c.block with
      | none => throw (Fault.lostBlock f.name).error
      | some b =>
        if b.isTerminated then throw (Fault.terminated f.name i).error
        modifyFunction c.function (·.appendTo c.block i)

/-- Puts an instruction that defines a new temp at the cursor, and gives the temp. -/
def define (instr : Nat → Instr) : Building Operand := do
  let r ← newTemp
  append (instr r)
  pure (.temp r)

end Draft

end StraightLine
