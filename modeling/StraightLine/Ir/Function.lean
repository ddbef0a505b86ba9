import StraightLine.Ir.Instr

/-!
# Blocks and functions

A function has numbered parameters and blocks of instructions, or is external and has no body. It
moves through stages while it is built; an abandoned function is kept so that the places of the
others do not change, and counts for nothing else.
-/

namespace StraightLine

/-- A labelled list of instructions. -/
structure Block where
  id : Nat
  name : String
  instrs : List Instr := []
  deriving DecidableEq, Repr

namespace Block

/-- Whether the last instruction ends the block. -/
def isTerminated (b : Block) : Bool := b.instrs.getLast?.any Instr.isTerminator

/-- The label line and a line for each instruction. -/
def text (b : Block) : String :=
  b.name ++ ":\n" ++ String.join (b.instrs.map fun i => "  " ++ i.text ++ "\n")

end Block

/-- How far the building of a function has come. -/
inductive Stage where
  | declared
  | building
  | terminated
  | verified
  | abandoned
  deriving DecidableEq, Repr

/-- The word for a stage. -/
def Stage.text : Stage → String
  | declared => "declared"
  | building => "building"
  | terminated => "terminated"
  | verified => "verified"
  | abandoned => "abandoned"

/-- A function of doubles. -/
structure Function where
  name : String
  returnType : Ty := .double
  /-- The temps of the parameters, with their names. -/
  params : List (Nat × String) := []
  blocks : List Block := []
  /-- Whether the body is provided by the host. -/
  isExternal : Bool := false
  stage : Stage := .declared
  deriving DecidableEq, Repr

namespace Function

/-- Names numbered from `n` on. -/
def numberFrom : Nat → List String → List (Nat × String)
  | _, [] => []
  | n, x :: xs => (n, x) :: numberFrom (n + 1) xs

/-- A function without a body whose parameters are the first temps. -/
def declare (name : String) (params : List String) : Function :=
  { name := name, params := numberFrom 0 params }

/-- A function that the host provides. -/
def external (name : String) (arity : Nat) : Function :=
  { declare name ((List.range arity).map fun i => "arg" ++ toString i) with isExternal := true }

/-- The number of parameters. -/
def arity (f : Function) : Nat := f.params.length

/-- Whether the function has not been abandoned. -/
def isLive (f : Function) : Bool := f.stage ≠ .abandoned

/-- The place of the first parameter with a name. -/
def paramIndex? (f : Function) (name : String) : Option Nat :=
  f.params.findIdx? fun p => p.2 = name

/-- The first block with a label. -/
def block? (f : Function) (id : Nat) : Option Block := f.blocks.find? fun b => b.id = id

/-- The block that execution starts in. -/
def entry? (f : Function) : Option Block := f.blocks.head?

/-- Puts a block behind the others. -/
def addBlock (f : Function) (b : Block) : Function := { f with blocks := f.blocks ++ [b] }

/-- Puts an instruction at the end of the first of some blocks with a label. -/
def appendToBlocks (id : Nat) (i : Instr) : List Block → List Block
  | [] => []
  | b :: rest =>
    if b.id = id then { b with instrs := b.instrs ++ [i] } :: rest
    else b :: appendToBlocks id i rest

/-- Puts an instruction at the end of the first block with a label. -/
def appendTo (f : Function) (id : Nat) (i : Instr) : Function :=
  { f with blocks := appendToBlocks id i f.blocks }

/-- All instructions, block by block. -/
def instrs (f : Function) : List Instr := f.blocks.flatMap Block.instrs

/-- The number of instructions. -/
def size (f : Function) : Nat := f.instrs.length

/-- The function with the instruction list of every block changed. -/
def mapBodies (g : List Instr → List Instr) (f : Function) : Function :=
  { f with blocks := f.blocks.map fun b => { b with instrs := g b.instrs } }

/-- The text of a function: a declaration line, or the definition with its blocks. -/
def text (f : Function) : String :=
  if f.isExternal then
    "declare " ++ f.returnType.text ++ " @" ++ f.name ++ "(" ++
      ", ".intercalate (f.params.map fun _ => "double") ++ ")\n"
  else
    "define " ++ f.returnType.text ++ " @" ++ f.name ++ "(" ++
      ", ".intercalate (f.params.map fun p => "double %" ++ toString p.1) ++ ") \x7b" ++
      (if f.params.isEmpty then "" else " ; " ++ ", ".intercalate (f.params.map Prod.snd)) ++
      "\n" ++ String.join (f.blocks.map Block.text) ++ "\x7d\n"

end Function

end StraightLine
