import StraightLine.Ir.Function

/-!
# Modules

A module is a list of functions under a name. Only its live functions are looked up, counted and
shown.
-/

namespace StraightLine

/-- A unit of code. -/
structure Module where
  name : String
  triple : Option String := none
  functions : List Function := []
  deriving DecidableEq, Repr

namespace Module

/-- The name of a module that is not given another one. -/
def defaultName : String := "pitusya module"

/-- The functions that have not been abandoned, in order. -/
def live (m : Module) : List Function := m.functions.filter Function.isLive

/-- Whether a function is live and has a name. -/
def isNamed (name : String) (f : Function) : Bool := f.isLive && f.name = name

/-- The first live function with a name. -/
def find? (m : Module) (name : String) : Option Function := m.functions.find? (isNamed name)

/-- The place of the first live function with a name. -/
def index? (m : Module) (name : String) : Option Nat := m.functions.findIdx? (isNamed name)

/-- The module with one more function at the end. -/
def add (m : Module) (f : Function) : Module := { m with functions := m.functions ++ [f] }

/-- The module with the function at a place changed. -/
def modify (m : Module) (index : Nat) (g : Function → Function) : Module :=
  { m with functions := m.functions.modify index g }

/-- The module without its abandoned functions. -/
def dropAbandoned (m : Module) : Module := { m with functions := m.live }

/-- The number of instructions of the live functions. -/
def size (m : Module) : Nat := (m.live.map Function.size).foldr (· + ·) 0

/-- The text of a module: its name, its triple if it has one, and its live functions, each after
an empty line. -/
def text (m : Module) : String :=
  "; ModuleID = '" ++ m.name ++ "'\n" ++
    (match m.triple with
      | some t => "target triple = \"" ++ t ++ "\"\n"
      | none => "") ++
    String.join (m.live.map fun f => "\n" ++ f.text)

end Module

end StraightLine
