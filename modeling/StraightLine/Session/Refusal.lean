import StraightLine.Ir.Function
import StraightLine.Session.Handle

/-!
# Refusals

The reasons for which a session refuses to build something. A refusal is a construction error of
the function that it concerns.
-/

namespace StraightLine

/-- Why a session refuses a request. -/
inductive Refusal where
  | noCursor
  | notBuilding (function : String) (stage : Stage)
  | foreignValue (value : ValueId) (owner : String)
  | foreignSlot (variableName owner : String)
  | notDouble (value : ValueId) (found : Ty)
  | notFlag (value : ValueId) (found : Ty)
  | reservedName (name : String)
  | emptyName
  | takenName (name : String)
  | repeatedParam (param : String)
  | noParam (function : String) (count index : Nat)
  | noNamedParam (function param : String)
  | cannotEnd (function : String) (stage : Stage)
  | abandoned (function : String)
  | alreadyVerified (function : String)
  | wrongArity (function : String) (expected given : Nat)
  | localValue (value : ValueId)
  | noVariable (name : String)
  | constant (name : String)
  | noFunction (name : String)
  | returnCount (function : String)
  | unreachable (function : String)
  deriving DecidableEq, Repr

namespace Refusal

/-- A refusal in words. -/
def text : Refusal → String
  | noCursor => "No function is being built"
  | notBuilding f s =>
    "Function " ++ f ++ " is " ++ s.text ++ " and cannot take more instructions"
  | foreignValue v owner => v.text ++ " belongs to function " ++ owner
  | foreignSlot n owner => "Variable " ++ n ++ " belongs to function " ++ owner
  | notDouble v t => "Expected a double operand, but " ++ v.text ++ " is " ++ t.text
  | notFlag v t => "Expected an i1 operand, but " ++ v.text ++ " is " ++ t.text
  | reservedName n => "Function name " ++ n ++ " is reserved for top-level expressions"
  | emptyName => "Function name is empty"
  | takenName n => "Function " ++ n ++ " already exists!"
  | repeatedParam p => "Duplicate parameter " ++ p
  | noParam f count i =>
    "Function " ++ f ++ " has " ++ toString count ++ " parameter(s), no parameter " ++ toString i
  | noNamedParam f p => "Function " ++ f ++ " has no parameter " ++ p
  | cannotEnd f s =>
    "Cannot end function " ++ f ++ ": it is " ++ s.text ++ " or not under the cursor"
  | abandoned f => "Function " ++ f ++ " was abandoned"
  | alreadyVerified f => "Cannot abandon verified function " ++ f
  | wrongArity f expected given =>
    "Incorrect number of arguments passed to " ++ f ++ ". Expected " ++ toString expected ++
      ", but got " ++ toString given
  | localValue v => v.text ++ " is local to another function and cannot be wrapped"
  | noVariable n => "No variable " ++ n ++ ". Consider creating it"
  | constant n => "Cannot assign to const variable " ++ n
  | noFunction n => "No function " ++ n ++ ". Define it before calling"
  | returnCount f => "function " ++ f ++ " returns multiple values or returns nothing"
  | unreachable f => "unreachable code in function " ++ f

/-- A refusal as an error of a function. -/
def error (r : Refusal) (function : String) : Error := .construction function r.text

end Refusal

end StraightLine
