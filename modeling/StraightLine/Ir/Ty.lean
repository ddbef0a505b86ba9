/-!
# Types

The only numbers are doubles. The other types are those of comparison results, of stack slots and
of string constants.
-/

namespace StraightLine

/-- The types of operands. -/
inductive Ty where
  /-- A 64-bit floating-point number. -/
  | double
  /-- The result of a comparison. -/
  | i1
  /-- A byte. -/
  | i8
  /-- The address of something. -/
  | ptr (target : Ty)
  /-- A row of equal things. -/
  | array (size : UInt64) (element : Ty)
  deriving DecidableEq, Repr

namespace Ty

/-- The type of a string constant of `n` bytes. -/
def bytes (n : Nat) : Ty := array (UInt64.ofNat n) i8

/-- The type of the address of a variable. -/
def slot : Ty := ptr double

/-- The text of a type: a star behind the target, or the size and the element in brackets. -/
def text : Ty → String
  | double => "double"
  | i1 => "i1"
  | i8 => "i8"
  | ptr t => t.text ++ "*"
  | array n t => "[" ++ toString n.toNat ++ " x " ++ t.text ++ "]"

end Ty

end StraightLine
