/-!
# Arithmetic and comparison

The four operations on doubles, and the six ordered comparisons, which are false as soon as one
side is not a number.
-/

namespace StraightLine

/-- The operations on two doubles. -/
inductive Arith where
  | add
  | sub
  | mul
  | div
  deriving DecidableEq, Repr

namespace Arith

/-- The value of an operation. -/
def eval : Arith → Float → Float → Float
  | add, a, b => a + b
  | sub, a, b => a - b
  | mul, a, b => a * b
  | div, a, b => a / b

/-- Whether the two sides may be exchanged. -/
def commutes : Arith → Bool
  | add | mul => true
  | sub | div => false

/-- The name of an operation in the text of an instruction. -/
def text : Arith → String
  | add => "fadd"
  | sub => "fsub"
  | mul => "fmul"
  | div => "fdiv"

end Arith

/-- The ordered comparisons of two doubles. -/
inductive Predicate where
  | oeq
  | one
  | olt
  | ole
  | ogt
  | oge
  deriving DecidableEq, Repr

namespace Predicate

/-- Whether a comparison holds. -/
def eval (p : Predicate) (a b : Float) : Bool :=
  if a.isNaN || b.isNaN then false
  else match p with
    | oeq => a == b
    | one => a != b
    | olt => a < b
    | ole => a ≤ b
    | ogt => b < a
    | oge => b ≤ a

/-- The name of a comparison in the text of an instruction. -/
def text : Predicate → String
  | oeq => "oeq"
  | one => "one"
  | olt => "olt"
  | ole => "ole"
  | ogt => "ogt"
  | oge => "oge"

end Predicate

/-- The double that a comparison result widens to. -/
def widen (b : Bool) : Float := if b then 1.0 else 0.0

end StraightLine
