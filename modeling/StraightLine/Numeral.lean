/-!
# Numerals

A double as a program or a module has it: by its bits. Two numerals are the same when they have
the same bits, so that the two zeros differ, and so do the many bit patterns that are not numbers.
A `Float` is what a numeral stands for, and one `Float` stands for all that is not a number.

What is *not* modelled: the sign and the payload of a result that is not a number. Its numeral is
the quiet pattern with neither.
-/

namespace StraightLine

/-- A double by its bits. -/
structure Numeral where
  bits : UInt64
  deriving DecidableEq, Repr

namespace Numeral

/-- The double that a numeral stands for. -/
def value (c : Numeral) : Float := .ofBits c.bits

/-- The numeral of a double. -/
def ofFloat (x : Float) : Numeral := ⟨x.toBits⟩

/-- A number with a point is written as for doubles. -/
instance : OfScientific Numeral where
  ofScientific m s e := ofFloat (OfScientific.ofScientific m s e)

end Numeral

end StraightLine
