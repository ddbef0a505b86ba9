import StraightLine.Decimal.Shortest

/-!
# Layouts of decimal text

The digits of a double are laid out positionally when its exponent is moderate and with an
exponent otherwise. What counts as moderate, how the exponent is marked and what stands for the
values that are no numbers is a `Layout`.
-/

namespace StraightLine.Decimal

/-- The decisions of a format that writes doubles with the fewest digits. -/
structure Layout where
  /-- Which of two equally near decimals is written. -/
  tie : Tie
  /-- The least exponent that is written positionally. -/
  plainFrom : Int
  /-- The least exponent above those that are written positionally. -/
  plainBelow : Int
  /-- The text between the digits and an exponent that is not negative. -/
  mark : String
  /-- The text of a value that is not a number. -/
  nan : String
  /-- The text of positive infinity. -/
  infinity : String
  /-- The text of negative infinity. -/
  negInfinity : String

/-- A run of zeros. -/
def zeros (n : Nat) : List Char := List.replicate n '0'

/-- Digits around a point, with at least one digit on each side of it. -/
def Digits.positional (d : Digits) : List Char :=
  if d.exponent < 0 then
    '0' :: '.' :: (zeros ((-d.exponent).toNat - 1) ++ d.digits)
  else
    let whole := d.exponent.toNat + 1
    let fraction := d.digits.drop whole
    d.digits.take whole ++ zeros (whole - d.digits.length) ++
      '.' :: (if fraction.isEmpty then ['0'] else fraction)

/-- Digits with a point after the first one if there are more, then the exponent. -/
def Digits.scientific (d : Digits) (mark : String) : List Char :=
  let mantissa := match d.digits with
    | [] => []
    | [c] => [c]
    | c :: rest => c :: '.' :: rest
  mantissa ++
    (if d.exponent < 0 then 'e' :: '-' :: Nat.toDigits 10 d.exponent.natAbs
     else mark.toList ++ Nat.toDigits 10 d.exponent.natAbs)

/-- The text of a decimal under a layout. -/
def Layout.digits (l : Layout) (d : Digits) : List Char :=
  if l.plainFrom ≤ d.exponent ∧ d.exponent < l.plainBelow then d.positional
  else d.scientific l.mark

/-- The sign bit of a double. -/
def isNegative (x : Float) : Bool := x.toBits >>> 63 = 1

/-- The text of the magnitude of a finite double. -/
def Layout.magnitude (l : Layout) (x : Float) : List Char :=
  let bits := x.toBits &&& 0x7FFFFFFFFFFFFFFF
  if bits = 0 then "0.0".toList else l.digits ((Interval.ofBits bits).shortest l.tie)

/-- The text of a double under a layout. -/
def Layout.render (l : Layout) (x : Float) : String :=
  if x.isNaN then l.nan
  else if x.isInf then if isNegative x then l.negInfinity else l.infinity
  else String.ofList (if isNegative x then '-' :: l.magnitude x else l.magnitude x)

end StraightLine.Decimal
