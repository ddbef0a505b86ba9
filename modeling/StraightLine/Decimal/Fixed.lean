import StraightLine.Decimal.Layout

/-!
# A fixed number of places

The exact value of a double rounded to a number of decimal places, a half going to the even
neighbour.
-/

namespace StraightLine.Decimal

/-- The natural number nearest to `n / d`, the even one of two that are equally near. -/
def roundQuotient (n d : Nat) : Nat :=
  let q := n / d
  let twice := 2 * (n % d)
  if twice < d then q
  else if d < twice then q + 1
  else if q % 2 = 0 then q else q + 1

/-- The digits of `n / 10 ^ places`, with at least one of them before the point. -/
def withPlaces (n places : Nat) : List Char :=
  let ds := Nat.toDigits 10 n
  let padded := zeros (places + 1 - ds.length) ++ ds
  let whole := padded.length - places
  padded.take whole ++ '.' :: padded.drop whole

/-- The text of a double with a fixed number of places. -/
def fixed (places : Nat) (x : Float) : String :=
  if x.isNaN then "NaN"
  else if x.isInf then if isNegative x then "-inf" else "inf"
  else
    let v := Interval.ofBits (x.toBits &&& 0x7FFFFFFFFFFFFFFF)
    let unit : Int := -places
    let text := withPlaces (roundQuotient (v.numerator v.value unit) (v.denominator unit)) places
    String.ofList (if isNegative x then '-' :: text else text)

end StraightLine.Decimal
