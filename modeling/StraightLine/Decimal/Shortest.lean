import StraightLine.Decimal.Interval

/-!
# The fewest digits that read back

A double is written with as few significant digits as still round to it, and among the decimals of
that length with the nearest one. Decimals of `n` digits form a grid, and the only two that matter
are the neighbours of the double on it; the grids are tried from one digit upwards.
-/

namespace StraightLine.Decimal

/-- Where the choice falls between two decimals that are equally near. -/
inductive Tie where
  /-- To the one with the even last digit. -/
  | even
  /-- To the larger one. -/
  | up
  deriving DecidableEq, Repr

/-- A decimal number `d.ddd * 10 ^ exponent`, by its digits without trailing zeros. -/
structure Digits where
  /-- The digits, the leading one first. -/
  digits : List Char
  /-- The power of ten that the leading digit counts. -/
  exponent : Int
  deriving DecidableEq, Repr

/-- The digits of `n * 10 ^ grid`. -/
def Digits.ofNat (n : Nat) (grid : Int) : Digits :=
  let ds := Nat.toDigits 10 n
  { digits := (ds.reverse.dropWhile (· = '0')).reverse
    exponent := grid + ds.length - 1 }

/-- The neighbour of the double on the grid of step `10 ^ grid` that rounds to it, the nearer one
if both do. -/
def Interval.onGrid (x : Interval) (tie : Tie) (grid : Int) : Option Nat :=
  let n := x.numerator x.value grid
  let d := x.denominator grid
  let below := n / d
  let above := below + 1
  let twice := 2 * (n % d)
  match x.contains below grid, x.contains above grid with
  | false, false => none
  | true, false => some below
  | false, true => some above
  | true, true =>
    if twice < d then some below
    else if d < twice then some above
    else match tie with
      | .up => some above
      | .even => some (if below % 2 = 0 then below else above)

/-- The exact decimal value of the double. -/
def Interval.exact (x : Interval) : Digits :=
  Digits.ofNat (x.value * Nat.pow 2 x.unit.toNat * Nat.pow 5 (-x.unit).toNat) (min x.unit 0)

/-- The nearest of the shortest decimals that round to the double. Seventeen digits are enough for
every double. -/
def Interval.shortest (x : Interval) (tie : Tie) : Digits :=
  let k := x.magnitude
  let found := (List.range 17).findSome? fun n =>
    let grid := k - (n + 1 : Nat)
    (x.onGrid tie grid).map fun d => Digits.ofNat d grid
  found.getD x.exact

end StraightLine.Decimal
