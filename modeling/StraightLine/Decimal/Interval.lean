/-!
# The reals that a double stands for

A positive finite double is the rounding of every real in an interval around it: from halfway to
the double below to halfway to the double above. The interval is kept exactly, as three natural
numbers in a unit that is a power of two, so that a decimal can be tested against it without any
rounding.
-/

namespace StraightLine.Decimal

/-- The interval of the reals that round to a positive finite double, in units of `2 ^ unit`. -/
structure Interval where
  /-- Halfway to the double below. -/
  low : Nat
  /-- The double itself. -/
  value : Nat
  /-- Halfway to the double above. -/
  high : Nat
  /-- The exponent of the unit. -/
  unit : Int
  /-- Whether the two ends round to the double as well. -/
  closed : Bool

/-- The interval of the positive finite double with these bits. Below a power of two the doubles
lie twice as close, so the lower half of the interval is half as wide there. -/
def Interval.ofBits (bits : UInt64) : Interval :=
  let exponent := ((bits >>> 52) &&& 0x7FF).toNat
  let fraction := (bits &&& 0xFFFFFFFFFFFFF).toNat
  let mantissa := if exponent = 0 then fraction else 0x10000000000000 + fraction
  { low := if fraction = 0 ∧ 1 < exponent then 4 * mantissa - 1 else 4 * mantissa - 2
    value := 4 * mantissa
    high := 4 * mantissa + 2
    unit := (max exponent 1 : Nat) - 1077
    closed := mantissa % 2 = 0 }

/-- The denominator that `n` units and a multiple of `10 ^ grid` are both brought to. -/
def Interval.denominator (x : Interval) (grid : Int) : Nat :=
  Nat.pow 2 (-x.unit).toNat * Nat.pow 10 grid.toNat

/-- The numerator of `n` units over `10 ^ grid`. -/
def Interval.numerator (x : Interval) (n : Nat) (grid : Int) : Nat :=
  n * Nat.pow 2 x.unit.toNat * Nat.pow 10 (-grid).toNat

/-- Whether `digits * 10 ^ grid` rounds to the double. -/
def Interval.contains (x : Interval) (digits : Nat) (grid : Int) : Bool :=
  let d := digits * x.denominator grid
  let low := x.numerator x.low grid
  let high := x.numerator x.high grid
  (low < d && d < high) || (x.closed && (low = d || d = high))

/-- The number of digits of a natural number written in base ten. -/
def digitCount (n : Nat) : Nat := (Nat.toDigits 10 n).length

/-- The least `k` such that the double is below `10 ^ k`. -/
def Interval.magnitude (x : Interval) : Int :=
  let n := x.numerator x.value 0
  let d := x.denominator 0
  if d ≤ n then digitCount (n / d) else 1 - (digitCount (d / n) : Int)

end StraightLine.Decimal
