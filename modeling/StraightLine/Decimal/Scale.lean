/-!
# Reading a decimal

A decimal is read as a significand times a power of ten. The significand is a whole number of at
most 64 bits: digits that do not fit are counted, if they stand before the point, or left out. It
becomes a double, and that double is multiplied or divided by the power of ten. Each of the two
steps rounds, so the reading can differ from the nearest double in the last place when the
significand has more than 53 bits or the power of ten is inexact.
-/

namespace StraightLine.Decimal

/-- The greatest significand. -/
def maxSignificand : Nat := UInt64.size - 1

/-- The greatest exponent whose power of ten is a finite double. -/
def maxPower : Nat := 308

/-- The double nearest to a power of ten. -/
def power (e : Nat) : Float := Float.ofScientific 1 false e

/-- A double divided by `10 ^ e`, in steps that are finite doubles. -/
def scaleDown (x : Float) (e : Nat) : Float :=
  if e ≤ maxPower then x / power e
  else if x == 0 then x
  else scaleDown (x / power maxPower) (e - maxPower)
  termination_by e
  decreasing_by simp only [maxPower] at *; omega

/-- A double multiplied by `10 ^ e`, unless the product is too large for a double. -/
def scaleUp (x : Float) (e : Nat) : Option Float :=
  if e ≤ maxPower then
    let y := x * power e
    if y.isInf then none else some y
  else if x == 0 then some x
  else none

/-- The double for `significand * 10 ^ exponent`, unless it is too large. -/
def scale (significand : Nat) (exponent : Int) : Option Float :=
  let x := Float.ofScientific significand false 0
  if exponent < 0 then some (scaleDown x exponent.natAbs) else scaleUp x exponent.natAbs

/-- A significand under construction and the power of ten it is to be scaled by. -/
structure Significand where
  /-- The digits taken so far. -/
  value : Nat
  /-- The power of ten that they count. -/
  exponent : Int
  deriving DecidableEq, Repr

/-- The value of a decimal digit. -/
def digitValue (c : Char) : Nat := c.toNat - '0'.toNat

/-- Takes the digits before the point: from the first that does not fit on, they only count. -/
def Significand.whole : Significand → List Char → Significand
  | s, [] => s
  | s, c :: rest =>
    let v := s.value * 10 + digitValue c
    if v ≤ maxSignificand then Significand.whole { s with value := v } rest
    else { s with exponent := s.exponent + (rest.length + 1 : Nat) }

/-- Takes the digits after the point, up to the first that does not fit. -/
def Significand.fraction : Significand → List Char → Significand
  | s, [] => s
  | s, c :: rest =>
    let v := s.value * 10 + digitValue c
    if v ≤ maxSignificand then
      Significand.fraction { value := v, exponent := s.exponent - 1 } rest
    else s

/-- The natural number that a list of digits writes. -/
def readDigits (ds : List Char) : Nat := ds.foldl (fun n c => n * 10 + digitValue c) 0

end StraightLine.Decimal
