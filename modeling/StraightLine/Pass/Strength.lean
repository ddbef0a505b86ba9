import StraightLine.Pass.Peephole

/-!
# Cheaper operations

Subtracting a constant is adding its negation, and dividing by a power of two is multiplying by its
reciprocal, as long as both are normal doubles: the reciprocal is then exact.
-/

namespace StraightLine.Strength

/-- Whether a double is neither zero, nor subnormal, nor infinite, nor something else than a
number. -/
def isNormal (x : Float) : Bool :=
  let exponent := (x.toBits >>> 52) &&& 0x7FF
  exponent ≠ 0 && exponent ≠ 0x7FF

/-- The reciprocal of a double, if it is a normal power of two with a normal reciprocal. -/
def exactReciprocal (c : Float) : Option Float :=
  if isNormal c && c.toBits &&& 0xFFFFFFFFFFFFF = 0 then
    let r := 1.0 / c
    if isNormal r then some r else none
  else none

/-- Changes subtraction and division by a constant. -/
def rule : Instr → Option Instr
  | .arith r .sub a (.float c) =>
    if c.value.isNaN then none else some (.arith r .add a (.constant (-c.value)))
  | .arith r .div a (.float c) =>
    (exactReciprocal c.value).map fun d => .arith r .mul a (.constant d)
  | _ => none

/-- Changes what has a cheaper form; also says whether there was any. -/
def run (f : Function) : Function × Bool := f.peephole rule

end StraightLine.Strength
