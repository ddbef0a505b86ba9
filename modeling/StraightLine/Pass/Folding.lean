import StraightLine.Pass.Scan

/-!
# Folding

An instruction whose operands are constants is replaced by its value, and one that returns an
operand for every double by that operand: adding negative zero, subtracting zero, multiplying or
dividing by one. The constants are compared by their bits, since adding positive zero or
subtracting negative zero changes the sign of a zero.
-/

namespace StraightLine.Folding

/-- The operand that an operation returns whatever the double is. -/
def identity (op : Arith) (a b : Operand) : Option Operand :=
  match op with
  | .add => if b = .constant (-0.0) then some a else if a = .constant (-0.0) then some b else none
  | .sub => if b = .constant 0.0 then some a else none
  | .mul => if b = .constant 1.0 then some a else if a = .constant 1.0 then some b else none
  | .div => if b = .constant 1.0 then some a else none

/-- The operand that an instruction can be replaced by, and the temp it defines. -/
def simplify : Instr → Option (Nat × Operand)
  | .arith r op (.float a) (.float b) => some (r, .constant (op.eval a.value b.value))
  | .arith r op a b => (identity op a b).map (r, ·)
  | .compare r p (.float a) (.float b) => some (r, .bool (p.eval a.value b.value))
  | .widen r (.bool b) => some (r, .constant (widen b))
  | _ => none

/-- What is done with an instruction. -/
def fate (_ : Unit) (i : Instr) : Fate Unit :=
  match simplify i with
  | some (r, v) => .replace r v ()
  | none => .keep ()

/-- Folds what can be folded; also says whether there was any. -/
def run (f : Function) : Function × Bool :=
  let (f, s) := Scan.function fate id () f
  (f, !s.isEmpty)

end StraightLine.Folding
