import StraightLine.Ir.Function

/-!
# Substitutions

A pass that removes the definition of a temp says what stands in its place. A substitution holds
these replacements, the latest first, and is applied to operands in one step: what it puts in is
not looked up again.
-/

namespace StraightLine

/-- Operands that stand in the place of temps, the latest first. -/
abbrev Subst := List (Nat × Operand)

namespace Subst

/-- Replaces an operand. -/
def operand (s : Subst) (v : Operand) : Operand :=
  match v with
  | .temp id => (s.lookup id).getD v
  | _ => v

/-- Replaces every operand of an instruction. -/
def instr (s : Subst) (i : Instr) : Instr := i.mapOperands s.operand

/-- Replaces every operand of a function. -/
def function (s : Subst) (f : Function) : Function := f.mapBodies (·.map s.instr)

end Subst

end StraightLine
