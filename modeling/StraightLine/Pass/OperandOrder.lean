import StraightLine.Pass.Peephole

/-!
# Order of operands

The operands of an operation that commutes are put in one order: temps by number, then operands
that are undefined, then constants.
-/

namespace StraightLine.OperandOrder

/-- The place of an operand in the order. -/
def rank : Operand → Nat × Nat
  | .temp id => (0, id)
  | .undef => (1, 0)
  | _ => (2, 0)

/-- Whether the first operand belongs after the second. -/
def isAfter (a b : Operand) : Bool :=
  (rank b).1 < (rank a).1 || ((rank b).1 = (rank a).1 && (rank b).2 < (rank a).2)

/-- Exchanges operands that are out of order. -/
def rule : Instr → Option Instr
  | .arith r op a b => if op.commutes && isAfter a b then some (.arith r op b a) else none
  | _ => none

/-- Puts operands in order; also says whether any were not. -/
def run (f : Function) : Function × Bool := f.peephole rule

end StraightLine.OperandOrder
