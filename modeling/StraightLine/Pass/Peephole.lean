import StraightLine.Ir.Function

/-!
# Peepholes

Some passes change instructions one at a time, without looking at the others.
-/

namespace StraightLine

/-- Changes every instruction that a rule applies to; also says whether it applied to any. -/
def Function.peephole (rule : Instr → Option Instr) (f : Function) : Function × Bool :=
  (f.mapBodies (·.map fun i => (rule i).getD i), f.instrs.any fun i => (rule i).isSome)

end StraightLine
