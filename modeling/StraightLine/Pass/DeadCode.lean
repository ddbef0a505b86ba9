import StraightLine.Ir.Function

/-!
# Dead code

An instruction that does nothing but define a temp is removed when no instruction reads the temp.
That can leave other temps unread, so it is repeated until nothing is removed. Calls stay, since
what they call may write.
-/

namespace StraightLine.DeadCode

/-- The temps that a function reads. -/
def used (f : Function) : List Nat := f.instrs.flatMap Instr.uses

/-- Whether an instruction only defines a temp that is not read. -/
def isDead (used : List Nat) (i : Instr) : Bool :=
  i.isPure && i.result?.any fun r => r ∉ used

/-- Removes the instructions that are dead now. -/
def sweep (f : Function) : Function :=
  let read := used f
  f.mapBodies (·.filter fun i => !isDead read i)

/-- Sweeps until nothing is removed. -/
def sweepAll (f : Function) : Function :=
  if (sweep f).size < f.size then sweepAll (sweep f) else f
termination_by f.size

/-- Removes dead code; also says whether there was any. -/
def run (f : Function) : Function × Bool := (sweepAll f, (sweep f).size < f.size)

end StraightLine.DeadCode
