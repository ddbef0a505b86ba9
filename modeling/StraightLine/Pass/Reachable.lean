import StraightLine.Ir.Function

/-!
# Reachable code

Without branches, execution leaves a block at its first terminator and never reaches a block after
the first.
-/

namespace StraightLine.Reachable

/-- The instructions up to the first terminator. -/
def upToTerminator : List Instr → List Instr
  | [] => []
  | i :: rest => if i.isTerminator then [i] else i :: upToTerminator rest

/-- Removes what cannot be reached; also says whether there was any. -/
def run (f : Function) : Function × Bool :=
  let cut := f.blocks.any fun b => (upToTerminator b.instrs).length < b.instrs.length
  let g := f.mapBodies upToTerminator
  ({ g with blocks := g.blocks.take 1 }, cut || 1 < f.blocks.length)

end StraightLine.Reachable
