import StraightLine.Ir.Function

/-!
# Slots that are never read

A slot that no instruction loads from is removed with every store into it.
-/

namespace StraightLine.UnreadSlots

/-- The slot that an instruction loads from. -/
def loaded? : Instr → Option Nat
  | .load _ (.temp p) _ => some p
  | _ => none

/-- The slots that are made and never loaded from. -/
def slots (is : List Instr) : List Nat :=
  (is.filterMap Instr.made?).filter fun s => s ∉ is.filterMap loaded?

/-- Whether an instruction does anything else than make or fill one of these slots. -/
def isKept (dead : List Nat) : Instr → Bool
  | .alloca r _ _ => r ∉ dead
  | .store _ (.temp p) => p ∉ dead
  | _ => true

/-- Removes the slots that are never read; also says whether there were any. -/
def run (f : Function) : Function × Bool :=
  let dead := slots f.instrs
  if dead.isEmpty then (f, false) else (f.mapBodies (·.filter (isKept dead)), true)

end StraightLine.UnreadSlots
