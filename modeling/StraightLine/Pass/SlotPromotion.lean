import StraightLine.Pass.Scan

/-!
# Promotion of slots

A slot whose address is used for nothing but loads and stores is removed: the operand stored last
stands for what a load reads, and nothing in particular if there was no store.
-/

namespace StraightLine.SlotPromotion

/-- The temps that an instruction uses for anything but as the address of a load or a store. -/
def exposed : Instr → List Nat
  | .load _ _ _ => []
  | .store v _ => v.temp?.toList
  | i => i.uses

/-- The slots that can be removed. -/
def slots (is : List Instr) : List Nat :=
  (is.filterMap Instr.made?).filter fun s => s ∉ is.flatMap exposed

/-- What is done with an instruction, given the contents of the slots before it. -/
def fate (slots : List Nat) (contents : List (Nat × Operand)) (i : Instr) :
    Fate (List (Nat × Operand)) :=
  match i with
  | .alloca r _ _ => if r ∈ slots then .drop contents else .keep contents
  | .store v (.temp p) => if p ∈ slots then .drop ((p, v) :: contents) else .keep contents
  | .load r (.temp p) _ =>
    if p ∈ slots then .replace r ((contents.lookup p).getD .undef) contents else .keep contents
  | _ => .keep contents

/-- Removes the slots that can be removed; also says whether there were any. -/
def run (f : Function) : Function × Bool :=
  let slots := slots f.instrs
  if slots.isEmpty then (f, false) else ((Scan.function (fate slots) id [] f).1, true)

end StraightLine.SlotPromotion
