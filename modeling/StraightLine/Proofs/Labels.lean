import StraightLine.Proofs.FinishedModules

/-!
# Names and labels in passes

A pass looks neither at the name of a function nor at the labels of its blocks. So it commutes with
taking them away (`Pass.run_unlabelled`), and functions that differ in nothing else do not after any
passes.
-/

namespace StraightLine

/-- The block with no label of its own. -/
def Block.unlabelled (b : Block) : Block := { b with id := 0 }

namespace Function

/-- The function with no name, and with no labels of its own. -/
def unlabelled (f : Function) : Function :=
  { f with name := "", blocks := f.blocks.map Block.unlabelled }

variable (f : Function)

theorem instrs_unlabelled : f.unlabelled.instrs = f.instrs := by
  simp only [instrs, unlabelled, List.flatMap_map]
  rfl

theorem size_unlabelled : f.unlabelled.size = f.size := by
  rw [size, size, instrs_unlabelled]

theorem mapBodies_unlabelled (g : List Instr → List Instr) :
    f.unlabelled.mapBodies g = (f.mapBodies g).unlabelled := by
  simp only [mapBodies, unlabelled, List.map_map]
  rfl

theorem peephole_unlabelled (rule : Instr → Option Instr) :
    (f.unlabelled.peephole rule).1 = (f.peephole rule).1.unlabelled :=
  f.mapBodies_unlabelled _

end Function

/-! ### Scans -/

namespace Scan

variable {σ : Type} (fate : σ → Instr → Fate σ) (enter : σ → σ)

/-- A scan keeps labels as they are. -/
theorem blocks_unlabelled (s : Subst) (st : σ) (bs : List Block) :
    blocks fate enter s st (bs.map Block.unlabelled) =
      ⟨(blocks fate enter s st bs).kept.map Block.unlabelled, (blocks fate enter s st bs).subst,
        (blocks fate enter s st bs).state⟩ := by
  induction bs generalizing s st with
  | nil => rfl
  | cons b bs ih =>
    rw [List.map_cons, blocks, blocks, ih]
    rfl

theorem function_unlabelled (st : σ) (f : Function) :
    (function fate enter st f.unlabelled).1 = (function fate enter st f).1.unlabelled := by
  unfold function
  change Subst.function (blocks fate enter [] st (f.blocks.map Block.unlabelled)).subst
    { f.unlabelled with
      blocks := (blocks fate enter [] st (f.blocks.map Block.unlabelled)).kept } = _
  rw [blocks_unlabelled]
  exact Function.mapBodies_unlabelled { f with blocks := (blocks fate enter [] st f.blocks).kept } _

end Scan

/-! ### Passes -/

theorem DeadCode.sweep_unlabelled (f : Function) :
    sweep f.unlabelled = (sweep f).unlabelled := by
  simp only [sweep, used, Function.instrs_unlabelled]
  exact f.mapBodies_unlabelled _

theorem DeadCode.sweepAll_unlabelled (f : Function) :
    sweepAll f.unlabelled = (sweepAll f).unlabelled := by
  induction f using sweepAll.induct with
  | case1 f hsmaller ih =>
    rw [sweepAll.eq_def f, if_pos hsmaller, ← ih, sweepAll.eq_def f.unlabelled, sweep_unlabelled,
      Function.size_unlabelled, Function.size_unlabelled, if_pos hsmaller]
  | case2 f hsmaller =>
    rw [sweepAll.eq_def f, if_neg hsmaller, sweepAll.eq_def f.unlabelled, sweep_unlabelled,
      Function.size_unlabelled, Function.size_unlabelled, if_neg hsmaller]

theorem SlotPromotion.run_unlabelled (f : Function) :
    (run f.unlabelled).1 = (run f).1.unlabelled := by
  unfold run
  rw [f.instrs_unlabelled]
  dsimp only
  split
  · rfl
  · exact Scan.function_unlabelled ..

theorem UnreadSlots.run_unlabelled (f : Function) :
    (run f.unlabelled).1 = (run f).1.unlabelled := by
  unfold run
  rw [f.instrs_unlabelled]
  dsimp only
  split
  · rfl
  · exact f.mapBodies_unlabelled _

theorem Reachable.run_unlabelled (f : Function) :
    (run f.unlabelled).1 = (run f).1.unlabelled := by
  simp only [run, f.mapBodies_unlabelled]
  simp only [Function.unlabelled, List.map_take]

namespace Pass

variable (p : Pass) (f : Function)

theorem transform_unlabelled : (p.transform f.unlabelled).1 = (p.transform f).1.unlabelled := by
  cases p with
  | sroa => exact UnreadSlots.run_unlabelled f
  | earlyCse => exact Scan.function_unlabelled ..
  | simplifyCfg => exact Reachable.run_unlabelled f
  | reassociate => exact f.peephole_unlabelled _
  | mem2reg => exact SlotPromotion.run_unlabelled f
  | instSimplify => exact Scan.function_unlabelled ..
  | instCombine => exact f.peephole_unlabelled _
  | dce => exact DeadCode.sweepAll_unlabelled f

/-- **A pass looks neither at names nor at labels.** -/
theorem run_unlabelled : (p.run f.unlabelled).1 = (p.run f).1.unlabelled := by
  unfold run
  change (if f.isExternal then (f.unlabelled, false) else p.transform f.unlabelled).1 = _
  split
  · rfl
  · exact p.transform_unlabelled f

theorem runEach_unlabelled (ps : List Pass) :
    runEach ps f.unlabelled = (runEach ps f).unlabelled := by
  induction ps generalizing f with
  | nil => rfl
  | cons p ps ih =>
    change runEach ps (p.run f.unlabelled).1 = (runEach ps (p.run f).1).unlabelled
    rw [run_unlabelled, ih]

end Pass

end StraightLine
