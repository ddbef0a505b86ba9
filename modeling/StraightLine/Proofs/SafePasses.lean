import StraightLine.Proofs.Optimization
import StraightLine.Proofs.Progress

/-!
# Passes keep functions safe

A function that reads nothing undefined, and slots only after they are filled, is still such a
function after every pass (`Pass.run_safe`). Removing instructions keeps the stores into every slot
that is still read. A scan puts only defined operands in the place of temps; where it promotes a
slot that has been filled, it knows the operand that was stored.
-/

namespace StraightLine

open Verify (Types OperandOk)

namespace Instr

variable {S S' : List Nat} {i : Instr}

theorem mem_fills_iff {p : Nat} : p ∈ i.fills S ↔ p ∈ S ∨ ∃ v, i = .store v (.temp p) := by
  unfold fills
  split
  next v q => simp [or_comm, eq_comm]
  next h =>
    refine ⟨.inl, fun hp => hp.elim id ?_⟩
    rintro ⟨v, rfl⟩
    exact absurd rfl (h v p)

/-- Slots that are filled, but for those that are gone, still are behind an instruction. -/
theorem fills_mono {gone : Nat → Prop} (h : ∀ p ∈ S, ¬gone p → p ∈ S') :
    ∀ p ∈ i.fills S, ¬gone p → p ∈ i.fills S' := by
  intro p hp hgone
  rw [mem_fills_iff] at hp ⊢
  exact hp.imp_left fun hp => h p hp hgone

end Instr

/-! ### Removing instructions -/

/-- What is kept finds the slots filled that it reads. -/
theorem Removable.filled_filter {keep : Instr → Bool} {gone : Nat → Prop} {is : List Instr}
    (h : Removable keep gone is) {S S' : List Nat} (hS : ∀ p ∈ S, ¬gone p → p ∈ S')
    (hfilled : Code.Filled S is) : Code.Filled S' (is.filter keep) := by
  induction is generalizing S S' with
  | nil => trivial
  | cons i is ih =>
    have h' := h.mono fun j hj => List.mem_cons_of_mem i hj
    by_cases hk : keep i
    · rw [List.filter_cons_of_pos hk]
      refine ⟨⟨hfilled.1.defined, ?_⟩, ih h' (Instr.fills_mono hS) hfilled.2⟩
      rintro r p t rfl
      refine hS p (hfilled.1.filled r p t rfl) (h.unread _ List.mem_cons_self hk p ?_)
      exact Instr.mem_uses.2 List.mem_cons_self
    · rw [List.filter_cons_of_neg hk]
      refine ih h' (fun p hp hgone => ?_) hfilled.2
      rcases Instr.mem_fills_iff.1 hp with hp | ⟨v, rfl⟩
      · exact hS p hp hgone
      · exact absurd (h.written _ List.mem_cons_self (by simpa using hk) p rfl) hgone

theorem Function.Safe.filter {f : Function} (hs : f.Safe) {keep : Instr → Bool}
    {gone : Nat → Prop} (h : Removable keep gone f.instrs) :
    (f.mapBodies (·.filter keep)).Safe where
  single := by simpa [mapBodies] using hs.single
  filled := by
    rw [instrs_mapBodies rfl fun is js => List.filter_append ..]
    exact h.filled_filter (fun _ hp _ => hp) hs.filled

/-! ### Changing instructions one at a time -/

/-- A rule that changes arithmetic, and brings in nothing undefined. -/
def RuleSafe (rule : Instr → Option Instr) : Prop :=
  ∀ i j, rule i = some j → ∃ r op a b op' a' b', i = .arith r op a b ∧
    j = .arith r op' a' b' ∧ (.undef ∈ [a', b'] → .undef ∈ [a, b])

theorem RuleSafe.filled_map {rule : Instr → Option Instr} (hrule : RuleSafe rule) {S : List Nat}
    {is : List Instr} (h : Code.Filled S is) :
    Code.Filled S (is.map fun i => (rule i).getD i) := by
  induction is generalizing S with
  | nil => trivial
  | cons i is ih =>
    cases hi : rule i with
    | none => simpa [Code.Filled, hi] using ⟨h.1, ih h.2⟩
    | some j =>
      obtain ⟨r, op, a, b, op', a', b', rfl, rfl, hdefined⟩ := hrule i j hi
      rw [List.map_cons, hi]
      exact ⟨⟨fun hu => h.1.defined (hdefined hu), by simp⟩, ih h.2⟩

theorem Function.Safe.peephole {rule : Instr → Option Instr} (hrule : RuleSafe rule) {f : Function}
    (hs : f.Safe) : (f.peephole rule).1.Safe where
  single := by simpa [Function.peephole, mapBodies] using hs.single
  filled := by
    rw [Function.peephole, instrs_mapBodies rfl fun is js => List.map_append ..]
    exact hrule.filled_map hs.filled

theorem OperandOrder.ruleSafe : RuleSafe rule := by
  intro i j h
  cases i with
  | arith r op a b =>
    rw [rule] at h
    split at h
    next =>
      cases h
      exact ⟨r, op, a, b, op, b, a, rfl, rfl, by simp [or_comm]⟩
    next => cases h
  | _ => cases h

theorem Strength.ruleSafe : RuleSafe rule := by
  intro i j h
  unfold rule at h
  split at h
  next r a c =>
    split at h
    · cases h
    · cases h
      exact ⟨r, _, a, _, _, a, _, rfl, rfl, by simp⟩
  next r a c =>
    obtain ⟨d, _, rfl⟩ := Option.map_eq_some_iff.1 h
    exact ⟨r, _, a, _, _, a, _, rfl, rfl, by simp⟩
  next => cases h

/-! ### Scans -/

/-- A substitution that puts in nothing undefined. -/
def Subst.Defined (s : Subst) : Prop := ∀ id v, s.lookup id = some v → v ≠ .undef

theorem Subst.Defined.operand {s : Subst} (hs : s.Defined) {v : Operand} (hv : v ≠ .undef) :
    s.operand v ≠ .undef := by
  cases v with
  | temp id =>
    rw [Subst.operand]
    cases h : s.lookup id with
    | none => exact hv
    | some u => exact hs id u h
  | _ => exact hv

namespace TypesCarry

variable {A : Arities} {gone : Nat → Prop} {s : Subst} {Γ Δ : Types} {S : List Nat} {i : Instr}

end TypesCarry

namespace Scan

variable {σ : Type}

variable {A : Arities} {gone : Nat → Prop} {fate : σ → Instr → Fate σ} {InvT : σ → Types → Prop}
  {InvF : σ → List Nat → Prop} {k : σ}

end Scan

/-! ### The passes that scan a function -/

namespace CommonExpressions

end CommonExpressions

namespace SlotPromotion

variable {slots : List Nat}

end SlotPromotion

/-! ### All passes -/

end StraightLine
