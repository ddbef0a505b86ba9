import StraightLine.Proofs.SlotFree

/-!
# Normal forms

Every pass has a normal form, which says of the code alone that the pass finds nothing to do in it
(`Pass.Settled`). A pass leaves code in normal form as it is (`Pass.run_of_settled`), and one run of
the pass gets there (`Pass.run_settled`).

Two of the scans share the argument. What such a scan keeps it keeps again when it meets it in the
same state (`Scan.Lasting.instrs`), and it does meet it in the same state, since it learns nothing
from what it replaces. The last substitution cannot spoil that: in code that is typed it changes
nothing (`Scan.function_eq`).
-/

namespace StraightLine

/-! ### Scans -/

theorem Subst.instr_nil (i : Instr) : Subst.instr [] i = i :=
  Scan.mapOperands_eq_self fun v _ => by cases v <;> rfl

theorem Subst.function_nil (f : Function) : Subst.function [] f = f := by
  have hnil : Subst.instr [] = id := funext instr_nil
  simp [function, Function.mapBodies, hnil]

namespace Scan

variable {σ : Type} {fate : σ → Instr → Fate σ} {enter : σ → σ} {s : Subst} {k k₀ : σ}
  {is : List Instr} {bs : List Block} {f : Function}

/-- A scan keeps all of the instructions. -/
def Stable (fate : σ → Instr → Fate σ) : σ → List Instr → Prop
  | _, [] => True
  | k, i :: is => ∃ k', fate k i = .keep k' ∧ Stable fate k' is

/-- A scan learns only from what it keeps, and puts something in the place of all else. -/
structure Lasting (fate : σ → Instr → Fate σ) : Prop where
  replace : ∀ {k i r v k'}, fate k i = .replace r v k' → k' = k
  drop : ∀ {k i k'}, fate k i ≠ .drop k'

/-- What is kept is kept again. -/
theorem Lasting.instrs (h : Lasting fate) (s : Subst) (k : σ) (is : List Instr) :
    Stable fate k (instrs fate s k is).kept := by
  induction is generalizing s k with
  | nil => exact trivial
  | cons i is ih =>
    cases hf : fate k (s.instr i) with
    | keep k' =>
      rw [instrs_keep hf]
      exact ⟨k', hf, ih s k'⟩
    | drop k' => exact absurd hf h.drop
    | replace r v k' =>
      obtain rfl := h.replace hf
      rw [instrs_replace hf]
      exact ih ((r, v) :: s) k'

theorem Lasting.blocks (h : Lasting fate) (henter : ∀ k, enter k = k₀) (s : Subst) (k : σ)
    (bs : List Block) : ∀ b ∈ (blocks fate enter s k bs).kept, Stable fate k₀ b.instrs := by
  induction bs generalizing s k with
  | nil => simp [Scan.blocks]
  | cons b bs ih =>
    simp only [Scan.blocks, List.forall_mem_cons, henter]
    exact ⟨h.instrs s k₀ b.instrs, ih _ _⟩

theorem Stable.instrs (h : Stable fate k is) :
    (instrs fate [] k is).kept = is ∧ (instrs fate [] k is).subst = [] := by
  induction is generalizing k with
  | nil => exact ⟨rfl, rfl⟩
  | cons i is ih =>
    obtain ⟨k', hkeep, hrest⟩ := h
    rw [← Subst.instr_nil i] at hkeep
    rw [instrs_keep hkeep, Subst.instr_nil]
    obtain ⟨hkept, hsubst⟩ := ih hrest
    exact ⟨congrArg (i :: ·) hkept, hsubst⟩

theorem blocks_of_stable (henter : ∀ k, enter k = k₀) (h : ∀ b ∈ bs, Stable fate k₀ b.instrs) :
    (blocks fate enter [] k bs).kept = bs ∧ (blocks fate enter [] k bs).subst = [] := by
  induction bs generalizing k with
  | nil => exact ⟨rfl, rfl⟩
  | cons b bs ih =>
    rw [List.forall_mem_cons] at h
    obtain ⟨hkept, hsubst⟩ := h.1.instrs
    obtain ⟨hrest, hsubst'⟩ := ih (k := (instrs fate [] k₀ b.instrs).state) h.2
    simp only [blocks, henter, hkept, hsubst, hrest, hsubst', and_self]

/-- A scan leaves a function alone that it keeps all of. -/
theorem function_of_stable (henter : ∀ k, enter k = k₀)
    (h : ∀ b ∈ f.blocks, Stable fate k₀ b.instrs) : function fate enter k f = (f, []) := by
  obtain ⟨hkept, hsubst⟩ := blocks_of_stable (k := k) henter h
  rw [function, hkept, hsubst, Subst.function_nil]

/-- **What a scan leaves it would leave again.** -/
theorem function_stable {A : Arities} {gone : Nat → Prop} {Inv : σ → Verify.Types → Prop}
    (hlasting : Lasting fate) (htyped : TypedBy A gone fate Inv)
    (hinv : ∀ k Δ, Inv k Δ → Inv (enter k) Δ) (henter : ∀ k, enter k = k₀) (hf : f.WellFormed A)
    (hk : Inv k f.paramTypes) :
    ∀ b ∈ (function fate enter k f).1.blocks, Stable fate k₀ b.instrs := by
  have hrefl := Carries.refl Reading.types gone f.paramTypes.env
  obtain ⟨ht, hc⟩ := blocks_typed htyped hinv hrefl hk hf.typed
  rw [function_eq ht hc]
  exact hlasting.blocks henter [] k f.blocks

end Scan

/-! ### Folding -/

namespace Folding

variable {f : Function}

/-- An instruction that is neither on constants alone nor one that returns an operand. -/
def Folded : Instr → Prop
  | .arith _ op a b => (a.float? = none ∨ b.float? = none) ∧ identity op a b = none
  | .compare _ _ a b => a.float? = none ∨ b.float? = none
  | .widen _ v => ∀ b, v ≠ .bool b
  | _ => True

theorem simplify_eq_none_iff {i : Instr} : simplify i = none ↔ Folded i := by
  cases i with
  | arith r op a b => cases a <;> cases b <;> simp [simplify, Folded, Operand.float?]
  | compare r p a b => cases a <;> cases b <;> simp [simplify, Folded, Operand.float?]
  | widen r v => cases v <;> simp [simplify, Folded]
  | _ => simp [simplify, Folded]

theorem stable_iff {is : List Instr} : Scan.Stable fate () is ↔ ∀ i ∈ is, Folded i := by
  induction is with
  | nil => simp [Scan.Stable]
  | cons i is ih =>
    rw [List.forall_mem_cons, ← ih, ← simplify_eq_none_iff, Scan.Stable, Unique.exists_iff, fate]
    cases simplify i <;> simp

theorem lasting : Scan.Lasting fate where
  replace _ := rfl
  drop {k i k'} := by
    rw [fate]
    cases simplify i <;> simp

theorem run_of_folded (h : ∀ i ∈ f.instrs, Folded i) : run f = (f, false) := by
  have hstable : ∀ b ∈ f.blocks, Scan.Stable fate () b.instrs := fun b hb =>
    stable_iff.2 fun i hi => h i (List.mem_flatMap.2 ⟨b, hb, hi⟩)
  simp [run, Scan.function_of_stable (fun _ => rfl) hstable]

/-- Folding leaves nothing to fold. -/
theorem run_folded {A : Arities} (hf : f.WellFormed A) : ∀ i ∈ (run f).1.instrs, Folded i := by
  intro i hi
  obtain ⟨b, hb, hi⟩ := List.mem_flatMap.1 hi
  have hb : b ∈ (Scan.function fate id () f).1.blocks := hb
  have hstable : Scan.Stable fate () b.instrs :=
    Scan.function_stable lasting (typedBy A) (fun _ _ h => h) (fun _ => rfl) hf trivial b hb
  exact stable_iff.1 hstable i hi

end Folding

/-! ### Common expressions -/

namespace CommonExpressions

variable {f : Function} {k : Known} {i : Instr}

/-- The slot whose contents are known after an instruction. -/
def touched? : Instr → Option Nat
  | .store _ (.temp p) | .load _ (.temp p) _ => some p
  | _ => none

/-- The later instruction `j` computes no expression that `i` has computed, and loads from no slot
whose contents are known by `i`. -/
def Differ (i j : Instr) : Prop :=
  (∀ e r r', expression? i = some (e, r) → expression? j ≠ some (e, r')) ∧
    ∀ p, touched? i = some p → UnreadSlots.loaded? j ≠ some p

/-- Nothing is known that an instruction computes or loads. -/
def Known.Lacks (k : Known) (i : Instr) : Prop :=
  (∀ e r, expression? i = some (e, r) → k.expressions.lookup e = none) ∧
    ∀ p, UnreadSlots.loaded? i = some p → k.contents.lookup p = none

theorem lacks_nil (i : Instr) : Known.Lacks {} i := ⟨fun _ _ _ => rfl, fun _ _ => rfl⟩

theorem lacks_addExpression {e : Expression} {r : Nat} {j : Instr} :
    Known.Lacks { k with expressions := (e, r) :: k.expressions } j ↔
      k.Lacks j ∧ ∀ r', expression? j ≠ some (e, r') := by
  have hlookup (e' : Expression) : ((e, r) :: k.expressions).lookup e' = none ↔
      e' ≠ e ∧ k.expressions.lookup e' = none := by
    simp [List.lookup_eq_none_iff]
  simp only [Known.Lacks, hlookup]
  grind

theorem lacks_addContents {p : Nat} {v : Operand} {j : Instr} :
    Known.Lacks { k with contents := (p, v) :: k.contents } j ↔
      k.Lacks j ∧ UnreadSlots.loaded? j ≠ some p := by
  have hlookup (p' : Nat) : ((p, v) :: k.contents).lookup p' = none ↔
      p' ≠ p ∧ k.contents.lookup p' = none := by
    simp [List.lookup_eq_none_iff]
  simp only [Known.Lacks, hlookup]
  grind

/-- What the fate of an instruction says: it is kept if nothing of it is known, and then what is
known grows by what the later ones must differ from. -/
def Judged (k : Known) (i : Instr) : Fate Known → Prop
  | .keep k' => k.Lacks i ∧ ∀ j, k'.Lacks j ↔ k.Lacks j ∧ Differ i j
  | .drop _ => False
  | .replace _ _ k' => ¬k.Lacks i ∧ k' = k

theorem judged_fate (k : Known) (i : Instr) : Judged k i (fate k i) := by
  unfold fate
  split
  next v p =>
    refine ⟨⟨by simp [expression?], by simp [UnreadSlots.loaded?]⟩, fun j => ?_⟩
    simp [lacks_addContents, Differ, expression?, touched?]
  next r p t =>
    split
    next v hv =>
      refine ⟨fun hlacks => ?_, rfl⟩
      cases hv.symm.trans (hlacks.2 p rfl)
    next hnone =>
      refine ⟨⟨by simp [expression?], fun q hq => ?_⟩, fun j => ?_⟩
      · cases hq
        exact hnone
      · simp [lacks_addContents, Differ, expression?, touched?]
  next hstore hload =>
    have htouched : touched? i = none := by
      unfold touched?
      split
      · exact absurd rfl (hstore _ _)
      · exact absurd rfl (hload _ _ _)
      · rfl
    have hloaded : UnreadSlots.loaded? i = none := by
      unfold UnreadSlots.loaded?
      split
      · exact absurd rfl (hload _ _ _)
      · rfl
    split
    next e r he =>
      split
      next earlier hearlier =>
        refine ⟨fun hlacks => ?_, rfl⟩
        cases hearlier.symm.trans (hlacks.1 e r he)
      next hnone =>
        refine ⟨⟨fun e' r' he' => ?_, fun p hp => ?_⟩, fun j => ?_⟩
        · cases he.symm.trans he'
          exact hnone
        · cases hloaded.symm.trans hp
        · rw [lacks_addExpression, Differ, he, htouched]
          grind
    next hnone =>
      refine ⟨⟨fun e r he => ?_, fun p hp => ?_⟩, fun j => ?_⟩
      · cases hnone.symm.trans he
      · cases hloaded.symm.trans hp
      · simp [Differ, hnone, htouched]

theorem stable_iff {is : List Instr} :
    Scan.Stable fate k is ↔ (∀ i ∈ is, k.Lacks i) ∧ is.Pairwise Differ := by
  induction is generalizing k with
  | nil => simp [Scan.Stable]
  | cons i is ih =>
    have hjudged := judged_fate k i
    rw [Scan.Stable, List.forall_mem_cons, List.pairwise_cons]
    cases hfate : fate k i with
    | keep k' =>
      rw [hfate] at hjudged
      obtain ⟨hlacks, hk'⟩ := hjudged
      simp [ih, hk', hlacks, forall_and, and_assoc]
    | drop k' => exact (hfate ▸ hjudged).elim
    | replace r v k' =>
      rw [hfate] at hjudged
      simp [hjudged.1]

theorem lasting : Scan.Lasting fate where
  replace {k i r v k'} h := by
    have hjudged := judged_fate k i
    rw [h] at hjudged
    exact hjudged.2
  drop {k i k'} h := by
    have hjudged := judged_fate k i
    rw [h] at hjudged
    exact hjudged

theorem run_of_differ (h : ∀ b ∈ f.blocks, b.instrs.Pairwise Differ) : run f = (f, false) := by
  have hstable : ∀ b ∈ f.blocks, Scan.Stable fate {} b.instrs := fun b hb =>
    stable_iff.2 ⟨fun i _ => lacks_nil i, h b hb⟩
  simp [run, Scan.function_of_stable (fun _ => rfl) hstable]

/-- Of common expressions only one is left in each block. -/
theorem run_differ {A : Arities} (hf : f.WellFormed A) :
    ∀ b ∈ (run f).1.blocks, b.instrs.Pairwise Differ := by
  intro b hb
  have hstable := Scan.function_stable lasting (typedBy A) (fun _ _ _ => ⟨by simp, by simp⟩)
    (fun _ => rfl) hf ⟨by simp, by simp⟩ b hb
  exact (stable_iff.1 hstable).2

end CommonExpressions

/-! ### Single instructions -/

namespace Function

variable {rule : Instr → Option Instr} {f : Function}

theorem peephole_of_none (h : ∀ i ∈ f.instrs, rule i = none) : f.peephole rule = (f, false) := by
  have hbodies : f.mapBodies (·.map fun i => (rule i).getD i) = f := by
    refine mapBodies_eq_self fun b hb => ?_
    refine (List.map_congr_left fun i hi => ?_).trans (List.map_id _)
    rw [h i (List.mem_flatMap.2 ⟨b, hb, hi⟩), Option.getD_none, id]
  rw [peephole, hbodies, List.any_eq_false.2 fun i hi => by simp [h i hi]]

/-- Where a rule does not apply to what it gives, it is used up at once. -/
theorem peephole_none (hrule : ∀ i j, rule i = some j → rule j = none) :
    ∀ i ∈ (f.peephole rule).1.instrs, rule i = none := by
  intro j hj
  rw [peephole, instrs_mapBodies rfl fun _ _ => List.map_append ..] at hj
  obtain ⟨i, _, rfl⟩ := List.mem_map.1 hj
  cases hi : rule i with
  | none => exact hi
  | some j => exact hrule i j hi

end Function

/-- The operands of an operation that commutes are in order. -/
def OperandOrder.Ordered : Instr → Prop
  | .arith _ op a b => op.commutes → isAfter a b = false
  | _ => True

theorem OperandOrder.rule_eq_none_iff {i : Instr} : rule i = none ↔ Ordered i := by
  cases i <;> simp [rule, Ordered]

theorem OperandOrder.isAfter_asymm {a b : Operand} (h : isAfter a b) : isAfter b a = false := by
  simp only [isAfter, Bool.or_eq_true, Bool.and_eq_true, decide_eq_true_iff, Bool.or_eq_false_iff,
    Bool.and_eq_false_iff, decide_eq_false_iff_not] at h ⊢
  omega

theorem OperandOrder.rule_rule (i j : Instr) (h : rule i = some j) : rule j = none := by
  cases i with
  | arith r op a b =>
    rw [rule] at h
    split at h
    next hafter =>
      cases h
      rw [Bool.and_eq_true] at hafter
      exact rule_eq_none_iff.2 fun _ => isAfter_asymm hafter.2
    next => cases h
  | _ => cases h

/-- There is no cheaper operation: what is subtracted is no number, if it is a constant at all, and
what is divided by has no exact reciprocal. -/
def Strength.Cheapest : Instr → Prop
  | .arith _ .sub _ (.float c) => c.value.isNaN
  | .arith _ .div _ (.float c) => exactReciprocal c.value = none
  | _ => True

theorem Strength.rule_eq_none_iff {i : Instr} : rule i = none ↔ Cheapest i := by
  unfold rule Cheapest
  split <;> simp

/-- Sums and products are as cheap as they can be. -/
theorem Strength.rule_rule (i j : Instr) (h : rule i = some j) : rule j = none := by
  unfold rule at h
  split at h
  next r a c =>
    split at h
    · cases h
    · cases h
      rfl
  next r a c =>
    obtain ⟨d, _, rfl⟩ := Option.map_eq_some_iff.1 h
    rfl
  next => cases h

/-! ### Slots -/

namespace UnreadSlots

variable {f : Function} {is : List Instr}

/-- Every slot that is made is loaded from. -/
def AllRead (is : List Instr) : Prop :=
  ∀ r t n, .alloca r t n ∈ is → ∃ r' t', .load r' (.temp r) t' ∈ is

theorem mem_made {r : Nat} : r ∈ is.filterMap Instr.made? ↔ ∃ t n, .alloca r t n ∈ is := by
  rw [List.mem_filterMap]
  constructor
  · rintro ⟨i, hi, hmade⟩
    cases i <;> cases hmade
    exact ⟨_, _, hi⟩
  · rintro ⟨t, n, hi⟩
    exact ⟨_, hi, rfl⟩

theorem mem_loaded {p : Nat} : p ∈ is.filterMap loaded? ↔ ∃ r t, .load r (.temp p) t ∈ is := by
  rw [List.mem_filterMap]
  constructor
  · rintro ⟨i, hi, hloaded⟩
    unfold loaded? at hloaded
    split at hloaded <;> cases hloaded
    exact ⟨_, _, hi⟩
  · rintro ⟨r, t, hi⟩
    exact ⟨_, hi, rfl⟩

theorem slots_eq_nil_iff : slots is = [] ↔ AllRead is := by
  simp only [slots, List.filter_eq_nil_iff, mem_made, mem_loaded, AllRead, decide_eq_true_iff,
    not_not, forall_exists_index]

theorem run_of_allRead (h : AllRead f.instrs) : run f = (f, false) := by
  simp [run, slots_eq_nil_iff.2 h]

/-- No slot is left that is never read. -/
theorem run_allRead (f : Function) : AllRead (run f).1.instrs := by
  by_cases hempty : (slots f.instrs).isEmpty
  · simp only [run, if_pos hempty]
    exact slots_eq_nil_iff.1 (List.isEmpty_iff.1 hempty)
  · simp only [run, if_neg hempty]
    rw [Function.instrs_mapBodies rfl fun _ _ => List.filter_append ..]
    intro r t n hi
    obtain ⟨hi, hkept⟩ := List.mem_filter.1 hi
    have hread : r ∈ f.instrs.filterMap loaded? := by
      by_contra hunread
      have hdead : r ∈ slots f.instrs :=
        List.mem_filter.2 ⟨mem_made.2 ⟨t, n, hi⟩, by simpa using hunread⟩
      simp [isKept, hdead] at hkept
    obtain ⟨r', t', hload⟩ := mem_loaded.1 hread
    exact ⟨r', t', List.mem_filter.2 ⟨hload, rfl⟩⟩

end UnreadSlots

/-- Where no slot is made there is nothing to promote. -/
theorem SlotPromotion.run_of_slotless {f : Function} (h : f.Slotless) : run f = (f, false) := by
  have hnil : slots f.instrs = [] := by
    rw [slots, List.filter_eq_nil_iff]
    intro r hr
    obtain ⟨i, hi, hmade⟩ := List.mem_filterMap.1 hr
    cases i <;> cases hmade
    cases h _ hi
  simp [run, hnil]

/-! ### Reachable code -/

namespace Reachable

variable {f : Function}

/-- There is at most one block, which ends with its only terminator. -/
def AllReached (f : Function) : Prop :=
  f.blocks.length ≤ 1 ∧ ∀ b ∈ f.blocks, Code.Closed b.instrs

theorem run_of_allReached (h : AllReached f) : run f = (f, false) := by
  obtain ⟨hone, hclosed⟩ := h
  have hbody : ∀ b ∈ f.blocks, upToTerminator b.instrs = b.instrs := fun b hb =>
    upToTerminator_of_closed (hclosed b hb)
  have hcut : (f.blocks.any fun b => (upToTerminator b.instrs).length < b.instrs.length) = false :=
    List.any_eq_false.2 fun b hb => by simp [hbody b hb]
  simp only [run, hcut, Function.mapBodies_eq_self hbody, List.take_of_length_le hone,
    Bool.false_or, decide_eq_false (Nat.not_lt.2 hone)]

/-- Only what is reached is left. -/
theorem run_allReached {A : Arities} (hf : f.WellFormed A) : AllReached (run f).1 := by
  rw [run_eq hf]
  exact ⟨List.length_take_le 1 f.blocks, fun b hb => hf.closed b (List.mem_of_mem_take hb)⟩

end Reachable

/-! ### Dead code -/

namespace DeadCode

variable {f : Function}

/-- Whatever only defines a temp defines one that is read. -/
def AllUsed (f : Function) : Prop :=
  ∀ i ∈ f.instrs, i.isPure → ∃ r, i.result? = some r ∧ r ∈ used f

theorem isDead_eq_false_iff {i : Instr} {read : List Nat} :
    isDead read i = false ↔ (i.isPure → ∃ r, i.result? = some r ∧ r ∈ read) := by
  cases i <;> simp [isDead, Instr.isPure, Instr.result?]

theorem instrs_sweep (f : Function) :
    (sweep f).instrs = f.instrs.filter fun i => !isDead (used f) i := by
  rw [sweep, Function.instrs_mapBodies rfl fun _ _ => List.filter_append ..]

theorem allUsed_iff : AllUsed f ↔ ∀ i ∈ f.instrs, (!isDead (used f) i) = true := by
  simp only [AllUsed, Bool.not_eq_true', isDead_eq_false_iff]

/-- A sweep that removes nothing finds nothing to remove. -/
theorem allUsed_of_size (h : ¬(sweep f).size < f.size) : AllUsed f := by
  rw [Function.size, Function.size, instrs_sweep] at h
  refine allUsed_iff.2 (List.length_filter_eq_length_iff.1 ?_)
  exact Nat.le_antisymm (List.length_filter_le ..) (Nat.not_lt.1 h)

theorem sweep_of_allUsed (h : AllUsed f) : sweep f = f :=
  Function.mapBodies_eq_self fun b hb => List.filter_eq_self.2 fun i hi =>
    allUsed_iff.1 h i (List.mem_flatMap.2 ⟨b, hb, hi⟩)

theorem run_of_allUsed (h : AllUsed f) : run f = (f, false) := by
  have hsize : ¬(sweep f).size < f.size := by simp [sweep_of_allUsed h]
  rw [run, sweepAll, if_neg hsize, decide_eq_false hsize]

/-- Sweeps end where nothing is left to remove. -/
theorem run_allUsed (f : Function) : AllUsed (run f).1 := by
  change AllUsed (sweepAll f)
  fun_induction sweepAll f with
  | case1 f _ ih => exact ih
  | case2 f h => exact allUsed_of_size h

end DeadCode

/-! ### Passes -/

namespace Pass

variable {A : Arities} {f : Function}

/-- The normal form of a pass. -/
def Settled : Pass → Function → Prop
  | sroa, f => UnreadSlots.AllRead f.instrs
  | earlyCse, f => ∀ b ∈ f.blocks, b.instrs.Pairwise CommonExpressions.Differ
  | simplifyCfg, f => Reachable.AllReached f
  | reassociate, f => ∀ i ∈ f.instrs, OperandOrder.Ordered i
  | mem2reg, f => f.Slotless
  | instSimplify, f => ∀ i ∈ f.instrs, Folding.Folded i
  | instCombine, f => ∀ i ∈ f.instrs, Strength.Cheapest i
  | dce, f => DeadCode.AllUsed f

/-- **A pass leaves its normal form alone.** -/
theorem run_of_settled (p : Pass) (h : p.Settled f) : p.run f = (f, false) := by
  unfold run
  split
  · rfl
  · cases p with
    | sroa => exact UnreadSlots.run_of_allRead h
    | earlyCse => exact CommonExpressions.run_of_differ h
    | simplifyCfg => exact Reachable.run_of_allReached h
    | reassociate =>
      exact Function.peephole_of_none fun i hi => OperandOrder.rule_eq_none_iff.2 (h i hi)
    | mem2reg => exact SlotPromotion.run_of_slotless h
    | instSimplify => exact Folding.run_of_folded h
    | instCombine =>
      exact Function.peephole_of_none fun i hi => Strength.rule_eq_none_iff.2 (h i hi)
    | dce => exact DeadCode.run_of_allUsed h

/-- Where there is no code there is nothing to do. -/
theorem settled_of_blocks_eq_nil (p : Pass) (h : f.blocks = []) : p.Settled f := by
  have hinstrs : f.instrs = [] := by rw [Function.instrs, h, List.flatMap_nil]
  cases p <;> simp [Settled, UnreadSlots.AllRead, Reachable.AllReached, Function.Slotless,
    DeadCode.AllUsed, h, hinstrs]

/-- **A pass reaches its normal form.** -/
theorem run_settled (p : Pass) (hf : f.WellFormed A) : p.Settled (p.run f).1 := by
  by_cases hext : f.isExternal
  · rw [run, if_pos hext]
    exact p.settled_of_blocks_eq_nil (hf.bodiless.1 hext)
  · rw [run, if_neg hext]
    cases p with
    | sroa => exact UnreadSlots.run_allRead f
    | earlyCse => exact CommonExpressions.run_differ hf
    | simplifyCfg => exact Reachable.run_allReached hf
    | reassociate =>
      exact fun i hi => OperandOrder.rule_eq_none_iff.1
        (Function.peephole_none OperandOrder.rule_rule i hi)
    | mem2reg => exact SlotPromotion.run_slotless hf
    | instSimplify => exact Folding.run_folded hf
    | instCombine =>
      exact fun i hi => Strength.rule_eq_none_iff.1 (Function.peephole_none Strength.rule_rule i hi)
    | dce => exact DeadCode.run_allUsed f

/-- **Every pass reaches its fixpoint in one run.** It leaves every live function of a module that
verifies in normal form. Running it again right after that changes nothing, and says so. -/
theorem run_again {m : Module} (hm : m.verify = .ok ()) (hf : f ∈ m.live) (p : Pass) :
    p.Settled (p.run f).1 ∧ p.run (p.run f).1 = ((p.run f).1, false) := by
  have hsettled := p.run_settled ((Module.verify_eq_ok.1 hm).2 f hf)
  exact ⟨hsettled, p.run_of_settled hsettled⟩

/-- Six of the passes find something to do in one function, but none a second time. -/
theorem run_again_sample :
    Eval.sample.verify = .ok () ∧ ∃ f ∈ Eval.sample.live,
      (∀ p ∈ [earlyCse, simplifyCfg, reassociate, mem2reg, instSimplify, instCombine],
        (p.run f).2 = true) ∧
      ∀ p : Pass, p.Settled (p.run f).1 ∧ p.run (p.run f).1 = ((p.run f).1, false) := by
  have hm : Eval.sample.verify = .ok () := by decide +kernel
  have hf : Eval.sample.functions[1] ∈ Eval.sample.live :=
    List.mem_filter.2 ⟨List.getElem_mem _, rfl⟩
  exact ⟨hm, _, hf, by decide +kernel, run_again hm hf⟩

end Pass

end StraightLine
