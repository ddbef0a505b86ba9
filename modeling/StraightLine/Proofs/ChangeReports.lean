import StraightLine.Proofs.NormalForms

/-!
# Reports of change

A pass says whether it changed a function, and keeps that answer by hand: it notes that a slot can
go, that an operand was put in the place of a temp, that operands were swapped, or that a list got
shorter. The answer is right for every function, whether it verifies or not
(`Pass.run_changed_iff`).

A pass that says no has left the function as it was. One that says yes has taken an instruction or a
block away, or has put an instruction in the place of one that differs from it.
-/

namespace StraightLine

/-- An outcome of a pass on `f` that says whether it is another function, and differs from `f` at
most in its blocks. -/
structure Reports (f : Function) (r : Function × Bool) : Prop where
  changed : r.2 = true ↔ r.1 ≠ f
  frame : r.1 = { f with blocks := r.1.blocks }

namespace Reports

variable {f g : Function} {changed : Bool}

theorem same (f : Function) : Reports f (f, false) := ⟨by simp, rfl⟩

theorem different (hne : g ≠ f) (hframe : g = { f with blocks := g.blocks }) :
    Reports f (g, true) := ⟨by simp [hne], hframe⟩

/-- It is enough to know that nothing has changed when there is no report, and that something has
when there is one. -/
theorem of_cases (hframe : g = { f with blocks := g.blocks }) (hno : changed = false → g = f)
    (hyes : changed = true → g ≠ f) : Reports f (g, changed) := by
  refine ⟨⟨hyes, fun hne => ?_⟩, hframe⟩
  by_contra hno'
  exact hne (hno (by simpa using hno'))

end Reports

theorem Function.ne_of_size_lt {f g : Function} (h : g.size < f.size) : g ≠ f := by
  rintro rfl
  exact Nat.lt_irrefl _ h

/-- Leaving out one of the instructions of a function changes it. -/
theorem Function.filter_ne_self {f : Function} {keep : Instr → Bool} {i : Instr}
    (hi : i ∈ f.instrs) (hgone : keep i = false) : f.mapBodies (·.filter keep) ≠ f := by
  refine ne_of_size_lt ?_
  rw [size, instrs_mapBodies rfl fun _ _ => List.filter_append ..]
  exact List.length_filter_lt_length_iff_exists.2 ⟨i, hi, by simp [hgone]⟩

/-! ### Slots that are never read -/

theorem UnreadSlots.run_reports (f : Function) : Reports f (run f) := by
  cases hslots : slots f.instrs with
  | nil => simpa [run, hslots] using .same f
  | cons r rs =>
    have hr : r ∈ slots f.instrs := hslots ▸ List.mem_cons_self
    obtain ⟨t, n, hi⟩ := mem_made.1 (List.mem_filter.1 hr).1
    have hgone : isKept (slots f.instrs) (.alloca r t n) = false := by simpa [isKept] using hr
    have hrun : run f = (f.mapBodies (·.filter (isKept (slots f.instrs))), true) := by
      simp [run, hslots]
    rw [hrun]
    exact .different (f.filter_ne_self hi hgone) rfl

/-! ### Scans -/

namespace Scan

variable {σ : Type} {fate : σ → Instr → Fate σ} {enter : σ → σ} {s : Subst} {k k₀ : σ}
  {is : List Instr} {bs : List Block} {f : Function}

/-- Replacements are only ever added. -/
theorem suffix_instrs (fate : σ → Instr → Fate σ) (s : Subst) (k : σ) (is : List Instr) :
    s <:+ (instrs fate s k is).subst := by
  induction is generalizing s k with
  | nil => exact List.suffix_refl s
  | cons i is ih =>
    cases hf : fate k (s.instr i) with
    | keep k' =>
      rw [instrs_keep hf]
      exact ih s k'
    | drop k' =>
      rw [instrs_drop hf]
      exact ih s k'
    | replace r v k' =>
      rw [instrs_replace hf]
      exact (List.suffix_cons (r, v) s).trans (ih _ k')

theorem suffix_blocks (fate : σ → Instr → Fate σ) (enter : σ → σ) (s : Subst) (k : σ)
    (bs : List Block) : s <:+ (blocks fate enter s k bs).subst := by
  induction bs generalizing s k with
  | nil => exact List.suffix_refl s
  | cons b bs ih => exact (suffix_instrs fate s (enter k) b.instrs).trans (ih _ _)

/-- Every replacement takes an instruction away. -/
theorem length_instrs (fate : σ → Instr → Fate σ) (s : Subst) (k : σ) (is : List Instr) :
    (instrs fate s k is).kept.length + (instrs fate s k is).subst.length ≤
      is.length + s.length := by
  induction is generalizing s k with
  | nil => exact Nat.le_refl _
  | cons i is ih =>
    rw [List.length_cons]
    cases hf : fate k (s.instr i) with
    | keep k' =>
      have := ih s k'
      simp only [instrs_keep hf, List.length_cons]
      omega
    | drop k' =>
      have := ih s k'
      rw [instrs_drop hf]
      omega
    | replace r v k' =>
      have := ih ((r, v) :: s) k'
      rw [List.length_cons] at this
      rw [instrs_replace hf]
      omega

theorem length_blocks (fate : σ → Instr → Fate σ) (enter : σ → σ) (s : Subst) (k : σ)
    (bs : List Block) :
    ((blocks fate enter s k bs).kept.flatMap Block.instrs).length +
      (blocks fate enter s k bs).subst.length ≤
        (bs.flatMap Block.instrs).length + s.length := by
  induction bs generalizing s k with
  | nil => exact Nat.le_refl _
  | cons b bs ih =>
    have hb := length_instrs fate s (enter k) b.instrs
    have hbs := ih (instrs fate s (enter k) b.instrs).subst (instrs fate s (enter k) b.instrs).state
    simp only [blocks, List.flatMap_cons, List.length_append] at hbs ⊢
    omega

theorem size_function (fate : σ → Instr → Fate σ) (enter : σ → σ) (k : σ) (f : Function) :
    (function fate enter k f).1.size + (function fate enter k f).2.length ≤ f.size := by
  have h := length_blocks fate enter [] k f.blocks
  rw [Function.size, function, Subst.function,
    Function.instrs_mapBodies rfl fun _ _ => List.map_append .., List.length_map]
  simpa [Function.instrs, Function.size] using h

/-- Without replacements, a scan that never just drops an instruction has kept them all. -/
theorem stable_of_subst_eq_nil (hlasting : Lasting fate)
    (h : (instrs fate [] k is).subst = []) : Stable fate k is := by
  induction is generalizing k with
  | nil => exact trivial
  | cons i is ih =>
    cases hf : fate k (Subst.instr [] i) with
    | keep k' =>
      rw [instrs_keep hf] at h
      exact ⟨k', by rw [← hf, Subst.instr_nil], ih h⟩
    | drop k' => exact absurd hf hlasting.drop
    | replace r v k' =>
      rw [instrs_replace hf] at h
      have hsuffix := suffix_instrs fate [(r, v)] k' is
      rw [h] at hsuffix
      cases List.suffix_nil.1 hsuffix

theorem stable_of_blocks_subst_eq_nil (hlasting : Lasting fate) (henter : ∀ k, enter k = k₀)
    (h : (blocks fate enter [] k bs).subst = []) :
    ∀ b ∈ bs, Stable fate k₀ b.instrs := by
  induction bs generalizing k with
  | nil => simp
  | cons b bs ih =>
    simp only [blocks, henter] at h
    have hb : (instrs fate [] k₀ b.instrs).subst = [] := by
      have hsuffix := suffix_blocks fate enter (instrs fate [] k₀ b.instrs).subst
        (instrs fate [] k₀ b.instrs).state bs
      rw [h] at hsuffix
      exact List.suffix_nil.1 hsuffix
    rw [hb] at h
    exact List.forall_mem_cons.2 ⟨stable_of_subst_eq_nil hlasting hb, ih h⟩

/-- **A scan that never just drops an instruction has changed a function exactly when it has made
replacements.** -/
theorem function_reports (hlasting : Lasting fate) (henter : ∀ k, enter k = k₀) (k : σ)
    (f : Function) :
    Reports f ((function fate enter k f).1, !(function fate enter k f).2.isEmpty) := by
  refine .of_cases rfl (fun hno => ?_) fun hyes => Function.ne_of_size_lt ?_
  · have hnil : (function fate enter k f).2 = [] := by simpa using hno
    rw [function_of_stable henter (stable_of_blocks_subst_eq_nil hlasting henter hnil)]
  · have hpos : 0 < (function fate enter k f).2.length := by
      rw [List.length_pos_iff]
      simpa using hyes
    have hsize := size_function fate enter k f
    omega

end Scan

theorem Folding.run_reports (f : Function) : Reports f (run f) := by
  have henter : ∀ k : Unit, id k = () := fun _ => rfl
  exact Scan.function_reports lasting henter () f

theorem CommonExpressions.run_reports (f : Function) : Reports f (run f) :=
  Scan.function_reports lasting (fun _ => rfl) {} f

/-! ### Promotion of slots -/

namespace SlotPromotion

/-- The slots that are promoted are made no more. -/
theorem notMem_slots_of_alloca {slots : List Nat} {k : List (Nat × Operand)} {f : Function}
    {r : Nat} {t : Ty} {n : String}
    (h : .alloca r t n ∈ (Scan.function (fate slots) id k f).1.instrs) : r ∉ slots := by
  rw [Scan.function, Subst.function,
    Function.instrs_mapBodies rfl fun _ _ => List.map_append ..] at h
  obtain ⟨j, hj, hsubst⟩ := List.mem_map.1 h
  obtain ⟨i, -, s, k, k', -, hkept⟩ := Scan.exists_of_mem_blocks hj
  cases j <;> cases hsubst
  intro hr
  simp [fate, hr] at hkept

theorem run_reports (f : Function) : Reports f (run f) := by
  cases hslots : slots f.instrs with
  | nil => simpa [run, hslots] using .same f
  | cons r rs =>
    have hr : r ∈ slots f.instrs := hslots ▸ List.mem_cons_self
    obtain ⟨i, hi, hmade⟩ := List.mem_filterMap.1 (List.mem_filter.1 hr).1
    have hrun : run f = ((Scan.function (fate (slots f.instrs)) id [] f).1, true) := by
      simp [run, hslots]
    rw [hrun]
    refine .different (fun heq => ?_) rfl
    cases i <;> cases hmade
    rw [← heq] at hi
    exact notMem_slots_of_alloca hi hr

end SlotPromotion

/-! ### Single instructions -/

namespace Function

variable {f : Function} {rule : Instr → Option Instr}

/-- A change of instructions one by one leaves a function as it is only if it does so with each. -/
theorem eq_of_mapBodies_map_eq_self {g : Instr → Instr} (h : f.mapBodies (·.map g) = f)
    {i : Instr} (hi : i ∈ f.instrs) : g i = i := by
  have hinstrs := congrArg instrs h
  rw [instrs_mapBodies rfl fun _ _ => List.map_append ..] at hinstrs
  exact List.map_eq_map_iff.1 (hinstrs.trans (List.map_id _).symm) i hi

/-- **A rule that puts something else in the place of an instruction changes a function exactly when
it applies somewhere.** -/
theorem peephole_reports (hrule : ∀ i j, rule i = some j → j ≠ i) (f : Function) :
    Reports f (f.peephole rule) := by
  refine .of_cases rfl (fun hno => ?_) fun hyes heq => ?_
  · have hnone : ∀ i ∈ f.instrs, rule i = none := by simpa using hno
    exact congrArg Prod.fst (peephole_of_none hnone)
  · obtain ⟨i, hi, happlies⟩ := List.any_eq_true.1 hyes
    obtain ⟨j, hj⟩ := Option.isSome_iff_exists.1 happlies
    have hself := eq_of_mapBodies_map_eq_self heq hi
    rw [hj, Option.getD_some] at hself
    exact hrule i j hj hself

end Function

/-- Operands that are out of order are not the same. -/
theorem OperandOrder.rule_ne (i j : Instr) (h : rule i = some j) : j ≠ i := by
  rintro rfl
  cases h.symm.trans (rule_rule _ _ h)

/-- Another operation takes the place of a difference or a quotient. -/
theorem Strength.rule_ne (i j : Instr) (h : rule i = some j) : j ≠ i := by
  rintro rfl
  cases h.symm.trans (rule_rule _ _ h)

/-! ### Reachable code -/

namespace Reachable

theorem upToTerminator_isPrefix (is : List Instr) : upToTerminator is <+: is := by
  induction is with
  | nil => exact List.prefix_refl _
  | cons i is ih =>
    rw [upToTerminator]
    split
    · exact List.cons_prefix_cons.2 ⟨rfl, List.nil_prefix⟩
    · exact List.cons_prefix_cons.2 ⟨rfl, ih⟩

/-- A body that is not cut is as it was. -/
theorem upToTerminator_eq_self {is : List Instr} (h : ¬(upToTerminator is).length < is.length) :
    upToTerminator is = is :=
  (upToTerminator_isPrefix is).eq_of_length_le (Nat.not_lt.1 h)

theorem run_reports (f : Function) : Reports f (run f) := by
  refine .of_cases rfl (fun hno => ?_) fun hyes heq => ?_
  · simp only [Bool.or_eq_false_iff, List.any_eq_false, decide_eq_true_eq,
      decide_eq_false_iff_not] at hno
    obtain ⟨hcut, hone⟩ := hno
    rw [Function.mapBodies_eq_self fun b hb => upToTerminator_eq_self (hcut b hb),
      List.take_of_length_le (Nat.not_lt.1 hone)]
  · have hblocks := congrArg Function.blocks heq
    have hone : f.blocks.length ≤ 1 := by
      rw [← hblocks]
      exact List.length_take_le 1 _
    -- With one block at most, none is left out, so that a body must have been cut.
    simp only [Bool.or_eq_true, decide_eq_true_eq, Nat.not_lt.2 hone, or_false,
      List.any_eq_true] at hyes
    obtain ⟨b, hb, hcut⟩ := hyes
    rw [Function.mapBodies, List.take_of_length_le (by simpa using hone)] at hblocks
    have hself := List.map_eq_map_iff.1 (hblocks.trans (List.map_id _).symm) b hb
    have hlength := congrArg (fun b => b.instrs.length) hself
    exact Nat.ne_of_lt hcut hlength

end Reachable

/-! ### Dead code -/

namespace DeadCode

theorem size_sweepAll_le (f : Function) : (sweepAll f).size ≤ f.size := by
  fun_induction sweepAll f with
  | case1 f hlt ih => exact ih.trans (Nat.le_of_lt hlt)
  | case2 f _ => exact Nat.le_refl _

theorem sweepAll_frame (f : Function) : sweepAll f = { f with blocks := (sweepAll f).blocks } := by
  fun_induction sweepAll f with
  | case1 f _ ih => exact ih
  | case2 f _ => rfl

theorem run_reports (f : Function) : Reports f (run f) := by
  refine .of_cases (sweepAll_frame f) (fun hno => ?_) fun hyes => Function.ne_of_size_lt ?_
  · rw [sweepAll, if_neg (of_decide_eq_false hno)]
  · have hlt : (sweep f).size < f.size := of_decide_eq_true hyes
    rw [sweepAll, if_pos hlt]
    exact (size_sweepAll_le _).trans_lt hlt

end DeadCode

/-! ### Passes -/

namespace Pass

theorem run_reports (p : Pass) (f : Function) : Reports f (p.run f) := by
  unfold run
  split
  · exact .same f
  · cases p with
    | sroa => exact UnreadSlots.run_reports f
    | earlyCse => exact CommonExpressions.run_reports f
    | simplifyCfg => exact Reachable.run_reports f
    | reassociate => exact Function.peephole_reports OperandOrder.rule_ne f
    | mem2reg => exact SlotPromotion.run_reports f
    | instSimplify => exact Folding.run_reports f
    | instCombine => exact Function.peephole_reports Strength.rule_ne f
    | dce => exact DeadCode.run_reports f

/-- **A pass says that a function changed exactly when it did.** This holds of every function,
whether it verifies or not. An external function is never changed, and of the others no more than
the blocks. -/
theorem run_changed_iff (p : Pass) (f : Function) :
    ((p.run f).2 = true ↔ (p.run f).1 ≠ f) ∧
      (f.isExternal = true → p.run f = (f, false)) ∧
      (p.run f).1.name = f.name ∧ (p.run f).1.params = f.params ∧
      (p.run f).1.returnType = f.returnType ∧ (p.run f).1.isExternal = f.isExternal ∧
      (p.run f).1.stage = f.stage := by
  have h := p.run_reports f
  refine ⟨h.changed, fun hext => by rw [run, if_pos hext], ?_⟩
  rw [h.frame]
  exact ⟨rfl, rfl, rfl, rfl, rfl⟩

/-- A function that does not verify: a temp is used before it is defined, and defined twice. -/
def twisted : Function where
  name := "f"
  blocks := [{
    id := 0, name := "entry"
    instrs := [
      .arith 2 .add (.temp 1) (.float 1.0), .arith 1 .mul (.float 2.0) (.float 3.0),
      .arith 1 .mul (.float 4.0) (.float 5.0), .ret (.temp 2)] }]

/-- A function that adds two constants to its parameter, which are given by their bits. -/
def addsBits (a b : UInt64) : Function where
  name := "f"
  params := [(0, "x")]
  blocks := [{
    id := 0, name := "entry"
    instrs := [
      .arith 1 .add (.temp 0) (.float ⟨a⟩), .arith 2 .add (.temp 0) (.float ⟨b⟩),
      .arith 3 .mul (.temp 1) (.temp 2), .ret (.temp 3)] }]

/-- Folding changes the function and says so; ordering operands does neither; and as an external
function it would be left alone. Two sums are the same expression only if their constants have the
same bits, also where neither is a number. -/
theorem run_changed_iff_twisted :
    (instSimplify.run twisted).1 ≠ twisted ∧ (reassociate.run twisted).1 = twisted ∧
      instSimplify.run { twisted with isExternal := true } =
        ({ twisted with isExternal := true }, false) ∧
      let nan : UInt64 := 0x7FF8000000000001
      let other : UInt64 := 0x7FF8000000000002
      (earlyCse.run (addsBits nan other)).1 = addsBits nan other ∧
        (earlyCse.run (addsBits nan nan)).1 ≠ addsBits nan nan := by
  have same {p : Pass} {f : Function} (h : (p.run f).2 = false) : (p.run f).1 = f := by
    by_contra hne
    rw [(run_changed_iff p f).1.2 hne] at h
    cases h
  exact ⟨(run_changed_iff instSimplify twisted).1.1 (by decide +kernel), same (by decide +kernel),
    (run_changed_iff instSimplify _).2.1 rfl, same (by decide +kernel),
    (run_changed_iff earlyCse _).1.1 (by decide +kernel)⟩

end Pass

end StraightLine
