import StraightLine.Proofs.ChangeReports

/-!
# Replacements need no second look

A substitution is applied in one step: the operand that it puts in the place of a temp is not looked
up again. That is enough, for a scan never collects two replacements that would have to follow each
other (`Pass.replacements_resolved`). What a pass has collected in the end is what it applies
(`Pass.run_eq_replacements`).

At every point of a scan the temps that the kept code defines have not been replaced, and a
replacement is an operand that the kept code can read. What is kept stays, so the temps that stand
for others are never replaced later either.
-/

namespace StraightLine

open Verify (Types OperandOk)

/-- The code of a function up to a point: its first `j` blocks, and of the next one the first `n`
instructions. -/
def Function.upTo (f : Function) (j n : Nat) : List Block :=
  f.blocks.take j ++ (f.blocks[j]?.map fun b => { b with instrs := b.instrs.take n }).toList

/-- The code up to a point is the beginning of the code. -/
theorem Function.upTo_prefix (f : Function) (j n : Nat) :
    (f.upTo j n).flatMap Block.instrs <+: f.instrs := by
  have hsplit : f.instrs = (f.blocks.take j).flatMap Block.instrs ++
      (f.blocks.drop j).flatMap Block.instrs := by
    rw [← List.flatMap_append, List.take_append_drop, instrs]
  rw [hsplit, upTo, List.flatMap_append, List.prefix_append_right_inj]
  cases hb : f.blocks[j]? with
  | none => simp
  | some b =>
    obtain ⟨hj, rfl⟩ := List.getElem?_eq_some_iff.1 hb
    rw [List.drop_eq_getElem_cons hj, List.flatMap_cons]
    simpa using (List.take_prefix n _).trans (List.prefix_append _ _)

namespace Scan

variable {σ : Type} {fate : σ → Instr → Fate σ} {enter : σ → σ} {s : Subst} {k : σ}

/-- The replacements that a scan of a function has collected at a point. -/
def substAt (fate : σ → Instr → Fate σ) (enter : σ → σ) (k : σ) (f : Function) (j n : Nat) :
    Subst :=
  (blocks fate enter [] k (f.upTo j n)).subst

/-! ### From a point to the end -/

theorem instrs_append (fate : σ → Instr → Fate σ) (s : Subst) (k : σ) (is js : List Instr) :
    instrs fate s k (is ++ js) =
      { instrs fate (instrs fate s k is).subst (instrs fate s k is).state js with
        kept := (instrs fate s k is).kept ++
          (instrs fate (instrs fate s k is).subst (instrs fate s k is).state js).kept } := by
  induction is generalizing s k with
  | nil => rfl
  | cons i is ih =>
    rw [List.cons_append]
    cases hf : fate k (s.instr i) with
    | keep k' => rw [instrs_keep hf, instrs_keep hf, ih]; rfl
    | drop k' => rw [instrs_drop hf, instrs_drop hf, ih]
    | replace r v k' => rw [instrs_replace hf, instrs_replace hf, ih]

theorem blocks_append (fate : σ → Instr → Fate σ) (enter : σ → σ) (s : Subst) (k : σ)
    (bs cs : List Block) :
    blocks fate enter s k (bs ++ cs) =
      { blocks fate enter (blocks fate enter s k bs).subst (blocks fate enter s k bs).state cs with
        kept := (blocks fate enter s k bs).kept ++
          (blocks fate enter (blocks fate enter s k bs).subst
            (blocks fate enter s k bs).state cs).kept } := by
  induction bs generalizing s k with
  | nil => rfl
  | cons b bs ih => simp only [List.cons_append, blocks, ih]

/-- After a point a scan only keeps more and collects more. -/
theorem upTo_later (fate : σ → Instr → Fate σ) (enter : σ → σ) (k : σ) (f : Function) (j n : Nat) :
    (blocks fate enter [] k (f.upTo j n)).kept.flatMap Block.instrs <+:
        (blocks fate enter [] k f.blocks).kept.flatMap Block.instrs ∧
      substAt fate enter k f j n <:+ (blocks fate enter [] k f.blocks).subst := by
  obtain ⟨r, hr⟩ : ∃ r, r = blocks fate enter [] k (f.blocks.take j) := ⟨_, rfl⟩
  have hwhole := blocks_append fate enter [] k (f.blocks.take j) (f.blocks.drop j)
  rw [List.take_append_drop, ← hr] at hwhole
  rw [substAt, Function.upTo, blocks_append, ← hr, hwhole]
  simp only [List.flatMap_append, List.prefix_append_right_inj]
  cases hb : f.blocks[j]? with
  | none => exact ⟨List.nil_prefix, suffix_blocks ..⟩
  | some b =>
    obtain ⟨hj, rfl⟩ := List.getElem?_eq_some_iff.1 hb
    rw [List.drop_eq_getElem_cons hj]
    -- The next block goes on from the state in which it was left.
    have hnext := instrs_append fate r.subst (enter r.state) ((f.blocks[j]).instrs.take n)
      ((f.blocks[j]).instrs.drop n)
    rw [List.take_append_drop] at hnext
    simp only [blocks, Option.map_some, Option.toList_some, hnext, List.flatMap_cons,
      List.flatMap_nil, List.append_nil, List.append_assoc]
    exact ⟨List.prefix_append _ _, (suffix_instrs ..).trans (suffix_blocks ..)⟩

theorem substAt_end (fate : σ → Instr → Fate σ) (enter : σ → σ) (k : σ) (f : Function) :
    substAt fate enter k f f.blocks.length 0 = (blocks fate enter [] k f.blocks).subst := by
  have hend : f.upTo f.blocks.length 0 = f.blocks := by simp [Function.upTo]
  rw [substAt, hend]

/-- The substitution that a scan applies to what it keeps is the one that it has collected in the
end. -/
theorem function_eq_substAt (fate : σ → Instr → Fate σ) (enter : σ → σ) (k : σ) (f : Function) :
    (function fate enter k f).1 =
      Subst.function (substAt fate enter k f f.blocks.length 0)
        { f with blocks := (blocks fate enter [] k f.blocks).kept } := by
  rw [substAt_end, function]

/-! ### What is kept and what is replaced -/

section Typed

variable {A : Arities} {gone : Nat → Prop} {Inv : σ → Types → Prop} {f : Function} {j n : Nat}
  (hfate : TypedBy A gone fate Inv) (henter : ∀ k Δ, Inv k Δ → Inv (enter k) Δ)
  (hf : f.WellFormed A) (hk : Inv k f.paramTypes)
include hfate henter hf hk

/-- At every point the kept code is typed, and the types of the code so far are carried into it. -/
theorem upTo_typed (j n : Nat) :
    Code.Typed A f.paramTypes ((blocks fate enter [] k (f.upTo j n)).kept.flatMap Block.instrs) ∧
      TypesCarry gone (substAt fate enter k f j n)
        (Code.typesAfter f.paramTypes ((f.upTo j n).flatMap Block.instrs))
        (Code.typesAfter f.paramTypes
          ((blocks fate enter [] k (f.upTo j n)).kept.flatMap Block.instrs)) := by
  obtain ⟨rest, hrest⟩ := f.upTo_prefix j n
  have htyped := hf.typed
  rw [← hrest, Code.typed_append] at htyped
  exact blocks_typed hfate henter (Carries.refl Reading.types gone f.paramTypes.env) hk htyped.1

/-- A temp that is replaced has a type, and so has in the kept code what is put in its place. -/
theorem operandOk_of_substAt {id : Nat} {v : Operand}
    (h : (substAt fate enter k f j n).lookup id = some v) :
    ∃ t, (Code.typesAfter f.paramTypes ((f.upTo j n).flatMap Block.instrs)).lookup id = some t ∧
      OperandOk (Code.typesAfter f.paramTypes
        ((blocks fate enter [] k (f.upTo j n)).kept.flatMap Block.instrs)) t v := by
  obtain ⟨-, hc⟩ := upTo_typed hfate henter hf hk j n
  cases hid : (Code.typesAfter f.paramTypes ((f.upTo j n).flatMap Block.instrs)).lookup id with
  | none =>
    have hnone := (hc.unknown id hid).2
    rw [h] at hnone
    cases hnone
  | some t =>
    refine ⟨t, rfl, ?_⟩
    by_cases hslot : t = .slot
    · have hnone := (hc.slot id t hid hslot).1
      rw [h] at hnone
      cases hnone
    · have hreads := hc.value id t hid hslot
      rwa [Subst.operand, h, Option.getD_some, reads_types] at hreads

/-- A temp that the kept code defines at one point is replaced at none. -/
theorem lookup_substAt_of_kept {q : Nat} {t : Ty}
    (h : (Code.typesAfter f.paramTypes
      ((blocks fate enter [] k (f.upTo j n)).kept.flatMap Block.instrs)).lookup q = some t)
    (j' n' : Nat) : (substAt fate enter k f j' n').lookup q = none := by
  obtain ⟨ht, hc⟩ := blocks_typed hfate henter
    (Carries.refl Reading.types gone f.paramTypes.env) hk hf.typed
  obtain ⟨later, hlater⟩ := (upTo_later fate enter k f j n).1
  rw [← hlater, Code.typed_append] at ht
  have hend := ht.2.extends q t h
  rw [← Code.typesAfter_append, hlater] at hend
  have hnone : (blocks fate enter [] k f.blocks).subst.lookup q = none := by
    cases hq : (blocks fate enter [] k f.blocks).subst.lookup q with
    | none => rfl
    | some v =>
      have hgone : List.lookup q _ = none := hc.replaced q v hq
      rw [hend] at hgone
      cases hgone
  rw [List.lookup_eq_none_iff] at hnone ⊢
  exact fun p hp => hnone p ((upTo_later fate enter k f j' n').2.subset hp)

/-- **The temp that stands in the place of another is never replaced.** -/
theorem lookup_substAt_temp {id q : Nat}
    (h : (substAt fate enter k f j n).lookup id = some (.temp q)) (j' n' : Nat) :
    (substAt fate enter k f j' n').lookup q = none := by
  obtain ⟨t, -, hq⟩ := operandOk_of_substAt hfate henter hf hk h
  exact lookup_substAt_of_kept hfate henter hf hk hq j' n'

/-- What the kept code defines is defined in the function, at the same type. -/
theorem lookup_of_kept {q : Nat} {t : Ty}
    (h : (Code.typesAfter f.paramTypes
      ((blocks fate enter [] k (f.upTo j n)).kept.flatMap Block.instrs)).lookup q = some t) :
    (Code.typesAfter f.paramTypes f.instrs).lookup q = some t := by
  obtain ⟨ht, -⟩ := upTo_typed hfate henter hf hk j n
  rw [hf.typed.lookup_eq_some_iff]
  rcases ht.lookup_eq_some_iff.1 h with hparam | ⟨i, hi, hr, htype⟩
  · exact .inl hparam
  · obtain ⟨i', hi', s, k, k', rfl, -⟩ := exists_of_mem_blocks hi
    exact .inr ⟨i', (f.upTo_prefix j n).subset hi', by simpa using hr, by simpa using htype⟩

/-- **What is put in the place of a temp has its type.** -/
theorem fitsAt_substAt {id : Nat} {v : Operand}
    (h : (substAt fate enter k f j n).lookup id = some v) :
    ∃ t, f.HasAt f.size id t ∧ f.FitsAt f.size t v := by
  have hall : f.instrs.take f.size = f.instrs := List.take_length
  have htake : Code.Typed A f.paramTypes (f.instrs.take f.size) := by
    rw [hall]
    exact hf.typed
  obtain ⟨t, hid, hv⟩ := operandOk_of_substAt hfate henter hf hk h
  obtain ⟨rest, hrest⟩ := f.upTo_prefix j n
  have htyped := hf.typed
  rw [← hrest, Code.typed_append] at htyped
  have hid' := htyped.2.extends id t hid
  rw [← Code.typesAfter_append, hrest] at hid'
  refine ⟨t, ?_, ?_⟩
  · rw [Function.hasAt_iff htake, hall]
    exact hid'
  · rw [Function.fitsAt_iff htake, hall]
    cases v with
    | temp q => exact lookup_of_kept hfate henter hf hk hv
    | _ => exact hv

end Typed

end Scan

/-! ### What is left -/

/-- In a well-formed function that has come from another, no temp is read whose definition is
gone. -/
theorem Function.Refines.defined_of_uses {A : Arities} {f g : Function} (hf : f.WellFormed A)
    (h : g.Refines A f) {i j : Instr} {q : Nat} (hi : i ∈ g.instrs) (hq : q ∈ i.uses)
    (hj : j ∈ f.instrs) (hr : j.result? = some q) : ∃ j' ∈ g.instrs, j'.result? = some q := by
  have ht := h.wellFormed.typed
  obtain ⟨t, hw⟩ := Instr.exists_mem_wants (ht.shaped hi) (Instr.mem_uses.1 hq)
  rcases ht.lookup_eq_some_iff.1 (ht.operandOk hi hw) with hparam | ⟨j', hj', hr', -⟩
  · -- A parameter is not defined by an instruction.
    obtain ⟨p, hp, hid, -⟩ := Function.lookup_paramTypes_eq_some_iff.1 hparam
    rw [h.params] at hp
    obtain ⟨before, after, hsplit⟩ := List.append_of_mem hj
    have htyped := hf.typed
    rw [hsplit, Code.typed_append] at htyped
    have hnew := (Code.lookup_typesAfter_eq_none.1 (htyped.2.1.fresh q hr)).1
    exact absurd hid (Function.lookup_paramTypes_eq_none.1 hnew p hp)
  · exact ⟨j', hj', hr'⟩

/-! ### Passes -/

namespace Pass

/-- The replacements that a pass has collected when it has gone through the first `j` blocks of a
function and the first `n` instructions of the next one. The passes that do not scan collect
none. -/
def replacements (p : Pass) (f : Function) (j n : Nat) : Subst :=
  match p with
  | earlyCse => Scan.substAt CommonExpressions.fate (fun _ => {}) {} f j n
  | mem2reg => Scan.substAt (SlotPromotion.fate (SlotPromotion.slots f.instrs)) id [] f j n
  | instSimplify => Scan.substAt Folding.fate id () f j n
  | _ => []

/-- What has been replaced at a point is replaced so in the end. -/
theorem replacements_suffix (p : Pass) (f : Function) (j n : Nat) :
    p.replacements f j n <:+ p.replacements f f.blocks.length 0 := by
  have scan {σ : Type} (fate : σ → Instr → Fate σ) (enter : σ → σ) (k : σ) :
      Scan.substAt fate enter k f j n <:+ Scan.substAt fate enter k f f.blocks.length 0 := by
    rw [Scan.substAt_end]
    exact (Scan.upTo_later fate enter k f j n).2
  cases p with
  | earlyCse => exact scan ..
  | mem2reg => exact scan ..
  | instSimplify => exact scan ..
  | _ => exact List.suffix_refl []

/-- **A pass that changes a function applies the replacements that it has collected in the end** to
the code that it keeps. -/
theorem run_eq_replacements {p : Pass} {f : Function} (h : (p.run f).2 = true) :
    ∃ kept, (p.run f).1 =
      (p.replacements f f.blocks.length 0).function { f with blocks := kept } := by
  have hframe := (p.run_reports f).frame
  unfold run at h hframe ⊢
  split at h
  next => cases h
  next hbody =>
    rw [if_neg hbody] at hframe ⊢
    cases p with
    | earlyCse => exact ⟨_, Scan.function_eq_substAt ..⟩
    | instSimplify => exact ⟨_, Scan.function_eq_substAt ..⟩
    | mem2reg =>
      rw [transform, SlotPromotion.run] at h ⊢
      split at h
      next => cases h
      next hslots =>
        rw [if_neg hslots]
        exact ⟨_, Scan.function_eq_substAt ..⟩
    | _ => exact ⟨_, hframe.trans (Subst.function_nil _).symm⟩

/-- What a pass puts in the place of temps needs no second look. -/
structure Resolved (p : Pass) (f : Function) : Prop where
  /-- The temp that stands in the place of another at one point is replaced at none. -/
  unreplaced : ∀ j n id q, (p.replacements f j n).lookup id = some (.temp q) →
    ∀ j' n', (p.replacements f j' n').lookup q = none
  /-- What stands in the place of a temp at a point has its type, or is undefined. -/
  typed : ∀ j n id v, (p.replacements f j n).lookup id = some v →
    ∃ t, f.HasAt f.size id t ∧ f.FitsAt f.size t v
  /-- In the end no temp is read whose definition was removed. -/
  defined : ∀ i ∈ (p.run f).1.instrs, ∀ q ∈ i.uses, ∀ j ∈ f.instrs, j.result? = some q →
    ∃ j' ∈ (p.run f).1.instrs, j'.result? = some q

theorem lookup_replacements {A : Arities} {f : Function} (hf : f.WellFormed A) (p : Pass)
    {j n id : Nat} {v : Operand} (h : (p.replacements f j n).lookup id = some v) :
    (∀ q, v = .temp q → ∀ j' n', (p.replacements f j' n').lookup q = none) ∧
      ∃ t, f.HasAt f.size id t ∧ f.FitsAt f.size t v := by
  have scan {σ : Type} {fate : σ → Instr → Fate σ} {enter : σ → σ} {k : σ} {gone : Nat → Prop}
      {Inv : σ → Types → Prop} (hfate : Scan.TypedBy A gone fate Inv)
      (henter : ∀ k Δ, Inv k Δ → Inv (enter k) Δ) (hk : Inv k f.paramTypes)
      (h : (Scan.substAt fate enter k f j n).lookup id = some v) :
      (∀ q, v = .temp q → ∀ j' n', (Scan.substAt fate enter k f j' n').lookup q = none) ∧
        ∃ t, f.HasAt f.size id t ∧ f.FitsAt f.size t v := by
    refine ⟨?_, Scan.fitsAt_substAt hfate henter hf hk h⟩
    rintro q rfl
    exact Scan.lookup_substAt_temp hfate henter hf hk h
  cases p with
  | earlyCse =>
    exact scan (CommonExpressions.typedBy A) (fun _ _ _ => ⟨by simp, by simp⟩) ⟨by simp, by simp⟩ h
  | mem2reg => exact scan (SlotPromotion.typedBy A) (fun _ _ h => h) (fun p v hv => by cases hv) h
  | instSimplify => exact scan (Folding.typedBy A) (fun _ _ h => h) trivial h
  | _ => cases h

/-- **One step of substitution is enough.** Take a function that verifies, and any point of a pass
over it. The pass puts no temp in the place of another that it replaces then, before or after. What
it puts in the place of a temp has its type, or is undefined. In the end, no temp is read whose
definition the pass has removed. -/
theorem replacements_resolved {m : Module} {f : Function} (hf : m.verifyFunction f = .ok ())
    (p : Pass) : p.Resolved f := by
  have hwf := Module.verifyFunction_eq_ok.1 hf
  refine ⟨fun j n id q h => ?_, fun j n id v h => ?_, fun i hi q hq j hj hr => ?_⟩
  · exact (p.lookup_replacements hwf h).1 q rfl
  · exact (p.lookup_replacements hwf h).2
  · exact (p.run_refines hwf).defined_of_uses hwf hi hq hj hr

/-- A sum is computed twice, and the second result goes through a slot. -/
def detour : Module where
  name := "detour"
  functions := [
    { name := "f", params := [(0, "x")], stage := .terminated
      blocks := [{
        id := 0, name := "entry"
        instrs := [
          .alloca 1 .double "y", .arith 2 .add (.temp 0) (.temp 0),
          .arith 3 .add (.temp 0) (.temp 0), .store (.temp 3) (.temp 1),
          .load 4 (.temp 1) .double, .ret (.temp 4)] }] }]

/-- What the slot holds stands for the first sum, and not for the second, which is replaced. -/
theorem replacements_resolved_detour :
    let f := detour.functions[0]
    detour.verifyFunction f = .ok () ∧ earlyCse.Resolved f ∧
      earlyCse.replacements f 0 3 = [(3, .temp 2)] ∧
      earlyCse.replacements f 0 5 = [(4, .temp 2), (3, .temp 2)] ∧
      ∀ j n, (earlyCse.replacements f j n).lookup 2 = none := by
  intro f
  have hf : detour.verifyFunction f = .ok () := by decide +kernel
  have hfive : earlyCse.replacements f 0 5 = [(4, .temp 2), (3, .temp 2)] := by decide +kernel
  have hresolved := replacements_resolved hf earlyCse
  refine ⟨hf, hresolved, by decide +kernel, hfive, hresolved.unreplaced 0 5 4 2 ?_⟩
  rw [hfive]
  rfl

end Pass

end StraightLine
