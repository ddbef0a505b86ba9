import StraightLine.Pass.Scan
import StraightLine.Proofs.Carry

/-!
# Scans refine

What a scan of a function needs of the fate that it gives to single instructions, once for types
(`Scan.TypedBy`) and once for stores (`Scan.SoundBy`), and that the function it leaves then refines
the one that it was given (`Scan.function_refines`).

In both, an invariant joins the state of the scan with what is known of the code that is kept.
-/

namespace StraightLine.Scan

open Verify (Types OperandOk)

variable {σ : Type}

/-! ### Types -/

/-- What the fate of an instruction must satisfy for the code that is kept to be typed. The types
before and after the scan are carried by `s`, and `i` is an instruction that is in order before. -/
def FateTyped (A : Arities) (gone : Nat → Prop) (Inv : σ → Types → Prop) (Δ : Types) (i : Instr) :
    Fate σ → Prop
  | .keep k => (∀ p, gone p → (Ty.slot, .temp p) ∉ i.wants) ∧ (i.Ok A Δ → Inv k (i.typesAfter Δ))
  | .drop k =>
    (∀ r, i.result? = some r → gone r ∧ i.resultType? = some .slot) ∧ Inv k Δ
  | .replace r v k =>
    i.result? = some r ∧ (∃ t, i.resultType? = some t ∧ t ≠ .slot ∧ OperandOk Δ t v) ∧ Inv k Δ

/-- A fate under which a scan keeps its invariant and leaves typed code. -/
structure TypedBy (A : Arities) (gone : Nat → Prop) (fate : σ → Instr → Fate σ)
    (Inv : σ → Types → Prop) : Prop where
  step : ∀ k s Γ Δ i, TypesCarry gone s Γ Δ → Inv k Δ → i.Ok A Γ →
    FateTyped A gone Inv Δ (s.instr i) (fate k (s.instr i))

variable {fate : σ → Instr → Fate σ} {s : Subst} {k k' : σ} {i : Instr} {is : List Instr}

theorem instrs_keep (h : fate k (s.instr i) = .keep k') :
    instrs fate s k (i :: is) =
      { instrs fate s k' is with kept := s.instr i :: (instrs fate s k' is).kept } := by
  simp only [instrs, h]

theorem instrs_drop (h : fate k (s.instr i) = .drop k') :
    instrs fate s k (i :: is) = instrs fate s k' is := by
  simp only [instrs, h]

theorem instrs_replace {r : Nat} {v : Operand} (h : fate k (s.instr i) = .replace r v k') :
    instrs fate s k (i :: is) = instrs fate ((r, v) :: s) k' is := by
  simp only [instrs, h]

/-- A scan of typed instructions leaves typed instructions, carries the types on and keeps its
invariant. -/
theorem instrs_typed {A : Arities} {gone : Nat → Prop} {Inv : σ → Types → Prop}
    (hfate : TypedBy A gone fate Inv) {Γ Δ : Types} (hc : TypesCarry gone s Γ Δ) (hk : Inv k Δ)
    (ht : Code.Typed A Γ is) :
    Code.Typed A Δ (instrs fate s k is).kept ∧
      TypesCarry gone (instrs fate s k is).subst (Code.typesAfter Γ is)
        (Code.typesAfter Δ (instrs fate s k is).kept) ∧
      Inv (instrs fate s k is).state (Code.typesAfter Δ (instrs fate s k is).kept) := by
  induction is generalizing s k Γ Δ with
  | nil => exact ⟨trivial, hc, hk⟩
  | cons i is ih =>
    have hstep := hfate.step k s Γ Δ i hc hk ht.1
    cases hf : fate k (s.instr i) with
    | keep k' =>
      rw [hf] at hstep
      obtain ⟨hgone, hinv⟩ := hstep
      have hok := hc.ok ht.1 hgone
      have hinv := hinv hok
      rw [instrs_keep hf]
      rw [Subst.typesAfter_instr] at hinv
      have ⟨h₁, h₂, h₃⟩ := ih (hc.keep ht.1) hinv ht.2
      simp only [Code.Typed, Code.typesAfter_cons, Subst.typesAfter_instr]
      exact ⟨⟨hok, h₁⟩, h₂, h₃⟩
    | drop k' =>
      rw [hf] at hstep
      obtain ⟨hgone, hinv⟩ := hstep
      rw [instrs_drop hf]
      exact ih (hc.drop ht.1 (by simpa using hgone)) hinv ht.2
    | replace r v k' =>
      rw [hf] at hstep
      obtain ⟨hr, ⟨t, htype, hslot, hv⟩, hinv⟩ := hstep
      rw [instrs_replace hf]
      exact ih (hc.replace ht.1 (by simpa using hr) (by simpa using htype) hslot hv) hinv ht.2

/-- A scan that keeps returns leaves closed instructions closed. -/
theorem instrs_closed (hret : ∀ k v, fate k (.ret v) = .keep k) (h : Code.Closed is) :
    Code.Closed (instrs fate s k is).kept := by
  induction is generalizing s k with
  | nil => exact h
  | cons i is ih =>
    by_cases ht : i.isTerminator
    · obtain rfl : is = [] := by simpa [Code.Closed, ht] using h
      cases i with
      | ret v =>
        rw [instrs_keep (hret k (s.operand v))]
        simp [Code.Closed, instrs, Subst.instr, Instr.mapOperands, Instr.isTerminator]
      | _ => cases ht
    · have h : Code.Closed is := by simpa [Code.Closed, ht] using h
      cases hf : fate k (s.instr i) with
      | keep k' =>
        rw [instrs_keep hf]
        simpa [Code.Closed, ht] using ih h
      | drop k' =>
        rw [instrs_drop hf]
        exact ih h
      | replace r v k' =>
        rw [instrs_replace hf]
        exact ih h

/-! ### Stores -/

/-- What the fate of an instruction with an effect must satisfy for the code that is kept to run as
the code before does. -/
def FateSound (gone : Nat → Prop) (Inv : σ → Store → Store → Prop) (st gt : Store) (i : Instr)
    (w : Nat × Held) : Fate σ → Prop
  | .keep k =>
    (∀ p, gone p → (Ty.slot, .temp p) ∉ i.wants) ∧ Inv k (st.put w) (gt.put w)
  | .drop k => gone w.1 ∧ (∃ c, w.2 = .slot c) ∧ Inv k (st.put w) gt
  | .replace r v k =>
    i.result? = some r ∧ (∀ c, w.2 ≠ .slot c) ∧ gt.held v = some w.2 ∧ Inv k (st.put w) gt

/-- A fate under which a scan keeps its invariant and leaves code that runs as before. -/
structure SoundBy (gone : Nat → Prop) (fate : σ → Instr → Fate σ) (Inv : σ → Store → Store → Prop) :
    Prop where
  step : ∀ k s st gt i w, StoresCarry gone s st gt → Inv k st gt → st.effect i = some w →
    (∀ r, i.result? = some r → st r = none) →
      FateSound gone Inv st gt (s.instr i) w (fate k (s.instr i))
  call : ∀ k r f args, fate k (.call r f args) = .keep k
  called : ∀ k st gt r x, Inv k st gt → st r = none → gt r = none →
    Inv k (st.put (r, .float x)) (gt.put (r, .float x))
  ret : ∀ k v, fate k (.ret v) = .keep k

/-- The temps that hold something have types. -/
def Fits (Γ : Types) (st : Store) : Prop := ∀ id, Γ.lookup id = none → st id = none

theorem Fits.put_result {Γ : Types} {st : Store} (h : Fits Γ st) {i : Instr} {w : Nat × Held}
    (hr : i.result? = some w.1) : Fits (i.typesAfter Γ) (st.put w) := by
  intro id hid
  obtain ⟨t, ht⟩ := Instr.exists_resultType hr
  obtain ⟨hne, hid⟩ := Env.set_eq_none.1 ((congrFun (Instr.env_typesAfter hr ht) id).symm.trans hid)
  rw [Store.put_of_ne st hne, h id hid]

/-- What an instruction writes has a type. -/
theorem Fits.put {Γ : Types} {st : Store} (h : Fits Γ st) {i : Instr} {w : Nat × Held}
    (hw : st.effect i = some w) : Fits (i.typesAfter Γ) (st.put w) := by
  rcases Store.effect_cases hw with hr | ⟨v, p, c, x, rfl, hp, _⟩
  · exact h.put_result hr
  · intro id hid
    have hne : id ≠ w.1 := by
      rintro rfl
      have hslot := (Store.slot_eq_some.1 hp).2
      rw [h _ hid] at hslot
      cases hslot
    rw [Store.put_of_ne st hne]
    exact h id hid

/-- **A scan leaves instructions that run as before.** -/
theorem instrs_run {A : Arities} {gone : Nat → Prop} {Inv : σ → Store → Store → Prop}
    (hfate : SoundBy gone fate Inv) {Γ : Types} (ht : Code.Typed A Γ is) {st gt : Store}
    (hfits : Fits Γ st) (hc : StoresCarry gone s st gt) (hk : Inv k st gt) {callee : Callee}
    {out : String} {a : Answer} (h : st.run callee is out = some a) :
    gt.run callee (instrs fate s k is).kept out = some a := by
  -- Both stores, the substitution and what is known change with every instruction.
  induction is generalizing s k Γ st gt out with
  | nil => cases h
  | cons i is ih =>
    have hfresh : ∀ r, i.result? = some r → st r = none := fun r hr => hfits r (ht.1.fresh r hr)
    by_cases hi : i.isPlain
    · rw [Store.run_plain hi, Option.bind_eq_some_iff] at h
      obtain ⟨w, hw, h⟩ := h
      have hstep := hfate.step k s st gt i w hc hk hw hfresh
      cases hf : fate k (s.instr i) with
      | keep k' =>
        rw [hf] at hstep
        obtain ⟨hgone, hk'⟩ := hstep
        rw [instrs_keep hf, Store.run_plain (by simpa using hi), hc.effect hw hgone]
        exact ih ht.2 (hfits.put hw) (hc.keep hw hfresh hgone) hk' h
      | drop k' =>
        rw [hf] at hstep
        obtain ⟨hgone, hslot, hk'⟩ := hstep
        rw [instrs_drop hf]
        exact ih ht.2 (hfits.put hw) (hc.drop hw hfresh hgone hslot) hk' h
      | replace r v k' =>
        rw [hf] at hstep
        obtain ⟨hr, hslot, hv, hk'⟩ := hstep
        rw [Subst.result?_instr] at hr
        rw [instrs_replace hf]
        obtain ⟨q, x⟩ := w
        obtain rfl : q = r :=
          Option.some.inj ((Store.effect_writes hw).symm.trans (Instr.writes?_of_result? hr))
        exact ih ht.2 (hfits.put hw) (hc.replace (hfresh q hr) hslot hv) hk' h
    · cases i with
      | ret v =>
        rw [Store.run, Option.map_eq_some_iff] at h
        obtain ⟨x, hx, rfl⟩ := h
        rw [instrs_keep (hfate.ret k (s.operand v))]
        simp [Subst.instr, Instr.mapOperands, Store.run, hc.float hx]
      | call r f args =>
        cases f with
        | function g =>
          rw [Store.run_call, Option.bind_eq_some_iff] at h
          obtain ⟨xs, hxs, h⟩ := h
          rw [instrs_keep (hfate.call k r (.function g) (args.map s.operand))]
          have hargs : (args.map s.operand).mapM gt.float = some xs := hc.mapM_float hxs
          change gt.run callee (.call r (.function g) (args.map s.operand) :: _) out = _
          rw [Store.run_call, hargs, Option.bind_some]
          cases hg : callee g xs out with
          | ok x out' =>
            rw [hg] at h
            have hr : st r = none := hfresh r rfl
            refine ih ht.2 (hfits.put_result rfl) (Carries.set_new hc hr (.float x)) ?_ h
            exact hfate.called k st gt r x hk hr (hc.unknown r hr).1
          | error e out' =>
            rw [hg] at h
            exact h
        | _ => cases h
      | _ => simp [Instr.isPlain] at hi

/-! ### Functions -/

theorem blocks_typed {A : Arities} {gone : Nat → Prop} {Inv : σ → Types → Prop} {enter : σ → σ}
    (hfate : TypedBy A gone fate Inv) (henter : ∀ k Δ, Inv k Δ → Inv (enter k) Δ) {Γ Δ : Types}
    (hc : TypesCarry gone s Γ Δ) (hk : Inv k Δ) {bs : List Block}
    (ht : Code.Typed A Γ (bs.flatMap Block.instrs)) :
    Code.Typed A Δ ((blocks fate enter s k bs).kept.flatMap Block.instrs) ∧
      TypesCarry gone (blocks fate enter s k bs).subst
        (Code.typesAfter Γ (bs.flatMap Block.instrs))
        (Code.typesAfter Δ ((blocks fate enter s k bs).kept.flatMap Block.instrs)) := by
  induction bs generalizing s k Γ Δ with
  | nil => exact ⟨trivial, hc⟩
  | cons b bs ih =>
    rw [List.flatMap_cons, Code.typed_append] at ht
    obtain ⟨h₁, hc₁, hk₁⟩ := instrs_typed hfate hc (henter k Δ hk) ht.1
    obtain ⟨h₂, hc₂⟩ := ih hc₁ hk₁ ht.2
    simp only [blocks, List.flatMap_cons, Code.typed_append, Code.typesAfter_append]
    exact ⟨⟨h₁, h₂⟩, hc₂⟩

theorem blocks_closed {enter : σ → σ} (hret : ∀ k v, fate k (.ret v) = .keep k) {bs : List Block}
    (h : ∀ b ∈ bs, Code.Closed b.instrs) :
    ∀ b ∈ (blocks fate enter s k bs).kept, Code.Closed b.instrs := by
  induction bs generalizing s k with
  | nil => exact h
  | cons b bs ih =>
    rw [List.forall_mem_cons] at h
    simp only [blocks, List.forall_mem_cons]
    exact ⟨instrs_closed hret h.1, ih h.2⟩

/-- Operands that stay leave the instruction as it is. -/
theorem mapOperands_eq_self {g : Operand → Operand} (h : ∀ v ∈ i.operands, g v = v) :
    i.mapOperands g = i := by
  cases i with
  | call r f args =>
    rw [Instr.operands, List.forall_mem_cons] at h
    rw [Instr.mapOperands, h.1, (List.map_congr_left h.2).trans (List.map_id args)]
  | _ => simp_all [Instr.operands, Instr.mapOperands]

/-- A substitution that replaces none of the temps of typed instructions does not change them. -/
theorem subst_instr_of_typed {A : Arities} {Δ : Types} (ht : Code.Typed A Δ is)
    (hs : ∀ id t, (Code.typesAfter Δ is).lookup id = some t → s.lookup id = none) :
    ∀ i ∈ is, s.instr i = i := by
  refine fun i hi => mapOperands_eq_self fun v hv => ?_
  cases v with
  | temp id =>
    obtain ⟨t, hw⟩ := Instr.exists_mem_wants (ht.shaped hi) hv
    exact Subst.operand_temp_of_none (hs id t (ht.operandOk hi hw))
  | _ => rfl

theorem fits_ofArgs {f : Function} {args : List Float}
    (hn : f.params.map Prod.fst = List.range f.arity) (hl : args.length = f.arity) :
    Fits f.paramTypes (Store.ofArgs args) := by
  intro id hid
  rw [Store.ofArgs, List.getElem?_eq_none, Option.map_none]
  by_contra hlt
  have hmem : id ∈ f.params.map Prod.fst := by
    rw [hn, List.mem_range]
    omega
  obtain ⟨p, hp, rfl⟩ := List.mem_map.1 hmem
  simpa using List.lookup_eq_none_iff.1 hid _ (List.mem_map.2 ⟨p, hp, rfl⟩)

/-- What a scan keeps mentions no temp that it replaces: the last substitution changes nothing. -/
theorem function_eq {A : Arities} {gone : Nat → Prop} {enter : σ → σ} {f : Function} {Γ Δ : Types}
    (ht : Code.Typed A Δ ((blocks fate enter [] k f.blocks).kept.flatMap Block.instrs))
    (hc : TypesCarry gone (blocks fate enter [] k f.blocks).subst Γ
      (Code.typesAfter Δ ((blocks fate enter [] k f.blocks).kept.flatMap Block.instrs))) :
    (function fate enter k f).1 = { f with blocks := (blocks fate enter [] k f.blocks).kept } := by
  have hinstr := subst_instr_of_typed ht fun id t hid => by
    cases hs : (blocks fate enter [] k f.blocks).subst.lookup id with
    | none => rfl
    | some v =>
      have hnone : List.lookup id _ = none := hc.replaced id v hs
      rw [hid] at hnone
      cases hnone
  refine Function.mapBodies_eq_self fun b hb => ?_
  have hinstrs := List.map_congr_left fun i hi => hinstr i (List.mem_flatMap.2 ⟨b, hb, hi⟩)
  exact hinstrs.trans (List.map_id _)

/-- **A scan is a refinement of the function that it goes through.** -/
theorem function_refines {A : Arities} {gone : Nat → Prop} {enter : σ → σ}
    {InvT : σ → Types → Prop} {InvS : σ → Store → Store → Prop}
    (htyped : TypedBy A gone fate InvT) (henter : ∀ k Δ, InvT k Δ → InvT (enter k) Δ)
    (hsound : SoundBy gone fate InvS) {f : Function} (hf : f.WellFormed A)
    (hT : InvT k f.paramTypes)
    (hS : ∀ args, InvS (enter k) (Store.ofArgs args) (Store.ofArgs args)) :
    (function fate enter k f).1.Refines A f := by
  have hrefl := Carries.refl Reading.types gone f.paramTypes.env
  obtain ⟨ht, hc⟩ := blocks_typed htyped henter hrefl hT hf.typed
  have hself := function_eq ht hc
  rw [hself]
  refine ⟨rfl, rfl, rfl, rfl,
    ⟨hf.returns, ?_, hf.numbered, blocks_closed hsound.ret hf.closed, ht⟩, ?_⟩
  · rw [hf.bodiless]
    cases f.blocks <;> simp [blocks]
  · intro callee args out a hl ha
    rw [Function.answer?, Option.bind_eq_some_iff] at ha ⊢
    obtain ⟨b, hb, ha⟩ := ha
    obtain ⟨bs, hbs⟩ : ∃ bs, f.blocks = b :: bs := List.head?_eq_some_iff.1 hb
    have hext : f.isExternal = false := by
      rw [← Bool.not_eq_true, hf.bodiless, hbs]
      exact List.cons_ne_nil b bs
    have htb : Code.Typed A f.paramTypes b.instrs := by
      have := hf.typed
      rw [Function.instrs, hbs, List.flatMap_cons, Code.typed_append] at this
      exact this.1
    refine ⟨{ b with instrs := (instrs fate [] (enter k) b.instrs).kept }, by rw [hbs]; rfl, ?_⟩
    exact instrs_run hsound htb (fits_ofArgs (hf.numbered hext) hl)
      (Carries.refl Reading.stores gone _) (hS args) ha

end StraightLine.Scan
