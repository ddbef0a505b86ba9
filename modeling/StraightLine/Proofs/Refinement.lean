import StraightLine.Pass.DeadCode
import StraightLine.Pass.Reachable
import StraightLine.Pass.UnreadSlots
import StraightLine.Proofs.Store

/-!
# Refinement, and the passes that remove instructions

One function refines another when it can stand in its place: it is well formed, takes the same
parameters, and gives every answer that the other gives. Where the other is at fault itself it may
do anything, as a pass may drop the fault with the instruction that has it.

Removing instructions is a refinement when those that stay read nothing that those that go write
(`Removable`). The passes that remove slots that are never read and code that is dead are of this
kind.
-/

namespace StraightLine

open Verify (Types OperandOk)

/-- The function `g` can stand in the place of `f`. -/
structure Function.Refines (A : Arities) (g f : Function) : Prop where
  name : g.name = f.name
  params : g.params = f.params
  isExternal : g.isExternal = f.isExternal
  stage : g.stage = f.stage
  wellFormed : g.WellFormed A
  answer : ∀ callee args out a, args.length = f.arity → f.answer? callee args out = some a →
    g.answer? callee args out = some a

namespace Function.Refines

variable {A : Arities} {f g h : Function}

theorem refl (hf : f.WellFormed A) : f.Refines A f :=
  ⟨rfl, rfl, rfl, rfl, hf, fun _ _ _ _ _ ha => ha⟩

theorem arity_eq (h : g.Refines A f) : g.arity = f.arity := by
  rw [Function.arity, h.params, Function.arity]

theorem trans (h₁ : h.Refines A g) (h₂ : g.Refines A f) : h.Refines A f where
  name := h₁.name.trans h₂.name
  params := h₁.params.trans h₂.params
  isExternal := h₁.isExternal.trans h₂.isExternal
  stage := h₁.stage.trans h₂.stage
  wellFormed := h₁.wellFormed
  answer callee args out a hl ha :=
    h₁.answer callee args out a (hl.trans h₂.arity_eq.symm)
      (h₂.answer callee args out a hl ha)

end Function.Refines

/-! ### Bodies -/

theorem Function.instrs_mapBodies {g : List Instr → List Instr} (hnil : g [] = [])
    (happ : ∀ is js, g (is ++ js) = g is ++ g js) (f : Function) :
    (f.mapBodies g).instrs = g f.instrs := by
  unfold Function.instrs Function.mapBodies
  induction f.blocks with
  | nil => exact hnil.symm
  | cons b bs ih => simpa [happ] using ih

/-- Where no body changes there is no change. -/
theorem Function.mapBodies_eq_self {g : List Instr → List Instr} {f : Function}
    (h : ∀ b ∈ f.blocks, g b.instrs = b.instrs) : f.mapBodies g = f := by
  have hblocks : (f.blocks.map fun b => { b with instrs := g b.instrs }) = f.blocks := by
    refine (List.map_congr_left fun b hb => ?_).trans (List.map_id _)
    rw [h b hb, id]
  rw [mapBodies, hblocks]

/-- A change of the bodies keeps an answer that the entry block keeps. -/
theorem Function.answer?_mapBodies {g : List Instr → List Instr} {f : Function} {callee : Callee}
    {args : List Float} {out : String} {a : Answer}
    (hg : ∀ b ∈ f.blocks, (Store.ofArgs args).run callee b.instrs out = some a →
      (Store.ofArgs args).run callee (g b.instrs) out = some a)
    (h : f.answer? callee args out = some a) :
    (f.mapBodies g).answer? callee args out = some a := by
  simp only [answer?, entry?, mapBodies, List.head?_map, Option.bind_eq_some_iff,
    Option.map_eq_some_iff] at h ⊢
  obtain ⟨b, hb, h⟩ := h
  exact ⟨_, ⟨b, hb, rfl⟩, hg b (List.mem_of_head? hb) h⟩

/-- A change of all bodies is a refinement when it keeps them closed, typed, and answering. -/
theorem Function.WellFormed.refines_mapBodies {A : Arities} {f : Function} (hf : f.WellFormed A)
    {g : List Instr → List Instr} (hclosed : ∀ b ∈ f.blocks, Code.Closed (g b.instrs))
    (htyped : Code.Typed A f.paramTypes (f.mapBodies g).instrs)
    (hrun : ∀ b ∈ f.blocks, ∀ callee args out a,
      (Store.ofArgs args).run callee b.instrs out = some a →
        (Store.ofArgs args).run callee (g b.instrs) out = some a) :
    (f.mapBodies g).Refines A f where
  name := rfl
  params := rfl
  isExternal := rfl
  stage := rfl
  wellFormed :=
    { returns := hf.returns
      bodiless := by simpa [mapBodies] using hf.bodiless
      numbered := hf.numbered
      closed := by simpa [mapBodies] using hclosed
      typed := htyped }
  answer callee args out a _ := answer?_mapBodies fun b hb => hrun b hb callee args out a

/-! ### Removing instructions -/

theorem Operand.temp?_eq_some {v : Operand} {id : Nat} : v.temp? = some id ↔ v = .temp id := by
  cases v <;> simp [temp?]

namespace Instr

/-- The temp whose value an instruction sets: the one that it defines, or the slot that it fills. -/
def writes? : Instr → Option Nat
  | store _ p => p.temp?
  | i => i.result?

theorem writes?_of_result? {i : Instr} {r : Nat} (h : i.result? = some r) : i.writes? = some r := by
  cases i <;> simp_all [writes?, result?]

theorem mem_uses {i : Instr} {id : Nat} : id ∈ i.uses ↔ .temp id ∈ i.operands := by
  simp only [uses, List.mem_filterMap, Operand.temp?_eq_some]
  exact ⟨fun ⟨_, h, hv⟩ => hv ▸ h, fun h => ⟨_, h, rfl⟩⟩

theorem mem_operands_of_mem_wants {i : Instr} {w : Ty × Operand} (h : w ∈ i.wants) :
    w.2 ∈ i.operands := by
  cases i <;> simp only [wants, List.mem_cons, List.mem_map, List.not_mem_nil, or_false] at h <;>
    grind [operands]

/-- Every temp that an instruction reads is wanted at some type. -/
theorem exists_mem_wants {A : Arities} {i : Instr} (hs : i.Shaped A) {id : Nat}
    (h : .temp id ∈ i.operands) : ∃ t, (t, .temp id) ∈ i.wants := by
  have hmem : .temp id ∈ i.wants.map Prod.snd := by
    cases i with
    | call r f args =>
      obtain ⟨g, rfl, _⟩ := hs
      simpa [operands, wants, Function.comp_def] using h
    | _ => exact h
  obtain ⟨⟨t, _⟩, hw, rfl⟩ := List.mem_map.1 hmem
  exact ⟨t, hw⟩

/-- Where the temps that are read have the same types, an instruction stays in order. -/
theorem Ok.congr {A : Arities} {Γ Δ : Types} {i : Instr} (h : i.Ok A Γ)
    (huses : ∀ id ∈ i.uses, Δ.lookup id = Γ.lookup id)
    (hfresh : ∀ r, i.result? = some r → Δ.lookup r = none) : i.Ok A Δ := by
  refine ⟨h.shaped, fun w hw => ?_, hfresh⟩
  have hok := h.operands w hw
  obtain ⟨t, v⟩ := w
  cases v with
  | temp id => exact (huses id (mem_uses.2 (mem_operands_of_mem_wants hw))).trans hok
  | _ => exact hok

end Instr

namespace Store

variable {st gt : Store}

theorem held_congr {v : Operand} (h : ∀ id, v = .temp id → gt id = st id) :
    gt.held v = st.held v := by
  cases v with
  | temp id => exact h id rfl
  | _ => rfl

theorem float_congr {v : Operand} (h : ∀ id, v = .temp id → gt id = st id) :
    gt.float v = st.float v := by
  rw [float, float, held_congr h]

theorem slot_congr {v : Operand} (h : ∀ id, v = .temp id → gt id = st id) :
    gt.slot v = st.slot v := by
  cases v with
  | temp id => rw [slot, slot, h id rfl]
  | _ => rfl

/-- Where the temps that are read hold the same, an instruction has the same effect. -/
theorem effect_congr {i : Instr} (h : ∀ id ∈ i.uses, gt id = st id) :
    gt.effect i = st.effect i := by
  have hop {v : Operand} (hv : v ∈ i.operands) (id : Nat) (hid : v = .temp id) : gt id = st id :=
    h id (Instr.mem_uses.2 (hid ▸ hv))
  cases i with
  | load r p t => rw [effect, effect, slot_congr (hop (by simp [Instr.operands]))]
  | store v p =>
    rw [effect, effect, slot_congr (hop (by simp [Instr.operands])),
      float_congr (hop (by simp [Instr.operands]))]
  | arith r op a b | compare r p a b =>
    rw [effect, effect, float_congr (hop (by simp [Instr.operands])),
      float_congr (hop (by simp [Instr.operands]))]
  | widen r v => rw [effect, effect, flag, flag, held_congr (hop (by simp [Instr.operands]))]
  | _ => rfl

theorem mapM_float_congr {vs : List Operand} (h : ∀ id, .temp id ∈ vs → gt id = st id) :
    vs.mapM gt.float = vs.mapM st.float := by
  induction vs with
  | nil => rfl
  | cons v vs ih =>
    rw [List.mapM_cons, List.mapM_cons, ih fun id hid => h id (List.mem_cons_of_mem v hid),
      float_congr fun id hid => h id (hid ▸ List.mem_cons_self)]

/-- The effect of an instruction is on the temp that it writes. -/
theorem effect_writes {i : Instr} {w : Nat × Held} (h : st.effect i = some w) :
    i.writes? = some w.1 := by
  cases i with
  | alloca r t n =>
    cases h
    rfl
  | store v p =>
    simp only [effect, Option.bind_eq_some_iff, Option.map_eq_some_iff] at h
    obtain ⟨⟨q, c⟩, hp, x, hx, rfl⟩ := h
    rw [Instr.writes?, (slot_eq_some.1 hp).1]
    rfl
  | load r p t | arith r op a b | compare r p a b =>
    simp only [effect, Option.bind_eq_some_iff, Option.map_eq_some_iff] at h
    obtain ⟨_, _, _, _, rfl⟩ := h
    rfl
  | widen r v =>
    simp only [effect, Option.map_eq_some_iff] at h
    obtain ⟨_, _, rfl⟩ := h
    rfl
  | call r f args => cases h
  | ret v => cases h

end Store

/-- Instructions of which those that are not kept can be removed: nothing that is kept reads the
temps that they set. -/
structure Removable (keep : Instr → Bool) (gone : Nat → Prop) (is : List Instr) : Prop where
  plain : ∀ i ∈ is, keep i = false → i.isPlain
  written : ∀ i ∈ is, keep i = false → ∀ r, i.writes? = some r → gone r
  unread : ∀ i ∈ is, keep i = true → ∀ id ∈ i.uses, ¬gone id

namespace Removable

variable {keep : Instr → Bool} {gone : Nat → Prop} {is : List Instr}

theorem mono (h : Removable keep gone is) {js : List Instr} (hsub : ∀ i ∈ js, i ∈ is) :
    Removable keep gone js :=
  ⟨fun i hi => h.plain i (hsub i hi), fun i hi => h.written i (hsub i hi),
    fun i hi => h.unread i (hsub i hi)⟩

/-- A terminator is never removed. -/
theorem closed_filter (h : Removable keep gone is) (hc : Code.Closed is) :
    Code.Closed (is.filter keep) := by
  induction is with
  | nil => exact hc
  | cons i is ih =>
    have ih := ih (h.mono fun j hj => List.mem_cons_of_mem i hj)
    by_cases ht : i.isTerminator
    · obtain rfl : is = [] := by simpa [Code.Closed, ht] using hc
      have hk : keep i = true := by
        by_contra hk
        have hplain := h.plain i List.mem_cons_self (by simpa using hk)
        simp [Instr.isTerminator_of_isPlain hplain] at ht
      simp [hk, Code.Closed, ht]
    · have hc : Code.Closed is := by simpa [Code.Closed, ht] using hc
      by_cases hk : keep i
      · simpa [hk, Code.Closed, ht] using ih hc
      · simpa [hk] using ih hc

/-- The typing before and after a removal differ on the temps that are gone. -/
theorem typed_filter {A : Arities} (h : Removable keep gone is) {Γ Δ : Types}
    (hoff : ∀ id, ¬gone id → Δ.lookup id = Γ.lookup id)
    (hnone : ∀ id, Γ.lookup id = none → Δ.lookup id = none) (ht : Code.Typed A Γ is) :
    Code.Typed A Δ (is.filter keep) := by
  induction is generalizing Γ Δ with
  | nil => trivial
  | cons i is ih =>
    have h' := h.mono fun j hj => List.mem_cons_of_mem i hj
    by_cases hk : keep i
    · rw [List.filter_cons_of_pos hk]
      refine ⟨ht.1.congr (fun id hid => hoff id (h.unread i List.mem_cons_self hk id hid))
        fun r hr => hnone r (ht.1.fresh r hr), ih h' (fun id hid => ?_) (fun id hid => ?_) ht.2⟩
      · rw [Instr.lookup_typesAfter, Instr.lookup_typesAfter, hoff id hid]
      · rw [Instr.lookup_typesAfter] at hid ⊢
        split at hid
        next hr => rw [if_pos hr, hid]
        next hr => rw [if_neg hr, hnone id hid]
    · rw [List.filter_cons_of_neg hk]
      refine ih h' (fun id hid => ?_) (fun id hid => ?_) ht.2
      · rw [Instr.lookup_typesAfter, if_neg, hoff id hid]
        intro hr
        exact hid (h.written i List.mem_cons_self (by simpa using hk) id
          (Instr.writes?_of_result? hr))
      · refine hnone id ?_
        cases hΓ : Γ.lookup id with
        | none => rfl
        | some t => exact absurd (ht.1.extends id t hΓ) (by simp [hid])

/-- An execution and the one without what is removed agree on the temps that are not gone. -/
theorem run_filter (h : Removable keep gone is) {callee : Callee} {st gt : Store} {out : String}
    {a : Answer} (hoff : ∀ id, ¬gone id → gt id = st id) (hrun : st.run callee is out = some a) :
    gt.run callee (is.filter keep) out = some a := by
  induction is generalizing st gt out with
  | nil => cases hrun
  | cons i is ih =>
    have h' := h.mono fun j hj => List.mem_cons_of_mem i hj
    by_cases hk : keep i
    · have huses : ∀ id ∈ i.uses, gt id = st id := fun id hid =>
        hoff id (h.unread i List.mem_cons_self hk id hid)
      have hput (w : Nat × Held) (id : Nat) (hid : ¬gone id) : gt.put w id = st.put w id := by
        simp only [Store.put, hoff id hid]
      rw [List.filter_cons_of_pos hk]
      by_cases hi : i.isPlain
      · rw [Store.run_plain hi, Option.bind_eq_some_iff] at hrun ⊢
        obtain ⟨w, hw, hrun⟩ := hrun
        exact ⟨w, (Store.effect_congr huses).trans hw, ih h' (hput w) hrun⟩
      · cases i with
        | ret v =>
          rw [Store.run, Store.float_congr fun id hid =>
            huses id (Instr.mem_uses.2 (hid ▸ List.mem_cons_self))]
          exact hrun
        | call r f args =>
          cases f with
          | function g =>
            rw [Store.run_call, Option.bind_eq_some_iff] at hrun ⊢
            obtain ⟨xs, hxs, hrun⟩ := hrun
            refine ⟨xs, ?_, ?_⟩
            · rw [Store.mapM_float_congr fun id hid =>
                huses id (Instr.mem_uses.2 (List.mem_cons_of_mem _ hid)), hxs]
            · cases hc : callee g xs out with
              | ok x out' =>
                rw [hc] at hrun
                exact ih h' (hput _) hrun
              | error e out' =>
                rw [hc] at hrun
                exact hrun
          | _ => cases hrun
        | _ => simp [Instr.isPlain] at hi
    · -- What is removed writes only what is gone, so the stores go on agreeing.
      rw [List.filter_cons_of_neg hk]
      have hk : keep i = false := by simpa using hk
      rw [Store.run_plain (h.plain i List.mem_cons_self hk), Option.bind_eq_some_iff] at hrun
      obtain ⟨w, hw, hrun⟩ := hrun
      refine ih h' (fun id hid => ?_) hrun
      rw [Store.put_of_ne, hoff id hid]
      rintro rfl
      exact hid (h.written i List.mem_cons_self hk _ (Store.effect_writes hw))

end Removable

/-- **Removing what can be removed is a refinement.** -/
theorem Function.WellFormed.refines_filter {A : Arities} {f : Function} (hf : f.WellFormed A)
    {keep : Instr → Bool} {gone : Nat → Prop} (h : Removable keep gone f.instrs) :
    (f.mapBodies (·.filter keep)).Refines A f := by
  have hblock {b : Block} (hb : b ∈ f.blocks) : Removable keep gone b.instrs :=
    h.mono fun i hi => List.mem_flatMap.2 ⟨b, hb, hi⟩
  refine hf.refines_mapBodies (fun b hb => (hblock hb).closed_filter (hf.closed b hb)) ?_
    fun b hb callee args out a => (hblock hb).run_filter fun _ _ => rfl
  rw [Function.instrs_mapBodies rfl fun is js => List.filter_append ..]
  exact h.typed_filter (fun _ _ => rfl) (fun _ hid => hid) hf.typed

/-- An address is read as nothing but the address of a load or a store. -/
theorem Code.Typed.address_uses {A : Arities} {Γ : Types} {is : List Instr} (h : Code.Typed A Γ is)
    {i : Instr} (hi : i ∈ is) {id : Nat} (hid : (Code.typesAfter Γ is).lookup id = some .slot)
    (hu : id ∈ i.uses) : (∃ r t, i = .load r (.temp id) t) ∨ ∃ v, i = .store v (.temp id) := by
  have hwant : (Ty.slot, Operand.temp id) ∈ i.wants := by
    obtain ⟨t, ht⟩ := Instr.exists_mem_wants (h.shaped hi) (Instr.mem_uses.1 hu)
    have hok : (Code.typesAfter Γ is).lookup id = some t := h.operandOk hi ht
    rw [hid] at hok
    cases hok
    exact ht
  cases i <;> simp [Instr.wants, Ty.slot] at hwant ⊢
  · exact hwant.symm
  · exact hwant.symm

/-! ### Slots that are never read -/

/-- A slot that is never read can go with the stores into it. -/
theorem UnreadSlots.removable {A : Arities} {f : Function} (hf : f.WellFormed A) :
    Removable (isKept (slots f.instrs)) (· ∈ slots f.instrs) f.instrs := by
  refine ⟨fun i hi hk => ?_, fun i hi hk r hr => ?_, fun i hi hk id hu hdead => ?_⟩
  · cases i <;> simp_all [isKept, Instr.isPlain]
  · cases i with
    | alloca s t n => simp_all [isKept, Instr.writes?, Instr.result?]
    | store v p => cases p <;> simp_all [isKept, Instr.writes?, Operand.temp?]
    | _ => simp [isKept] at hk
  · obtain ⟨hmade, hloaded⟩ :
        id ∈ f.instrs.filterMap Instr.made? ∧ id ∉ f.instrs.filterMap loaded? := by
      simpa [slots] using hdead
    have hslot : (Code.typesAfter f.paramTypes f.instrs).lookup id = some .slot := by
      obtain ⟨j, hj, hid⟩ := List.mem_filterMap.1 hmade
      cases j with
      | alloca r t n =>
        cases hid
        obtain rfl : t = .double := hf.typed.shaped hj
        exact hf.typed.lookup_result hj rfl rfl
      | _ => cases hid
    rcases hf.typed.address_uses hi hslot hu with ⟨r, t, rfl⟩ | ⟨v, rfl⟩
    · exact hloaded (List.mem_filterMap.2 ⟨_, hi, rfl⟩)
    · exact absurd hdead (by simpa [isKept] using hk)

/-- Removing slots that are never read is a refinement. -/
theorem UnreadSlots.run_refines {A : Arities} {f : Function} (hf : f.WellFormed A) :
    (run f).1.Refines A f := by
  by_cases h : (slots f.instrs).isEmpty
  · simpa only [run, if_pos h] using .refl hf
  · simpa only [run, if_neg h] using hf.refines_filter (removable hf)

/-! ### Dead code -/

namespace DeadCode

/-- What defines a temp that nothing uses can go. -/
theorem removable (f : Function) :
    Removable (fun i => !isDead (used f) i) (· ∉ used f) f.instrs := by
  refine ⟨fun i _ hk => ?_, fun i _ hk r hr => ?_, fun i hi _ id hu => ?_⟩
  · cases i <;> simp_all [isDead, Instr.isPure, Instr.isPlain]
  · cases i <;> simp_all [isDead, Instr.isPure, Instr.writes?, Instr.result?]
  · exact not_not.2 (List.mem_flatMap.2 ⟨i, hi, hu⟩)

theorem sweep_refines {A : Arities} {f : Function} (hf : f.WellFormed A) :
    (sweep f).Refines A f := hf.refines_filter (removable f)

/-- Removing dead code is a refinement. -/
theorem run_refines {A : Arities} {f : Function} (hf : f.WellFormed A) : (run f).1.Refines A f := by
  change (sweepAll f).Refines A f
  fun_induction sweepAll f with
  | case1 f hlt ih => exact (ih (sweep_refines hf).wellFormed).trans (sweep_refines hf)
  | case2 f hge => exact .refl hf

end DeadCode

/-! ### Reachable code -/

namespace Reachable

/-- There is nothing behind the terminator of a closed block. -/
theorem upToTerminator_of_closed {is : List Instr} (h : Code.Closed is) :
    upToTerminator is = is := by
  induction is with
  | nil => rfl
  | cons i is ih =>
    by_cases ht : i.isTerminator
    · obtain rfl : is = [] := by simpa [Code.Closed, ht] using h
      simp [upToTerminator]
    · simp [upToTerminator, ht, ih (by simpa [Code.Closed, ht] using h)]

/-- Of a well-formed function only the first block is left. -/
theorem run_eq {A : Arities} {f : Function} (hf : f.WellFormed A) :
    (run f).1 = { f with blocks := f.blocks.take 1 } := by
  have hcut : f.mapBodies upToTerminator = f :=
    Function.mapBodies_eq_self fun b hb => upToTerminator_of_closed (hf.closed b hb)
  simp only [run, hcut]

/-- Removing what cannot be reached is a refinement. -/
theorem run_refines {A : Arities} {f : Function} (hf : f.WellFormed A) : (run f).1.Refines A f := by
  rw [run_eq hf]
  refine ⟨rfl, rfl, rfl, rfl, ⟨hf.returns, ?_, hf.numbered,
    fun b hb => hf.closed b (List.mem_of_mem_take hb), ?_⟩, ?_⟩
  · rw [hf.bodiless]
    cases f.blocks <;> simp
  · have happ : f.instrs =
        (f.blocks.take 1).flatMap Block.instrs ++ (f.blocks.drop 1).flatMap Block.instrs := by
      rw [← List.flatMap_append, List.take_append_drop]
      rfl
    have ht := hf.typed
    rw [happ] at ht
    exact (Code.typed_append.1 ht).1
  · intro callee args out a _ ha
    simpa [Function.answer?, Function.entry?, List.head?_take] using ha

end Reachable

end StraightLine
