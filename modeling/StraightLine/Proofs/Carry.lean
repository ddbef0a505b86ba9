import StraightLine.Pass.Subst
import StraightLine.Proofs.Refinement

/-!
# Carrying temps across a scan

A scan of a function drops definitions and lets operands stand in their place. What a temp stood for
before, its type or what it holds, must then be what its replacement stands for after. Types and
stores are carried in the same way, so both are read as environments: what every temp stands for, if
it is known.

Slots are set apart. Their addresses are never replaced, and the slots that a pass removes (`gone`)
are not carried at all.
-/

namespace StraightLine

open Verify (Types OperandOk)

/-- What temps stand for. -/
abbrev Env (X : Type) := Nat → Option X

/-- The environment in which a temp stands for something. -/
def Env.set {X : Type} (Γ : Env X) (r : Nat) (x : X) : Env X :=
  fun id => if id = r then some x else Γ id

theorem Env.set_self {X : Type} (Γ : Env X) (r : Nat) (x : X) : Γ.set r x r = some x := if_pos rfl

theorem Env.set_of_ne {X : Type} (Γ : Env X) {r id : Nat} (x : X) (h : id ≠ r) :
    Γ.set r x id = Γ id := if_neg h

theorem Env.set_eq_some {X : Type} {Γ : Env X} {r id : Nat} {x y : X} :
    Γ.set r x id = some y ↔ (id = r ∧ x = y) ∨ (id ≠ r ∧ Γ id = some y) := by
  by_cases h : id = r <;> simp [set, h]

theorem Env.set_eq_none {X : Type} {Γ : Env X} {r id : Nat} {x : X} :
    Γ.set r x id = none ↔ id ≠ r ∧ Γ id = none := by
  by_cases h : id = r <;> simp [set, h]

/-- How operands are read in environments: what constants stand for, and what is a slot. -/
structure Reading (X : Type) where
  const : X → Operand → Prop
  IsSlot : X → Prop

/-- An operand stands for something. -/
def Reading.Reads {X : Type} (R : Reading X) (Γ : Env X) (x : X) : Operand → Prop
  | .temp id => Γ id = some x
  | v => R.const x v

/-- The temps of `Γ` are carried by `s` into `Δ`, but for the slots that are gone. -/
structure Carries {X : Type} (R : Reading X) (gone : Nat → Prop) (s : Subst) (Γ Δ : Env X) :
    Prop where
  value : ∀ id x, Γ id = some x → ¬R.IsSlot x → R.Reads Δ x (s.operand (.temp id))
  slot : ∀ id x, Γ id = some x → R.IsSlot x → s.lookup id = none ∧ (¬gone id → Δ id = some x)
  unknown : ∀ id, Γ id = none → Δ id = none ∧ s.lookup id = none
  replaced : ∀ id v, s.lookup id = some v → Δ id = none

theorem Subst.operand_temp_of_none {s : Subst} {id : Nat} (h : s.lookup id = none) :
    s.operand (.temp id) = .temp id := by
  simp [operand, h]

namespace Carries

variable {X : Type} {R : Reading X} {gone : Nat → Prop} {s : Subst} {Γ Δ : Env X}

theorem refl (R : Reading X) (gone : Nat → Prop) (Γ : Env X) : Carries R gone [] Γ Γ :=
  ⟨fun _ _ h _ => h, fun _ _ h _ => ⟨rfl, fun _ => h⟩, fun _ h => ⟨h, rfl⟩,
    fun _ _ h => (nomatch h)⟩

/-- What an operand stands for, if it is not a slot, it still stands for after a temp is set that
stood for nothing or for a slot. -/
theorem reads_set {r : Nat} {x y : X} {v : Operand} (hy : ¬R.IsSlot y)
    (hr : ∀ z, Δ r = some z → R.IsSlot z) (h : R.Reads Δ y v) : R.Reads (Δ.set r x) y v := by
  cases v with
  | temp id =>
    have hid : id ≠ r := by
      rintro rfl
      exact hy (hr y h)
    exact (Env.set_of_ne Δ x hid).trans h
  | _ => exact h

/-- A new temp is set on both sides. -/
theorem set_new (h : Carries R gone s Γ Δ) {r : Nat} (hr : Γ r = none) (x : X) :
    Carries R gone s (Γ.set r x) (Δ.set r x) := by
  have ⟨hΔ, hs⟩ := h.unknown r hr
  refine ⟨fun id y hid hy => ?_, fun id y hid hy => ?_, fun id hid => ?_, fun id v hid => ?_⟩
  · rcases Env.set_eq_some.1 hid with ⟨rfl, rfl⟩ | ⟨_, hid⟩
    · rw [Subst.operand_temp_of_none hs]
      exact Env.set_self Δ id x
    · exact reads_set hy (by simp [hΔ]) (h.value id y hid hy)
  · rcases Env.set_eq_some.1 hid with ⟨rfl, rfl⟩ | ⟨hne, hid⟩
    · exact ⟨hs, fun _ => Env.set_self Δ id x⟩
    · rw [Env.set_of_ne Δ x hne]
      exact h.slot id y hid hy
  · obtain ⟨hne, hid⟩ := Env.set_eq_none.1 hid
    rw [Env.set_of_ne Δ x hne]
    exact h.unknown id hid
  · have hne : id ≠ r := by
      rintro rfl
      simp [hs] at hid
    rw [Env.set_of_ne Δ x hne]
    exact h.replaced id v hid

/-- A slot is filled on both sides. -/
theorem set_slot (h : Carries R gone s Γ Δ) {p : Nat} {x y : X} (hp : Γ p = some y)
    (hy : R.IsSlot y) (hgone : ¬gone p) (hx : R.IsSlot x) :
    Carries R gone s (Γ.set p x) (Δ.set p x) := by
  obtain ⟨hs, hΔ⟩ := h.slot p y hp hy
  refine ⟨fun id z hid hz => ?_, fun id z hid hz => ?_, fun id hid => ?_, fun id v hid => ?_⟩
  · rcases Env.set_eq_some.1 hid with ⟨_, rfl⟩ | ⟨_, hid⟩
    · exact absurd hx hz
    · refine reads_set hz (fun z hz => ?_) (h.value id z hid hz)
      obtain rfl := Option.some.inj ((hΔ hgone).symm.trans hz)
      exact hy
  · rcases Env.set_eq_some.1 hid with ⟨rfl, rfl⟩ | ⟨hne, hid⟩
    · exact ⟨hs, fun _ => Env.set_self Δ id x⟩
    · rw [Env.set_of_ne Δ x hne]
      exact h.slot id z hid hz
  · obtain ⟨hne, hid⟩ := Env.set_eq_none.1 hid
    rw [Env.set_of_ne Δ x hne]
    exact h.unknown id hid
  · have hne : id ≠ p := by
      rintro rfl
      simp [hs] at hid
    rw [Env.set_of_ne Δ x hne]
    exact h.replaced id v hid

/-- A slot that is gone is made or filled on the one side only. -/
theorem set_gone (h : Carries R gone s Γ Δ) {p : Nat} {x : X} (hs : s.lookup p = none)
    (hgone : gone p) (hx : R.IsSlot x) : Carries R gone s (Γ.set p x) Δ := by
  refine ⟨fun id z hid hz => ?_, fun id z hid hz => ?_, fun id hid => ?_, h.replaced⟩
  · rcases Env.set_eq_some.1 hid with ⟨_, rfl⟩ | ⟨_, hid⟩
    · exact absurd hx hz
    · exact h.value id z hid hz
  · rcases Env.set_eq_some.1 hid with ⟨rfl, _⟩ | ⟨_, hid⟩
    · exact ⟨hs, fun hng => absurd hgone hng⟩
    · exact h.slot id z hid hz
  · exact h.unknown id (Env.set_eq_none.1 hid).2

/-- An operand is put in the place of a new temp. -/
theorem replace (h : Carries R gone s Γ Δ) {r : Nat} (hr : Γ r = none) {x : X} {v : Operand}
    (hx : ¬R.IsSlot x) (hv : R.Reads Δ x v) : Carries R gone ((r, v) :: s) (Γ.set r x) Δ := by
  refine ⟨fun id z hid hz => ?_, fun id z hid hz => ?_, fun id hid => ?_, fun id w hid => ?_⟩
  · rcases Env.set_eq_some.1 hid with ⟨rfl, rfl⟩ | ⟨hne, hid⟩
    · simpa [Subst.operand] using hv
    · rw [Subst.operand, lookup_cons_of_ne hne]
      exact h.value id z hid hz
  · rcases Env.set_eq_some.1 hid with ⟨_, rfl⟩ | ⟨hne, hid⟩
    · exact absurd hz hx
    · rw [lookup_cons_of_ne hne]
      exact h.slot id z hid hz
  · obtain ⟨hne, hid⟩ := Env.set_eq_none.1 hid
    rw [lookup_cons_of_ne hne]
    exact h.unknown id hid
  · by_cases hne : id = r
    · rw [hne]
      exact (h.unknown r hr).1
    · rw [lookup_cons_of_ne hne] at hid
      exact h.replaced id w hid

end Carries

/-! ### Instructions -/

namespace Subst

variable (s : Subst) (i : Instr)

@[simp] theorem result?_instr : (s.instr i).result? = i.result? := by cases i <;> rfl

@[simp] theorem resultType?_instr : (s.instr i).resultType? = i.resultType? := by cases i <;> rfl

@[simp] theorem isTerminator_instr : (s.instr i).isTerminator = i.isTerminator := by
  cases i <;> rfl

@[simp] theorem isPlain_instr : (s.instr i).isPlain = i.isPlain := by cases i <;> rfl

@[simp] theorem typesAfter_instr (Γ : Types) : (s.instr i).typesAfter Γ = i.typesAfter Γ := by
  simp [Instr.typesAfter]

/-- A substitution changes what is wanted, and not at which types. -/
theorem wants_instr : (s.instr i).wants = i.wants.map fun w => (w.1, s.operand w.2) := by
  cases i <;> simp [instr, Instr.mapOperands, Instr.wants]

theorem shaped_instr {A : Arities} {i : Instr} (h : i.Shaped A) : (s.instr i).Shaped A := by
  cases i with
  | call r f args =>
    obtain ⟨g, rfl, hg⟩ := h
    exact ⟨g, rfl, by simpa using hg⟩
  | _ => exact h

end Subst

/-! ### Types -/

/-- Types as what temps stand for. -/
def Verify.Types.env (Γ : Types) : Env Ty := fun id => Γ.lookup id

/-- The reading of operands by their types. -/
def Reading.types : Reading Ty := ⟨fun t v => OperandOk [] t v, (· = .slot)⟩

theorem reads_types {Γ : Types} {t : Ty} {v : Operand} :
    Reading.types.Reads Γ.env t v ↔ OperandOk Γ t v := by
  cases v <;> rfl

/-- The types after an instruction, as an environment. -/
theorem Instr.env_typesAfter {Γ : Types} {i : Instr} {r : Nat} {t : Ty} (hr : i.result? = some r)
    (ht : i.resultType? = some t) : (i.typesAfter Γ).env = Env.set Γ.env r t := by
  funext id
  rw [Verify.Types.env, Instr.lookup_typesAfter, hr, ht]
  simp only [Option.some.injEq, Env.set, Verify.Types.env, eq_comm]

theorem Instr.typesAfter_of_result?_none {Γ : Types} {i : Instr} (hr : i.result? = none) :
    i.typesAfter Γ = Γ := by
  rw [typesAfter, hr]

theorem Instr.exists_resultType {i : Instr} {r : Nat} (hr : i.result? = some r) :
    ∃ t, i.resultType? = some t := by
  cases i <;> simp_all [result?, resultType?]

/-- Types are carried across a scan. -/
abbrev TypesCarry (gone : Nat → Prop) (s : Subst) (Γ Δ : Types) : Prop :=
  Carries Reading.types gone s Γ.env Δ.env

namespace TypesCarry

variable {gone : Nat → Prop} {s : Subst} {Γ Δ : Types}

/-- An operand is carried, unless it is a slot that is gone. -/
theorem operandOk (h : TypesCarry gone s Γ Δ) {t : Ty} {v : Operand} (hv : OperandOk Γ t v) :
    OperandOk Δ t (s.operand v) ∨ ∃ p, gone p ∧ t = .slot ∧ s.operand v = .temp p := by
  cases v with
  | temp id =>
    by_cases ht : t = .slot
    · obtain ⟨hs, hΔ⟩ := h.slot id t hv ht
      rw [Subst.operand_temp_of_none hs]
      by_cases hg : gone id
      · exact .inr ⟨id, hg, ht, rfl⟩
      · exact .inl (hΔ hg)
    · exact .inl (reads_types.1 (h.value id t hv ht))
  | _ => exact .inl hv

/-- What an instruction asks for is there after its operands are replaced, unless it is a slot that
is gone. -/
theorem wants (h : TypesCarry gone s Γ Δ) {A : Arities} {i : Instr} (hi : i.Ok A Γ)
    {w : Ty × Operand} (hw : w ∈ (s.instr i).wants) :
    OperandOk Δ w.1 w.2 ∨ ∃ p, gone p ∧ w = (.slot, .temp p) := by
  rw [Subst.wants_instr] at hw
  obtain ⟨⟨t, v⟩, hwant, rfl⟩ := List.mem_map.1 hw
  rcases h.operandOk (hi.operands _ hwant) with hv | ⟨p, hp, rfl, hv⟩
  · exact .inl hv
  · exact .inr ⟨p, hp, by rw [hv]⟩

/-- An instruction that asks for no slot that is gone is in order after its operands are
replaced. -/
theorem ok (h : TypesCarry gone s Γ Δ) {A : Arities} {i : Instr} (hi : i.Ok A Γ)
    (hgone : ∀ p, gone p → (Ty.slot, .temp p) ∉ (s.instr i).wants) : (s.instr i).Ok A Δ := by
  refine ⟨s.shaped_instr hi.shaped, fun w hw => ?_, fun r hr => ?_⟩
  · rcases h.wants hi hw with hv | ⟨p, hp, rfl⟩
    · exact hv
    · exact absurd hw (hgone p hp)
  · rw [Subst.result?_instr] at hr
    exact (h.unknown r (hi.fresh r hr)).1

/-- Types are carried on over an instruction that is kept. -/
theorem keep (h : TypesCarry gone s Γ Δ) {A : Arities} {i : Instr} (hi : i.Ok A Γ) :
    TypesCarry gone s (i.typesAfter Γ) (i.typesAfter Δ) := by
  cases hr : i.result? with
  | none => rwa [Instr.typesAfter_of_result?_none hr, Instr.typesAfter_of_result?_none hr]
  | some r =>
    obtain ⟨t, ht⟩ := Instr.exists_resultType hr
    unfold TypesCarry
    rw [Instr.env_typesAfter hr ht, Instr.env_typesAfter hr ht]
    exact h.set_new (hi.fresh r hr) t

/-- Types are carried on over an instruction that is dropped, as it made or filled a slot. -/
theorem drop (h : TypesCarry gone s Γ Δ) {A : Arities} {i : Instr} (hi : i.Ok A Γ)
    (hgone : ∀ r, i.result? = some r → gone r ∧ i.resultType? = some .slot) :
    TypesCarry gone s (i.typesAfter Γ) Δ := by
  cases hr : i.result? with
  | none => rwa [Instr.typesAfter_of_result?_none hr]
  | some r =>
    obtain ⟨hg, ht⟩ := hgone r hr
    unfold TypesCarry
    rw [Instr.env_typesAfter hr ht]
    exact h.set_gone (h.unknown r (hi.fresh r hr)).2 hg rfl

/-- Types are carried on over an instruction whose result is replaced. -/
theorem replace (h : TypesCarry gone s Γ Δ) {A : Arities} {i : Instr} (hi : i.Ok A Γ) {r : Nat}
    {t : Ty} {v : Operand} (hr : i.result? = some r) (ht : i.resultType? = some t)
    (hslot : t ≠ .slot) (hv : OperandOk Δ t v) :
    TypesCarry gone ((r, v) :: s) (i.typesAfter Γ) Δ := by
  unfold TypesCarry
  rw [Instr.env_typesAfter hr ht]
  exact Carries.replace h (hi.fresh r hr) hslot (reads_types.2 hv)

end TypesCarry

/-! ### Stores -/

/-- An instruction with an effect defines a temp or fills a slot. -/
theorem Store.effect_cases {st : Store} {i : Instr} {w : Nat × Held} (hw : st.effect i = some w) :
    i.result? = some w.1 ∨
      ∃ v p c x, i = .store v p ∧ st.slot p = some (w.1, c) ∧ w.2 = .slot (some x) := by
  cases i with
  | store v p =>
    simp only [effect, Option.bind_eq_some_iff, Option.map_eq_some_iff] at hw
    obtain ⟨⟨q, c⟩, hp, x, _, rfl⟩ := hw
    exact .inr ⟨v, p, c, x, rfl, hp, rfl⟩
  | _ => exact .inl (effect_writes hw)

/-- The reading of operands by what they hold. -/
def Reading.stores : Reading Held :=
  ⟨fun h v => Store.held (fun _ => none) v = some h, fun h => ∃ c, h = .slot c⟩

theorem reads_stores {st : Store} {h : Held} {v : Operand} :
    Reading.stores.Reads st h v ↔ st.held v = some h := by
  cases v <;> rfl

/-- Stores are carried across a scan. -/
abbrev StoresCarry (gone : Nat → Prop) (s : Subst) (st gt : Store) : Prop :=
  Carries Reading.stores gone s st gt

namespace StoresCarry

variable {gone : Nat → Prop} {s : Subst} {st gt : Store}

theorem held (h : StoresCarry gone s st gt) {v : Operand} {x : Held} (hv : st.held v = some x)
    (hx : ∀ c, x ≠ .slot c) : gt.held (s.operand v) = some x := by
  cases v with
  | temp id => exact reads_stores.1 (h.value id x hv fun ⟨c, hc⟩ => hx c hc)
  | _ => exact hv

/-- A substituted operand is the same double. -/
theorem float (h : StoresCarry gone s st gt) {v : Operand} {x : Float} (hv : st.float v = some x) :
    gt.float (s.operand v) = some x :=
  Store.float_eq_some.2 (h.held (Store.float_eq_some.1 hv) (by simp))

theorem flag (h : StoresCarry gone s st gt) {v : Operand} {b : Bool} (hv : st.flag v = some b) :
    gt.flag (s.operand v) = some b :=
  Store.flag_eq_some.2 (h.held (Store.flag_eq_some.1 hv) (by simp))

/-- The address of a slot is not substituted, and the slot is there unless it is gone. -/
theorem slot (h : StoresCarry gone s st gt) {v : Operand} {p : Nat} {c : Option Float}
    (hv : st.slot v = some (p, c)) :
    s.operand v = .temp p ∧ (¬gone p → gt.slot (s.operand v) = some (p, c)) := by
  obtain ⟨rfl, hp⟩ := Store.slot_eq_some.1 hv
  obtain ⟨hs, hgt⟩ := Carries.slot h p _ hp ⟨c, rfl⟩
  rw [Subst.operand_temp_of_none hs]
  exact ⟨rfl, fun hg => Store.slot_eq_some.2 ⟨rfl, hgt hg⟩⟩

theorem mapM_float (h : StoresCarry gone s st gt) {vs : List Operand} {xs : List Float}
    (hvs : vs.mapM st.float = some xs) : (vs.map s.operand).mapM gt.float = some xs := by
  induction vs generalizing xs with
  | nil => exact hvs
  | cons v vs ih =>
    simp only [List.mapM_cons, Option.bind_eq_bind, Option.bind_eq_some_iff] at hvs
    obtain ⟨y, hy, ys, hys, hxs⟩ := hvs
    cases hxs
    simp [List.mapM_cons, h.float hy, ih hys]

/-- An instruction that asks for no slot that is gone has the same effect after its operands are
replaced. -/
theorem effect (h : StoresCarry gone s st gt) {i : Instr} {w : Nat × Held}
    (hw : st.effect i = some w) (hgone : ∀ p, gone p → (Ty.slot, .temp p) ∉ (s.instr i).wants) :
    gt.effect (s.instr i) = some w := by
  cases i with
  | alloca r t n => exact hw
  | load r p t =>
    simp only [Store.effect, Option.bind_eq_some_iff, Option.map_eq_some_iff] at hw
    obtain ⟨⟨q, c⟩, hp, x, rfl, rfl⟩ := hw
    obtain ⟨hq, hgt⟩ := h.slot hp
    have hng : ¬gone q := fun hg =>
      hgone q hg (by simp [Subst.instr, Instr.mapOperands, Instr.wants, hq])
    simp [Subst.instr, Instr.mapOperands, Store.effect, hgt hng]
  | store v p =>
    simp only [Store.effect, Option.bind_eq_some_iff, Option.map_eq_some_iff] at hw
    obtain ⟨⟨q, c⟩, hp, x, hx, rfl⟩ := hw
    obtain ⟨hq, hgt⟩ := h.slot hp
    have hng : ¬gone q := fun hg =>
      hgone q hg (by simp [Subst.instr, Instr.mapOperands, Instr.wants, hq])
    simp [Subst.instr, Instr.mapOperands, Store.effect, hgt hng, h.float hx]
  | arith r op a b | compare r p a b =>
    simp only [Store.effect, Option.bind_eq_some_iff, Option.map_eq_some_iff] at hw
    obtain ⟨x, hx, y, hy, rfl⟩ := hw
    simp [Subst.instr, Instr.mapOperands, Store.effect, h.float hx, h.float hy]
  | widen r v =>
    simp only [Store.effect, Option.map_eq_some_iff] at hw
    obtain ⟨b, hb, rfl⟩ := hw
    simp [Subst.instr, Instr.mapOperands, Store.effect, h.flag hb]
  | call r f args => cases hw
  | ret v => cases hw

/-- Stores are carried on over an instruction that is kept. -/
theorem keep (h : StoresCarry gone s st gt) {i : Instr} {w : Nat × Held}
    (hw : st.effect i = some w) (hfresh : ∀ r, i.result? = some r → st r = none)
    (hgone : ∀ p, gone p → (Ty.slot, .temp p) ∉ (s.instr i).wants) :
    StoresCarry gone s (st.put w) (gt.put w) := by
  rcases Store.effect_cases hw with hr | ⟨v, p, c, x, rfl, hp, hx⟩
  · exact Carries.set_new h (hfresh _ hr) w.2
  · obtain ⟨hq, _⟩ := h.slot hp
    refine Carries.set_slot h (Store.slot_eq_some.1 hp).2 ⟨c, rfl⟩ (fun hg => ?_) ⟨_, hx⟩
    exact hgone w.1 hg (by simp [Subst.instr, Instr.mapOperands, Instr.wants, hq])

/-- Stores are carried on over an instruction that is dropped, as it made or filled a slot. -/
theorem drop (h : StoresCarry gone s st gt) {i : Instr} {w : Nat × Held}
    (hw : st.effect i = some w) (hfresh : ∀ r, i.result? = some r → st r = none)
    (hgone : gone w.1) (hslot : ∃ c, w.2 = .slot c) : StoresCarry gone s (st.put w) gt := by
  refine Carries.set_gone h ?_ hgone hslot
  rcases Store.effect_cases hw with hr | ⟨v, p, c, x, _, hp, _⟩
  · exact (h.unknown _ (hfresh _ hr)).2
  · exact (Carries.slot h _ _ (Store.slot_eq_some.1 hp).2 ⟨c, rfl⟩).1

/-- Stores are carried on over an instruction whose result is replaced. -/
theorem replace (h : StoresCarry gone s st gt) {r : Nat} {x : Held} {v : Operand}
    (hr : st r = none) (hx : ∀ c, x ≠ .slot c) (hv : gt.held v = some x) :
    StoresCarry gone ((r, v) :: s) (st.put (r, x)) gt :=
  Carries.replace h hr (fun ⟨c, hc⟩ => hx c hc) (reads_stores.2 hv)

end StoresCarry

end StraightLine
