import StraightLine.Pass.CommonExpressions
import StraightLine.Pass.Folding
import StraightLine.Pass.SlotPromotion
import StraightLine.Proofs.Doubles
import StraightLine.Proofs.Scanning

/-!
# The passes that scan a function

Folding, the removal of common expressions and the promotion of slots are scans. For each of them it
is shown what its state says of the code that is kept, and that the fate it gives an instruction
agrees with that; the rest holds of all scans.
-/

namespace StraightLine

open Verify (Types OperandOk)

/-- An operand keeps what it holds when a temp is set that held nothing or a slot. -/
theorem Store.held_put {st : Store} {w : Nat × Held} {v : Operand} {x : Held}
    (hw : ∀ y, st w.1 = some y → ∃ c, y = .slot c) (hx : ∀ c, x ≠ .slot c)
    (h : st.held v = some x) : (st.put w).held v = some x :=
  reads_stores.1 (Carries.reads_set (fun ⟨c, hc⟩ => hx c hc) hw (reads_stores.2 h))

/-- A double outlives a write to a temp that holds nothing, or a slot. -/
theorem Store.float_put {st : Store} {w : Nat × Held} {v : Operand} {x : Float}
    (hw : ∀ y, st w.1 = some y → ∃ c, y = .slot c) (h : st.float v = some x) :
    (st.put w).float v = some x :=
  float_eq_some.2 (held_put hw (by simp) (float_eq_some.1 h))

/-- A constant holds the double that it stands for. -/
@[simp]
theorem Store.held_constant (st : Store) (x : Float) : st.held (.constant x) = some (.float x) := by
  rw [held, Numeral.value_ofFloat]

@[simp]
theorem Store.float_constant (st : Store) (x : Float) : st.float (.constant x) = some x :=
  float_eq_some.2 (held_constant st x)

/-! ### Folding -/

namespace Folding

/-- An operation returns one operand when the other is a constant that is neutral for it. -/
theorem identity_cases {op : Arith} {a b v : Operand} (h : identity op a b = some v) :
    (v = a ∧ ∃ c, b = .constant c ∧ ∀ x, op.eval x c = x) ∨
      (v = b ∧ ∃ c, a = .constant c ∧ ∀ y, op.eval c y = y) := by
  cases op with
  | add =>
    rw [identity] at h
    split at h
    next hb =>
      cases h
      exact .inl ⟨rfl, _, hb, Double.add_neg_zero⟩
    next =>
      split at h
      next ha =>
        cases h
        exact .inr ⟨rfl, _, ha, fun y => (Double.add_comm _ y).trans (Double.add_neg_zero y)⟩
      next => cases h
  | mul =>
    rw [identity] at h
    split at h
    next hb =>
      cases h
      exact .inl ⟨rfl, _, hb, Double.mul_one⟩
    next =>
      split at h
      next ha =>
        cases h
        exact .inr ⟨rfl, _, ha, fun y => (Double.mul_comm _ y).trans (Double.mul_one y)⟩
      next => cases h
  | sub =>
    rw [identity] at h
    split at h
    next hb =>
      cases h
      exact .inl ⟨rfl, _, hb, Double.sub_zero⟩
    next => cases h
  | div =>
    rw [identity] at h
    split at h
    next hb =>
      cases h
      exact .inl ⟨rfl, _, hb, Double.div_one⟩
    next => cases h

/-- The operand that an identity gives is the value of the operation. -/
theorem float_identity {st : Store} {op : Arith} {a b v : Operand} {x y : Float}
    (h : identity op a b = some v) (ha : st.float a = some x) (hb : st.float b = some y) :
    st.float v = some (op.eval x y) := by
  rcases identity_cases h with ⟨rfl, c, rfl, hc⟩ | ⟨rfl, c, rfl, hc⟩
  · cases (Store.float_constant st c).symm.trans hb
    rw [ha, hc]
  · cases (Store.float_constant st c).symm.trans ha
    rw [hb, hc]

theorem result?_of_simplify {i : Instr} {r : Nat} {v : Operand} (h : simplify i = some (r, v)) :
    i.result? = some r := by
  unfold simplify at h
  split at h <;> simp_all [Instr.result?]

/-- What an instruction is folded to has the type of its result. -/
theorem simplify_typed {Δ : Types} {i : Instr} {r : Nat} {v : Operand}
    (h : simplify i = some (r, v))
    (hi : ∀ w ∈ i.wants, OperandOk Δ w.1 w.2) :
    ∃ t, i.resultType? = some t ∧ t ≠ .slot ∧ OperandOk Δ t v := by
  unfold simplify at h
  split at h
  next r' op x y =>
    cases h
    exact ⟨.double, rfl, by simp [Ty.slot], rfl⟩
  next r' op a b _ =>
    obtain ⟨u, hu, hv⟩ := Option.map_eq_some_iff.1 h
    cases hv
    refine ⟨.double, rfl, by simp [Ty.slot], ?_⟩
    rcases identity_cases hu with ⟨rfl, _⟩ | ⟨rfl, _⟩
    · exact hi (.double, _) (by simp [Instr.wants])
    · exact hi (.double, _) (by simp [Instr.wants])
  next r' p x y =>
    cases h
    exact ⟨.i1, rfl, by simp [Ty.slot], rfl⟩
  next r' b =>
    cases h
    exact ⟨.double, rfl, by simp [Ty.slot], rfl⟩
  next => cases h

/-- What an instruction is folded to holds what its result would. -/
theorem held_simplify {st : Store} {i : Instr} {r : Nat} {v : Operand} {w : Nat × Held}
    (h : simplify i = some (r, v)) (hw : st.effect i = some w) :
    (∀ c, w.2 ≠ .slot c) ∧ st.held v = some w.2 := by
  unfold simplify at h
  split at h
  next r' op x y =>
    cases h
    cases hw
    exact ⟨by simp, st.held_constant _⟩
  next r' op a b _ =>
    obtain ⟨u, hu, hv⟩ := Option.map_eq_some_iff.1 h
    cases hv
    simp only [Store.effect, Option.bind_eq_some_iff, Option.map_eq_some_iff] at hw
    obtain ⟨x, hx, y, hy, rfl⟩ := hw
    exact ⟨by simp, Store.float_eq_some.1 (float_identity hu hx hy)⟩
  next r' p x y =>
    cases h
    cases hw
    exact ⟨by simp, rfl⟩
  next r' b =>
    cases h
    cases hw
    exact ⟨by simp, st.held_constant _⟩
  next => cases h

theorem typedBy (A : Arities) :
    Scan.TypedBy A (fun _ => False) fate fun _ _ => True where
  step k s Γ Δ i hc _ hi := by
    have hok := hc.ok hi (by simp)
    unfold fate
    split
    next r v h => exact ⟨result?_of_simplify h, simplify_typed h hok.operands, trivial⟩
    next => exact ⟨by simp, fun _ => trivial⟩

theorem soundBy : Scan.SoundBy (fun _ => False) fate fun _ _ _ => True where
  step k s st gt i w hc _ hw hfresh := by
    have hgt := hc.effect hw (by simp)
    unfold fate
    split
    next r v h =>
      obtain ⟨hslot, hv⟩ := held_simplify h hgt
      exact ⟨result?_of_simplify h, hslot, hv, trivial⟩
    next => exact ⟨by simp, trivial⟩
  call _ _ _ _ := rfl
  called _ _ _ _ _ _ _ _ := trivial
  ret _ _ := rfl

/-- Folding is a refinement. -/
theorem run_refines {A : Arities} {f : Function} (hf : f.WellFormed A) : (run f).1.Refines A f :=
  Scan.function_refines (typedBy A) (fun _ _ h => h) soundBy hf trivial fun _ => trivial

end Folding

/-! ### Common expressions -/

namespace CommonExpressions

namespace Expression

/-- The instruction that computes an expression into a temp. -/
def instr (r : Nat) : Expression → Instr
  | arith op a b => .arith r op a b
  | compare p a b => .compare r p a b
  | widen v => .widen r v

/-- The type of an expression. -/
def type : Expression → Ty
  | arith _ _ _ | widen _ => .double
  | compare _ _ _ => .i1

/-- The value of an expression. -/
def value? (st : Store) : Expression → Option Held
  | arith op a b => (st.float a).bind fun x => (st.float b).map fun y => .float (op.eval x y)
  | compare p a b => (st.float a).bind fun x => (st.float b).map fun y => .bool (p.eval x y)
  | widen v => (st.flag v).map fun b => .float (StraightLine.widen b)

theorem effect_instr (st : Store) (r : Nat) (e : Expression) :
    st.effect (e.instr r) = (e.value? st).map fun x => (r, x) := by
  cases e <;> simp [instr, Store.effect, value?, Option.map_bind, Function.comp_def]

theorem value?_ne_slot {st : Store} {e : Expression} {x : Held} (h : e.value? st = some x)
    (c : Option Float) : x ≠ .slot c := by
  cases e <;> simp only [value?, Option.bind_eq_some_iff, Option.map_eq_some_iff] at h <;> grind

theorem value?_put {st : Store} {w : Nat × Held} {e : Expression} {x : Held}
    (hw : ∀ y, st w.1 = some y → ∃ c, y = .slot c) (h : e.value? st = some x) :
    e.value? (st.put w) = some x := by
  cases e with
  | arith op a b | compare p a b =>
    simp only [value?, Option.bind_eq_some_iff, Option.map_eq_some_iff] at h ⊢
    obtain ⟨y, hy, z, hz, rfl⟩ := h
    exact ⟨y, Store.float_put hw hy, z, Store.float_put hw hz, rfl⟩
  | widen v =>
    simp only [value?, Option.map_eq_some_iff] at h ⊢
    obtain ⟨b, hb, rfl⟩ := h
    exact ⟨b, Store.flag_eq_some.2 (Store.held_put hw (by simp) (Store.flag_eq_some.1 hb)), rfl⟩

end Expression

/-- An expression remembers all of its instruction but the temp. -/
theorem eq_instr_of_expression? {i : Instr} {e : Expression} {r : Nat}
    (h : expression? i = some (e, r)) : i = e.instr r := by
  cases i <;> cases h <;> rfl

/-- What is known about the code that is kept, as types. -/
structure KnownTyped (k : Known) (Δ : Types) : Prop where
  expressions : ∀ e r, k.expressions.lookup e = some r → Δ.lookup r = some e.type
  contents : ∀ p v, k.contents.lookup p = some v → OperandOk Δ .double v

theorem KnownTyped.mono {k : Known} {Δ Δ' : Types} (h : KnownTyped k Δ)
    (hs : Types.Extends Δ Δ') : KnownTyped k Δ' :=
  ⟨fun e r hr => hs r _ (h.expressions e r hr), fun p v hv => (h.contents p v hv).mono hs⟩

theorem KnownTyped.addExpression {k : Known} {Δ : Types} (h : KnownTyped k Δ) {e : Expression}
    {r : Nat} (hr : Δ.lookup r = some e.type) :
    KnownTyped { k with expressions := (e, r) :: k.expressions } Δ :=
  ⟨forall_lookup_cons hr fun e r _ => h.expressions e r, h.contents⟩

theorem KnownTyped.addContents {k : Known} {Δ : Types} (h : KnownTyped k Δ) {p : Nat}
    {v : Operand} (hv : OperandOk Δ .double v) :
    KnownTyped { k with contents := (p, v) :: k.contents } Δ :=
  ⟨h.expressions, forall_lookup_cons hv fun p v _ => h.contents p v⟩

theorem typedBy (A : Arities) : Scan.TypedBy A (fun _ => False) fate KnownTyped where
  step k s Γ Δ i hc hk hi := by
    have hok := hc.ok hi (by simp)
    generalize s.instr i = i at hok ⊢
    unfold fate
    split
    next v p =>
      refine ⟨by simp, fun _ => (hk.mono hok.extends).addContents ?_⟩
      exact (hok.operands (.double, v) (by simp [Instr.wants])).mono hok.extends
    next r p t =>
      obtain rfl : t = .double := hok.shaped
      split
      next v hv => exact ⟨rfl, ⟨.double, rfl, by simp [Ty.slot], hk.contents p v hv⟩, hk⟩
      next =>
        refine ⟨by simp, fun _ => (hk.mono hok.extends).addContents ?_⟩
        simp [OperandOk, Instr.lookup_typesAfter, Instr.result?, Instr.resultType?]
    next =>
      split
      next e r he =>
        obtain rfl := eq_instr_of_expression? he
        have hresult : (e.instr r).result? = some r := by cases e <;> rfl
        have htype : (e.instr r).resultType? = some e.type := by cases e <;> rfl
        split
        next earlier hr =>
          have hslot : e.type ≠ .slot := by cases e <;> simp [Expression.type, Ty.slot]
          exact ⟨hresult, ⟨_, htype, hslot, hk.expressions e earlier hr⟩, hk⟩
        next =>
          refine ⟨by simp, fun _ => (hk.mono hok.extends).addExpression ?_⟩
          rw [Instr.lookup_typesAfter, if_pos hresult, htype]
      next => exact ⟨by simp, fun _ => hk.mono hok.extends⟩

/-- What is known about the code that is kept, as what its temps hold. -/
structure KnownHolds (k : Known) (gt : Store) : Prop where
  expressions : ∀ e r, k.expressions.lookup e = some r → ∃ x, e.value? gt = some x ∧ gt r = some x
  contents : ∀ p v, k.contents.lookup p = some v →
    ∃ x, gt p = some (.slot (some x)) ∧ gt.float v = some x

namespace KnownHolds

variable {k : Known} {gt : Store}

/-- A new temp changes nothing that is known. -/
theorem put (h : KnownHolds k gt) {w : Nat × Held} (hw : gt w.1 = none) :
    KnownHolds k (gt.put w) := by
  have hslot : ∀ y, gt w.1 = some y → ∃ c, y = .slot c := by simp [hw]
  have hput {id : Nat} {x : Held} (hx : gt id = some x) : gt.put w id = some x := by
    rw [Store.put_of_ne, hx]
    rintro rfl
    simp [hw] at hx
  refine ⟨fun e r hr => ?_, fun p v hv => ?_⟩
  · obtain ⟨x, hx, hr⟩ := h.expressions e r hr
    exact ⟨x, Expression.value?_put hslot hx, hput hr⟩
  · obtain ⟨x, hp, hx⟩ := h.contents p v hv
    exact ⟨x, hput hp, Store.float_put hslot hx⟩

theorem addExpression (h : KnownHolds k gt) {e : Expression} {r : Nat} {x : Held}
    (hx : e.value? gt = some x) (hr : gt r = some x) :
    KnownHolds { k with expressions := (e, r) :: k.expressions } gt :=
  ⟨forall_lookup_cons ⟨x, hx, hr⟩ fun e r _ => h.expressions e r, h.contents⟩

theorem addContents (h : KnownHolds k gt) {p : Nat} {v : Operand} {x : Float}
    (hp : gt p = some (.slot (some x))) (hv : gt.float v = some x) :
    KnownHolds { k with contents := (p, v) :: k.contents } gt :=
  ⟨h.expressions, forall_lookup_cons ⟨x, hp, hv⟩ fun p v _ => h.contents p v⟩

/-- A store makes the contents of its slot known. -/
theorem store (h : KnownHolds k gt) {p : Nat} {v : Operand} {c : Option Float} {x : Float}
    (hp : gt p = some (.slot c)) (hv : gt.float v = some x) :
    KnownHolds { k with contents := (p, v) :: k.contents } (gt.put (p, .slot (some x))) := by
  have hslot : ∀ y, gt p = some y → ∃ c, y = .slot c := by
    intro y hy
    exact ⟨c, Option.some.inj (hy.symm.trans hp)⟩
  refine ⟨fun e r hr => ?_, forall_lookup_cons ?_ fun q u hq hu => ?_⟩
  · obtain ⟨y, hy, hgt⟩ := h.expressions e r hr
    refine ⟨y, Expression.value?_put hslot hy, ?_⟩
    rw [Store.put_of_ne, hgt]
    rintro rfl
    obtain ⟨c, hc⟩ := hslot y hgt
    exact Expression.value?_ne_slot hy c hc
  · exact ⟨x, Store.put_self gt _, Store.float_put hslot hv⟩
  · obtain ⟨y, hy, hu⟩ := h.contents q u hu
    exact ⟨y, (Store.put_of_ne gt hq).trans hy, Store.float_put hslot hu⟩

end KnownHolds

theorem soundBy : Scan.SoundBy (fun _ => False) fate fun k _ gt => KnownHolds k gt where
  step k s st gt i w hc hk hw hfresh := by
    have hgt := hc.effect hw (by simp)
    have hnew : ∀ r, (s.instr i).result? = some r → gt r = none := by
      intro r hr
      exact (hc.unknown r (hfresh r (by simpa using hr))).1
    generalize s.instr i = i at hgt hnew ⊢
    unfold fate
    split
    next v p =>
      simp only [Store.effect, Option.bind_eq_some_iff, Option.map_eq_some_iff] at hgt
      obtain ⟨⟨q, c⟩, hq, x, hx, rfl⟩ := hgt
      obtain ⟨hv, hp⟩ := Store.slot_eq_some.1 hq
      cases hv
      exact ⟨by simp, hk.store hp hx⟩
    next r p t =>
      simp only [Store.effect, Option.bind_eq_some_iff, Option.map_eq_some_iff] at hgt
      obtain ⟨⟨q, c⟩, hq, x, rfl, rfl⟩ := hgt
      obtain ⟨hv, hp⟩ := Store.slot_eq_some.1 hq
      cases hv
      split
      next v hv =>
        obtain ⟨y, hy, hx⟩ := hk.contents p v hv
        cases hp.symm.trans hy
        exact ⟨rfl, by simp, Store.float_eq_some.1 hx, hk⟩
      next =>
        have hr := hnew r rfl
        have hne : p ≠ r := by
          rintro rfl
          simp [hr] at hp
        refine ⟨by simp, (hk.put hr).addContents ((Store.put_of_ne gt hne).trans hp) ?_⟩
        exact Store.float_eq_some.2 (Store.put_self gt (r, .float x))
    next hstore _ =>
      split
      next e r he =>
        obtain rfl := eq_instr_of_expression? he
        have hresult : (e.instr r).result? = some r := by cases e <;> rfl
        rw [Expression.effect_instr, Option.map_eq_some_iff] at hgt
        obtain ⟨x, hx, rfl⟩ := hgt
        split
        next earlier hr =>
          obtain ⟨y, hy, hgt⟩ := hk.expressions e earlier hr
          cases hx.symm.trans hy
          exact ⟨hresult, Expression.value?_ne_slot hx, hgt, hk⟩
        next =>
          have hr := hnew r hresult
          refine ⟨by simp,
            (hk.put hr).addExpression (Expression.value?_put ?_ hx) (Store.put_self gt _)⟩
          simp [hr]
      next =>
        rcases Store.effect_cases hgt with hr | ⟨v, p, c, x, rfl, hp, _⟩
        · exact ⟨by simp, hk.put (hnew _ hr)⟩
        · exact (hstore v w.1 (by rw [(Store.slot_eq_some.1 hp).1])).elim
  call _ _ _ _ := rfl
  called k st gt r x hk _ hr := hk.put hr
  ret _ _ := rfl

/-- Removing common expressions is a refinement. -/
theorem run_refines {A : Arities} {f : Function} (hf : f.WellFormed A) : (run f).1.Refines A f :=
  Scan.function_refines (typedBy A) (fun _ _ _ => ⟨by simp, by simp⟩) soundBy hf
    ⟨by simp, by simp⟩ fun _ => ⟨by simp, by simp⟩

end CommonExpressions

/-! ### Promotion of slots -/

namespace SlotPromotion

variable {slots : List Nat}

/-- The operands that stand for the contents of slots are doubles. -/
def ContentsTyped (contents : List (Nat × Operand)) (Δ : Types) : Prop :=
  ∀ p v, contents.lookup p = some v → OperandOk Δ .double v

theorem ContentsTyped.mono {contents : List (Nat × Operand)} {Δ Δ' : Types}
    (h : ContentsTyped contents Δ) (hs : Types.Extends Δ Δ') : ContentsTyped contents Δ' :=
  fun p v hv => (h p v hv).mono hs

theorem typedBy (A : Arities) : Scan.TypedBy A (· ∈ slots) (fate slots) ContentsTyped where
  step k s Γ Δ i hc hk hi := by
    have hkeep (hgone : ∀ p, p ∈ slots → (Ty.slot, .temp p) ∉ (s.instr i).wants) :
        Scan.FateTyped A (· ∈ slots) ContentsTyped Δ (s.instr i) (.keep k) :=
      ⟨hgone, fun hok => hk.mono hok.extends⟩
    have hshape := s.shaped_instr hi.shaped
    have hwants {w : Ty × Operand} (hw : w ∈ (s.instr i).wants) := hc.wants hi hw
    generalize s.instr i = i at hkeep hshape hwants ⊢
    unfold fate
    split
    next r t n =>
      obtain rfl : t = .double := hshape
      split
      next hr =>
        refine ⟨fun r' hr' => ?_, hk⟩
        cases hr'
        exact ⟨hr, rfl⟩
      next => exact hkeep (by simp [Instr.wants])
    next v p =>
      split
      next hp =>
        refine ⟨by simp [Instr.result?], forall_lookup_cons ?_ fun p v _ => hk p v⟩
        rcases hwants (w := (.double, v)) (by simp [Instr.wants]) with hv | ⟨_, _, hv⟩
        · exact hv
        · cases hv
      next hp =>
        refine hkeep fun q hq hmem => hp ?_
        simp [Instr.wants, Ty.slot] at hmem
        exact hmem ▸ hq
    next r p t =>
      obtain rfl : t = .double := hshape
      split
      next hp =>
        refine ⟨rfl, ⟨.double, rfl, by simp [Ty.slot], ?_⟩, hk⟩
        cases hv : k.lookup p with
        | none => trivial
        | some v => exact hk p v hv
      next hp =>
        refine hkeep fun q hq hmem => hp ?_
        simp [Instr.wants] at hmem
        exact hmem ▸ hq
    next hstore hload =>
      refine hkeep fun q hq hmem => ?_
      cases i <;> simp [Instr.wants, Ty.slot] at hmem
      · exact hload _ q _ (by rw [hmem])
      · exact hstore _ q (by rw [hmem])

/-- What the promoted slots of `st` contain is what the operands for them stand for in `gt`. -/
def ContentsHold (slots : List Nat) (contents : List (Nat × Operand)) (st gt : Store) : Prop :=
  ∀ p ∈ slots, ∀ x, st p = some (.slot (some x)) →
    ∃ v, contents.lookup p = some v ∧ gt.float v = some x

/-- Only a write into a promoted slot changes what must be known. -/
theorem ContentsHold.put_left {contents : List (Nat × Operand)} {st gt : Store}
    (h : ContentsHold slots contents st gt) {w : Nat × Held}
    (hw : w.1 ∉ slots ∨ ∀ x, w.2 ≠ .slot (some x)) : ContentsHold slots contents (st.put w) gt := by
  intro p hp x hx
  rcases Env.set_eq_some.1 hx with ⟨rfl, hwx⟩ | ⟨_, hx⟩
  · rcases hw with hw | hw
    · exact absurd hp hw
    · exact absurd hwx (hw x)
  · exact h p hp x hx

/-- A write to a new temp, or to a slot, leaves the operands for contents alone. -/
theorem ContentsHold.put_right {contents : List (Nat × Operand)} {st gt : Store}
    (h : ContentsHold slots contents st gt) {w : Nat × Held}
    (hw : ∀ y, gt w.1 = some y → ∃ c, y = .slot c) : ContentsHold slots contents st (gt.put w) := by
  intro p hp x hx
  obtain ⟨v, hv, hx⟩ := h p hp x hx
  exact ⟨v, hv, Store.float_put hw hx⟩

theorem soundBy : Scan.SoundBy (· ∈ slots) (fate slots) (ContentsHold slots) where
  step k s st gt i w hc hk hw hfresh := by
    have hnew {r : Nat} (hr : i.result? = some r) : ∀ y, gt r = some y → ∃ c, y = .slot c := by
      simp [(hc.unknown r (hfresh r hr)).1]
    cases i with
    | alloca r t n =>
      cases hw
      simp only [Subst.instr, Instr.mapOperands, fate]
      split
      next hr => exact ⟨hr, ⟨none, rfl⟩, hk.put_left (.inr (by simp))⟩
      next hr => exact ⟨by simp [Instr.wants], (hk.put_left (.inl hr)).put_right (hnew rfl)⟩
    | store v p =>
      simp only [Store.effect, Option.bind_eq_some_iff, Option.map_eq_some_iff] at hw
      obtain ⟨⟨q, c⟩, hp, x, hx, rfl⟩ := hw
      obtain ⟨hq, hgt⟩ := hc.slot hp
      simp only [Subst.instr, Instr.mapOperands, hq, fate]
      split
      next hmem =>
        refine ⟨hmem, ⟨_, rfl⟩, fun p' hp' y hy => ?_⟩
        rcases Env.set_eq_some.1 hy with ⟨rfl, hxy⟩ | ⟨hne, hy⟩
        · cases hxy
          exact ⟨_, List.lookup_cons_self, hc.float hx⟩
        · rw [lookup_cons_of_ne hne]
          exact hk p' hp' y hy
      next hmem =>
        have hslot := (Store.slot_eq_some.1 (hgt hmem)).2
        refine ⟨?_, (hk.put_left (.inl hmem)).put_right ?_⟩
        · rintro p' hp' h
          simp [Instr.wants, Ty.slot] at h
          exact hmem (h ▸ hp')
        · intro y hy
          exact ⟨c, Option.some.inj (hy.symm.trans hslot)⟩
    | load r p t =>
      simp only [Store.effect, Option.bind_eq_some_iff, Option.map_eq_some_iff] at hw
      obtain ⟨⟨q, c⟩, hp, x, rfl, rfl⟩ := hw
      obtain ⟨hq, hgt⟩ := hc.slot hp
      have hk' : ContentsHold slots k (st.put (r, .float x)) gt := hk.put_left (.inr (by simp))
      simp only [Subst.instr, Instr.mapOperands, hq, fate]
      split
      next hmem =>
        obtain ⟨v, hv, hx⟩ := hk q hmem x (Store.slot_eq_some.1 hp).2
        rw [hv, Option.getD_some]
        exact ⟨rfl, by simp, Store.float_eq_some.1 hx, hk'⟩
      next hmem =>
        refine ⟨?_, hk'.put_right (hnew rfl)⟩
        rintro p' hp' h
        simp [Instr.wants] at h
        exact hmem (h ▸ hp')
    | arith r op a b | compare r p a b =>
      simp only [Store.effect, Option.bind_eq_some_iff, Option.map_eq_some_iff] at hw
      obtain ⟨x, _, y, _, rfl⟩ := hw
      exact ⟨by simp [Subst.instr, Instr.mapOperands, Instr.wants, Ty.slot],
        (hk.put_left (.inr (by simp))).put_right (hnew rfl)⟩
    | widen r v =>
      simp only [Store.effect, Option.map_eq_some_iff] at hw
      obtain ⟨b, _, rfl⟩ := hw
      exact ⟨by simp [Subst.instr, Instr.mapOperands, Instr.wants, Ty.slot],
        (hk.put_left (.inr (by simp))).put_right (hnew rfl)⟩
    | call r f args => cases hw
    | ret v => cases hw
  call _ _ _ _ := rfl
  called k st gt r x hk _ hr := (hk.put_left (.inr (by simp))).put_right (by simp [hr])
  ret _ _ := rfl

/-- Promoting slots is a refinement. -/
theorem run_refines {A : Arities} {f : Function} (hf : f.WellFormed A) : (run f).1.Refines A f := by
  by_cases h : (slots f.instrs).isEmpty
  · simpa only [run, if_pos h] using .refl hf
  · simp only [run, if_neg h]
    refine Scan.function_refines (typedBy A) (fun _ _ h => h) soundBy hf ?_ fun args p _ x hx => ?_
    · exact fun p v hv => (nomatch hv)
    · simp [Store.ofArgs] at hx

end SlotPromotion

end StraightLine
