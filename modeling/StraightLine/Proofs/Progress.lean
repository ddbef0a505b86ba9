import StraightLine.Proofs.Scanning

/-!
# Code that is never at fault itself

A well-formed function can still fail by itself, where it reads something undefined or a slot that
is empty. It cannot when no operand is undefined and every slot is filled before it is read
(`Code.Filled`): then it always has an answer (`Function.answer?_isSome`), and fails only where a
function that it calls does.
-/

namespace StraightLine

open Verify (Types OperandOk)

namespace Instr

/-- The slots that are filled after an instruction. -/
def fills (S : List Nat) : Instr → List Nat
  | store _ (.temp p) => p :: S
  | _ => S

/-- An instruction that reads nothing undefined, and of slots only those that are filled. -/
structure Safe (S : List Nat) (i : Instr) : Prop where
  defined : .undef ∉ i.operands
  filled : ∀ r p t, i = .load r (.temp p) t → p ∈ S

end Instr

namespace Code

/-- Instructions that are safe, one after another. -/
def Filled : List Nat → List Instr → Prop
  | _, [] => True
  | S, i :: rest => i.Safe S ∧ Filled (i.fills S) rest

/-- The slots that are filled after instructions. -/
def fills (S : List Nat) (is : List Instr) : List Nat := is.foldl (fun S i => i.fills S) S

theorem filled_concat {S : List Nat} {is : List Instr} {i : Instr} :
    Filled S (is ++ [i]) ↔ Filled S is ∧ i.Safe (fills S is) := by
  induction is generalizing S with
  | nil => simp [Filled, fills]
  | cons j is ih => simp [Filled, fills, ih, and_assoc]

theorem fills_concat (S : List Nat) (is : List Instr) (i : Instr) :
    fills S (is ++ [i]) = i.fills (fills S is) := by
  simp [fills]

end Code

/-- A thing of the sort that a type stands for. -/
def Held.HasType : Held → Ty → Prop
  | .float _, t => t = .double
  | .bool _, t => t = .i1
  | .slot _, t => t = .slot

/-- A store in which the temps hold what their types say, and the slots in `S` are filled. -/
structure Store.Models (Γ : Types) (S : List Nat) (st : Store) : Prop where
  typed : ∀ id t, Γ.lookup id = some t → ∃ x, st id = some x ∧ x.HasType t
  filled : ∀ p ∈ S, Γ.lookup p = some .slot ∧ ∃ x, st p = some (.slot (some x))

namespace Store.Models

variable {Γ : Types} {S : List Nat} {st : Store}

/-- What is defined and of a type holds something of the type, if it is not a string. -/
theorem held (h : st.Models Γ S) {t : Ty} {v : Operand} (hv : OperandOk Γ t v) (hu : v ≠ .undef)
    (ht : ∀ n, t ≠ .bytes n) : ∃ x, st.held v = some x ∧ x.HasType t := by
  cases v with
  | temp id => exact h.typed id t hv
  | float x => exact ⟨_, rfl, hv⟩
  | bool b => exact ⟨_, rfl, hv⟩
  | string bs => exact absurd hv (ht _)
  | function g => cases hv
  | undef => exact absurd rfl hu

theorem float (h : st.Models Γ S) {v : Operand} (hv : OperandOk Γ .double v) (hu : v ≠ .undef) :
    ∃ x, st.float v = some x := by
  obtain ⟨x, hx, ht⟩ := h.held hv hu (by simp [Ty.bytes])
  cases x with
  | float x => exact ⟨x, Store.float_eq_some.2 hx⟩
  | bool b => cases ht
  | slot c => cases ht

theorem flag (h : st.Models Γ S) {v : Operand} (hv : OperandOk Γ .i1 v) (hu : v ≠ .undef) :
    ∃ b, st.flag v = some b := by
  obtain ⟨x, hx, ht⟩ := h.held hv hu (by simp [Ty.bytes])
  cases x with
  | float x => cases ht
  | bool b => exact ⟨b, Store.flag_eq_some.2 hx⟩
  | slot c => cases ht

theorem slot (h : st.Models Γ S) {v : Operand} (hv : OperandOk Γ .slot v) (hu : v ≠ .undef) :
    ∃ p c, st.slot v = some (p, c) := by
  obtain ⟨x, hx, ht⟩ := h.held hv hu (by simp [Ty.bytes, Ty.slot])
  cases x with
  | float x => cases ht
  | bool b => cases ht
  | slot c =>
    cases v with
    | temp p => exact ⟨p, c, Store.slot_eq_some.2 ⟨rfl, hx⟩⟩
    | _ => cases hx

theorem floats (h : st.Models Γ S) {vs : List Operand} (hvs : ∀ v ∈ vs, OperandOk Γ .double v)
    (hu : .undef ∉ vs) : ∃ xs, vs.mapM st.float = some xs := by
  induction vs with
  | nil => exact ⟨[], rfl⟩
  | cons v vs ih =>
    rw [List.forall_mem_cons] at hvs
    rw [List.mem_cons, not_or] at hu
    obtain ⟨x, hx⟩ := h.float hvs.1 (Ne.symm hu.1)
    obtain ⟨xs, hxs⟩ := ih hvs.2 hu.2
    exact ⟨x :: xs, by simp [List.mapM_cons, hx, hxs]⟩

/-- A new temp is set to something of its type. -/
theorem put_result (h : st.Models Γ S) {A : Arities} {i : Instr} (hi : i.Ok A Γ) {r : Nat} {t : Ty}
    (hr : i.result? = some r) (ht : i.resultType? = some t) {x : Held} (hx : x.HasType t) :
    (st.put (r, x)).Models (i.typesAfter Γ) S := by
  refine ⟨fun id u hid => ?_, fun p hp => ?_⟩
  · rw [Instr.lookup_typesAfter, hr, ht] at hid
    by_cases hne : id = r
    · subst hne
      rw [if_pos rfl] at hid
      cases hid
      exact ⟨x, Store.put_self st (id, x), hx⟩
    · rw [if_neg (by simpa using Ne.symm hne)] at hid
      rw [Store.put_of_ne st hne]
      exact h.typed id u hid
  · obtain ⟨hp, y, hy⟩ := h.filled p hp
    have hne : p ≠ r := by
      rintro rfl
      rw [hi.fresh p hr] at hp
      cases hp
    exact ⟨hi.extends p _ hp, y, (Store.put_of_ne st hne).trans hy⟩

/-- A slot is filled. -/
theorem put_slot (h : st.Models Γ S) {p : Nat} {c : Option Float} (hp : st p = some (.slot c))
    (hΓ : Γ.lookup p = some .slot) (x : Float) :
    (st.put (p, .slot (some x))).Models Γ (p :: S) := by
  refine ⟨fun id t hid => ?_, fun q hq => ?_⟩
  · by_cases hne : id = p
    · subst hne
      rw [hΓ] at hid
      cases hid
      exact ⟨_, Store.put_self st _, rfl⟩
    · rw [Store.put_of_ne st hne]
      exact h.typed id t hid
  · by_cases hne : q = p
    · subst hne
      exact ⟨hΓ, x, Store.put_self st _⟩
    · rw [Store.put_of_ne st hne]
      exact h.filled q ((List.mem_cons.1 hq).resolve_left hne)

/-- What an instruction wants as a double is one. -/
theorem want_float (h : st.Models Γ S) {A : Arities} {i : Instr} (hi : i.Ok A Γ) (hs : i.Safe S)
    {v : Operand} (hv : (Ty.double, v) ∈ i.wants) : ∃ x, st.float v = some x := by
  refine h.float (hi.operands _ hv) ?_
  rintro rfl
  exact hs.defined (Instr.mem_operands_of_mem_wants hv)

/-- What an instruction wants as a slot is one, at the temp of its address. -/
theorem want_slot (h : st.Models Γ S) {A : Arities} {i : Instr} (hi : i.Ok A Γ) (hs : i.Safe S)
    {v : Operand} (hv : (Ty.slot, v) ∈ i.wants) :
    ∃ p c, v = .temp p ∧ Γ.lookup p = some .slot ∧ st p = some (.slot c) := by
  have hok := hi.operands _ hv
  obtain ⟨p, c, hp⟩ := h.slot hok fun hu => hs.defined (hu ▸ Instr.mem_operands_of_mem_wants hv)
  obtain ⟨rfl, hst⟩ := Store.slot_eq_some.1 hp
  exact ⟨p, c, rfl, hok, hst⟩

/-- A safe instruction that neither calls nor returns has an effect. -/
theorem effect (h : st.Models Γ S) {A : Arities} {i : Instr} (hi : i.Ok A Γ) (hs : i.Safe S)
    (hp : i.isPlain) :
    ∃ w, st.effect i = some w ∧ (st.put w).Models (i.typesAfter Γ) (i.fills S) := by
  cases i with
  | alloca r t n =>
    obtain rfl : t = .double := hi.shaped
    exact ⟨_, rfl, h.put_result hi rfl rfl rfl⟩
  | load r p t =>
    obtain rfl : t = .double := hi.shaped
    obtain ⟨q, c, rfl, _, hq⟩ := h.want_slot hi hs (v := p) (by simp [Instr.wants])
    obtain ⟨_, x, hx⟩ := h.filled q (hs.filled r q .double rfl)
    have heffect : st.effect (.load r (.temp q) .double) = some (r, .float x) := by
      simp [Store.effect, Store.slot, hx]
    exact ⟨_, heffect, h.put_result hi rfl rfl rfl⟩
  | store v p =>
    obtain ⟨x, hx⟩ := h.want_float hi hs (v := v) (by simp [Instr.wants])
    obtain ⟨q, c, rfl, hΓ, hq⟩ := h.want_slot hi hs (v := p) (by simp [Instr.wants])
    have heffect : st.effect (.store v (.temp q)) = some (q, .slot (some x)) := by
      simp [Store.effect, Store.slot, hq, hx]
    exact ⟨_, heffect, h.put_slot hq hΓ x⟩
  | arith r op a b =>
    obtain ⟨x, hx⟩ := h.want_float hi hs (v := a) (by simp [Instr.wants])
    obtain ⟨y, hy⟩ := h.want_float hi hs (v := b) (by simp [Instr.wants])
    have heffect : st.effect (.arith r op a b) = some (r, .float (op.eval x y)) := by
      simp [Store.effect, hx, hy]
    exact ⟨_, heffect, h.put_result hi rfl rfl rfl⟩
  | compare r p a b =>
    obtain ⟨x, hx⟩ := h.want_float hi hs (v := a) (by simp [Instr.wants])
    obtain ⟨y, hy⟩ := h.want_float hi hs (v := b) (by simp [Instr.wants])
    have heffect : st.effect (.compare r p a b) = some (r, .bool (p.eval x y)) := by
      simp [Store.effect, hx, hy]
    exact ⟨_, heffect, h.put_result hi rfl rfl rfl⟩
  | widen r v =>
    have hu : v ≠ .undef := fun hu => hs.defined (by simp [Instr.operands, hu])
    obtain ⟨b, hb⟩ := h.flag (hi.operands (.i1, v) (by simp [Instr.wants])) hu
    have heffect : st.effect (.widen r v) = some (r, .float (StraightLine.widen b)) := by
      simp [Store.effect, hb]
    exact ⟨_, heffect, h.put_result hi rfl rfl rfl⟩
  | call r f args => cases hp
  | ret v => cases hp

/-- Closed code that is typed and safe has an answer. -/
theorem run {A : Arities} {is : List Instr} (h : st.Models Γ S) (ht : Code.Typed A Γ is)
    (hc : Code.Closed is) (hf : Code.Filled S is) (callee : Callee) (out : String) :
    (st.run callee is out).isSome := by
  induction is generalizing Γ S st out with
  | nil => cases hc
  | cons i is ih =>
    by_cases hi : i.isPlain
    · obtain ⟨w, hw, hm⟩ := h.effect ht.1 hf.1 hi
      rw [Store.run_plain hi, hw, Option.bind_some]
      have hterm := Instr.isTerminator_of_isPlain hi
      exact ih hm ht.2 (by simpa [Code.Closed, hterm] using hc) hf.2 out
    · cases i with
      | ret v =>
        obtain ⟨x, hx⟩ := h.want_float ht.1 hf.1 (v := v) (by simp [Instr.wants])
        simp [Store.run, hx]
      | call r f args =>
        obtain ⟨g, rfl, _⟩ := ht.1.shaped
        have hargs : ∀ v ∈ args, OperandOk Γ .double v := fun v hv =>
          ht.1.operands (.double, v) (by simpa [Instr.wants] using hv)
        obtain ⟨xs, hxs⟩ := h.floats hargs fun hu => hf.1.defined (List.mem_cons_of_mem _ hu)
        rw [Store.run_call, hxs, Option.bind_some]
        cases callee g xs out with
        | ok x out' =>
          exact ih (h.put_result (x := .float x) ht.1 rfl rfl rfl) ht.2 hc hf.2 out'
        | error e out' => rfl
      | _ => simp [Instr.isPlain] at hi

end Store.Models

/-- A function with at most one block, which is safe. -/
structure Function.Safe (f : Function) : Prop where
  single : f.blocks.length ≤ 1
  filled : Code.Filled [] f.instrs

/-- The arguments of a call have the types of the parameters. -/
theorem Store.models_ofArgs {f : Function} {args : List Float}
    (hn : f.params.map Prod.fst = List.range f.arity) (hl : args.length = f.arity) :
    (Store.ofArgs args).Models f.paramTypes [] := by
  refine ⟨fun id t hid => ?_, by simp⟩
  obtain ⟨_, _, hsplit, _⟩ := List.lookup_eq_some_iff.1 hid
  have hmem : (id, t) ∈ f.paramTypes := by simp [hsplit]
  obtain ⟨p, hp, hpt⟩ := List.mem_map.1 hmem
  cases hpt
  have hlt : p.1 < args.length := by
    rw [hl, ← List.mem_range, ← hn]
    exact List.mem_map_of_mem hp
  exact ⟨.float args[p.1], by simp [Store.ofArgs, hlt], rfl⟩

/-- **A well-formed function that is safe always has an answer.** -/
theorem Function.answer?_isSome {A : Arities} {f : Function} (hf : f.WellFormed A) (hs : f.Safe)
    (hext : f.isExternal = false) {args : List Float} (hl : args.length = f.arity)
    (callee : Callee) (out : String) : (f.answer? callee args out).isSome := by
  obtain ⟨b, hb⟩ : ∃ b, f.blocks = [b] := by
    have hne : f.blocks ≠ [] := fun h => by simp [hf.bodiless.2 h] at hext
    exact List.length_eq_one_iff.1 (by have := hs.single; have := List.length_pos_iff.2 hne; omega)
  have hinstrs : f.instrs = b.instrs := by simp [Function.instrs, hb]
  have hentry : f.entry? = some b := by simp [Function.entry?, hb]
  rw [Function.answer?, hentry, Option.bind_some]
  refine (Store.models_ofArgs (hf.numbered hext) hl).run (A := A) ?_ (hf.closed b (by simp [hb]))
    ?_ callee out
  · rw [← hinstrs]
    exact hf.typed
  · rw [← hinstrs]
    exact hs.filled

end StraightLine
