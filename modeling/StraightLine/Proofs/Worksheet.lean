import StraightLine.Proofs.Handles

/-!
# Calculations without code

Requests for constants, variables and expressions can be carried out at once, on the doubles that
a function is called with, instead of being turned into code. A *worksheet* does that: it says what
every handle to a value stands for, and what every variable holds at the moment. A handle is noted
down once; a variable is overwritten.

The code that a session puts into a function leads to a store in which handles hold what they stand
for on the worksheet (`Session.Executes`). One request keeps this (`Executes.request`), and so does
any sequence of them (`Executes.after`).
-/

namespace StraightLine

/-- What a handle to a value stands for: a number, or the result of a comparison. -/
inductive Datum where
  | number (x : Float)
  | flag (b : Bool)

namespace Datum

/-- The type of an operand that stands for a datum. -/
def type : Datum → Ty
  | number _ => .double
  | flag _ => .i1

/-- What a temp holds that stands for a datum. -/
def held : Datum → Held
  | number x => .float x
  | flag b => .bool b

end Datum

/-- Whether a request is for a constant, a variable or an expression without calls. -/
def Request.isCalculation : Request → Bool
  | floatConstant _ | declareVariable _ _ | assign _ _ | read _ | arith _ _ _ | compare _ _ _
  | widen _ => true
  | _ => false

/-- What handles stand for, and what variables hold at the moment. -/
structure Worksheet where
  values : ValueId → Option Datum
  contents : SlotId → Option Float

namespace Worksheet

/-- The number that a handle stands for. -/
def number (d : Worksheet) (v : ValueId) : Option Float :=
  match d.values v with
  | some (.number x) => some x
  | _ => none

/-- The result of a comparison that a handle stands for. -/
def flag (d : Worksheet) (v : ValueId) : Option Bool :=
  match d.values v with
  | some (.flag b) => some b
  | _ => none

/-- Notes down what a handle stands for. -/
def withValue (d : Worksheet) (v : ValueId) (x : Datum) : Worksheet :=
  { d with values := fun u => if u = v then some x else d.values u }

/-- Overwrites a variable. -/
def withContents (d : Worksheet) (p : SlotId) (x : Float) : Worksheet :=
  { d with contents := fun q => if q = p then some x else d.contents q }

/-- Carries out a request that is granted, with the handle that is given for it. -/
def carryOut (d : Worksheet) : Request → Reply → Option Worksheet
  | .floatConstant c, .value v => some (d.withValue v (.number c.value))
  | .declareVariable a _, .slot p => (d.number a).map fun x => d.withContents p x
  | .assign p a, .done =>
    (d.contents p).bind fun _ => (d.number a).map fun x => d.withContents p x
  | .read p, .value v => (d.contents p).map fun x => d.withValue v (.number x)
  | .arith op a b, .value v =>
    (d.number a).bind fun x => (d.number b).map fun y => d.withValue v (.number (op.eval x y))
  | .compare p a b, .value v =>
    (d.number a).bind fun x => (d.number b).map fun y => d.withValue v (.flag (p.eval x y))
  | .widen a, .value v => (d.flag a).map fun b => d.withValue v (.number (StraightLine.widen b))
  | _, _ => none

/-- A request that is refused is not carried out. -/
def obey (d : Worksheet) (r : Request) : Except Error Reply → Option Worksheet
  | .ok reply => d.carryOut r reply
  | .error _ => some d

/-- Carries out what a session grants of some requests, one after the other. -/
def run (d : Worksheet) (s : Session) : List Request → Option Worksheet
  | [] => some d
  | r :: rs => (d.obey r (s.request r).1).bind fun d => d.run (s.request r).2 rs

/-- The worksheet of a function that is called: its parameters stand for the arguments, the
constants of the session for themselves, and there are no variables. -/
def start (s : Session) (f : FunctionId) (args : List Float) : Worksheet where
  values v :=
    match (s.entry f).toOption.bind fun e => e.params.idxOf? v with
    | some i => args[i]?.map .number
    | none => ((s.value v).toOption.bind fun e => e.operand.float?).map (.number ·.value)
  contents _ := none

/-- Everything that is noted down in `d` is so in `d'`. -/
def Within (d d' : Worksheet) : Prop := ∀ v x, d.values v = some x → d'.values v = some x

variable {d d' : Worksheet} {v : ValueId} {p : SlotId}

theorem number_eq_some {x : Float} : d.number v = some x ↔ d.values v = some (.number x) := by
  unfold number
  split <;> simp_all

theorem flag_eq_some {b : Bool} : d.flag v = some b ↔ d.values v = some (.flag b) := by
  unfold flag
  split <;> simp_all [-Bool.exists_bool, -Bool.forall_bool]

@[simp] theorem values_withValue_self (d : Worksheet) (v : ValueId) (x : Datum) :
    (d.withValue v x).values v = some x :=
  if_pos rfl

theorem values_withValue_of_ne {u : ValueId} (h : u ≠ v) (x : Datum) :
    (d.withValue v x).values u = d.values u :=
  if_neg h

@[simp] theorem contents_withContents_self (d : Worksheet) (p : SlotId) (x : Float) :
    (d.withContents p x).contents p = some x :=
  if_pos rfl

theorem contents_withContents_of_ne {q : SlotId} (h : q ≠ p) (x : Float) :
    (d.withContents p x).contents q = d.contents q :=
  if_neg h

theorem Within.refl (d : Worksheet) : d.Within d := fun _ _ h => h

theorem Within.trans {d'' : Worksheet} (h : d.Within d') (h' : d'.Within d'') : d.Within d'' :=
  fun v x hx => h' v x (h v x hx)

theorem within_withValue (h : d.values v = none) (x : Datum) : d.Within (d.withValue v x) := by
  intro u y hu
  have hne : u ≠ v := by
    rintro rfl
    cases h.symm.trans hu
  rw [values_withValue_of_ne hne, hu]

theorem run_append (d : Worksheet) (s : Session) (rs rs' : List Request) :
    d.run s (rs ++ rs') = (d.run s rs).bind fun d => d.run (s.after rs) rs' := by
  induction rs generalizing d s with
  | nil => rfl
  | cons r rs ih =>
    simp only [List.cons_append, run, Option.bind_assoc, ih]
    rfl

end Worksheet

/-! ### Stores that code leads to -/

/-- From a store, instructions lead to another, whatever comes behind them. -/
def Store.Reaches (st : Store) (is : List Instr) (st' : Store) : Prop :=
  ∀ callee rest out, st.run callee (is ++ rest) out = st'.run callee rest out

theorem Store.Reaches.refl (st : Store) : st.Reaches [] st := fun _ _ _ => rfl

theorem Store.Reaches.concat {st st' : Store} {is : List Instr} (h : st.Reaches is st') {i : Instr}
    (hi : i.isPlain) {w : Nat × Held} (hw : st'.effect i = some w) :
    st.Reaches (is ++ [i]) (st'.put w) := by
  intro callee rest out
  rw [List.append_assoc, h, List.singleton_append, run_plain hi, hw, Option.bind_some]

/-! ### What handles stand for -/

/-- In a store, what a handle stands for holds a datum, in a temp below `n` if in any. -/
structure ValueEntry.Stands (e : ValueEntry) (n : Nat) (st : Store) (x : Datum) : Prop where
  type : e.type = x.type
  below : ∀ id, e.operand = .temp id → id < n
  held : st.held e.operand = some x.held

namespace ValueEntry.Stands

variable {e : ValueEntry} {n : Nat} {st : Store} {x : Datum}

theorem mono (h : e.Stands n st x) {n' : Nat} (hn : n ≤ n') {st' : Store} (hst : st.Agrees n st') :
    e.Stands n' st' x := by
  refine ⟨h.type, fun id hid => Nat.lt_of_lt_of_le (h.below id hid) hn, ?_⟩
  rw [Store.held_congr fun id hid => hst id (h.below id hid), h.held]

/-- A datum does not change with a slot, which holds none. -/
theorem put_slot (h : e.Stands n st x) {p : Nat} {c : Option Float} (hp : st p = some (.slot c))
    (c' : Option Float) : e.Stands n (st.put (p, .slot c')) x := by
  refine ⟨h.type, h.below, ?_⟩
  rw [Store.held_congr fun id hid => ?_, h.held]
  refine Store.put_of_ne st ?_
  rintro rfl
  have hheld := h.held
  rw [hid] at hheld
  cases x <;> cases hheld.symm.trans hp

/-- The temp that was written last holds what was written. -/
theorem put (e : ValueEntry) (st : Store) (x : Datum) (hoperand : e.operand = .temp n)
    (htype : e.type = x.type) : e.Stands (n + 1) (st.put (n, x.held)) x := by
  refine ⟨htype, fun id hid => ?_, ?_⟩
  · cases hoperand.symm.trans hid
    exact Nat.lt_succ_self n
  · rw [hoperand]
    exact Store.put_self st (n, x.held)

end ValueEntry.Stands

namespace Session

theorem value_withValue_cases {s : Session} {e e' : ValueEntry} {v : ValueId}
    (h : (s.withValue e).value v = .ok e') :
    s.value v = .ok e' ∨ v = ⟨s.id, s.values.size⟩ ∧ e' = e :=
  Handle.resolve_push_cases h

theorem slot_withSlot_cases {s : Session} {e e' : SlotEntry} {slot : SlotId}
    (h : (s.withSlot e).slot slot = .ok e') :
    s.slot slot = .ok e' ∨ slot = ⟨s.id, s.slots.size⟩ ∧ e' = e :=
  Handle.resolve_push_cases h

/-- In a store, the handles that can be used in the function at a place hold what they stand for on
a worksheet, and its variables have slots of their own. -/
structure Shows (s : Session) (place : Nat) (st : Store) (d : Worksheet) : Prop where
  values : ∀ v e, s.value v = .ok e → e.owner = none ∨ e.owner = some place →
    e.type = .double ∨ e.type = .i1 → ∃ x, d.values v = some x ∧ e.Stands s.draft.temps.next st x
  known : ∀ v x, d.values v = some x → ∃ e, s.value v = .ok e
  slots : ∀ h e, s.slot h = .ok e → e.owner = place → ∃ p x, e.ptr = .temp p ∧
    p < s.draft.temps.next ∧ d.contents h = some x ∧ st p = some (.slot (some x))
  apart : ∀ h h' e e', s.slot h = .ok e → s.slot h' = .ok e' → e.owner = place →
    e'.owner = place → e.ptr = e'.ptr → h = h'

namespace Shows

variable {s t : Session} {place : Nat} {st st' : Store} {d : Worksheet}

/-! ### Operands -/

theorem number (h : s.Shows place st d) {v : ValueId} {a : Operand}
    (ha : s.doubleIn place v = .ok a) : ∃ x, d.number v = some x ∧ st.float a = some x := by
  obtain ⟨owner, hv, howner⟩ := doubleIn_eq_ok ha
  obtain ⟨x, hx, hstands⟩ := h.values v _ hv howner (.inl rfl)
  cases x with
  | number x => exact ⟨x, Worksheet.number_eq_some.2 hx, Store.float_eq_some.2 hstands.held⟩
  | flag b => cases hstands.type

theorem flag (h : s.Shows place st d) {v : ValueId} {a : Operand}
    (ha : s.flagIn place v = .ok a) : ∃ b, d.flag v = some b ∧ st.flag a = some b := by
  obtain ⟨owner, hv, howner⟩ := flagIn_eq_ok ha
  obtain ⟨x, hx, hstands⟩ := h.values v _ hv howner (.inr rfl)
  cases x with
  | number x => cases hstands.type
  | flag b => exact ⟨b, Worksheet.flag_eq_some.2 hx, Store.flag_eq_some.2 hstands.held⟩

theorem pointer (h : s.Shows place st d) {slot : SlotId} {a : Operand}
    (ha : s.pointerIn place slot = .ok a) :
    ∃ p x, d.contents slot = some x ∧ st.slot a = some (p, some x) := by
  obtain ⟨name, hslot⟩ := pointerIn_eq_ok ha
  obtain ⟨p, x, hptr, _, hx, hst⟩ := h.slots slot _ hslot rfl
  exact ⟨p, x, hx, Store.slot_eq_some.2 ⟨hptr, hst⟩⟩

theorem unknown (h : s.Shows place st d) : d.values ⟨s.id, s.values.size⟩ = none := by
  rw [Option.eq_none_iff_forall_ne_some]
  intro x hx
  obtain ⟨e, he⟩ := h.known _ x hx
  exact Handle.ne_of_resolve he rfl

/-! ### Changes -/

/-- Handles keep what they stand for while later temps are written. -/
theorem mono (h : s.Shows place st d) (hid : t.id = s.id) (hvalues : t.values = s.values)
    (hslots : t.slots = s.slots) (htemps : s.draft.temps.next ≤ t.draft.temps.next)
    (hst : st.Agrees s.draft.temps.next st') : t.Shows place st' d := by
  have hvalue : t.value = s.value := by
    funext v
    rw [Session.value, Session.value, hid, hvalues]
  have hslot : t.slot = s.slot := by
    funext p
    rw [Session.slot, Session.slot, hid, hslots]
  constructor
  · intro v e he howner htype
    obtain ⟨x, hx, hstands⟩ := h.values v e (hvalue ▸ he) howner htype
    exact ⟨x, hx, hstands.mono htemps hst⟩
  · rw [hvalue]
    exact h.known
  · intro p e he howner
    obtain ⟨q, x, hptr, hlt, hx, hq⟩ := h.slots p e (hslot ▸ he) howner
    exact ⟨q, x, hptr, Nat.lt_of_lt_of_le hlt htemps, hx, (hst q hlt).trans hq⟩
  · rw [hslot]
    exact h.apart

/-- A new handle is noted down. -/
theorem withValue (h : s.Shows place st d) {e : ValueEntry} {x : Datum}
    (hx : e.Stands s.draft.temps.next st x) :
    (s.withValue e).Shows place st (d.withValue ⟨s.id, s.values.size⟩ x) where
  values v e' he' howner htype := by
    rcases value_withValue_cases he' with hold | ⟨rfl, rfl⟩
    · rw [Worksheet.values_withValue_of_ne (Handle.ne_of_resolve hold)]
      exact h.values v e' hold howner htype
    · exact ⟨x, Worksheet.values_withValue_self d _ x, hx⟩
  known v y hy := by
    by_cases hv : v = ⟨s.id, s.values.size⟩
    · subst hv
      exact ⟨e, Handle.resolve_push_size e⟩
    · rw [Worksheet.values_withValue_of_ne hv] at hy
      obtain ⟨e', he'⟩ := h.known v y hy
      exact ⟨e', Handle.resolve_push he' e⟩
  slots := h.slots
  apart := h.apart

/-- A new variable has a slot of its own. -/
theorem withSlot (h : s.Shows place st d) {p : Nat} (hp : p < s.draft.temps.next)
    (hnew : ∀ slot e, s.slot slot = .ok e → e.owner = place → e.ptr ≠ .temp p) {x : Float}
    (hx : st p = some (.slot (some x))) (name : String) :
    (s.withSlot ⟨.temp p, place, name⟩).Shows place st
      (d.withContents ⟨s.id, s.slots.size⟩ x) where
  values := h.values
  known := h.known
  slots slot e he howner := by
    rcases slot_withSlot_cases he with hold | ⟨rfl, rfl⟩
    · rw [Worksheet.contents_withContents_of_ne (Handle.ne_of_resolve hold)]
      exact h.slots slot e hold howner
    · exact ⟨p, x, rfl, hp, Worksheet.contents_withContents_self d _ x, hx⟩
  apart slot slot' e e' he he' howner howner' hptr := by
    rcases slot_withSlot_cases he with hold | ⟨rfl, rfl⟩ <;>
      rcases slot_withSlot_cases he' with hold' | ⟨rfl, rfl⟩
    · exact h.apart slot slot' e e' hold hold' howner howner' hptr
    · exact absurd hptr (hnew slot e hold howner)
    · exact absurd hptr.symm (hnew slot' e' hold' howner')
    · rfl

/-- A variable is overwritten, and nothing else changes. -/
theorem overwrite (h : s.Shows place st d) {slot : SlotId} {a : Operand}
    (ha : s.pointerIn place slot = .ok a) {p : Nat} {c : Option Float}
    (hp : st.slot a = some (p, c)) (x : Float) :
    s.Shows place (st.put (p, .slot (some x))) (d.withContents slot x) := by
  obtain ⟨rfl, hst⟩ := Store.slot_eq_some.1 hp
  obtain ⟨name, hslot⟩ := pointerIn_eq_ok ha
  constructor
  · intro v e he howner htype
    obtain ⟨y, hy, hstands⟩ := h.values v e he howner htype
    exact ⟨y, hy, hstands.put_slot hst (some x)⟩
  · exact h.known
  · intro slot' e he howner
    obtain ⟨q, y, hptr, hlt, hy, hq⟩ := h.slots slot' e he howner
    by_cases heq : slot' = slot
    · subst heq
      obtain rfl := Except.ok.inj (hslot.symm.trans he)
      obtain rfl : p = q := Operand.temp.inj hptr
      exact ⟨p, x, rfl, hlt, Worksheet.contents_withContents_self d _ x, Store.put_self st _⟩
    · -- Slots of different handles have different temps.
      have hne : q ≠ p := by
        rintro rfl
        exact heq (h.apart slot' slot e _ he hslot howner rfl hptr)
      refine ⟨q, y, hptr, hlt, ?_, (Store.put_of_ne st hne).trans hq⟩
      rw [Worksheet.contents_withContents_of_ne heq, hy]
  · exact h.apart

/-- The result of an instruction gets a handle. -/
theorem emitted (h : s.Shows place st d) {c : Cursor} (i : Nat → Instr) (x : Datum) :
    (s.emitted c i x.type).Shows place (st.put (s.draft.temps.next, x.held))
      (d.withValue ⟨s.id, s.values.size⟩ x) := by
  refine Shows.withValue (s := s.numbered.appended c (i s.draft.temps.next)) ?_ ?_
  · exact h.mono rfl rfl rfl (Nat.le_succ _) (.put st (Nat.le_refl _) _)
  · exact .put _ st x rfl rfl

/-- A slot is made and filled, and gets a handle. -/
theorem withVariable (h : s.Shows place st d) {c : Cursor} (hc : c.function = place) (a : Operand)
    (name : String) (x : Float) :
    (s.withVariable c a name).Shows place
      ((st.put (s.draft.temps.next, .slot none)).put (s.draft.temps.next, .slot (some x)))
      (d.withContents ⟨s.id, s.slots.size⟩ x) := by
  subst hc
  have hagrees := (Store.Agrees.put st (Nat.le_refl s.draft.temps.next) (.slot none)).trans
    (Nat.le_refl _) (.put _ (Nat.le_refl _) (.slot (some x)))
  refine Shows.withSlot (s := (s.numbered.appended c _).appended c _) ?_ (Nat.lt_succ_self _) ?_
    (Store.put_self ..) name
  · exact h.mono rfl rfl rfl (Nat.le_succ _) hagrees
  · intro slot e he howner hptr
    obtain ⟨p, _, hp, hlt, _⟩ := h.slots slot e he howner
    cases hptr.symm.trans hp
    exact Nat.lt_irrefl _ hlt

end Shows

/-! ### Requests -/

/-- A query is refused without a trace, or answered. -/
theorem ask_cases {α β : Type} (q : Session → Except Error α) (k : α → SessionM β) (s : Session) :
    (∃ err, (query q >>= k) s = .error err s) ∨
      ∃ a, q s = .ok a ∧ (query q >>= k) s = k a s := by
  rw [bind_query]
  cases q s with
  | ok a => exact .inr ⟨a, rfl, rfl⟩
  | error err => exact .inl ⟨err, rfl⟩

namespace Working

variable {s : Session} {w : Workplace}

/-- The cursor is at the open block of the function under construction. -/
theorem site (hw : s.Working w) : ∃ f b, s.Site ⟨w.before.length, w.label⟩ f b := by
  obtain ⟨c, f, b, hsite, _⟩ := hw.exists_site
  obtain ⟨code, hworks⟩ := hw.works
  exact ⟨f, b, hworks.cursor_eq hsite.cursor ▸ hsite⟩

/-- A request for an expression with one operand is refused without a trace, or emits an
instruction. -/
theorem single_cases (hw : s.Working w) {x : SessionM ValueId}
    {q : Nat → Session → Except Error Operand} {i : Operand → Nat → Instr} {ty : Ty}
    (hx : x = do
      let f ← cursorFunction
      let a ← query (q f)
      let v ← build (Draft.define (i a))
      addValue ⟨v, ty, some f⟩) :
    (∃ err, x s = .error err s) ∨ ∃ a, q w.before.length s = .ok a ∧
      x s = .ok ⟨s.id, s.values.size⟩ (s.emitted ⟨w.before.length, w.label⟩ (i a) ty) := by
  obtain ⟨f, b, hsite⟩ := hw.site
  rw [hx, cursorFunction_eq, bind_query_of_ok hw.site_eq]
  rcases ask_cases (q w.before.length) _ s with h | ⟨a, ha, h⟩
  · exact .inl h
  · exact .inr ⟨a, ha, h.trans (emit_of_site hsite (i a) ty)⟩

/-- A request for an expression with two operands is refused without a trace, or emits an
instruction. -/
theorem pair_cases (hw : s.Working w) {x : SessionM ValueId} {lhs rhs : ValueId}
    {i : Operand → Operand → Nat → Instr} {ty : Ty}
    (hx : x = do
      let f ← cursorFunction
      let a ← query fun s => s.doubleIn f lhs
      let b ← query fun s => s.doubleIn f rhs
      let v ← build (Draft.define (i a b))
      addValue ⟨v, ty, some f⟩) :
    (∃ err, x s = .error err s) ∨ ∃ a b, s.doubleIn w.before.length lhs = .ok a ∧
      s.doubleIn w.before.length rhs = .ok b ∧
      x s = .ok ⟨s.id, s.values.size⟩ (s.emitted ⟨w.before.length, w.label⟩ (i a b) ty) := by
  obtain ⟨f, b, hsite⟩ := hw.site
  rw [hx, cursorFunction_eq, bind_query_of_ok hw.site_eq]
  rcases ask_cases (fun s => s.doubleIn w.before.length lhs) _ s with h | ⟨a, ha, h⟩
  · exact .inl h
  rw [h]
  rcases ask_cases (fun s => s.doubleIn w.before.length rhs) _ s with h | ⟨b, hb, h⟩
  · exact .inl h
  · exact .inr ⟨a, b, ha, hb, h.trans (emit_of_site hsite (i a b) ty)⟩

theorem declareVariable_cases (hw : s.Working w) (initial : ValueId) (name : String) :
    (∃ err, declareVariable initial name s = .error err s) ∨
      ∃ a, s.doubleIn w.before.length initial = .ok a ∧ declareVariable initial name s =
        .ok ⟨s.id, s.slots.size⟩ (s.withVariable ⟨w.before.length, w.label⟩ a name) := by
  obtain ⟨f, b, hsite⟩ := hw.site
  rw [declareVariable, cursorFunction_eq, bind_query_of_ok hw.site_eq]
  rcases ask_cases (fun s => s.doubleIn w.before.length initial) _ s with h | ⟨a, ha, h⟩
  · exact .inl h
  · exact .inr ⟨a, ha, h.trans (makeVariable_of_site hsite a name)⟩

theorem assign_cases (hw : s.Working w) (slot : SlotId) (value : ValueId) :
    (∃ err, assign slot value s = .error err s) ∨
      ∃ p a, s.pointerIn w.before.length slot = .ok p ∧ s.doubleIn w.before.length value = .ok a ∧
        assign slot value s = .ok () (s.appended ⟨w.before.length, w.label⟩ (.store a p)) := by
  obtain ⟨f, b, hsite⟩ := hw.site
  rw [assign, cursorFunction_eq, bind_query_of_ok hw.site_eq]
  rcases ask_cases (fun s => s.pointerIn w.before.length slot) _ s with h | ⟨p, hp, h⟩
  · exact .inl h
  rw [h]
  rcases ask_cases (fun s => s.doubleIn w.before.length value) _ s with h | ⟨a, ha, h⟩
  · exact .inl h
  · exact .inr ⟨p, a, hp, ha, h.trans (append_of_site hsite (.store a p))⟩

end Working

/-! ### Code that carries out a calculation -/

/-- The session has put code into the function of a workplace that, run on some arguments, leads to
a store that shows a worksheet. -/
structure LeadsTo (s : Session) (w : Workplace) (args : List Float) (code : List Instr) (st : Store)
    (d : Worksheet) : Prop where
  works : s.WorksAt w code
  reaches : (Store.ofArgs args).Reaches code st
  shows : s.Shows w.before.length st d

/-- The code that the session has put into the function of a workplace does what is on a
worksheet. -/
def Executes (s : Session) (w : Workplace) (args : List Float) (d : Worksheet) : Prop :=
  ∃ code st, s.LeadsTo w args code st d

/-- A request is carried out on a worksheet, and by the code after it. -/
def Obeys (s : Session) (w : Workplace) (args : List Float) (d : Worksheet) (r : Request) : Prop :=
  ∃ d', d.obey r (s.request r).1 = some d' ∧ (s.request r).2.Executes w args d' ∧ d.Within d'

variable {s t : Session} {w : Workplace} {args : List Float} {code : List Instr} {st : Store}
  {d d' : Worksheet} {r : Request}

theorem Obeys.of_error (h : s.LeadsTo w args code st d) {err : Error}
    (hr : s.request r = (.error err, s)) : s.Obeys w args d r := by
  refine ⟨d, ?_, ?_, .refl d⟩ <;> rw [hr]
  · rfl
  · exact ⟨code, st, h⟩

theorem Obeys.of_ok {reply : Reply} (hr : s.request r = (.ok reply, t))
    (hd : d.carryOut r reply = some d') (ht : t.LeadsTo w args code st d') (hwithin : d.Within d') :
    s.Obeys w args d r := by
  refine ⟨d', ?_, ?_, hwithin⟩ <;> rw [hr]
  · exact hd
  · exact ⟨code, st, ht⟩

namespace LeadsTo

theorem floatConstant (h : s.LeadsTo w args code st d) (c : Numeral) :
    s.Obeys w args d (.floatConstant c) := by
  have hshows := h.shows.withValue (e := ⟨.float c, .double, none⟩) (x := .number c.value)
    ⟨rfl, by simp, rfl⟩
  exact .of_ok (request_of_ok rfl rfl) rfl ⟨h.works.withValue _, h.reaches, hshows⟩
    (Worksheet.within_withValue h.shows.unknown _)

/-- An instruction that computes a datum is emitted, and its handle noted down. -/
theorem emitted (h : s.LeadsTo w args code st d) {i : Nat → Instr} {x : Datum}
    (hr : s.request r = (.ok (.value ⟨s.id, s.values.size⟩),
      s.emitted ⟨w.before.length, w.label⟩ i x.type))
    (hd : ∀ v, d.carryOut r (.value v) = some (d.withValue v x))
    (hi : (i s.draft.temps.next).isPlain)
    (heffect : st.effect (i s.draft.temps.next) = some (s.draft.temps.next, x.held)) :
    s.Obeys w args d r := by
  have hworks := h.works.numbered.appended h.works.cursor (i s.draft.temps.next)
  have hreaches := h.reaches.concat hi heffect
  exact .of_ok hr (hd _) ⟨hworks.withValue _, hreaches, h.shows.emitted i x⟩
    (Worksheet.within_withValue h.shows.unknown x)

theorem declareVariable (h : s.LeadsTo w args code st d) (hs : s.Working w) (initial : ValueId)
    (name : String) : s.Obeys w args d (.declareVariable initial name) := by
  rcases hs.declareVariable_cases initial name with ⟨err, herr⟩ | ⟨a, ha, hok⟩
  · exact .of_error h (request_of_error rfl herr)
  -- The value was computed before the slot is made, so it is not in the new temp.
  have hshows : s.Shows w.before.length (st.put (s.draft.temps.next, .slot none)) d :=
    h.shows.mono rfl rfl rfl (Nat.le_refl _) (.put st (Nat.le_refl _) _)
  obtain ⟨x, hx, hst⟩ := hshows.number ha
  have hd : d.carryOut (.declareVariable initial name) (.slot ⟨s.id, s.slots.size⟩) =
      some (d.withContents ⟨s.id, s.slots.size⟩ x) := by
    simp [Worksheet.carryOut, hx]
  have hfill : (st.put (s.draft.temps.next, .slot none)).effect
      (.store a (.temp s.draft.temps.next)) = some (s.draft.temps.next, .slot (some x)) := by
    simp [Store.effect, Store.slot, hst, Store.put]
  have hmade := h.works.numbered.appended h.works.cursor (.alloca s.draft.temps.next .double name)
  have hfilled := hmade.appended h.works.cursor (.store a (.temp s.draft.temps.next))
  have hreaches := (h.reaches.concat (i := .alloca s.draft.temps.next .double name) rfl rfl).concat
    rfl hfill
  exact .of_ok (request_of_ok rfl hok) hd
    ⟨hfilled.withSlot _, hreaches, h.shows.withVariable rfl a name x⟩ (.refl d)

theorem assign (h : s.LeadsTo w args code st d) (hs : s.Working w) (slot : SlotId)
    (value : ValueId) : s.Obeys w args d (.assign slot value) := by
  rcases hs.assign_cases slot value with ⟨err, herr⟩ | ⟨q, a, hq, ha, hok⟩
  · exact .of_error h (request_of_error rfl herr)
  obtain ⟨x, hx, hst⟩ := h.shows.number ha
  obtain ⟨p, y, hy, hp⟩ := h.shows.pointer hq
  have hd : d.carryOut (.assign slot value) .done = some (d.withContents slot x) := by
    simp [Worksheet.carryOut, hx, hy]
  have hstore : st.effect (.store a q) = some (p, .slot (some x)) := by
    simp [Store.effect, hp, hst]
  have hshows := h.shows.overwrite hq hp x
  exact .of_ok (request_of_ok rfl hok) hd ⟨h.works.appended h.works.cursor _,
    h.reaches.concat rfl hstore, hshows.mono rfl rfl rfl (Nat.le_refl _) (.refl _ _)⟩ (.refl d)

theorem read (h : s.LeadsTo w args code st d) (hs : s.Working w) (slot : SlotId) :
    s.Obeys w args d (.read slot) := by
  rcases hs.single_cases (x := Session.read slot) rfl with ⟨err, herr⟩ | ⟨q, hq, hok⟩
  · exact .of_error h (request_of_error rfl herr)
  obtain ⟨p, x, hx, hp⟩ := h.shows.pointer hq
  refine h.emitted (x := .number x) (request_of_ok rfl hok) (fun v => ?_) rfl ?_
  · simp [Worksheet.carryOut, hx]
  · simp [Store.effect, hp, Datum.held]

theorem arith (h : s.LeadsTo w args code st d) (hs : s.Working w) (op : Arith)
    (lhs rhs : ValueId) : s.Obeys w args d (.arith op lhs rhs) := by
  rcases hs.pair_cases (x := Session.arith op lhs rhs) rfl with ⟨err, herr⟩ | ⟨a, b, ha, hb, hok⟩
  · exact .of_error h (request_of_error rfl herr)
  obtain ⟨x, hx, hstx⟩ := h.shows.number ha
  obtain ⟨y, hy, hsty⟩ := h.shows.number hb
  refine h.emitted (x := .number (op.eval x y)) (request_of_ok rfl hok) (fun v => ?_) rfl ?_
  · simp [Worksheet.carryOut, hx, hy]
  · simp [Store.effect, hstx, hsty, Datum.held]

theorem compare (h : s.LeadsTo w args code st d) (hs : s.Working w) (p : Predicate)
    (lhs rhs : ValueId) : s.Obeys w args d (.compare p lhs rhs) := by
  rcases hs.pair_cases (x := Session.compare p lhs rhs) rfl with ⟨err, herr⟩ | ⟨a, b, ha, hb, hok⟩
  · exact .of_error h (request_of_error rfl herr)
  obtain ⟨x, hx, hstx⟩ := h.shows.number ha
  obtain ⟨y, hy, hsty⟩ := h.shows.number hb
  refine h.emitted (x := .flag (p.eval x y)) (request_of_ok rfl hok) (fun v => ?_) rfl ?_
  · simp [Worksheet.carryOut, hx, hy]
  · simp [Store.effect, hstx, hsty, Datum.held]

theorem widen (h : s.LeadsTo w args code st d) (hs : s.Working w) (value : ValueId) :
    s.Obeys w args d (.widen value) := by
  rcases hs.single_cases (x := Session.widen value) rfl with ⟨err, herr⟩ | ⟨a, ha, hok⟩
  · exact .of_error h (request_of_error rfl herr)
  obtain ⟨b, hb, hst⟩ := h.shows.flag ha
  refine h.emitted (x := .number (StraightLine.widen b)) (request_of_ok rfl hok) (fun v => ?_) rfl
    ?_
  · simp [Worksheet.carryOut, hb]
  · simp [Store.effect, hst, Datum.held]

end LeadsTo

/-- **One request.** What a calculation asks of a session is what its code does. -/
theorem Executes.request (h : s.Executes w args d) (hs : s.Formed) (hr : r.isCalculation) :
    s.Obeys w args d r := by
  obtain ⟨code, st, h⟩ := h
  have hworking : s.Working w := ⟨hs, code, h.works⟩
  cases r with
  | floatConstant c => exact h.floatConstant c
  | declareVariable v n => exact h.declareVariable hworking v n
  | assign p v => exact h.assign hworking p v
  | read p => exact h.read hworking p
  | arith op a b => exact h.arith hworking op a b
  | compare p a b => exact h.compare hworking p a b
  | widen v => exact h.widen hworking v
  | _ => cases hr

/-- **A whole calculation.** What requests ask of a session is what its code does. -/
theorem Executes.after (h : s.Executes w args d) (hs : s.InOrder) {body : List Request}
    (hbody : ∀ r ∈ body, r.isCalculation) :
    ∃ d', d.run s body = some d' ∧ (s.after body).Executes w args d' ∧ d.Within d' := by
  induction body generalizing s d with
  | nil => exact ⟨d, rfl, h, .refl d⟩
  | cons r body ih =>
    obtain ⟨hr, hbody⟩ := List.forall_mem_cons.1 hbody
    obtain ⟨d₁, hobey, h₁, hwithin₁⟩ := h.request hs.steady.formed hr
    obtain ⟨d₂, hrun, h₂, hwithin₂⟩ := ih h₁ (hs.request r) hbody
    refine ⟨d₂, ?_, h₂, hwithin₁.trans hwithin₂⟩
    rw [Worksheet.run, hobey, Option.bind_some, hrun]

/-- What was noted down at some time in a calculation is the same at its end. -/
theorem Executes.within (h : s.Executes w args d) (hs : s.InOrder) {body rest : List Request}
    (hbody : ∀ r ∈ body ++ rest, r.isCalculation) {d₁ d₂ : Worksheet}
    (h₁ : d.run s body = some d₁) (h₂ : d.run s (body ++ rest) = some d₂) : d₁.Within d₂ := by
  obtain ⟨hbody, hrest⟩ := List.forall_mem_append.1 hbody
  obtain ⟨d₁', hrun, hmid, _⟩ := h.after hs hbody
  obtain rfl := Option.some.inj (hrun.symm.trans h₁)
  obtain ⟨d₂', hrun', _, hwithin⟩ := hmid.after (hs.steps (after_steps s body)) hrest
  rw [Worksheet.run_append, h₁, Option.bind_some, hrun'] at h₂
  exact Option.some.inj h₂ ▸ hwithin

end Session

end StraightLine
