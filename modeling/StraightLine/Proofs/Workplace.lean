import StraightLine.Lower
import StraightLine.Proofs.Interpreter
import StraightLine.Proofs.SessionLifecycle
import StraightLine.Proofs.Store

/-!
# Code at the cursor

While an item is lowered, code grows in the last function of the module (`Session.WorksAt`), and
handles only become more (`Session.Extends`). What the code does is said by comparing it with a
computation (`Store.Does`): executed from a store, it fails as the computation fails, or goes on in
a store where the handles hold what the computation gives.
-/

namespace StraightLine

open Eval (Run)
open Interpreter (Value Local Locals)

/-! ### Code and computations -/

namespace Store

variable {α β : Type} {callee : Callee} {st : Store}

/-- From a store, instructions do what a computation does: they end with its failure, or go on in a
store of which `post` holds together with the value. -/
def Does (callee : Callee) (st : Store) (is : List Instr) (x : Run α) (post : α → Store → Prop) :
    Prop :=
  ∀ out, match x out with
    | .ok a out' => ∃ st', post a st' ∧
        ∀ rest, st.run callee (is ++ rest) out = st'.run callee rest out'
    | .error e out' => ∀ rest, st.run callee (is ++ rest) out = some (.error e out')

/-- No code does what a computation does that only returns. -/
theorem does_pure {a : α} {post : α → Store → Prop} (h : post a st) :
    st.Does callee [] (pure a) post :=
  fun _ => ⟨st, h, fun _ => rfl⟩

/-- Code one after the other does what the computations do one after the other. -/
theorem Does.bind {is₁ is₂ : List Instr} {x : Run α} {k : α → Run β} {mid : α → Store → Prop}
    {post : β → Store → Prop} (hx : st.Does callee is₁ x mid)
    (hk : ∀ a st', mid a st' → st'.Does callee is₂ (k a) post) :
    st.Does callee (is₁ ++ is₂) (x >>= k) post := by
  intro out
  have hx := hx out
  change match EStateM.bind x k out with
    | .ok a out' => _
    | .error e out' => _
  unfold EStateM.bind
  cases hres : x out with
  | error e out' =>
    rw [hres] at hx
    intro rest
    rw [List.append_assoc]
    exact hx _
  | ok a out' =>
    rw [hres] at hx
    obtain ⟨st', hmid, hrun⟩ := hx
    have hk := hk a st' hmid out'
    dsimp only
    cases hres' : k a out' with
    | error e out'' =>
      rw [hres'] at hk
      intro rest
      rw [List.append_assoc, hrun]
      exact hk rest
    | ok b out'' =>
      rw [hres'] at hk
      obtain ⟨st'', hpost, hrun'⟩ := hk
      refine ⟨st'', hpost, fun rest => ?_⟩
      rw [List.append_assoc, hrun, hrun']

/-- A computation that only makes another value of the one it is given needs no code. -/
theorem Does.map {is : List Instr} {x : Run α} {mid : α → Store → Prop} {post : β → Store → Prop}
    (hx : st.Does callee is x mid) (g : α → β) (h : ∀ a st', mid a st' → post (g a) st') :
    st.Does callee is (x >>= fun a => pure (g a)) post := by
  rw [← List.append_nil is]
  exact hx.bind fun a st' ha => does_pure (h a st' ha)

theorem Does.mono {is : List Instr} {x : Run α} {mid post : α → Store → Prop}
    (hx : st.Does callee is x mid) (h : ∀ a st', mid a st' → post a st') :
    st.Does callee is x post := by
  simpa using hx.map (fun a => a) h

/-- An instruction that neither calls nor returns sets its temp. -/
theorem Does.plain {i : Instr} {w : Nat × Held} {is : List Instr} {x : Run α}
    {post : α → Store → Prop} (hi : i.isPlain) (hw : st.effect i = some w)
    (h : (st.put w).Does callee is x post) : st.Does callee (i :: is) x post := by
  intro out
  have hrun (rest : List Instr) :
      st.run callee (i :: is ++ rest) out = (st.put w).run callee (is ++ rest) out := by
    rw [List.cons_append, run_plain hi, hw, Option.bind_some]
  simp only [hrun]
  exact h out

/-- A call does what the function does that it calls. -/
theorem does_call {r : Nat} {g : String} {args : List Operand} {xs : List Float}
    {post : Float → Store → Prop} (hxs : args.mapM st.float = some xs)
    (hpost : ∀ x, post x (st.put (r, .float x))) :
    st.Does callee [.call r (.function g) args] (callee g xs) post := by
  intro out
  simp only [List.singleton_append, run_call, hxs, Option.bind_some]
  cases callee g xs out with
  | ok x out' => exact ⟨_, hpost x, fun _ => rfl⟩
  | error e out' => exact fun _ => rfl

/-- Code that does something, followed by code that answers, answers. -/
theorem Does.answer {is₁ is₂ : List Instr} {x : Run α} {k : α → Run Float}
    {mid : α → Store → Prop} (hx : st.Does callee is₁ x mid)
    (hk : ∀ a st', mid a st' → ∀ out, st'.run callee is₂ out = some (k a out)) (out : String) :
    st.run callee (is₁ ++ is₂) out = some ((x >>= k) out) := by
  have hx := hx out
  change _ = some (EStateM.bind x k out)
  unfold EStateM.bind
  cases hres : x out with
  | error e out' =>
    rw [hres] at hx
    exact hx is₂
  | ok a out' =>
    rw [hres] at hx
    obtain ⟨st', hmid, hrun⟩ := hx
    rw [hrun]
    exact hk a st' hmid out'

/-- Two stores in which the temps below a number hold the same. -/
def Agrees (n : Nat) (st st' : Store) : Prop := ∀ id < n, st' id = st id

theorem Agrees.refl (n : Nat) (st : Store) : st.Agrees n st := fun _ _ => rfl

theorem Agrees.trans {n n' : Nat} {st₁ st₂ st₃ : Store} (h₁ : st₁.Agrees n st₂) (hn : n ≤ n')
    (h₂ : st₂.Agrees n' st₃) : st₁.Agrees n st₃ :=
  fun id hid => (h₂ id (Nat.lt_of_lt_of_le hid hn)).trans (h₁ id hid)

theorem Agrees.put (st : Store) {n r : Nat} (h : n ≤ r) (x : Held) : st.Agrees n (st.put (r, x)) :=
  fun _ hid => put_of_ne st (Nat.ne_of_lt (Nat.lt_of_lt_of_le hid h))

theorem Agrees.float {n : Nat} {st' : Store} (h : st.Agrees n st') {v : Operand}
    (hv : ∀ id, v = .temp id → id < n) : st'.float v = st.float v := by
  cases v with
  | temp id => simp only [Store.float, Store.held, h id (hv id rfl)]
  | _ => rfl

end Store

/-! ### Handles -/

namespace Handle

variable {k : HandleKind} {α : Type} {session : Nat} {arena : Array α}

/-- A handle goes on standing for the same thing when an arena grows. -/
theorem resolve_push {h : Handle k} {a : α} (ha : h.resolve session arena = .ok a) (b : α) :
    h.resolve session (arena.push b) = .ok a := by
  unfold resolve at ha ⊢
  split at ha
  next hs =>
    rw [if_pos hs]
    split at ha
    next a' ha' =>
      cases ha
      obtain ⟨hlt, hget⟩ := Array.getElem?_eq_some_iff.1 ha'
      rw [Array.getElem?_push_lt hlt, hget]
    next => cases ha
  next => cases ha

theorem resolve_push_size (b : α) :
    (⟨session, arena.size⟩ : Handle k).resolve session (arena.push b) = .ok b := by
  simp [resolve]

end Handle

namespace Session

/-- The session `t` has all that the handles of `s` stand for, and no function more. -/
structure Extends (s t : Session) : Prop where
  id : t.id = s.id
  functions : t.functions = s.functions
  values : ∀ v e, s.value v = .ok e → t.value v = .ok e
  slots : ∀ h e, s.slot h = .ok e → t.slot h = .ok e
  temps : s.draft.temps.next ≤ t.draft.temps.next

namespace Extends

variable {s t u : Session}

theorem refl (s : Session) : s.Extends s :=
  ⟨rfl, rfl, fun _ _ h => h, fun _ _ h => h, Nat.le_refl _⟩

theorem trans (h₁ : s.Extends t) (h₂ : t.Extends u) : s.Extends u where
  id := h₂.id.trans h₁.id
  functions := h₂.functions.trans h₁.functions
  values v e h := h₂.values v e (h₁.values v e h)
  slots v e h := h₂.slots v e (h₁.slots v e h)
  temps := Nat.le_trans h₁.temps h₂.temps

theorem entry (h : s.Extends t) (f : FunctionId) : t.entry f = s.entry f := by
  rw [Session.entry, Session.entry, h.id, h.functions]

theorem withValue (s : Session) (e : ValueEntry) : s.Extends (s.withValue e) :=
  ⟨rfl, rfl, fun _ _ h => Handle.resolve_push h e, fun _ _ h => h, Nat.le_refl _⟩

theorem withSlot (s : Session) (e : SlotEntry) : s.Extends (s.withSlot e) :=
  ⟨rfl, rfl, fun _ _ h => h, fun _ _ h => Handle.resolve_push h e, Nat.le_refl _⟩

theorem numbered (s : Session) : s.Extends s.numbered :=
  ⟨rfl, rfl, fun _ _ h => h, fun _ _ h => h, Nat.le_succ _⟩

theorem appended (s : Session) (c : Cursor) (i : Instr) : s.Extends (s.appended c i) :=
  ⟨rfl, rfl, fun _ _ h => h, fun _ _ h => h, Nat.le_refl _⟩

end Extends

/-- A step that builds code takes no handle away. -/
theorem CodeStep.extends {s t : Session} (h : s.CodeStep t) : s.Extends t := by
  cases h with
  | skip _ => exact .numbered s
  | define c f b i _ _ _ => exact (Extends.numbered s).trans (.appended _ c i)
  | append c f b i _ _ _ => exact .appended s c i
  | float x => exact .withValue s _
  | string bytes => exact .withValue s _
  | value c f b i r t _ _ _ _ => exact .withValue s _
  | slot c f b v r name _ _ => exact .withSlot s _

theorem CodeSteps.extends {s t : Session} (h : s.CodeSteps t) : s.Extends t := by
  induction h with
  | refl => exact .refl s
  | tail _ hstep ih => exact ih.trans hstep.extends

/-! ### Where code is put -/

end Session

/-- The place of a function under construction: the functions before it, the function apart from its
code, and the label of its only block. -/
structure Workplace where
  before : List Function
  head : Function
  label : Nat

namespace Workplace

/-- The function with some code. -/
def function (w : Workplace) (code : List Instr) : Function :=
  { w.head with
    stage := .building
    blocks := [{ id := w.label, name := Session.entryName, instrs := code }] }

/-- A name of a function that code can call. -/
def Knows (w : Workplace) (name : String) : Prop :=
  name = w.head.name ∨ ∃ f ∈ w.before, f.isLive ∧ f.name = name

end Workplace

namespace Session

/-- The session puts code into the function of a workplace, behind what is there. -/
structure WorksAt (s : Session) (w : Workplace) (code : List Instr) : Prop where
  usable : s.poisonedBy = none
  cursor : s.draft.cursor = some ⟨w.before.length, w.label⟩
  functions : s.module.functions = w.before ++ [w.function code]

namespace WorksAt

variable {s t : Session} {w : Workplace} {code : List Instr}

theorem appendTo_function (w : Workplace) (code : List Instr) (i : Instr) :
    (w.function code).appendTo w.label i = w.function (code ++ [i]) := by
  simp [Workplace.function, Function.appendTo, Function.appendToBlocks]

/-- A workplace is where the cursor is. -/
theorem cursor_eq (h : s.WorksAt w code) {c : Cursor} (hc : s.draft.cursor = some c) :
    c = ⟨w.before.length, w.label⟩ :=
  Option.some.inj (hc.symm.trans h.cursor)

theorem numbered (h : s.WorksAt w code) : s.numbered.WorksAt w code :=
  ⟨h.usable, h.cursor, h.functions⟩

theorem withValue (h : s.WorksAt w code) (e : ValueEntry) : (s.withValue e).WorksAt w code :=
  ⟨h.usable, h.cursor, h.functions⟩

theorem withSlot (h : s.WorksAt w code) (e : SlotEntry) : (s.withSlot e).WorksAt w code :=
  ⟨h.usable, h.cursor, h.functions⟩

theorem appended (h : s.WorksAt w code) {c : Cursor} (hc : s.draft.cursor = some c) (i : Instr) :
    (s.appended c i).WorksAt w (code ++ [i]) := by
  obtain rfl := h.cursor_eq hc
  refine ⟨h.usable, h.cursor, ?_⟩
  change s.module.functions.modify w.before.length _ = _
  rw [h.functions, modify_last, appendTo_function]

/-- A step that builds code puts it behind what is there. -/
theorem codeStep (h : s.WorksAt w code) (hstep : s.CodeStep t) :
    ∃ is, t.WorksAt w (code ++ is) := by
  have same {u : Session} (hu : u.WorksAt w code) : ∃ is, u.WorksAt w (code ++ is) :=
    ⟨[], by rwa [List.append_nil]⟩
  cases hstep with
  | skip _ => exact same h.numbered
  | define c f b i hsite _ _ => exact ⟨[i], h.numbered.appended hsite.cursor i⟩
  | append c f b i hsite _ _ => exact ⟨[i], h.appended hsite.cursor i⟩
  | float x => exact same (h.withValue _)
  | string bytes => exact same (h.withValue _)
  | value c f b i r t _ _ _ _ => exact same (h.withValue _)
  | slot c f b v r name _ _ => exact same (h.withSlot _)

/-- Steps that build code only put it behind what is there. -/
theorem codeSteps (h : s.WorksAt w code) (hsteps : s.CodeSteps t) :
    ∃ is, t.WorksAt w (code ++ is) := by
  induction hsteps with
  | refl => exact ⟨[], by rwa [List.append_nil]⟩
  | tail _ hstep ih =>
    obtain ⟨is, hw⟩ := ih
    obtain ⟨is', hw'⟩ := hw.codeStep hstep
    exact ⟨is ++ is', by rwa [← List.append_assoc]⟩

theorem name_functionAt (s : Session) (place : Nat) :
    (s.functionAt place).name = ((s.module.functions.map Function.name)[place]?).getD "" := by
  unfold functionAt
  rw [List.getElem?_map]
  cases s.module.functions[place]? <;> rfl

/-- More code does not change the names of functions. -/
theorem name_functionAt_eq (h : s.WorksAt w code) {code' : List Instr} (h' : t.WorksAt w code')
    (place : Nat) : (t.functionAt place).name = (s.functionAt place).name := by
  rw [name_functionAt, name_functionAt, h.functions, h'.functions]
  simp [Workplace.function]

end WorksAt

end Session

/-! ### What handles hold -/

/-- What a handle stands for is a value: a number, in a temp below `n` if in any, or a text. -/
def ValueEntry.Denotes (e : ValueEntry) (n : Nat) (st : Store) : Value → Prop
  | .number x =>
    e.type = .double ∧ (∀ id, e.operand = .temp id → id < n) ∧ st.float e.operand = some x
  | .text _ => e.type ≠ .double

namespace Session

variable {s t : Session} {st st' : Store}

/-- A handle stands for a value. -/
def Holds (s : Session) (st : Store) (v : ValueId) (x : Value) : Prop :=
  ∃ e, s.value v = .ok e ∧ e.Denotes s.draft.temps.next st x

/-- A handle stands for the slot of a temp. -/
def Points (s : Session) (h : SlotId) (p : Nat) : Prop :=
  p < s.draft.temps.next ∧ ∃ e, s.slot h = .ok e ∧ e.ptr = .temp p

/-- A handle keeps its value while later temps are written. -/
theorem Holds.mono {v : ValueId} {x : Value} (h : s.Holds st v x) (ht : s.Extends t)
    (hst : st.Agrees s.draft.temps.next st') : t.Holds st' v x := by
  obtain ⟨e, he, hx⟩ := h
  refine ⟨e, ht.values v e he, ?_⟩
  cases x with
  | text _ => exact hx
  | number x =>
    obtain ⟨htype, hbelow, hfloat⟩ := hx
    refine ⟨htype, fun id hid => Nat.lt_of_lt_of_le (hbelow id hid) ht.temps, ?_⟩
    rw [hst.float hbelow, hfloat]

/-- A handle to a double stands for a number. -/
theorem Holds.float {v : ValueId} {x : Value} (h : s.Holds st v x) {place : Nat} {a : Operand}
    (ha : s.doubleIn place v = .ok a) : ∃ y, x = .number y ∧ st.float a = some y := by
  obtain ⟨e, he, hx⟩ := h
  obtain ⟨owner, hv, _⟩ := doubleIn_eq_ok ha
  obtain rfl := Except.ok.inj (he.symm.trans hv)
  cases x with
  | text _ => exact absurd rfl hx
  | number x => exact ⟨x, rfl, hx.2.2⟩

theorem Holds.mapM_float {vs : List ValueId} {as : List Operand} {xs : List Float} {place : Nat}
    (has : List.Forall₂ (fun v a => s.doubleIn place v = .ok a) vs as)
    (hxs : List.Forall₂ (fun v x => s.Holds st v (.number x)) vs xs) :
    as.mapM st.float = some xs := by
  induction has generalizing xs with
  | nil =>
    cases hxs
    rfl
  | cons ha _ ih =>
    cases hxs with
    | cons hx hxs =>
      obtain ⟨_, hy, hfloat⟩ := hx.float ha
      cases hy
      simp [List.mapM_cons, hfloat, ih hxs]

/-- Slots do not hold numbers, so that no number changes with a slot. -/
theorem Holds.put_slot {v : ValueId} {x : Float} (h : s.Holds st v (.number x)) {p : Nat}
    {c : Option Float} (hp : st p = some (.slot c)) (c' : Option Float) :
    s.Holds (st.put (p, .slot c')) v (.number x) := by
  obtain ⟨⟨operand, type, owner⟩, he, htype, hbelow, hfloat⟩ := h
  refine ⟨_, he, htype, hbelow, ?_⟩
  rw [Store.float_eq_some] at hfloat ⊢
  cases operand with
  | temp id =>
    have hne : id ≠ p := by
      rintro rfl
      cases hfloat.symm.trans hp
    exact (Store.put_of_ne st hne).trans hfloat
  | _ => exact hfloat

theorem Points.mono {h : SlotId} {p : Nat} (hp : s.Points h p) (ht : s.Extends t) :
    t.Points h p := by
  obtain ⟨hlt, e, he, hptr⟩ := hp
  exact ⟨Nat.lt_of_lt_of_le hlt ht.temps, e, ht.slots h e he, hptr⟩

/-- A handle stands for one slot. -/
theorem Points.unique {h : SlotId} {p q : Nat} (hp : s.Points h p) (hq : s.Points h q) : p = q := by
  obtain ⟨_, e, he, hp⟩ := hp
  obtain ⟨_, e', he', hq⟩ := hq
  obtain rfl := Except.ok.inj (he.symm.trans he')
  exact Operand.temp.inj (hp.symm.trans hq)

theorem Points.pointerIn {h : SlotId} {p place : Nat} {v : Operand} (hp : s.Points h p)
    (hv : s.pointerIn place h = .ok v) : v = .temp p := by
  obtain ⟨_, e, he, hptr⟩ := hp
  obtain ⟨n, hs⟩ := pointerIn_eq_ok hv
  obtain rfl := Except.ok.inj (he.symm.trans hs)
  exact hptr

/-- The names of a function under construction stand for what the names of the running function do:
parameters for their values, and variables for slots of their own. -/
structure Matches (s : Session) (st : Store) (scope : Lower.Scope) (locals : Locals) : Prop where
  param : ∀ name v, scope.lookup name = some (.param v) →
    ∃ x, locals.lookup name = some (.param x) ∧ s.Holds st v (.number x)
  slot : ∀ name h, scope.lookup name = some (.slot h) →
    ∃ p x, locals.lookup name = some (.var x) ∧ s.Points h p ∧ st p = some (.slot (some x))
  apart : ∀ name name' h h' p, scope.lookup name = some (.slot h) →
    scope.lookup name' = some (.slot h') → s.Points h p → s.Points h' p → name = name'

namespace Matches

variable {scope : Lower.Scope} {locals : Locals}

/-- Names keep their meaning while later temps are written. -/
theorem mono (hm : s.Matches st scope locals) (ht : s.Extends t)
    (hst : st.Agrees s.draft.temps.next st') : t.Matches st' scope locals where
  param name v hv := by
    obtain ⟨x, hx, hholds⟩ := hm.param name v hv
    exact ⟨x, hx, hholds.mono ht hst⟩
  slot name h hh := by
    obtain ⟨p, x, hx, hp, hst'⟩ := hm.slot name h hh
    exact ⟨p, x, hx, hp.mono ht, (hst p hp.1).trans hst'⟩
  apart name name' h h' p hh hh' hp hp' := by
    obtain ⟨q, _, _, hq, _⟩ := hm.slot name h hh
    obtain ⟨q', _, _, hq', _⟩ := hm.slot name' h' hh'
    obtain rfl := hp.unique (hq.mono ht)
    obtain rfl := hp'.unique (hq'.mono ht)
    exact hm.apart name name' h h' p hh hh' hq hq'

/-- A new variable has a slot of its own. -/
theorem bind (hm : s.Matches st scope locals) (ht : s.Extends t)
    (hst : st.Agrees s.draft.temps.next st') {h : SlotId} {p : Nat} (hp : t.Points h p)
    (hnew : s.draft.temps.next ≤ p) {x : Float} (hx : st' p = some (.slot (some x)))
    (name : String) : t.Matches st' ((name, .slot h) :: scope) ((name, .var x) :: locals) := by
  have hm' := hm.mono ht hst
  have hold {n : String} {h' : SlotId} (hh' : scope.lookup n = some (.slot h')) :
      ¬ t.Points h' p := by
    intro hp'
    obtain ⟨q, _, _, hq, _⟩ := hm.slot n h' hh'
    obtain rfl := hp'.unique (hq.mono ht)
    exact absurd hq.1 (Nat.not_lt.2 hnew)
  refine ⟨fun n v hv => ?_, fun n h' hh' => ?_, fun n n' h₁ h₂ q hh₁ hh₂ hq₁ hq₂ => ?_⟩
  · by_cases hn : n = name
    · subst hn
      simp at hv
    · rw [lookup_cons_of_ne hn] at hv ⊢
      exact hm'.param n v hv
  · by_cases hn : n = name
    · subst hn
      rw [List.lookup_cons_self] at hh' ⊢
      cases hh'
      exact ⟨p, x, rfl, hp, hx⟩
    · rw [lookup_cons_of_ne hn] at hh' ⊢
      exact hm'.slot n h' hh'
  · by_cases hn : n = name <;> by_cases hn' : n' = name
    · rw [hn, hn']
    · subst hn
      rw [List.lookup_cons_self] at hh₁
      cases hh₁
      rw [lookup_cons_of_ne hn'] at hh₂
      exact absurd (hp.unique hq₁ ▸ hq₂) (hold hh₂)
    · subst hn'
      rw [List.lookup_cons_self] at hh₂
      cases hh₂
      rw [lookup_cons_of_ne hn] at hh₁
      exact absurd (hp.unique hq₂ ▸ hq₁) (hold hh₁)
    · rw [lookup_cons_of_ne hn] at hh₁
      rw [lookup_cons_of_ne hn'] at hh₂
      exact hm'.apart n n' h₁ h₂ q hh₁ hh₂ hq₁ hq₂

/-- A variable is changed, and nothing else. -/
theorem assign (hm : s.Matches st scope locals) {name : String} {h : SlotId} {p : Nat}
    (hh : scope.lookup name = some (.slot h)) (hp : s.Points h p) (x : Float) :
    ∃ locals', Interpreter.assign name x locals = some locals' ∧
      s.Matches (st.put (p, .slot (some x))) scope locals' := by
  obtain ⟨p', y, hy, hp', hst⟩ := hm.slot name h hh
  obtain rfl := hp.unique hp'
  obtain ⟨locals', hassign, hself, hothers⟩ := Interpreter.assign_of_lookup hy x
  refine ⟨locals', hassign, fun n v hv => ?_, fun n h' hh' => ?_, hm.apart⟩
  · have hn : n ≠ name := by
      rintro rfl
      cases hv.symm.trans hh
    obtain ⟨z, hz, hholds⟩ := hm.param n v hv
    exact ⟨z, (hothers n hn).trans hz, hholds.put_slot hst _⟩
  · by_cases hn : n = name
    · subst hn
      cases hh'.symm.trans hh
      exact ⟨p, x, hself, hp, Store.put_self st _⟩
    · obtain ⟨q, z, hz, hq, hstq⟩ := hm.slot n h' hh'
      have hne : q ≠ p := by
        rintro rfl
        exact hn (hm.apart n name h' h q hh' hh hq hp)
      exact ⟨q, z, (hothers n hn).trans hz, hq, (Store.put_of_ne st hne).trans hstq⟩

end Matches

end Session

end StraightLine
