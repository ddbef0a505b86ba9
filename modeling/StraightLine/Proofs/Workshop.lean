import StraightLine.Proofs.Handles

/-!
# Many sessions

Any number of sessions can be open at a time, each under a number of its own (`Workshop`), and what
is asked of them comes in any order. A handle that is given out leads to something
(`Session.InOrder.knows_reply`), to the same thing until its session is closed, and to nothing in
any other session.
-/

namespace StraightLine

/-! ### Handles that are given out -/

/-- What a reply gives a handle to is there in both sessions, and is the same. -/
def Reply.SameIn (s t : Session) : Reply → Prop
  | .done => True
  | .value v => ∃ e, s.value v = .ok e ∧ t.value v = .ok e
  | .slot h => ∃ e, s.slot h = .ok e ∧ t.slot h = .ok e
  | .function h => ∃ e f g, s.entry h = .ok e ∧ t.entry h = .ok e ∧
      s.module.functions[e.index]? = some f ∧ t.module.functions[e.index]? = some g ∧
      g.name = f.name ∧ g.arity = f.arity

/-- The handle of a reply is turned down by a session, as one of another session. -/
def Reply.IsForeign (t : Session) : Reply → Prop
  | .done => True
  | .value v => t.value v = .error (v.foreign t.id)
  | .slot h => t.slot h = .error (h.foreign t.id)
  | .function h => t.entry h = .error (h.foreign t.id)

namespace Reply

variable {s t : Session} {reply : Reply}

theorem SameIn.retained (hs : reply.SameIn s s) (h : s.Retains t) : reply.SameIn s t := by
  cases reply with
  | done => trivial
  | value v =>
    obtain ⟨e, he, _⟩ := hs
    exact ⟨e, he, h.values v e he⟩
  | slot p =>
    obtain ⟨e, he, _⟩ := hs
    exact ⟨e, he, h.slots p e he⟩
  | function f =>
    obtain ⟨e, g, _, he, _, hg, _⟩ := hs
    obtain ⟨g', hg', hname, harity⟩ := h.module e.index g hg
    exact ⟨e, g, g', he, h.entries f e he, hg, hg', hname, harity⟩

theorem SameIn.isForeign (hs : reply.SameIn s s) (hid : t.id ≠ s.id) : reply.IsForeign t := by
  cases reply with
  | done => trivial
  | value v =>
    obtain ⟨e, he, _⟩ := hs
    exact Handle.resolve_of_ne ((Handle.resolve_eq_ok_iff.1 he).1 ▸ hid.symm)
  | slot p =>
    obtain ⟨e, he, _⟩ := hs
    exact Handle.resolve_of_ne ((Handle.resolve_eq_ok_iff.1 he).1 ▸ hid.symm)
  | function f =>
    obtain ⟨e, _, _, he, _⟩ := hs
    exact Handle.resolve_of_ne ((Handle.resolve_eq_ok_iff.1 he).1 ▸ hid.symm)

end Reply

namespace Session

variable {s : Session} {α β : Type}

/-- Whatever a request gives when it succeeds has a property in the session after it. -/
def Yields (P : Session → α → Prop) (x : SessionM α) : Prop := ∀ s a t, x s = .ok a t → P t a

theorem Yields.bind {P : Session → β → Prop} {x : SessionM α} {k : α → SessionM β}
    (hk : ∀ a, Yields P (k a)) : Yields P (x >>= k) := by
  intro s b t h
  obtain ⟨a, u, _, h⟩ := andThen_eq_ok.1 h
  exact hk a u b t h

theorem yields_addValue (e : ValueEntry) :
    Yields (fun t v => ∃ e, t.value v = .ok e) (addValue e) := by
  rintro s v t ⟨⟩
  exact ⟨e, Handle.resolve_push_size e⟩

theorem yields_addSlot (e : SlotEntry) : Yields (fun t h => ∃ e, t.slot h = .ok e) (addSlot e) := by
  rintro s h t ⟨⟩
  exact ⟨e, Handle.resolve_push_size e⟩

theorem yields_addEntry (e : FunctionEntry) :
    Yields (fun t f => ∃ e, t.entry f = .ok e) (addEntry e) := by
  rintro s f t ⟨⟩
  exact ⟨e, Handle.resolve_push_size e⟩

theorem yields_openFunction (name : String) (params : List String) :
    Yields (fun t f => ∃ e, t.entry f = .ok e) (openFunction name params) :=
  .bind fun _ => .bind fun _ => .bind fun index => .bind fun _ => .bind fun _ => .bind fun ids =>
    yields_addEntry ⟨index, ids⟩

theorem yields_beginTopLevel : Yields (fun t f => ∃ e, t.entry f = .ok e) beginTopLevel :=
  .bind fun _ => .bind fun name => yields_openFunction name []

/-- The function around a constant keeps its handle while it is finished. -/
theorem yields_wrapTopLevel (v : ValueId) :
    Yields (fun t f => ∃ e, t.entry f = .ok e) (wrapTopLevel v) := by
  refine .bind fun _ => .bind fun _ => ?_
  intro s f t h
  obtain ⟨wrapper, u, hbegin, h⟩ := andThen_eq_ok.1 h
  obtain ⟨_, t', hfinish, h⟩ := andThen_eq_ok.1 h
  cases h
  obtain ⟨e, he⟩ := yields_beginTopLevel s f u hbegin
  have hsteps := (grows_finishTopLevel f v).makes u
  rw [result_ok hfinish] at hsteps
  exact ⟨e, (Retains.steps hsteps).entries f e he⟩

/-- What a reply gives a handle to is there. -/
def Knows (s : Session) : Reply → Prop
  | .done => True
  | .value v => ∃ e, s.value v = .ok e
  | .slot h => ∃ e, s.slot h = .ok e
  | .function f => ∃ e, s.entry f = .ok e

theorem Yields.map {P : Session → α → Prop} {x : SessionM α} (hx : Yields P x) (g : α → Reply)
    (hg : ∀ t a, P t a → t.Knows (g a)) : Yields Knows (g <$> x) := by
  intro s reply t h
  change EStateM.map g x s = _ at h
  unfold EStateM.map at h
  split at h
  next a u hxs =>
    cases h
    exact hg t a (hx s a t hxs)
  next => cases h

theorem yields_done (x : SessionM α) : Yields Knows ((fun _ => Reply.done) <$> x) :=
  Yields.map (P := fun _ _ => True) (fun _ _ _ _ => trivial) _ fun _ _ _ => trivial

/-- **A request that gives a handle has kept something under it.** -/
theorem yields_perform (r : Request) : Yields Knows r.perform := by
  cases r with
  | floatConstant x => exact (yields_addValue _).map _ fun _ _ h => h
  | stringConstant bs => exact (yields_addValue _).map _ fun _ _ h => h
  | beginFunction n ps =>
    have h : Yields _ (beginFunction n ps) := .bind fun _ => .bind fun _ => yields_openFunction n ps
    exact h.map _ fun _ _ h => h
  | declareFunction n k =>
    have h : Yields _ (declareFunction n k) :=
      .bind fun _ => .bind fun _ => .bind fun _ => .bind fun _ => yields_addEntry _
    exact h.map _ fun _ _ h => h
  | endFunction f v => exact yields_done _
  | verifyFunction f => exact yields_done _
  | abandonFunction f => exact yields_done _
  | declareVariable v n =>
    have h : Yields _ (declareVariable v n) :=
      .bind fun _ => .bind fun _ => .bind fun _ => .bind fun _ => yields_addSlot _
    exact h.map _ fun _ _ h => h
  | assign p v => exact yields_done _
  | read p =>
    have h : Yields _ (read p) :=
      .bind fun _ => .bind fun _ => .bind fun _ => yields_addValue _
    exact h.map _ fun _ _ h => h
  | arith op a b =>
    have h : Yields _ (arith op a b) :=
      .bind fun _ => .bind fun _ => .bind fun _ => .bind fun _ => yields_addValue _
    exact h.map _ fun _ _ h => h
  | compare p a b =>
    have h : Yields _ (compare p a b) :=
      .bind fun _ => .bind fun _ => .bind fun _ => .bind fun _ => yields_addValue _
    exact h.map _ fun _ _ h => h
  | widen v =>
    have h : Yields _ (widen v) :=
      .bind fun _ => .bind fun _ => .bind fun _ => yields_addValue _
    exact h.map _ fun _ _ h => h
  | call f args =>
    have h : Yields _ (call f args) :=
      .bind fun _ => .bind fun _ => .bind fun _ => .bind fun _ => .bind fun _ => yields_addValue _
    exact h.map _ fun _ _ h => h
  | beginTopLevel => exact yields_beginTopLevel.map _ fun _ _ h => h
  | finishTopLevel f v => exact yields_done _
  | wrapTopLevel v => exact (yields_wrapTopLevel v).map _ fun _ _ h => h

theorem InOrder.sameIn (hs : s.InOrder) {reply : Reply} (h : s.Knows reply) : reply.SameIn s s := by
  cases reply with
  | done => trivial
  | value v =>
    obtain ⟨e, he⟩ := h
    exact ⟨e, he, he⟩
  | slot p =>
    obtain ⟨e, he⟩ := h
    exact ⟨e, he, he⟩
  | function f =>
    obtain ⟨e, he⟩ := h
    have hf := hs.steady.formed.functionAt (resolve_eq_ok he)
    exact ⟨e, _, _, he, he, hf, hf, rfl, rfl⟩

end Session

/-- What can be asked of a session that may give out a handle. -/
inductive Question where
  | request (r : Request)
  | param (f : FunctionId) (index : Nat)
  | paramNamed (f : FunctionId) (name : String)
  | functionNamed (name : String)
  deriving DecidableEq, Repr

namespace Session

variable {s : Session}

/-- What a question gives if it is answered, and the session after it. -/
def ask (s : Session) : Question → Option Reply × Session
  | .request r => ((s.request r).1.toOption, (s.request r).2)
  | .param f index => ((s.param f index).toOption.map .value, s)
  | .paramNamed f name => ((s.paramNamed f name).toOption.map .value, s)
  | .functionNamed name => ((s.functionNamed? name).map .function, s)

theorem Retains.ask (s : Session) (q : Question) : s.Retains (s.ask q).2 := by
  cases q with
  | request r => exact .request s r
  | _ => exact .refl s

theorem InOrder.ask (hs : s.InOrder) (q : Question) : (s.ask q).2.InOrder := by
  cases q with
  | request r => exact hs.request r
  | _ => exact hs

/-- Parameters that are given out are values of the session. -/
theorem Rooted.param (hs : s.Rooted) {f : FunctionId} {index : Nat} {v : ValueId}
    (h : s.param f index = .ok v) : s.Knows (.value v) := by
  obtain ⟨e, he, h⟩ := bind_eq_ok.1 h
  split at h
  next hv =>
    cases h
    exact hs.params e (resolve_eq_ok he) v (List.mem_of_getElem? hv)
  next => cases h

/-- **A handle that is given out leads to something.** -/
theorem InOrder.knows_reply (hs : s.InOrder) {q : Question} {reply : Reply}
    (h : (s.ask q).1 = some reply) : (s.ask q).2.Knows reply := by
  cases q with
  | request r =>
    change (s.request r).1.toOption = some reply at h
    change (s.request r).2.Knows reply
    unfold Session.request at h ⊢
    cases hperform : r.perform s with
    | error e t => simp [hperform, Except.toOption] at h
    | ok a t =>
      obtain rfl : a = reply := by simpa [hperform, Except.toOption] using h
      exact yields_perform r s a t hperform
  | param f index =>
    obtain ⟨v, hv, rfl⟩ := Option.map_eq_some_iff.1 h
    cases hparam : s.param f index with
    | error e => simp [hparam, Except.toOption] at hv
    | ok w =>
      obtain rfl : w = v := by simpa [hparam, Except.toOption] using hv
      exact hs.rooted.param hparam
  | paramNamed f name =>
    obtain ⟨v, hv, rfl⟩ := Option.map_eq_some_iff.1 h
    cases hparam : s.paramNamed f name with
    | error e => simp [hparam, Except.toOption] at hv
    | ok w =>
      obtain rfl : w = v := by simpa [hparam, Except.toOption] using hv
      obtain ⟨g, _, hparam⟩ := bind_eq_ok.1 hparam
      split at hparam
      next i _ _ => exact hs.rooted.param hparam
      next => cases hparam
  | functionNamed name =>
    obtain ⟨f, hf, rfl⟩ := Option.map_eq_some_iff.1 h
    obtain ⟨e, _, he, _⟩ := functionNamed?_eq_some hf
    exact ⟨e, he⟩

end Session

/-! ### Many sessions -/

/-- What happens to the sessions of a workshop. -/
inductive Event where
  | opens (options : SessionOptions) (target : Target)
  | asks (id : Nat) (q : Question)
  | closes (id : Nat)

/-- The sessions that are open. Each has a number of its own, and no number is used again. -/
structure Workshop where
  numbers : Counter := ⟨1⟩
  sessions : List Session := []

namespace Workshop

/-- The workshop after an event. -/
def step (w : Workshop) : Event → Workshop
  | .opens options target =>
    { numbers := w.numbers.take.2
      sessions := w.sessions ++ [Session.start w.numbers.take.1 options target] }
  | .asks id q => { w with sessions := w.sessions.map fun s => if s.id = id then (s.ask q).2 else s }
  | .closes id => { w with sessions := w.sessions.filter fun s => s.id ≠ id }

/-- The workshop after some events. -/
def after (w : Workshop) (events : List Event) : Workshop := events.foldl step w

/-- What holds of a workshop at any time. -/
structure InOrder (w : Workshop) : Prop where
  distinct : (w.sessions.map Session.id).Nodup
  numbered : ∀ s ∈ w.sessions, s.id < w.numbers.next
  sessions : ∀ s ∈ w.sessions, s.InOrder

/-- The sessions of `w'` that were there in `w` have all that they had. -/
structure Retains (w w' : Workshop) : Prop where
  numbers : w.numbers.next ≤ w'.numbers.next
  sessions : ∀ t ∈ w'.sessions, t.id < w.numbers.next → ∃ s ∈ w.sessions, s.Retains t

variable {w w' w'' : Workshop}

theorem id_ask (s : Session) (q : Question) (id : Nat) :
    (if s.id = id then (s.ask q).2 else s).id = s.id := by
  split
  · exact (Session.Retains.ask s q).id
  · rfl

theorem InOrder.step (hw : w.InOrder) (e : Event) : (w.step e).InOrder := by
  cases e with
  | opens options target =>
    refine ⟨?_, fun s hs => ?_, fun s hs => ?_⟩
    · have hnew : w.numbers.next ∉ w.sessions.map Session.id := by
        intro hmem
        obtain ⟨s, hs, hid⟩ := List.mem_map.1 hmem
        exact absurd (hw.numbered s hs) (by omega)
      simpa [Workshop.step, List.nodup_append, Session.start, Counter.take] using
        ⟨hw.distinct, fun s hs heq => hnew (heq ▸ List.mem_map_of_mem hs)⟩
    · rcases List.mem_append.1 hs with hs | hs
      · exact Nat.lt_succ_of_lt (hw.numbered s hs)
      · rw [List.mem_singleton.1 hs]
        exact Nat.lt_succ_self _
    · rcases List.mem_append.1 hs with hs | hs
      · exact hw.sessions s hs
      · rw [List.mem_singleton.1 hs]
        exact .start _ options target
  | asks id q =>
    refine ⟨?_, fun t ht => ?_, fun t ht => ?_⟩
    · have hids : (w.step (.asks id q)).sessions.map Session.id = w.sessions.map Session.id := by
        rw [Workshop.step, List.map_map]
        exact List.map_congr_left fun s _ => id_ask s q id
      rw [hids]
      exact hw.distinct
    · obtain ⟨s, hs, rfl⟩ := List.mem_map.1 ht
      rw [id_ask]
      exact hw.numbered s hs
    · obtain ⟨s, hs, rfl⟩ := List.mem_map.1 ht
      split
      · exact (hw.sessions s hs).ask q
      · exact hw.sessions s hs
  | closes id =>
    refine ⟨hw.distinct.sublist ((List.filter_sublist ..).map Session.id), fun s hs => ?_,
      fun s hs => ?_⟩
    · exact hw.numbered s (List.mem_filter.1 hs).1
    · exact hw.sessions s (List.mem_filter.1 hs).1

theorem InOrder.after (hw : w.InOrder) (events : List Event) : (w.after events).InOrder := by
  induction events generalizing w with
  | nil => exact hw
  | cons e events ih => exact ih (hw.step e)

theorem InOrder.eq_of_id (hw : w.InOrder) {s t : Session} (hs : s ∈ w.sessions)
    (ht : t ∈ w.sessions) (hid : s.id = t.id) : s = t :=
  List.inj_on_of_nodup_map hw.distinct hs ht hid

theorem Retains.refl (w : Workshop) : w.Retains w := ⟨Nat.le_refl _, fun t ht _ => ⟨t, ht, .refl t⟩⟩

theorem Retains.trans (h : w.Retains w') (h' : w'.Retains w'') : w.Retains w'' where
  numbers := Nat.le_trans h.numbers h'.numbers
  sessions u hu hid := by
    obtain ⟨t, ht, htu⟩ := h'.sessions u hu (Nat.lt_of_lt_of_le hid h.numbers)
    obtain ⟨s, hs, hst⟩ := h.sessions t ht (htu.id ▸ hid)
    exact ⟨s, hs, hst.trans htu⟩

theorem Retains.step (w : Workshop) (e : Event) : w.Retains (w.step e) := by
  cases e with
  | opens options target =>
    refine ⟨Nat.le_succ _, fun t ht hid => ?_⟩
    rcases List.mem_append.1 ht with ht | ht
    · exact ⟨t, ht, .refl t⟩
    · -- The new session has the first number that no session had before.
      rw [List.mem_singleton.1 ht] at hid
      exact absurd hid (Nat.lt_irrefl _)
  | asks id q =>
    refine ⟨Nat.le_refl _, fun t ht _ => ?_⟩
    obtain ⟨s, hs, rfl⟩ := List.mem_map.1 ht
    refine ⟨s, hs, ?_⟩
    split
    · exact .ask s q
    · exact .refl s
  | closes id => exact ⟨Nat.le_refl _, fun t ht _ => ⟨t, (List.mem_filter.1 ht).1, .refl t⟩⟩

theorem Retains.after (w : Workshop) (events : List Event) : w.Retains (w.after events) := by
  induction events generalizing w with
  | nil => exact .refl w
  | cons e events ih => exact (Retains.step w e).trans (ih _)

/-- **Handles are stable, and lead somewhere in their own session only.** Whatever happens to any
number of sessions: a handle that a session gives out stands for the same thing there at all later
times, and is turned down by every other session. The places that a session notes down are places
of its module, and a name leads to the handle of the live function that has it. -/
theorem handles_stable (events : List Event) :
    let w := ({} : Workshop).after events
    (∀ s ∈ w.sessions, ∀ q reply, (s.ask q).1 = some reply →
      ∀ more, ∀ t ∈ (w.after (.asks s.id q :: more)).sessions,
        if t.id = s.id then reply.SameIn (s.ask q).2 t else reply.IsForeign t) ∧
    ∀ s ∈ w.sessions, s.Bounded ∧ ∀ name,
      (∀ f, s.functionNamed? name = some f ↔
        ∃ g, s.function f = .ok g ∧ g.isLive ∧ g.name = name) ∧
      ((∃ f, s.functionNamed? name = some f) ↔
        ∃ g ∈ s.module.functions, g.isLive ∧ g.name = name) := by
  intro w
  have hempty : ({} : Workshop).InOrder := ⟨by simp, by simp, by simp⟩
  have hw : w.InOrder := hempty.after events
  constructor
  · intro s hs q reply hreply more t ht
    let u := (s.ask q).2
    have huid : u.id = s.id := (Session.Retains.ask s q).id
    have hsame : reply.SameIn u u :=
      ((hw.sessions s hs).ask q).sameIn ((hw.sessions s hs).knows_reply hreply)
    have hw' := hw.step (.asks s.id q)
    have hu : u ∈ (w.step (.asks s.id q)).sessions :=
      List.mem_map.2 ⟨s, hs, if_pos rfl⟩
    split
    next hid =>
      -- The later session comes from one that was there, and there is only one of the number.
      have hlt : t.id < (w.step (.asks s.id q)).numbers.next := by
        rw [hid, ← huid]
        exact hw'.numbered u hu
      obtain ⟨u', hu', hretains⟩ := (Retains.after _ more).sessions t ht hlt
      obtain rfl : u' = u :=
        hw'.eq_of_id hu' hu (hretains.id.symm.trans (hid.trans huid.symm))
      exact hsame.retained hretains
    next hid => exact hsame.isForeign (huid ▸ hid)
  · intro s hs
    have hformed := (hw.sessions s hs).steady.formed
    exact ⟨(hw.sessions s hs).bounded, fun name =>
      ⟨fun f => hformed.functionNamed?_iff, hformed.exists_functionNamed?_iff⟩⟩

/-- The handle of a function still leads to it when the function is abandoned, and a session that is
open beside turns the handle down. -/
theorem handles_stable_abandoned :
    let target : Target := { triple := Target.host, arch := "x86_64", os := "linux" }
    let w := ({} : Workshop).after [.opens {} target, .opens {} target]
    let s := Session.start 1 {} target
    let q : Question := .request (.beginFunction "f" ["x"])
    let abandon : Question := .request (.abandonFunction ⟨1, 0⟩)
    let t := ((s.ask q).2.ask abandon).2
    let u := Session.start 2 {} target
    s ∈ w.sessions ∧ (s.ask q).1 = some (.function ⟨1, 0⟩) ∧
      (w.after [.asks s.id q, .asks 1 abandon]).sessions = [t, u] ∧
      (t.functionAt 0).stage = .abandoned ∧
      (Reply.function ⟨1, 0⟩).SameIn (s.ask q).2 t ∧ (Reply.function ⟨1, 0⟩).IsForeign u := by
  intro target w s q abandon t u
  have hs : s ∈ w.sessions := by decide +kernel
  have hreply : (s.ask q).1 = some (.function ⟨1, 0⟩) := by decide +kernel
  have hlater : (w.after [.asks s.id q, .asks 1 abandon]).sessions = [t, u] := by decide +kernel
  have h := (handles_stable [.opens {} target, .opens {} target]).1 s hs q _ hreply [.asks 1 abandon]
  have ht := h t (by rw [hlater]; simp)
  have hu := h u (by rw [hlater]; simp)
  rw [if_pos (by decide +kernel)] at ht
  rw [if_neg (by decide +kernel)] at hu
  exact ⟨hs, hreply, hlater, by decide +kernel, ht, hu⟩

end Workshop

end StraightLine
