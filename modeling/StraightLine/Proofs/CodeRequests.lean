import StraightLine.Proofs.LoweredItems
import StraightLine.Proofs.SessionShape

/-!
# When requests for code are granted

A session refuses much, but it always says so in the same way, by an error of construction. Where a
function is under construction (`Session.Working`), the handles that a request is given decide
whether it is granted (`Session.Decides`): they must stand for numbers.
-/

namespace StraightLine.Session

variable {α β : Type} {s t : Session}

/-! ### Decisions -/

/-- A query that is answered exactly when something holds, and refused otherwise. -/
def Answers (P : Prop) (r : Except Error α) : Prop :=
  (P ∧ ∃ a, r = .ok a) ∨ (¬ P ∧ ∃ f message, r = .error (.construction f message))

/-- A result that decides something: what holds when a request is granted, and what holds when it is
refused. -/
def Decides (r : EStateM.Result Error Session α) (good : α → Session → Prop)
    (bad : Session → Prop) : Prop :=
  match r with
  | .ok a t => good a t
  | .error err t => bad t ∧ ∃ f message, err = .construction f message

section Decides

variable {r : EStateM.Result Error Session α} {good good' : α → Session → Prop}
  {bad bad' : Session → Prop}

theorem decides_ok {a : α} (h : r = .ok a t) (hgood : good a t) : Decides r good bad := by
  rw [h]
  exact hgood

theorem Decides.imp (h : Decides r good bad) (hgood : ∀ a t, r = .ok a t → good a t → good' a t)
    (hbad : ∀ err t, r = .error err t → bad t → bad' t) : Decides r good' bad' := by
  cases r with
  | ok a t => exact hgood a t rfl h
  | error err t => exact ⟨hbad err t rfl h.1, h.2⟩

/-- What holds however a request is decided holds after it. -/
theorem Decides.result {x : SessionM α} {P : Session → Prop}
    (h : Decides (x s) (fun _ => P) P) : P (result x s) := by
  unfold Session.result
  cases hx : x s with
  | ok a t =>
    rw [hx] at h
    exact h
  | error err t =>
    rw [hx] at h
    exact h.1

/-- Two requests one after the other decide what the second does, and refuse what either does. -/
theorem Decides.bind {x : SessionM α} {k : α → SessionM β} {final : β → Session → Prop}
    (hx : Decides (x s) good bad)
    (hk : ∀ a t, x s = .ok a t → good a t → Decides (k a t) final bad')
    (hbad : ∀ t, bad t → bad' t) : Decides ((x >>= k) s) final bad' := by
  cases h : x s with
  | ok a t =>
    rw [andThen_of_ok h]
    rw [h] at hx
    exact hk a t h hx
  | error err t =>
    rw [andThen_of_error h]
    rw [h] at hx
    exact ⟨hbad t hx.1, hx.2⟩

/-- A request that starts with a query is refused when the query is. -/
theorem Decides.ask {P : Prop} {q : Session → Except Error β} {k : β → SessionM α}
    (hq : Answers P (q s)) (hk : ∀ b, P → q s = .ok b → Decides (k b s) good bad)
    (hbad : ¬ P → bad s) : Decides ((query q >>= k) s) good bad := by
  rcases hq with ⟨hP, b, hb⟩ | ⟨hP, f, message, herr⟩
  · rw [bind_query_of_ok hb]
    exact hk b hP hb
  · rw [bind_query_of_error herr]
    exact ⟨hbad hP, f, message, rfl⟩

end Decides

/-! ### Handles -/

/-- A handle stands for a value of a type that can be used in the function at a place. -/
def Has (s : Session) (place : Nat) (v : ValueId) (ty : Ty) : Prop :=
  ∃ e, s.value v = .ok e ∧ e.type = ty ∧ (e.owner = none ∨ e.owner = some place)

/-- A handle stands for a slot of the function at a place. -/
def HasSlot (s : Session) (place : Nat) (h : SlotId) : Prop :=
  ∃ ptr name, s.slot h = .ok ⟨ptr, place, name⟩

theorem Has.mono {place : Nat} {v : ValueId} {ty : Ty} (h : s.Has place v ty) (ht : s.Extends t) :
    t.Has place v ty := by
  obtain ⟨e, he, hty, howner⟩ := h
  exact ⟨e, ht.values v e he, hty, howner⟩

theorem HasSlot.mono {place : Nat} {h : SlotId} (hs : s.HasSlot place h) (ht : s.Extends t) :
    t.HasSlot place h := by
  obtain ⟨ptr, name, he⟩ := hs
  exact ⟨ptr, name, ht.slots h _ he⟩

theorem Has.operandIn {place : Nat} {v : ValueId} {ty : Ty} (h : s.Has place v ty) :
    ∃ e, s.operandIn place v = .ok e ∧ e.type = ty := by
  obtain ⟨e, he, hty, howner⟩ := h
  refine ⟨e, ?_, hty⟩
  rw [Session.operandIn, he]
  rcases howner with howner | howner <;>
    simp [bind, Except.bind, pure, Except.pure, howner]

/-- A handle can be used as a double exactly when it stands for one. -/
theorem Has.answers_doubleIn {place : Nat} {v : ValueId} {ty : Ty} (h : s.Has place v ty) :
    Answers (ty = .double) (s.doubleIn place v) := by
  obtain ⟨e, he, rfl⟩ := h.operandIn
  by_cases hty : e.type = .double
  · exact .inl ⟨hty, e.operand, by rw [doubleIn, he]; exact if_pos hty⟩
  · exact .inr ⟨hty, _, _, by rw [doubleIn, he]; exact if_neg hty⟩

theorem Has.flagIn {place : Nat} {v : ValueId} (h : s.Has place v .i1) :
    ∃ a, s.flagIn place v = .ok a := by
  obtain ⟨e, he, hty⟩ := h.operandIn
  exact ⟨e.operand, by rw [Session.flagIn, he]; exact if_pos hty⟩

theorem HasSlot.pointerIn {place : Nat} {h : SlotId} (hs : s.HasSlot place h) :
    ∃ p, s.pointerIn place h = .ok p := by
  obtain ⟨ptr, name, he⟩ := hs
  exact ⟨ptr, by rw [Session.pointerIn, he]; exact if_pos rfl⟩

theorem answers_mapM_doubleIn {place : Nat} {vs : List ValueId} {tys : List Ty}
    (h : List.Forall₂ (s.Has place) vs tys) :
    Answers (∀ ty ∈ tys, ty = .double) (vs.mapM (s.doubleIn place)) := by
  induction h with
  | nil => exact .inl ⟨by simp, [], rfl⟩
  | cons hv _ ih =>
    rw [List.mapM_cons]
    rcases hv.answers_doubleIn with ⟨hty, a, ha⟩ | ⟨hty, f, message, herr⟩
    · rcases ih with ⟨htys, as, has⟩ | ⟨htys, f, message, herr⟩
      · exact .inl ⟨List.forall_mem_cons.2 ⟨hty, htys⟩, a :: as, by rw [ha, has]; rfl⟩
      · refine .inr ⟨fun hall => htys (List.forall_mem_cons.1 hall).2, f, message, ?_⟩
        rw [ha, herr]
        rfl
    · refine .inr ⟨fun hall => hty (List.forall_mem_cons.1 hall).1, f, message, ?_⟩
      rw [herr]
      rfl

/-! ### Functions under construction -/

theorem Site.underConstruction {c : Cursor} {f : Function} {b : Block} (h : s.Site c f b) :
    s.underConstruction = .ok c.function := by
  have hat : s.functionAt c.function = f := by simp [functionAt, h.function]
  simp only [Session.underConstruction, h.cursor, hat, h.building, if_true]

theorem Site.site_eq {c : Cursor} {f : Function} {b : Block} (h : s.Site c f b) :
    s.site = .ok c.function := by
  rw [site, ensureUsable_eq_ok.2 h.usable]
  exact h.underConstruction

/-- The session puts code into the function of a workplace. -/
structure Working (s : Session) (w : Workplace) : Prop where
  formed : s.Formed
  works : ∃ code, s.WorksAt w code

namespace Working

variable {w : Workplace}

/-- There is an open block to put instructions in. -/
theorem exists_site (hw : s.Working w) :
    ∃ c f b, s.Site c f b ∧ c.function = w.before.length := by
  obtain ⟨code, hworks⟩ := hw.works
  have hf : s.module.functions[w.before.length]? = some (w.function code) := by
    rw [hworks.functions]
    exact List.getElem?_concat_length
  obtain ⟨b, _, hb, hopen⟩ :=
    (hw.formed.functions _ (List.mem_of_getElem? hf)).of_building rfl
  have hid : b.id = w.label := by
    rw [← List.head_eq_of_cons_eq hb]
  refine ⟨⟨w.before.length, w.label⟩, w.function code, b,
    ⟨hworks.usable, hworks.cursor, hf, rfl, ?_, ?_⟩, rfl⟩
  · rw [Function.block?, hb]
    exact List.find?_cons_of_pos (by simp [hid])
  · rw [Block.isTerminated, Option.any_eq_false]
    intro i hi
    simpa using hopen i (List.mem_of_getLast? hi)

theorem site_eq (hw : s.Working w) : s.site = .ok w.before.length := by
  obtain ⟨c, f, b, hsite, hplace⟩ := hw.exists_site
  rw [hsite.site_eq, hplace]

theorem codeSteps (hw : s.Working w) (h : s.CodeSteps t) : t.Working w := by
  obtain ⟨code, hworks⟩ := hw.works
  obtain ⟨is, ht⟩ := hworks.codeSteps h
  exact ⟨hw.formed.growSteps h.growSteps, _, ht⟩

/-- The last part of a request for an expression always succeeds. -/
theorem emit (hw : s.Working w) (i : Nat → Instr) (ty : Ty) :
    ∃ v t, (build (Draft.define i) >>= fun v => addValue ⟨v, ty, some w.before.length⟩) s =
      .ok v t ∧ t.Has w.before.length v ty := by
  obtain ⟨c, f, b, hsite, hplace⟩ := hw.exists_site
  rw [← hplace]
  exact ⟨_, _, emit_of_site hsite i ty, _, Handle.resolve_push_size _, rfl, .inr rfl⟩

/-! ### Requests -/

/-- A request for an operation on two doubles. -/
theorem decides_pair (hw : s.Working w) {lhs rhs : ValueId} {tl tr : Ty}
    (hl : s.Has w.before.length lhs tl) (hr : s.Has w.before.length rhs tr)
    (i : Operand → Operand → Nat → Instr) (ty : Ty) :
    Decides ((do
        let f ← cursorFunction
        let a ← query fun s => s.doubleIn f lhs
        let b ← query fun s => s.doubleIn f rhs
        let v ← build (Draft.define (i a b))
        addValue ⟨v, ty, some f⟩ : SessionM ValueId) s)
      (fun v t => (tl = .double ∧ tr = .double) ∧ t.Has w.before.length v ty)
      (fun _ => ¬ (tl = .double ∧ tr = .double)) := by
  rw [cursorFunction_eq, bind_query_of_ok hw.site_eq]
  refine .ask hl.answers_doubleIn (fun a htl _ => ?_) fun htl h => htl h.1
  refine .ask hr.answers_doubleIn (fun b htr _ => ?_) fun htr h => htr h.2
  obtain ⟨v, t, h, hv⟩ := hw.emit (i a b) ty
  exact decides_ok h ⟨⟨htl, htr⟩, hv⟩

theorem decides_arith (hw : s.Working w) (op : Arith) {lhs rhs : ValueId} {tl tr : Ty}
    (hl : s.Has w.before.length lhs tl) (hr : s.Has w.before.length rhs tr) :
    Decides (arith op lhs rhs s)
      (fun v t => (tl = .double ∧ tr = .double) ∧ t.Has w.before.length v .double)
      (fun _ => ¬ (tl = .double ∧ tr = .double)) :=
  hw.decides_pair hl hr (fun a b r => .arith r op a b) .double

theorem decides_compare (hw : s.Working w) (p : Predicate) {lhs rhs : ValueId} {tl tr : Ty}
    (hl : s.Has w.before.length lhs tl) (hr : s.Has w.before.length rhs tr) :
    Decides (compare p lhs rhs s)
      (fun v t => (tl = .double ∧ tr = .double) ∧ t.Has w.before.length v .i1)
      (fun _ => ¬ (tl = .double ∧ tr = .double)) :=
  hw.decides_pair hl hr (fun a b r => .compare r p a b) .i1

theorem widen_of_has (hw : s.Working w) {v : ValueId} (hv : s.Has w.before.length v .i1) :
    ∃ v' t, widen v s = .ok v' t ∧ t.Has w.before.length v' .double := by
  obtain ⟨a, ha⟩ := hv.flagIn
  rw [widen, cursorFunction_eq, bind_query_of_ok hw.site_eq, bind_query_of_ok ha]
  exact hw.emit (fun r => .widen r a) .double

theorem read_of_hasSlot (hw : s.Working w) {h : SlotId} (hs : s.HasSlot w.before.length h) :
    ∃ v t, read h s = .ok v t ∧ t.Has w.before.length v .double := by
  obtain ⟨p, hp⟩ := hs.pointerIn
  rw [read, cursorFunction_eq, bind_query_of_ok hw.site_eq, bind_query_of_ok hp]
  exact hw.emit (fun r => .load r p .double) .double

/-- A call of a live function, with as many arguments as it takes. -/
theorem decides_call (hw : s.Working w) {f : FunctionId} {g : Function} (hg : s.callee f = .ok g)
    {args : List ValueId} (harity : g.arity = args.length) {tys : List Ty}
    (hargs : List.Forall₂ (s.Has w.before.length) args tys) :
    Decides (call f args s)
      (fun v t => (∀ ty ∈ tys, ty = .double) ∧ t.Has w.before.length v .double)
      (fun _ => ¬ ∀ ty ∈ tys, ty = .double) := by
  rw [call, cursorFunction_eq, bind_query_of_ok hw.site_eq, bind_query_of_ok hg,
    bind_query_of_ok (show s.checkArity _ g args.length = .ok () from if_pos harity)]
  refine .ask (answers_mapM_doubleIn hargs) (fun vs htys _ => ?_) fun h => h
  obtain ⟨v, t, h, hv⟩ := hw.emit (fun r => .call r (.function g.name) vs) .double
  exact decides_ok h ⟨htys, hv⟩

theorem decides_declareVariable (hw : s.Working w) {v : ValueId} {ty : Ty}
    (hv : s.Has w.before.length v ty) (name : String) :
    Decides (declareVariable v name s)
      (fun slot t => ty = .double ∧ t.HasSlot w.before.length slot) (fun _ => ty ≠ .double) := by
  obtain ⟨c, f, b, hsite, hplace⟩ := hw.exists_site
  rw [declareVariable, cursorFunction_eq, bind_query_of_ok hw.site_eq]
  refine .ask hv.answers_doubleIn (fun a hty _ => ?_) fun h => h
  rw [← hplace]
  exact decides_ok (makeVariable_of_site hsite a name)
    ⟨hty, _, _, Handle.resolve_push_size _⟩

theorem decides_assign (hw : s.Working w) {h : SlotId} (hs : s.HasSlot w.before.length h)
    {v : ValueId} {ty : Ty} (hv : s.Has w.before.length v ty) :
    Decides (assign h v s) (fun _ _ => ty = .double) (fun _ => ty ≠ .double) := by
  obtain ⟨c, f, b, hsite, hplace⟩ := hw.exists_site
  obtain ⟨p, hp⟩ := hs.pointerIn
  rw [assign, cursorFunction_eq, bind_query_of_ok hw.site_eq, bind_query_of_ok hp]
  refine .ask hv.answers_doubleIn (fun a hty _ => ?_) fun h => h
  exact decides_ok (append_of_site hsite (.store a p)) hty

/-- The function under construction can be ended with a double. -/
theorem decides_endFunction (hw : s.Working w) {function : FunctionId} {e : FunctionEntry}
    (he : s.entry function = .ok e) (hplace : e.index = w.before.length) {v : ValueId} {ty : Ty}
    (hv : s.Has w.before.length v ty) :
    Decides (endFunction function v s)
      (fun _ t => ty = .double ∧ s.Extends t ∧ ∃ code, t.Ended w code) (fun _ => ty ≠ .double) := by
  obtain ⟨c, f, b, hsite, hc⟩ := hw.exists_site
  obtain ⟨code, hworks⟩ := hw.works
  have hends : s.checkEnds e.index = .ok () := by
    simp only [checkEnds, hsite.underConstruction]
    exact if_pos (hc.trans hplace.symm)
  have hdecides : Decides (endFunction function v s) (fun _ _ => ty = .double)
      (fun _ => ty ≠ .double) := by
    rw [endFunction, bind_query_of_ok (ensureUsable_eq_ok.2 hworks.usable), bind_query_of_ok he,
      bind_query_of_ok hends, hplace]
    refine .ask hv.answers_doubleIn (fun a hty _ => ?_) fun h => h
    rw [← hc]
    exact decides_ok (returnValue_of_site hsite a) hty
  refine hdecides.imp (fun _ t h hty => ?_) fun _ _ _ h => h
  rcases endFunction_cases s function v with ⟨err, herr⟩ | ⟨t', hok, hextends, hended⟩
  · cases herr.symm.trans h
  · cases hok.symm.trans h
    obtain ⟨a, _, hended⟩ := hended w code hworks
    exact ⟨hty, hextends, _, hended⟩

end Working

end StraightLine.Session
