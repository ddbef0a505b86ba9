import StraightLine.Proofs.SessionRefusals

/-!
# Wrapping values

The request to wrap a value begins a function before it looks at the type of the value. A value of a
function and a handle of another session are refused before that, without a trace; a constant that
is no double is refused too late, and leaves a function behind that keeps the session from closing.
-/

namespace StraightLine.Session

variable {s t : Session}

theorem checkNotLocal_eq_ok {v : ValueId} :
    s.checkNotLocal v = .ok () ↔ ∃ e, s.value v = .ok e ∧ e.owner = none := by
  unfold checkNotLocal
  cases hv : s.value v with
  | error err => simp [bind, Except.bind]
  | ok e => cases ho : e.owner <;> simp [bind, Except.bind, ho, throw, throwThe, pure, Except.pure]

theorem graceful_checkNotLocal (s : Session) (v : ValueId) : Graceful (s.checkNotLocal v) := by
  refine (graceful_resolve v s.id s.values).bind fun e => ?_
  split
  · exact rfl
  · exact trivial

/-- The session after a function around a top-level expression is begun. -/
def wrapping (s : Session) : Session := s.nameTaken.opened s.wrappers.take.1 []

theorem Steady.beginTopLevel (hs : s.Steady) (hu : s.poisonedBy = none) :
    Session.beginTopLevel s = .ok ⟨s.id, s.functions.size⟩ s.wrapping ∧ s.wrapping.Steady := by
  obtain ⟨hnew, h⟩ := hs.named.beginTopLevel hu
  have hname : s.Step s.nameTaken := .grow _ (.name hu)
  have hopened : s.nameTaken.Step s.wrapping :=
    .grow _ (.opened _ [] hu hnew rfl (.inr ⟨rfl, s.wrappers.next, rfl, rfl⟩))
  exact ⟨h, (hs.formed.step hname).step hopened, (hs.named.step hname).step hopened,
    (hs.aimed.step hname).step hopened⟩

/-- The function that is begun takes instructions, and the cursor is in it. -/
theorem wrapping_fields (s : Session) :
    ∃ f c, s.wrapping.module.functions = s.module.functions ++ [f] ∧
      f.name = s.wrappers.take.1 ∧ f.stage = .building ∧
      s.wrapping.draft.cursor = some c ∧ c.function = s.module.functions.length :=
  ⟨_, _, rfl, rfl, rfl, rfl, rfl⟩

/-- A session with a function under construction does not close. -/
theorem Formed.not_close_of_building (hs : s.Formed) {f : Function}
    (hf : f ∈ s.module.functions) (hstage : f.stage = .building) (m : Module) :
    s.close ≠ .ok m := by
  intro hclose
  obtain ⟨_, hverify, _⟩ := close_eq_ok.1 hclose
  have hlive : f ∈ s.module.live := by simp [Module.live, hf, Function.isLive, hstage]
  obtain ⟨b, _, hb, hopen⟩ := (hs.functions f hf).of_building hstage
  have hwf := (verify_dropAbandoned_eq_ok.1 hverify).2 f hlive
  exact hopen.not_closed (hwf.closed b (by simp [hb]))

/-! ### Ending the function that was begun -/

theorem wrapping_value (s : Session) (v : ValueId) : s.wrapping.value v = s.value v := by
  simp [value, wrapping, opened, nameTaken]

theorem wrapping_entry (s : Session) :
    s.wrapping.entry ⟨s.id, s.functions.size⟩ = .ok ⟨s.module.functions.length, []⟩ := by
  simp [entry, Handle.resolve, wrapping, opened, nameTaken, module]

theorem wrapping_functionAt (s : Session) :
    s.wrapping.functionAt s.module.functions.length =
      { Function.declare s.wrappers.take.1 [] with
        stage := .building, blocks := [{ id := s.draft.labels.next, name := entryName }] } := by
  simp [functionAt, wrapping, opened, nameTaken, module, Module.add]

theorem wrapping_checkEnds (s : Session) :
    s.wrapping.checkEnds s.module.functions.length = .ok () := by
  have hunder : s.wrapping.underConstruction = .ok s.module.functions.length := by
    change
      (if (s.wrapping.functionAt s.module.functions.length).stage = .building then _ else _) = _
    rw [wrapping_functionAt]
    rfl
  simp [checkEnds, hunder]

/-- A constant can be returned if it is a double. -/
theorem wrapping_doubleIn {v : ValueId} {e : ValueEntry} (hv : s.value v = .ok e)
    (ho : e.owner = none) :
    s.wrapping.doubleIn s.module.functions.length v =
      if e.type = .double then .ok e.operand
      else .error ((Refusal.notDouble v e.type).error s.wrappers.take.1) := by
  have hoperand : s.wrapping.operandIn s.module.functions.length v = .ok e := by
    simp [operandIn, wrapping_value, hv, ho, bind, Except.bind, pure, Except.pure]
  rw [doubleIn, hoperand, wrapping_functionAt]
  rfl

/-- Of the checks that come before the end of a function, only the type of the value is left. -/
theorem endFunction_wrapping (hu : s.poisonedBy = none) (v : ValueId) :
    endFunction ⟨s.id, s.functions.size⟩ v s.wrapping =
      (query (fun s' => s'.doubleIn s.module.functions.length v) >>=
        returnValue s.module.functions.length) s.wrapping := by
  have hu : s.wrapping.ensureUsable = .ok () := ensureUsable_eq_ok.2 hu
  rw [endFunction, bind_query_of_ok hu, bind_query_of_ok (wrapping_entry s),
    bind_query_of_ok (wrapping_checkEnds s)]
  rfl

/-! ### The request -/

/-- A value handle that stands for a constant which is no double. -/
def IsText (s : Session) (v : ValueId) : Prop :=
  ∃ e, s.value v = .ok e ∧ e.owner = none ∧ e.type ≠ .double

/-- A constant that is no double is refused when the function around it is there. -/
theorem Steady.wrapTopLevel_of_type_ne (hs : s.Steady) (hu : s.poisonedBy = none) {v : ValueId}
    {e : ValueEntry} (hv : s.value v = .ok e) (howner : e.owner = none) (htype : e.type ≠ .double) :
    wrapTopLevel v s =
      .error ((Refusal.notDouble v e.type).error s.wrappers.take.1) s.wrapping := by
  have hdouble := wrapping_doubleIn hv howner
  rw [if_neg htype] at hdouble
  have hend := (endFunction_wrapping hu v).trans (bind_query_of_error hdouble)
  rw [wrapTopLevel, bind_query_of_ok (ensureUsable_eq_ok.2 hu),
    bind_query_of_ok (checkNotLocal_eq_ok.2 ⟨e, hv, howner⟩), andThen_of_ok (hs.beginTopLevel hu).1]
  exact andThen_of_error (andThen_of_error hend)

theorem Steady.wrapTopLevel_of_isText (hs : s.Steady) (hu : s.poisonedBy = none) {v : ValueId}
    (hv : s.IsText v) : ∃ err, wrapTopLevel v s = .error err s.wrapping := by
  obtain ⟨e, he, howner, htype⟩ := hv
  exact ⟨_, hs.wrapTopLevel_of_type_ne hu he howner htype⟩

/-- The function around a double is ended. -/
theorem Steady.endFunction_of_double (hs : s.Steady) (hu : s.poisonedBy = none) {v : ValueId}
    {e : ValueEntry} (hv : s.value v = .ok e) (howner : e.owner = none) (htype : e.type = .double) :
    ∃ t, endFunction ⟨s.id, s.functions.size⟩ v s.wrapping = .ok () t := by
  have hdouble := wrapping_doubleIn hv howner
  rw [if_pos htype] at hdouble
  have hsteady := (hs.beginTopLevel hu).2
  have hsite : s.wrapping.site = .ok s.module.functions.length :=
    site_of_checkEnds (ensureUsable_eq_ok.2 hu) (wrapping_checkEnds s)
  obtain ⟨c, f, b, hsite, hplace⟩ := hsteady.aimed.exists_site hsteady.formed hsite
  refine ⟨s.wrapping.returned c e.operand, ?_⟩
  rw [endFunction_wrapping hu, bind_query_of_ok hdouble, ← hplace]
  exact returnValue_of_site hsite e.operand

/-- All other values are refused before anything is built. -/
theorem Steady.orderly_wrapTopLevel (hs : s.Steady) {v : ValueId}
    (hv : ¬ (s.poisonedBy = none ∧ s.IsText v)) : s.Orderly (wrapTopLevel v s) := by
  refine .ask (graceful_ensureUsable s) fun _ hu =>
    .ask (graceful_checkNotLocal s v) fun _ hlocal => ?_
  have hu := ensureUsable_eq_ok.1 hu
  obtain ⟨e, he, howner⟩ := checkNotLocal_eq_ok.1 hlocal
  have htype : e.type = .double := by
    by_contra htype
    exact hv ⟨hu, e, he, howner, htype⟩
  obtain ⟨t, hend⟩ := hs.endFunction_of_double hu he howner htype
  rw [andThen_of_ok (hs.beginTopLevel hu).1, finishTopLevel, bind_assoc, andThen_of_ok hend]
  exact (orderly_verifyFunction_of_ended hend s).map fun _ => _

/-- **A value that cannot be wrapped is refused without a trace, unless it is a constant.** After
every history and for every value handle, if the request to wrap the value fails and not since a
function fails verification: then the whole session is as before, unless the session is usable and
the handle stands for a constant that is no double. In that case there is one more function, which
takes instructions and has the cursor, and the session does not close. -/
theorem wrap_refused (id : Nat) (o : SessionOptions) (target : Target) (history : List Request)
    (v : ValueId) :
    let s := (start id o target).after history
    ∀ err t, s.request (.wrapTopLevel v) = (.error err, t) →
      (∀ f message, err ≠ .verification f message) →
      (¬ (s.poisonedBy = none ∧ s.IsText v) → t = s) ∧
      (s.poisonedBy = none ∧ s.IsText v →
        (∃ f c, t.module.functions = s.module.functions ++ [f] ∧ f.name = s.wrappers.take.1 ∧
          f.stage = .building ∧ t.draft.cursor = some c ∧
          c.function = s.module.functions.length) ∧
        ∀ m, t.close ≠ .ok m) := by
  intro s err t h hother
  have hs : s.Steady := .after id o target history
  constructor
  · intro htext
    have horderly := hs.orderly_wrapTopLevel htext
    cases hwrap : wrapTopLevel v s with
    | ok f u => cases (request_of_ok rfl hwrap).symm.trans h
    | error err' u =>
      cases (request_of_error rfl hwrap).symm.trans h
      rw [hwrap] at horderly
      cases horderly with
      | refused => rfl
      | unverified f message => exact absurd rfl (hother f message)
  · rintro ⟨hu, htext⟩
    obtain ⟨err', hwrap⟩ := hs.wrapTopLevel_of_isText hu htext
    cases (request_of_error rfl hwrap).symm.trans h
    obtain ⟨f, c, hfunctions, hname, hstage, hcursor⟩ := s.wrapping_fields
    refine ⟨⟨f, c, hfunctions, hname, hstage, hcursor⟩, ?_⟩
    have hf : f ∈ s.wrapping.module.functions := by simp [hfunctions]
    exact (hs.beginTopLevel hu).2.formed.not_close_of_building hf hstage

/-- To wrap the parameter of a function leaves no trace, to wrap a string does. -/
theorem wrap_refused_param :
    let target : Target := { triple := Target.host, arch := "x86_64", os := "linux" }
    let s := (start 0 {} target).after [.stringConstant [104, 105], .beginFunction "f" ["x"]]
    (s.request (.wrapTopLevel ⟨0, 1⟩)).2 = s ∧
      ∀ m, (s.request (.wrapTopLevel ⟨0, 0⟩)).2.close ≠ .ok m := by
  intro target s
  have refused {v : ValueId} {f message : String}
      (h : (s.request (.wrapTopLevel v)).1 = .error (.construction f message)) :=
    wrap_refused 0 {} target _ v _ _ (Prod.ext h rfl : s.request (.wrapTopLevel v) = (_, _))
      (by simp)
  have hlocal : (s.request (.wrapTopLevel ⟨0, 1⟩)).1 =
      .error ((Refusal.localValue ⟨0, 1⟩).error "f") := by decide +kernel
  have htext : (s.request (.wrapTopLevel ⟨0, 0⟩)).1 =
      .error ((Refusal.notDouble ⟨0, 0⟩ (.bytes 2)).error "__anon_expr") := by decide +kernel
  refine ⟨(refused hlocal).1 ?_, ((refused htext).2 ?_).2⟩
  · rintro ⟨_, e, he, howner, _⟩
    have he' : s.value ⟨0, 1⟩ = .ok ⟨.temp 0, .double, some 0⟩ := by decide +kernel
    cases he'.symm.trans he
    cases howner
  · exact ⟨by decide +kernel, ⟨.string [104, 105], .bytes 2, none⟩, by decide +kernel, rfl,
      by decide⟩

/-- A session that closes does not close any more after it has refused to wrap a string. -/
theorem wrap_text_keeps_from_closing :
    let target : Target := { triple := Target.host, arch := "x86_64", os := "linux" }
    let s := (start 0 {} target).after [.stringConstant [104, 105]]
    let t := (s.request (.wrapTopLevel ⟨0, 0⟩)).2
    (s.request (.wrapTopLevel ⟨0, 0⟩)).1 =
        .error ((Refusal.notDouble ⟨0, 0⟩ (.bytes 2)).error "__anon_expr") ∧
      s.close.isOk ∧ t.module.live.length = 1 ∧ t.poisonedBy = none ∧ t.close.isOk = false := by
  decide +kernel

end StraightLine.Session
