import StraightLine.Proofs.ItemRules
import StraightLine.Proofs.Lowering
import StraightLine.Proofs.SessionNames
import StraightLine.Proofs.SessionTyping

/-!
# Which items are accepted

Items are lowered one by one through a session, which stays ready for the next one
(`Session.Ready`), whether an item is accepted or refused. In a session that is ready, an item is
accepted exactly when the rules say so (`Lower.item_decides`): it is refused before its function is
begun, or while code is put into it, and never fails verification.
-/

namespace StraightLine

namespace Session

variable {s t : Session}

/-! ### Checks before a function is begun -/

instance (name : String) : Decidable (Reserved name) :=
  decidable_of_iff _ (NameFamily.reserves_iff (f := { stem := wrapperStem }))

theorem Named.reserves_iff_reserved (hs : s.Named) (name : String) :
    s.wrappers.reserves name ↔ Reserved name := by
  rw [NameFamily.reserves_iff, hs.stem, Reserved]

theorem answers_checkNotReserved (hs : s.Named) (name : String) :
    Answers (¬ Reserved name) (s.checkNotReserved name) := by
  have hreserves := hs.reserves_iff_reserved name
  unfold checkNotReserved
  split
  next h => exact .inr ⟨not_not.2 (hreserves.1 h), _, _, rfl⟩
  next h => exact .inl ⟨fun hr => h (hreserves.2 hr), (), rfl⟩

theorem answers_checkNewName (s : Session) (name : String) :
    Answers (name ≠ "" ∧ ∀ f ∈ s.module.live, f.name ≠ name) (s.checkNewName name) := by
  have hfound : (s.module.find? name).isSome ↔ ∃ f ∈ s.module.live, f.name = name := by
    rw [Module.find?_eq_head?_live, List.head?_filter, List.find?_isSome]
    simp
  unfold checkNewName
  split
  next h => exact .inr ⟨fun hgood => hgood.1 (String.isEmpty_iff.1 h), _, _, rfl⟩
  next hempty =>
    split
    next h =>
      obtain ⟨f, hf, hname⟩ := hfound.1 h
      exact .inr ⟨fun hgood => hgood.2 f hf hname, _, _, rfl⟩
    next h =>
      refine .inl ⟨⟨fun heq => hempty (String.isEmpty_iff.2 heq), fun f hf hname => ?_⟩, (), rfl⟩
      exact h (hfound.2 ⟨f, hf, hname⟩)

theorem firstRepeated_eq_none {seen xs : List String} :
    firstRepeated seen xs = none ↔ xs.Nodup ∧ ∀ x ∈ xs, x ∉ seen := by
  induction xs generalizing seen with
  | nil => simp [firstRepeated]
  | cons x xs ih =>
    rw [firstRepeated, List.nodup_cons, List.forall_mem_cons]
    split
    next h => simp [h]
    next h =>
      rw [ih]
      constructor
      · rintro ⟨hnodup, hseen⟩
        refine ⟨⟨fun hx => hseen x hx (by simp), hnodup⟩, h, fun y hy hmem => ?_⟩
        exact hseen y hy (List.mem_cons_of_mem x hmem)
      · rintro ⟨⟨hx, hnodup⟩, _, hseen⟩
        refine ⟨hnodup, fun y hy hmem => ?_⟩
        rcases List.mem_cons.1 hmem with rfl | hmem
        · exact hx hy
        · exact hseen y hy hmem

theorem answers_checkParams (name : String) (params : List String) :
    Answers params.Nodup (checkParams name params) := by
  have hnone : firstRepeated [] params = none ↔ params.Nodup := by simp [firstRepeated_eq_none]
  unfold checkParams
  cases h : firstRepeated [] params with
  | none => exact .inl ⟨hnone.1 h, (), rfl⟩
  | some p => exact .inr ⟨fun hnodup => by simp [hnone.2 hnodup] at h, _, _, rfl⟩

/-! ### Sessions between items -/

/-- A session in which the next item can be lowered. -/
structure Ready (s : Session) : Prop where
  usable : s.poisonedBy = none
  formed : s.Formed
  typed : s.Typed
  named : s.Named

namespace Ready

theorem growSteps (hs : s.Ready) (h : s.GrowSteps t) (hu : t.poisonedBy = none) : t.Ready where
  usable := hu
  formed := hs.formed.growSteps h
  typed := hs.typed.growSteps hs.formed h
  named := hs.named.growSteps h

/-- A function that no other calls is abandoned. -/
theorem withdrawn (hs : s.Ready) {f : FunctionId} {e : FunctionEntry} (he : s.entry f = .ok e)
    (hstage : (s.functionAt e.index).stage ≠ .verified)
    (hcalled : s.module.isCalledBy Function.isLive e.index = false) :
    (s.withdrawn e.index).Ready where
  usable := (withdrawn_fields s e.index).2.2.1.trans hs.usable
  formed := hs.formed.withdrawn e.index
  typed := hs.typed.withdrawn hcalled
  named := hs.named.step (.withdrawn e hs.usable (resolve_eq_ok he) hstage)

end Ready

/-- A function that is added last is not called by those before it. -/
theorem Typed.isCalledBy_last (hs : s.Typed) {g : Function}
    (hfunctions : t.module.functions = s.module.functions ++ [g]) :
    t.module.isCalledBy Function.isLive s.module.functions.length = false := by
  rw [Module.isCalledBy, hfunctions, List.eraseIdx_append_of_length_le (Nat.le_refl _),
    Nat.sub_self, List.eraseIdx_cons_zero, List.append_nil, List.any_eq_false]
  intro f hf hcalls
  rw [Bool.and_eq_true] at hcalls
  obtain ⟨hlive, hcalls⟩ := hcalls
  obtain ⟨name, hcalls, hindex⟩ := Module.callsAt_iff.1 hcalls
  obtain ⟨i, hi, hname⟩ := List.any_eq_true.1 hcalls
  -- What the function calls was there before, so the name stands for an earlier place.
  have hsome := (hs.code f hf hlive).isSome_of_callee hi (of_decide_eq_true hname)
  rw [Module.arities, Option.isSome_map, Module.find?, List.find?_isSome] at hsome
  obtain ⟨h, hh, hnamed⟩ := hsome
  obtain ⟨hlt, _, hfirst⟩ := List.findIdx?_eq_some_iff_getElem.1 hindex
  obtain ⟨j, hj, rfl⟩ := List.mem_iff_getElem.1 hh
  have hnot := hfirst j hj
  simp only [hfunctions, List.getElem_append_left hj] at hnot
  exact hnot hnamed

/-- To begin a function is granted when its name and its parameters can be used. -/
theorem Ready.decides_beginFunction (hs : s.Ready) (name : String) (params : List String) :
    Decides (beginFunction name params s)
      (fun f t => (s.Admissible name ∧ params.Nodup) ∧ f = ⟨s.id, s.functions.size⟩ ∧
        t = s.opened name params ∧ s.GrowStep t)
      (fun t => ¬ (s.Admissible name ∧ params.Nodup) ∧ t = s) := by
  rw [beginFunction, bind_query_of_ok (ensureUsable_eq_ok.2 hs.usable)]
  refine .ask (answers_checkNotReserved hs.named name) (fun _ hfree hreserved => ?_)
    fun h => ⟨fun hgood => h hgood.1.free, rfl⟩
  rcases answers_checkNewName s name with ⟨hname, _, hnew⟩ | ⟨hname, f, message, herr⟩
  · rcases answers_checkParams name params with ⟨hnodup, _, hparams⟩ | ⟨hnodup, f, message, herr⟩
    · refine decides_ok (openFunction_of_ok hnew hparams)
        ⟨⟨⟨hname.1, hfree, hname.2⟩, hnodup⟩, rfl, rfl, ?_⟩
      exact .opened name params hs.usable hnew hparams (.inl (checkNotReserved_eq_ok.1 hreserved))
    · rw [openFunction, bind_query_of_ok hnew, bind_query_of_error herr]
      exact ⟨⟨fun hgood => hnodup hgood.2, rfl⟩, f, message, rfl⟩
  · rw [openFunction, bind_query_of_error herr]
    exact ⟨⟨fun hgood => hname ⟨hgood.1.nonempty, hgood.1.new⟩, rfl⟩, f, message, rfl⟩

/-- To declare a function is granted when its name can be used. -/
theorem Ready.decides_declareFunction (hs : s.Ready) (name : String) (arity : Nat) :
    Decides (declareFunction name arity s) (fun _ t => s.Admissible name ∧ t.Ready)
      (fun t => ¬ s.Admissible name ∧ t.Ready) := by
  rw [declareFunction, bind_query_of_ok (ensureUsable_eq_ok.2 hs.usable)]
  refine .ask (answers_checkNotReserved hs.named name) (fun _ hfree hreserved => ?_)
    fun h => ⟨fun hgood => h hgood.free, hs⟩
  refine .ask (answers_checkNewName s name) (fun _ hname hnew => ?_)
    fun h => ⟨fun hgood => h ⟨hgood.nonempty, hgood.new⟩, hs⟩
  have hstep : s.GrowStep (s.declared name arity) :=
    .declared name arity hs.usable hnew (checkNotReserved_eq_ok.1 hreserved)
  exact decides_ok rfl ⟨⟨hname.1, hfree, hname.2⟩, hs.growSteps (.single hstep) hs.usable⟩

/-! ### Functions that are begun -/

section Opened

variable {name : String} {params : List String}

/-- The calls that are open to a function that is begun. -/
theorem calls_workplace (hu : s.poisonedBy = none) (hformed : (s.opened name params).Formed) :
    (s.workplace name params).Calls = s.Calls name params.length := by
  have hlive : (s.opened name params).module.live =
      s.module.live ++ [(s.workplace name params).function []] :=
    Lower.Listing.live_append (opened_worksAt hu).functions
  have harity : ((s.workplace name params).function []).arity = params.length :=
    arity_declare name params
  funext g k
  rw [Workplace.Calls, ← (opened_worksAt hu).arities, Module.arities_eq_some_iff hformed.distinct,
    hlive, Calls, eq_iff_iff]
  constructor
  · rintro ⟨f, hf, rfl, rfl⟩
    rcases List.mem_append.1 hf with hf | hf
    · exact .inr ⟨f, hf, rfl, rfl⟩
    · rw [List.mem_singleton.1 hf]
      exact .inl ⟨rfl, harity⟩
  · rintro (⟨rfl, rfl⟩ | ⟨f, hf, hname, hk⟩)
    · exact ⟨_, List.mem_append_right _ (List.mem_singleton_self _), rfl, harity⟩
    · exact ⟨f, List.mem_append_left _ hf, hname, hk⟩

/-- Parameters are doubles. -/
theorem opened_param {i : Nat} (hi : i < params.length) :
    ∃ v, (s.opened name params).param ⟨s.id, s.functions.size⟩ i = .ok v ∧
      (s.opened name params).Has s.module.functions.length v .double := by
  refine ⟨⟨s.id, s.values.size + i⟩, ?_,
    ⟨.temp i, .double, some s.module.functions.length⟩, ?_, rfl, .inr rfl⟩
  · rw [param, opened_entry]
    simp [bind, Except.bind, pure, Except.pure, hi]
  · exact opened_value hi

end Opened

theorem usable_of_verifyFunction {f : FunctionId} (h : verifyFunction f s = .ok () t) :
    t.poisonedBy = s.poisonedBy := by
  have hverdict := verifyFunction_verdict s f
  rw [h] at hverdict
  cases hverdict <;> rfl

end Session

namespace Lower

open Session (Answers Decides Ready decides_ok andThen_of_ok Grows takes_bind takes_pure)

variable {s t : Session}

theorem answers_checkReturns (name : String) (b : List Stmt) :
    Answers (Stmt.ReturnsLast b) (checkReturns name b) := by
  have hreturns (h : Stmt.ReturnsLast b) :
      b.countP Stmt.isReturn = 1 ∧ b.getLast?.any Stmt.isReturn := by
    obtain ⟨init, e, rfl, hinit⟩ := h
    rw [List.countP_append, List.countP_eq_zero.2 (by simpa using hinit)]
    exact ⟨rfl, by simp [Stmt.isReturn]⟩
  cases h : checkReturns name b with
  | ok _ => exact .inl ⟨exists_of_checkReturns h, (), rfl⟩
  | error e =>
    unfold checkReturns at h
    split at h
    next hcount =>
      cases h
      exact .inr ⟨fun hb => hcount (hreturns hb).1, _, _, rfl⟩
    next =>
      split at h
      next => cases h
      next hlast =>
        cases h
        exact .inr ⟨fun hb => hlast (hreturns hb).2, _, _, rfl⟩

/-- The names of parameters stand for them. -/
theorem paramScope_of_param {f : FunctionId} {place i : Nat} {ps : List String}
    (h : ∀ j < ps.length, ∃ v, s.param f (i + j) = .ok v ∧ s.Has place v .double) :
    ∃ scope, paramScope f i ps s = .ok scope s ∧ Scoped s place scope ps [] := by
  induction ps generalizing i with
  | nil => exact ⟨[], rfl, by simp, by simp, by simp⟩
  | cons p ps ih =>
    obtain ⟨v, hv, hhas⟩ := h 0 (by simp)
    obtain ⟨scope, hscope, hscoped⟩ := ih (i := i + 1) fun j hj => by
      rw [Nat.add_assoc, Nat.add_comm 1]
      exact h (j + 1) (by simpa using hj)
    refine ⟨(p, .param v) :: scope, ?_, hscoped.param_cons p hhas⟩
    rw [paramScope, Session.bind_query_of_ok hv, andThen_of_ok hscope]
    rfl

theorem grows_stmt (function : FunctionId) (scope : Scope) (st : Stmt) :
    Grows (stmt function scope st) := by
  cases st with
  | ret value =>
    exact takes_bind (builds_expr scope value).grows fun v =>
      takes_bind (Session.grows_endFunction function v) fun _ => takes_pure _
  | _ => exact (builds_stmt function scope rfl).grows

theorem grows_stmts (function : FunctionId) (scope : Scope) (b : List Stmt) :
    Grows (stmts function scope b) := by
  induction b generalizing scope with
  | nil => exact takes_pure _
  | cons st b ih => exact takes_bind (grows_stmt function scope st) ih

section Begun

variable {name : String} {params : List String} {init : List Stmt} {e : Expr}

/-- **The lowering of a body decides whether it is in order.** It is never refused at its end, by
verification. -/
theorem body_decides (hs : s.Ready) (hstep : s.GrowStep (s.opened name params))
    (hinit : ∀ st ∈ init, st.isReturn = false) :
    Decides (body ⟨s.id, s.functions.size⟩ params (init ++ [.ret e]) (s.opened name params))
      (fun _ t => Stmt.AllInOrder (s.Calls name params.length) params [] (init ++ [.ret e]) ∧
        t.Ready)
      (fun t => ¬ Stmt.AllInOrder (s.Calls name params.length) params [] (init ++ [.ret e]) ∧
        (s.opened name params).CodeSteps t) := by
  have hopened : (s.opened name params).Ready := hs.growSteps (.single hstep) hs.usable
  have hworking : (s.opened name params).Working (s.workplace name params) :=
    ⟨hopened.formed, [], Session.opened_worksAt hs.usable⟩
  obtain ⟨scope, hscope, hscoped⟩ : ∃ scope,
      paramScope ⟨s.id, s.functions.size⟩ 0 params (s.opened name params) =
        .ok scope (s.opened name params) ∧
      Scoped (s.opened name params) (s.workplace name params).before.length scope params
        (Stmt.bound []) := by
    apply paramScope_of_param
    intro j hj
    rw [Nat.zero_add]
    exact Session.opened_param hj
  rw [body, andThen_of_ok hscope, ← Session.calls_workplace hs.usable hopened.formed]
  have hstmts := stmts_decides init (e := e) hinit rfl Session.opened_entry hworking hscoped
  refine (hstmts.imp (fun _ _ _ h => h) fun _ t h hbad =>
    (⟨hbad, stmts_error init hinit h⟩ : _ ∧ (s.opened name params).CodeSteps t)).bind
    (fun _ t h hgood => ?_) fun _ h => h
  obtain ⟨horder, hextends, code, hended⟩ := hgood
  have hready : t.Ready :=
    hopened.growSteps (Session.result_ok h ▸ grows_stmts _ scope _ _) hended.usable
  have hentry := (hextends.entry _).trans Session.opened_entry
  have hat : t.functionAt s.module.functions.length = _ := hended.functionAt
  obtain ⟨u, hu⟩ := (Session.verifyFunction_live hready.formed hready.typed hready.usable hentry
    (by rw [hat]; rfl)).2 (by simp [hat])
  refine decides_ok hu ⟨horder, hready.growSteps ?_ ?_⟩
  · exact Session.result_ok hu ▸ Session.grows_verifyFunction _ _
  · rw [Session.usable_of_verifyFunction hu, hready.usable]

/-- A function whose lowering is refused is abandoned. -/
theorem settle_decides {f : FunctionId} {x : SessionM Unit} {good : Unit → Session → Prop}
    {bad bad' : Session → Prop} (h : Decides (x s) good bad)
    (hbad : ∀ t, bad t → t.poisonedBy = none ∧ ∃ e, t.entry f = .ok e ∧
      (t.functionAt e.index).stage ≠ .verified ∧ bad' (t.withdrawn e.index)) :
    Decides (settle f x s) good bad' := by
  unfold settle
  cases hx : x s with
  | ok a t =>
    rw [hx] at h
    exact h
  | error err t =>
    rw [hx] at h
    obtain ⟨hu, e, he, hstage, hbad'⟩ := hbad t h.1
    dsimp only
    rw [if_neg (by simp [Session.isPoisoned, hu]), Session.abandonFunction_of_ok hu he hstage]
    exact ⟨hbad', h.2⟩

/-- **A function that is begun is accepted exactly when its body is in order.** -/
theorem begun_decides (hs : s.Ready) (hstep : s.GrowStep (s.opened name params))
    (hinit : ∀ st ∈ init, st.isReturn = false) (x : Lowered) :
    let f : FunctionId := ⟨s.id, s.functions.size⟩
    Decides ((settle f (body f params (init ++ [.ret e])) >>= fun _ => pure x)
        (s.opened name params))
      (fun _ t => Stmt.AllInOrder (s.Calls name params.length) params [] (init ++ [.ret e]) ∧
        t.Ready)
      (fun t => ¬ Stmt.AllInOrder (s.Calls name params.length) params [] (init ++ [.ret e]) ∧
        t.Ready) := by
  intro f
  have hopened : (s.opened name params).Ready := hs.growSteps (.single hstep) hs.usable
  refine .bind (settle_decides (body_decides hs hstep hinit) fun t hbad => ?_)
    (fun _ t _ h => decides_ok rfl h) fun _ h => h
  obtain ⟨hbad, hsteps⟩ := hbad
  obtain ⟨code, hworks⟩ := (Session.opened_worksAt hs.usable).codeSteps hsteps
  have hready := hopened.growSteps hsteps.growSteps hworks.usable
  have hentry := (hsteps.extends.entry f).trans Session.opened_entry
  have hfunctions : t.module.functions = s.module.functions ++
      [(s.workplace name params).function ([] ++ code)] := hworks.functions
  have hstage : (t.functionAt s.module.functions.length).stage ≠ .verified := by
    simp [Session.functionAt, hfunctions, Workplace.function]
  refine ⟨hworks.usable, _, hentry, hstage, hbad, ?_⟩
  exact hready.withdrawn hentry hstage (hs.typed.isCalledBy_last hfunctions)

end Begun

/-! ### Items -/

/-- **A session that is ready accepts exactly the lawful items**, and is ready again. -/
theorem item_decides (hs : s.Ready) (i : Item) :
    Decides (item i s) (fun _ t => i.Lawful s ∧ t.Ready) (fun t => ¬ i.Lawful s ∧ t.Ready) := by
  cases i with
  | function proto b =>
    rw [item_function]
    refine .ask (answers_checkReturns proto.name b) (fun _ hreturns _ => ?_)
      fun h => ⟨fun hlawful => h hlawful.2.2.1, hs⟩
    have hlast := hreturns
    obtain ⟨init, e, rfl, hinit⟩ := hreturns
    refine (hs.decides_beginFunction proto.name proto.params).bind (fun f t _ h => ?_) fun t h => ?_
    · obtain ⟨⟨hname, hparams⟩, rfl, rfl, hstep⟩ := h
      refine (begun_decides hs hstep hinit _).imp (fun _ t _ h => ?_) fun _ t _ h => ?_
      · exact ⟨⟨hname, hparams, hlast, h.1⟩, h.2⟩
      · exact ⟨fun hlawful => h.1 hlawful.2.2.2, h.2⟩
    · obtain ⟨h, rfl⟩ := h
      exact ⟨fun hlawful => h ⟨hlawful.1, hlawful.2.1⟩, hs⟩
  | external proto =>
    rw [item, map_eq_pure_bind]
    exact (hs.decides_declareFunction proto.name proto.params.length).bind
      (fun _ t _ h => decides_ok rfl h) fun _ h => h
  | topLevel value =>
    obtain ⟨hnew, hbegin⟩ := hs.named.beginTopLevel hs.usable
    have hready : s.nameTaken.Ready := hs.growSteps (.single (.name hs.usable)) hs.usable
    have hstep : s.nameTaken.GrowStep (s.nameTaken.opened s.wrappers.take.1 []) :=
      .opened _ [] hs.usable hnew rfl (.inr ⟨rfl, s.wrappers.next, rfl, rfl⟩)
    have hlawful : Stmt.AllInOrder (s.nameTaken.Calls s.wrappers.take.1 0) [] [] [.ret value] ↔
        (Item.topLevel value).Lawful s :=
      iff_of_eq (and_true _)
    rw [item, andThen_of_ok hbegin]
    simp only [finishTopLevel_eq_body]
    rw [← hlawful]
    have hinit : ∀ st ∈ ([] : List Stmt), st.isReturn = false := by simp
    exact begun_decides hready hstep hinit _

namespace Listing

/-- A session stays ready while functions of the host are declared. -/
theorem declareHosts_decides (hs : s.Ready) (hosts : List (String × Nat)) :
    Decides (declareHosts hosts s) (fun _ => Ready) Ready := by
  induction hosts generalizing s with
  | nil => exact decides_ok rfl hs
  | cons h hosts ih =>
    rw [declareHosts]
    change Decides ((if (s.functionNamed? h.1).isNone then _ else _ : SessionM Unit) s) _ _
    split
    · exact (hs.decides_declareFunction h.1 h.2).bind (fun _ _ _ h => ih h.2) fun _ h => h.2
    · exact ih hs

theorem ready_start (id : Nat) (o : SessionOptions) (t : Target) (hosts : Bool) :
    (start id o t hosts).session.Ready := by
  have hstart : (Session.start id o t).Ready :=
    ⟨rfl, .start id o t, .start id o t, .start id o t⟩
  cases hosts with
  | false => exact hstart
  | true => exact (declareHosts_decides hstart Eval.hostLibrary).result

theorem add_session (l : Listing) (i : Item) :
    (l.add i).session = Session.result (item i) l.session := by
  unfold add Session.result
  cases item i l.session <;> rfl

/-- After an item, accepted or refused, a session is ready for the next one. -/
theorem ready_add {l : Listing} (hl : l.session.Ready) (i : Item) : (l.add i).session.Ready := by
  rw [add_session]
  have hdecides := (item_decides hl i).imp (fun _ _ _ h => h.2) fun _ _ _ h => h.2
  exact hdecides.result

theorem ready_addAll {l : Listing} (hl : l.session.Ready) (items : List Item) :
    (l.addAll items).session.Ready := by
  induction items generalizing l with
  | nil => exact hl
  | cons i items ih => exact ih (ready_add hl i)

/-- **Exactly the lawful items are accepted.** Whatever items were lowered before in a new session,
with or without the host library: the next item is accepted exactly when it is lawful, and else is
refused with an error of construction. -/
theorem item_ok_iff_lawful (id : Nat) (o : SessionOptions) (target : Target) (hosts : Bool)
    (items : List Item) (i : Item) :
    let s := ((start id o target hosts).addAll items).session
    ((∃ x t, item i s = .ok x t) ↔ i.Lawful s) ∧
      ((∃ f message t, item i s = .error (.construction f message) t) ↔ ¬ i.Lawful s) := by
  intro s
  have hready : s.Ready := ready_addAll (ready_start id o target hosts) items
  have hdecides := item_decides hready i
  cases hitem : item i s with
  | ok x t =>
    rw [hitem] at hdecides
    exact ⟨iff_of_true ⟨x, t, rfl⟩ hdecides.1, iff_of_false (by simp) (not_not.2 hdecides.1)⟩
  | error err t =>
    rw [hitem] at hdecides
    obtain ⟨⟨hlawful, _⟩, f, message, rfl⟩ := hdecides
    exact ⟨iff_of_false (by simp) hlawful, iff_of_true ⟨f, message, t, rfl⟩ hlawful⟩

/-- After a function and an item that was refused, a function is accepted that calls both the first
one and itself, and one is refused that assigns its parameter. -/
theorem item_ok_iff_lawful_calls :
    let target : Target := { triple := Target.host, arch := "x86_64", os := "linux" }
    let s := ((start 0 {} target true).addAll [
      .function ⟨"f", ["x"]⟩ [.ret (.binary .add (.var "x") (.number 1.5))],
      .function ⟨"g", []⟩ [.ret (.var "x")]]).session
    (∃ x t, item (.function ⟨"g", ["y"]⟩ [.bind "z" (.call "f" [.var "y"]),
      .assign "z" (.call "g" [.var "z"]), .eval (.string "done"), .ret (.var "z")]) s = .ok x t) ∧
    ∃ f message t, item (.function ⟨"h", ["y"]⟩ [.assign "y" (.number 1.0), .ret (.var "y")]) s =
      .error (.construction f message) t := by
  intro target s
  have hf : s.Calls "g" 1 "f" 1 := .inr (by decide +kernel)
  have hg : s.Calls "g" 1 "g" 1 := .inl ⟨rfl, rfl⟩
  constructor
  · have hname : s.Admissible "g" := ⟨by decide, by decide +kernel, by decide +kernel⟩
    refine (item_ok_iff_lawful 0 {} target true _ _).1.2 ⟨hname, by decide,
      ⟨[_, _, _], _, rfl, by simp [Stmt.isReturn]⟩, ?_, ?_, ?_, ?_, trivial⟩
    · exact .call "f" _ hf (by simpa using .var "y" (by simp))
    · exact ⟨by simp [Stmt.bound, Stmt.binds?], .call "g" _ hg (by
        simpa using .var "z" (by simp [Stmt.bound, Stmt.binds?]))⟩
    · exact .inr ⟨"done", rfl⟩
    · exact .var "z" (by simp [Stmt.bound, Stmt.binds?])
  · refine (item_ok_iff_lawful 0 {} target true _ _).2.2 fun hlawful => ?_
    have hassign := hlawful.2.2.2.1.1
    simp [Stmt.bound] at hassign

end Listing

end Lower

end StraightLine
