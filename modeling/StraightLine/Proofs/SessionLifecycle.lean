import StraightLine.Proofs.SessionSteps

/-!
# The life of functions in a session

A function is opened or declared, ended, verified or abandoned. For each of these requests it is
said here what can come of it, and that it is made of steps. With the requests for code these are
all that can be asked: what holds of a new session and survives every step holds after every history
(`Session.after_induction`).
-/

namespace StraightLine.Session

/-! ### Beginning -/

theorem draft_appendBlock {d : Draft} {place : Nat} (h : place < d.module.functions.length)
    (name : String) :
    Draft.appendBlock place name d = .ok d.labels.next
      { d with
        labels := d.labels.take.2
        module := d.module.modify place (·.addBlock { id := d.labels.next, name := name }) } := by
  have happend : Draft.appendBlock place name d =
      (if place < d.module.functions.length then do
        set { d with
          labels := d.labels.take.2
          module := d.module.modify place (·.addBlock { id := d.labels.next, name := name }) }
        pure d.labels.next
      else throw (Draft.Fault.noFunction place).error : Building Nat)
        { d with labels := d.labels.take.2 } := rfl
  rw [happend, if_pos h]
  rfl

theorem draft_position {d : Draft} {place block : Nat} {f : Function}
    (hf : d.module.functions[place]? = some f) (hb : (f.block? block).isNone = false) :
    Draft.position place block d =
      .ok () { d with cursor := some ⟨place, block⟩, temps := ⟨f.arity⟩ } := by
  simp only [Draft.position, bind, EStateM.bind, get, getThe, MonadStateOf.get, EStateM.get, hf, hb]
  rfl

/-- The handles to the parameters of a function follow those that are there. -/
theorem mapM_addValue {ι : Type} (g : ι → ValueEntry) (is : List ι) (s : Session) :
    (is.mapM fun i => addValue (g i)) s =
      .ok ((List.range is.length).map fun k => ⟨s.id, s.values.size + k⟩)
        { s with values := s.values ++ (is.map g).toArray } := by
  induction is generalizing s with
  | nil => simp [pure, EStateM.pure]
  | cons i is ih =>
    have hcons : ((i :: is).mapM fun i => addValue (g i)) s =
        ((is.mapM fun i => addValue (g i)) >>= fun vs => pure (⟨s.id, s.values.size⟩ :: vs))
          (s.withValue (g i)) := by
      rw [List.mapM_cons]
      rfl
    rw [hcons]
    change EStateM.bind _ _ _ = _
    rw [EStateM.bind, ih]
    simp [withValue, List.range_succ_eq_map, Function.comp_def, Nat.add_assoc, Nat.add_comm 1, pure,
      EStateM.pure]

/-- The parameters of a function have the names that it was begun with. -/
theorem params_declare (name : String) (params : List String) :
    (Function.declare name params).params.map Prod.snd = params := by
  have hnumber (n : Nat) : (Function.numberFrom n params).map Prod.snd = params := by
    induction params generalizing n with
    | nil => rfl
    | cons p ps ih => simp [Function.numberFrom, ih]
  exact hnumber 0

theorem arity_declare (name : String) (params : List String) :
    (Function.declare name params).arity = params.length := by
  simpa [Function.arity] using congrArg List.length (params_declare name params)

theorem modify_last (fs : List Function) (f : Function) (g : Function → Function) :
    (fs ++ [f]).modify fs.length g = fs ++ [g f] := by
  induction fs with
  | nil => rfl
  | cons h fs ih => simpa using ih

theorem modify_add (m : Module) (f : Function) (g : Function → Function) :
    (m.add f).modify m.functions.length g = m.add (g f) := by
  simp only [Module.modify, Module.add, modify_last]

/-- A function is begun unless its name or its parameters are refused. -/
theorem openFunction_of_ok {s : Session} {name : String} {params : List String}
    (hn : s.checkNewName name = .ok ()) (hp : checkParams name params = .ok ()) :
    openFunction name params s = .ok ⟨s.id, s.functions.size⟩ (s.opened name params) := by
  let f : Function := { Function.declare name params with stage := .building }
  let place := s.module.functions.length
  let b : Block := { id := s.draft.labels.next, name := entryName }
  let d₁ : Draft := { s.draft with module := s.module.add f }
  let d₂ : Draft :=
    { d₁ with labels := s.draft.labels.take.2, module := s.module.add { f with blocks := [b] } }
  have h₁ : Draft.addFunction f s.draft = .ok place d₁ := rfl
  have h₂ : Draft.appendBlock place entryName d₁ = .ok b.id d₂ := by
    rw [draft_appendBlock (by simp [d₁, place, Module.add])]
    dsimp only [d₁, d₂, place]
    rw [modify_add]
    rfl
  have h₃ : Draft.position place b.id d₂ = .ok () (s.opened name params).draft := by
    have hf : d₂.module.functions[place]? = some { f with blocks := [b] } := by
      simp [d₂, place, Module.add]
    have harity : Function.arity { f with blocks := [b] } = params.length :=
      arity_declare name params
    rw [draft_position hf (by simp [Function.block?]), harity]
    rfl
  rw [openFunction, bind_query_of_ok hn,
    bind_query_of_ok (q := fun _ => checkParams name params) hp, bind_build, h₁]
  dsimp only
  rw [bind_build, h₂]
  dsimp only
  rw [bind_build, h₃]
  dsimp only
  change EStateM.bind _ _ _ = _
  rw [EStateM.bind, mapM_addValue, List.length_range]
  rfl

/-- The request for a function fails, or begins it. -/
theorem openFunction_cases (s : Session) (name : String) (params : List String) :
    (∃ e, openFunction name params s = .error e s) ∨
      s.checkNewName name = .ok () ∧ checkParams name params = .ok () ∧
        openFunction name params s = .ok ⟨s.id, s.functions.size⟩ (s.opened name params) := by
  cases hn : s.checkNewName name with
  | error e => exact .inl ⟨e, bind_query_of_error hn⟩
  | ok _ =>
    cases hp : checkParams name params with
    | error e => exact .inl ⟨e, (bind_query_of_ok hn).trans (bind_query_of_error hp)⟩
    | ok _ => exact .inr ⟨rfl, rfl, openFunction_of_ok hn hp⟩

theorem checkNotReserved_eq_ok {s : Session} {name : String} :
    s.checkNotReserved name = .ok () ↔ s.wrappers.reserves name = false := by
  unfold checkNotReserved
  cases s.wrappers.reserves name <;> simp

theorem checkNewName_eq_ok {s : Session} {name : String} :
    s.checkNewName name = .ok () ↔ name.isEmpty = false ∧ s.module.find? name = none := by
  unfold checkNewName
  cases name.isEmpty <;> cases s.module.find? name <;> simp

/-- To begin a function fails without a trace, or opens it. -/
theorem beginFunction_cases (s : Session) (name : String) (params : List String) :
    (∃ e, beginFunction name params s = .error e s) ∨
      s.poisonedBy = none ∧ s.wrappers.reserves name = false ∧ s.checkNewName name = .ok () ∧
        checkParams name params = .ok () ∧
        beginFunction name params s = .ok ⟨s.id, s.functions.size⟩ (s.opened name params) := by
  cases hu : s.ensureUsable with
  | error e => exact .inl ⟨e, bind_query_of_error hu⟩
  | ok _ =>
    cases hr : s.checkNotReserved name with
    | error e => exact .inl ⟨e, (bind_query_of_ok hu).trans (bind_query_of_error hr)⟩
    | ok _ =>
      rw [beginFunction, bind_query_of_ok hu, bind_query_of_ok hr]
      rcases openFunction_cases s name params with h | ⟨hn, hp, h⟩
      · exact .inl h
      · exact .inr ⟨ensureUsable_eq_ok.1 hu, checkNotReserved_eq_ok.1 hr, hn, hp, h⟩

theorem declareFunction_of_ok {s : Session} {name : String} (hu : s.poisonedBy = none)
    (hr : s.wrappers.reserves name = false) (hn : s.checkNewName name = .ok ()) (arity : Nat) :
    declareFunction name arity s = .ok ⟨s.id, s.functions.size⟩ (s.declared name arity) := by
  rw [declareFunction, bind_query_of_ok (ensureUsable_eq_ok.2 hu),
    bind_query_of_ok (checkNotReserved_eq_ok.2 hr), bind_query_of_ok hn]
  rfl

/-- To declare a function fails without a trace, or adds it. -/
theorem declareFunction_cases (s : Session) (name : String) (arity : Nat) :
    (∃ e, declareFunction name arity s = .error e s) ∨
      s.poisonedBy = none ∧ s.wrappers.reserves name = false ∧ s.checkNewName name = .ok () ∧
        declareFunction name arity s = .ok ⟨s.id, s.functions.size⟩ (s.declared name arity) := by
  cases hu : s.ensureUsable with
  | error e => exact .inl ⟨e, bind_query_of_error hu⟩
  | ok _ =>
    cases hr : s.checkNotReserved name with
    | error e => exact .inl ⟨e, (bind_query_of_ok hu).trans (bind_query_of_error hr)⟩
    | ok _ =>
      cases hn : s.checkNewName name with
      | error e =>
        refine .inl ⟨e, ?_⟩
        rw [declareFunction, bind_query_of_ok hu, bind_query_of_ok hr, bind_query_of_error hn]
      | ok _ =>
        have hu := ensureUsable_eq_ok.1 hu
        have hr := checkNotReserved_eq_ok.1 hr
        exact .inr ⟨hu, hr, rfl, declareFunction_of_ok hu hr hn arity⟩

/-- The session after a name is taken for a function around a top-level expression. -/
def nameTaken (s : Session) : Session := { s with wrappers := s.wrappers.take.2 }

/-- To begin a top-level expression fails without a trace or with the name taken, or opens a
function under the name. -/
theorem beginTopLevel_cases (s : Session) :
    (∃ e, beginTopLevel s = .error e s) ∨
      s.poisonedBy = none ∧ ((∃ e, beginTopLevel s = .error e s.nameTaken) ∨
        s.nameTaken.checkNewName s.wrappers.take.1 = .ok () ∧
          beginTopLevel s =
            .ok ⟨s.id, s.functions.size⟩ (s.nameTaken.opened s.wrappers.take.1 [])) := by
  cases hu : s.ensureUsable with
  | error e => exact .inl ⟨e, bind_query_of_error hu⟩
  | ok _ =>
    rw [beginTopLevel, bind_query_of_ok hu]
    refine .inr ⟨ensureUsable_eq_ok.1 hu, ?_⟩
    rcases openFunction_cases s.nameTaken s.wrappers.take.1 [] with h | ⟨hn, _, h⟩
    · exact .inl h
    · exact .inr ⟨hn, h⟩

theorem grows_beginFunction (name : String) (params : List String) :
    Grows (beginFunction name params) := by
  intro s
  rcases beginFunction_cases s name params with ⟨e, h⟩ | ⟨hu, hr, hn, hp, h⟩
  · rw [result_error h]
  · rw [result_ok h]
    exact .single (.opened name params hu hn hp (.inl hr))

theorem grows_declareFunction (name : String) (arity : Nat) :
    Grows (declareFunction name arity) := by
  intro s
  rcases declareFunction_cases s name arity with ⟨e, h⟩ | ⟨hu, hr, hn, h⟩
  · rw [result_error h]
  · rw [result_ok h]
    exact .single (.declared name arity hu hn hr)

theorem grows_beginTopLevel : Grows beginTopLevel := by
  intro s
  rcases beginTopLevel_cases s with ⟨e, h⟩ | ⟨hu, ⟨e, h⟩ | ⟨hn, h⟩⟩
  · rw [result_error h]
  · rw [result_error h]
    exact .single (.name hu)
  · rw [result_ok h]
    exact .tail (.single (.name hu))
      (.opened _ [] hu hn rfl (.inr ⟨rfl, s.wrappers.next, rfl, rfl⟩))

/-! ### Ending and verifying -/

/-- A function can be ended only where instructions go. -/
theorem site_of_checkEnds {s : Session} {place : Nat} (hu : s.ensureUsable = .ok ())
    (h : s.checkEnds place = .ok ()) : s.site = .ok place := by
  rw [site, hu]
  simp only [checkEnds] at h
  split at h
  next i hi =>
    split at h
    next heq => exact heq ▸ hi
    next => cases h
  next => cases h

/-- The end of the request to end a function. -/
def returnValue (place : Nat) (v : Operand) : SessionM Unit := do
  build (Draft.append (.ret v))
  build (Draft.modifyFunction place fun f => { f with stage := .terminated })

theorem returnValue_of_site {s : Session} {c : Cursor} {f : Function} {b : Block}
    (hs : s.Site c f b) (v : Operand) :
    returnValue c.function v s = .ok () (s.returned c v) :=
  andThen_of_ok (append_of_site hs (.ret v))

/-- What the request to end a function does in the end: the function returns and is ended, or
nothing happens. -/
theorem returnValue_cases {s : Session} {place : Nat} (hs : s.site = .ok place) (v : Operand) :
    (∃ e, returnValue place v s = .error e s) ∨
      ∃ c f b, s.Site c f b ∧ c.function = place ∧
        returnValue place v s = .ok () (s.returned c v) := by
  rcases append_cases hs (.ret v) with ⟨e, h⟩ | ⟨c, f, b, hsite, rfl, _⟩
  · exact .inl ⟨e, andThen_of_error h⟩
  · exact .inr ⟨c, f, b, hsite, rfl, returnValue_of_site hsite v⟩

theorem grows_endFunction (function : FunctionId) (value : ValueId) :
    Grows (endFunction function value) := by
  intro s
  refine result_query .refl fun _ hu => result_query .refl fun e he =>
    result_query .refl fun _ hends => result_query .refl fun v hv => ?_
  show s.GrowSteps (result (returnValue e.index v) s)
  rcases returnValue_cases (site_of_checkEnds hu hends) v with ⟨e', h⟩ | ⟨c, f, b, hsite, hplace, h⟩
  · rw [result_error h]
  · rw [result_ok h]
    exact .single (.ended c f b v hsite (hplace ▸ offers_of_doubleIn hv))

/-- What can come of the request to verify a function. -/
inductive Verdict (s : Session) (function : FunctionId) : EStateM.Result Error Session Unit → Prop
  | refused (err : Error)
      (reason : s.poisonedBy = none → ∀ e, s.entry function = .ok e →
        (s.functionAt e.index).stage = .abandoned) : Verdict s function (.error err s)
  /-- There is nothing to do. -/
  | settled (e : FunctionEntry) (entry : s.entry function = .ok e)
      (done : (s.functionAt e.index).stage = .verified ∨ (s.functionAt e.index).isExternal) :
      Verdict s function (.ok () s)
  | faulty (e : FunctionEntry) (err : Error) (usable : s.poisonedBy = none)
      (entry : s.entry function = .ok e)
      (incorrect : s.module.verifyFunction (s.functionAt e.index) = .error err) :
      Verdict s function (.error err { s with
        poisonedBy := some (s.functionAt e.index).name
        draft := { s.draft with cursor := none } })
  | passed (e : FunctionEntry) (usable : s.poisonedBy = none) (entry : s.entry function = .ok e)
      (stage : (s.functionAt e.index).stage ≠ .verified ∧ (s.functionAt e.index).stage ≠ .abandoned)
      (internal : (s.functionAt e.index).isExternal = false)
      (correct : s.module.verifyFunction (s.functionAt e.index) = .ok ()) :
      Verdict s function (.ok () (s.changed e.index fun f => { f with stage := .verified }))

/-- These are all the verdicts. -/
theorem verifyFunction_verdict (s : Session) (function : FunctionId) :
    s.Verdict function (verifyFunction function s) := by
  cases hu : s.ensureUsable with
  | error e =>
    rw [verifyFunction, bind_query_of_error hu]
    refine .refused e fun hp => ?_
    cases hu.symm.trans (ensureUsable_eq_ok.2 hp)
  | ok _ =>
    rw [verifyFunction, bind_query_of_ok hu]
    cases he : s.entry function with
    | error e =>
      rw [bind_query_of_error he]
      refine .refused e fun _ e' he' => ?_
      cases he.symm.trans he'
    | ok e =>
      rw [bind_query_of_ok he]
      simp only [bind, EStateM.bind, get, getThe, MonadStateOf.get, EStateM.get]
      cases hstage : (s.functionAt e.index).stage with
      | verified => exact .settled e he (.inl hstage)
      | abandoned =>
        refine .refused _ fun _ e' he' => ?_
        obtain rfl := Except.ok.inj (he.symm.trans he')
        exact hstage
      | declared | building | terminated =>
        -- All other stages are verified; only a function with a body is marked.
        dsimp only
        cases hv : s.module.verifyFunction (s.functionAt e.index) with
        | error err => exact .faulty e err (ensureUsable_eq_ok.1 hu) he hv
        | ok _ =>
          cases hext : (s.functionAt e.index).isExternal with
          | true => exact .settled e he (.inr hext)
          | false => exact .passed e (ensureUsable_eq_ok.1 hu) he (by simp [hstage]) hext hv

/-- Only a function of the module passes verification. -/
theorem functionAt_of_verified {s : Session} {place : Nat}
    (h : s.module.verifyFunction (s.functionAt place) = .ok ()) :
    s.module.functions[place]? = some (s.functionAt place) := by
  unfold functionAt at h ⊢
  cases hf : s.module.functions[place]? with
  | none => rw [hf] at h; cases h
  | some f => rfl

theorem grows_verifyFunction (function : FunctionId) : Grows (verifyFunction function) := by
  intro s
  have h := verifyFunction_verdict s function
  unfold result
  generalize verifyFunction function s = r at h
  cases h with
  | refused err _ => exact .refl
  | settled e _ _ => exact .refl
  | faulty e err hu he herr => exact .single (.poisoned e _ err hu (resolve_eq_ok he) rfl herr)
  | passed e hu he hstage hext hok =>
    exact .single (.verified e _ hu (resolve_eq_ok he) (functionAt_of_verified hok) hstage hext hok)

/-! ### Abandoning -/

/-- A function that is not verified can be abandoned in a session that is usable. -/
theorem abandonFunction_of_ok {s : Session} {function : FunctionId} {e : FunctionEntry}
    (hu : s.poisonedBy = none) (he : s.entry function = .ok e)
    (hstage : (s.functionAt e.index).stage ≠ .verified) :
    abandonFunction function s = .ok () (s.withdrawn e.index) := by
  rw [abandonFunction, bind_query_of_ok (ensureUsable_eq_ok.2 hu), bind_query_of_ok he]
  change (if (s.functionAt e.index).stage = .verified then _ else _ : SessionM Unit) s = _
  rw [if_neg hstage, withdrawn]
  by_cases hc : (s.draft.cursor.any fun c => c.function = e.index) = true
  · rw [if_pos hc, if_pos hc]
    rfl
  · rw [if_neg hc, if_neg hc]
    rfl

/-- To abandon a function fails without a trace, or withdraws it. -/
theorem abandonFunction_cases (s : Session) (function : FunctionId) :
    (∃ err, abandonFunction function s = .error err s) ∨
    ∃ e, s.poisonedBy = none ∧ s.entry function = .ok e ∧
      (s.functionAt e.index).stage ≠ .verified ∧
      abandonFunction function s = .ok () (s.withdrawn e.index) := by
  cases hu : s.ensureUsable with
  | error e => exact .inl ⟨e, bind_query_of_error hu⟩
  | ok _ =>
    have hpoisoned := ensureUsable_eq_ok.1 hu
    cases he : s.entry function with
    | error e => exact .inl ⟨e, (bind_query_of_ok hu).trans (bind_query_of_error he)⟩
    | ok e =>
      by_cases hstage : (s.functionAt e.index).stage = .verified
      · refine .inl ⟨(Refusal.alreadyVerified (s.functionAt e.index).name).error
          (s.functionAt e.index).name, ?_⟩
        rw [abandonFunction, bind_query_of_ok hu, bind_query_of_ok he]
        change (if (s.functionAt e.index).stage = .verified then _ else _ : SessionM Unit) s = _
        rw [if_pos hstage]
        rfl
      · exact .inr ⟨e, hpoisoned, rfl, hstage, abandonFunction_of_ok hpoisoned he hstage⟩

theorem makes_abandonFunction (function : FunctionId) : Makes (abandonFunction function) := by
  intro s
  rcases abandonFunction_cases s function with ⟨err, h⟩ | ⟨e, hu, he, hstage, h⟩
  · rw [result_error h]
  · rw [result_ok h]
    exact .single (.withdrawn e hu (resolve_eq_ok he) hstage)

theorem grows_finishTopLevel (wrapper : FunctionId) (value : ValueId) :
    Grows (finishTopLevel wrapper value) :=
  takes_bind (grows_endFunction wrapper value) fun _ => grows_verifyFunction wrapper

theorem grows_wrapTopLevel (value : ValueId) : Grows (wrapTopLevel value) := by
  intro s
  refine result_query .refl fun _ _ => result_query .refl fun _ _ => ?_
  exact takes_bind grows_beginTopLevel (fun w =>
    takes_bind (grows_finishTopLevel w value) fun _ => takes_pure w) s

/-! ### Histories -/

/-- **Only the request to abandon a function takes anything away.** -/
theorem grows_perform {r : Request} (hr : ∀ f, r ≠ .abandonFunction f) : Grows r.perform := by
  cases r with
  | floatConstant c => exact takes_map _ (builds_floatConstant c).grows
  | stringConstant bs => exact takes_map _ (builds_stringConstant bs).grows
  | beginFunction n ps => exact takes_map _ (grows_beginFunction n ps)
  | declareFunction n k => exact takes_map _ (grows_declareFunction n k)
  | endFunction f v => exact takes_map _ (grows_endFunction f v)
  | verifyFunction f => exact takes_map _ (grows_verifyFunction f)
  | abandonFunction f => exact absurd rfl (hr f)
  | declareVariable v n => exact takes_map _ (builds_declareVariable v n).grows
  | assign p v => exact takes_map _ (builds_assign p v).grows
  | read p => exact takes_map _ (builds_read p).grows
  | arith op a b => exact takes_map _ (builds_arith op a b).grows
  | compare p a b => exact takes_map _ (builds_compare p a b).grows
  | widen v => exact takes_map _ (builds_widen v).grows
  | call f args => exact takes_map _ (builds_call f args).grows
  | beginTopLevel => exact takes_map _ grows_beginTopLevel
  | finishTopLevel f v => exact takes_map _ (grows_finishTopLevel f v)
  | wrapTopLevel v => exact takes_map _ (grows_wrapTopLevel v)

/-- **Every request is made of steps.** -/
theorem makes_perform (r : Request) : Makes r.perform := by
  by_cases hr : ∃ f, r = .abandonFunction f
  · obtain ⟨f, rfl⟩ := hr
    exact takes_map _ (makes_abandonFunction f)
  · exact (grows_perform (not_exists.1 hr)).makes

theorem request_snd (s : Session) (r : Request) : (s.request r).2 = result r.perform s := by
  unfold request result
  cases r.perform s <;> rfl

theorem request_of_ok {α : Type} {s t : Session} {r : Request} {x : SessionM α} {g : α → Reply}
    {a : α} (hr : r.perform = g <$> x) (h : x s = .ok a t) : s.request r = (.ok (g a), t) := by
  have hperform : r.perform s = EStateM.map g x s := congrFun hr s
  rw [request, hperform, EStateM.map, h]

theorem request_of_error {α : Type} {s t : Session} {r : Request} {x : SessionM α} {g : α → Reply}
    {e : Error} (hr : r.perform = g <$> x) (h : x s = .error e t) :
    s.request r = (.error e, t) := by
  have hperform : r.perform s = EStateM.map g x s := congrFun hr s
  rw [request, hperform, EStateM.map, h]

/-- **Every history of requests is made of steps.** -/
theorem after_steps (s : Session) (history : List Request) : Steps s (s.after history) := by
  induction history generalizing s with
  | nil => exact .refl
  | cons r history ih =>
    have hs : Steps s (s.request r).2 := request_snd s r ▸ makes_perform r s
    exact hs.trans (ih _)

/-- What holds of a session and survives every step holds after every history. -/
theorem after_induction {P : Session → Prop} (hstep : ∀ s t, P s → Step s t → P t) {s : Session}
    (hs : P s) (history : List Request) : P (s.after history) := by
  have hsteps := after_steps s history
  generalize s.after history = t at hsteps ⊢
  induction hsteps with
  | refl => exact hs
  | tail _ h ih => exact hstep _ _ ih h

end StraightLine.Session
