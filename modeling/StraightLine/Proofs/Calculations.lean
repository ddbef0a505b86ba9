import StraightLine.Proofs.SessionStages
import StraightLine.Proofs.Worksheet

/-!
# Functions that calculate

A function that is built from constants, parameters, variables and expressions, and ended, returns
what the requests for it give when they are carried out on the arguments at once
(`Session.call_calculated`): variables are overwritten, and a handle keeps the value that it was
given for. This holds for every call in the finished module, whatever is asked of the session before
and after, and with any passes.
-/

namespace StraightLine

/-- Whether a request begins a function. -/
def Request.begins : Request → Bool
  | beginFunction _ _ | beginTopLevel => true
  | _ => false

/-! ### Functions that were ended -/

namespace Function

/-- What may become of a function that was ended: it is verified, or abandoned. -/
def MayBecome (f g : Function) : Prop :=
  g = f ∨ g = { f with stage := .verified } ∨ g.stage = .abandoned

/-- A move of a function that was ended only changes its stage, as long as it is live. -/
theorem MayBecome.move {f g g' : Function} (h : f.MayBecome g) (hf : f.stage = .terminated)
    {P : Prop} (hmove : g.Move P g') : f.MayBecome g' := by
  have hbuilding : g.stage ≠ .building := by
    rcases h with rfl | rfl | h
    · simp [hf]
    · simp
    · simp [h]
  cases hmove with
  | stays => exact h
  | grows b code _ hstage _ => exact absurd hstage hbuilding
  | ends b v _ hstage _ => exact absurd hstage hbuilding
  | passes hstage =>
    rcases h with rfl | rfl | h
    · exact .inr (.inl rfl)
    · cases hstage
    · cases h.symm.trans hstage
  | drops _ => exact .inr (.inr rfl)

end Function

namespace Session

/-- A function that was ended keeps its code as long as it is live. -/
theorem Formed.mayBecome_after {s : Session} (hs : s.Formed) {place : Nat} {f : Function}
    (hf : s.module.functions[place]? = some f) (hstage : f.stage = .terminated)
    (later : List Request) :
    ∃ g, (s.after later).module.functions[place]? = some g ∧ f.MayBecome g := by
  let P (t : Session) : Prop :=
    t.Formed ∧ ∃ g, t.module.functions[place]? = some g ∧ f.MayBecome g
  have hstep (t u : Session) (ht : P t) (h : t.Step u) : P u := by
    obtain ⟨hformed, g, hg, hsettled⟩ := ht
    obtain ⟨g', hg', hmove⟩ := (hformed.advances_step h).moves place g hg
    exact ⟨hformed.step h, g', hg', hsettled.move hstage hmove⟩
  exact (after_induction hstep ⟨hs, f, hf, .inl rfl⟩ later).2

/-- What a function answers to every call is what it returns in the finished module. -/
theorem call_of_answer {s : Session} (hs : s.Formed) (htidy : s.Tidy) {m : Module}
    (hm : s.close = .ok m) {g : Function} (hg : g ∈ s.module.live) (hext : g.isExternal = false)
    (hn : g.params.map Prod.fst = List.range g.arity) {args : List Float}
    (hl : g.arity = args.length) {x : Float}
    (ha : ∀ callee, g.answer? callee args "" = some (.ok x "")) :
    Eval.call m g.name args = (.ok x, "") := by
  have hlive : s.module.dropAbandoned.live = s.module.live := by
    simp [Module.dropAbandoned, Module.live]
  obtain ⟨g', hg'⟩ : ∃ g', g' = { g with stage := .verified } := ⟨_, rfl⟩
  have hfind : s.module.dropAbandoned.finished.find? g.name = some g' := by
    rw [Module.find?_finished fun f hf => (List.mem_filter.1 hf).2,
      Module.find?_of_mem_live (hlive ▸ hs.distinct) (hlive ▸ hg), Option.map_some, markVerified,
      if_neg (by simp [hext]), hg']
  have hl' : g'.arity = args.length := by rw [hg', ← hl]; rfl
  obtain ⟨depth, hdepth⟩ : ∃ depth, Eval.maxDepth = depth + 1 := ⟨_, rfl⟩
  rw [call_close htidy hm, Eval.call_eq_ok, Eval.callAt_of_find?_some hfind,
    if_neg (not_not.2 hl'), if_neg (by simp [hg', hext]), if_neg (by simp [hg']), hdepth]
  refine Eval.enter_of_answer ?_ hl' ?_ <;> rw [hg']
  · exact hn
  · exact ha _

/-! ### Functions that are begun -/

/-- A constant is a double that stands for itself, or a string. -/
def Literal (s : Session) : Prop :=
  ∀ e ∈ s.values, e.owner = none → (∃ c, e = ⟨.float c, .double, none⟩) ∨ ∃ n, e.type = .bytes n

namespace Literal

variable {s t : Session}

theorem withValue (hs : s.Literal) {e : ValueEntry} (h : e.owner = none →
    (∃ c, e = ⟨.float c, .double, none⟩) ∨ ∃ n, e.type = .bytes n) : (s.withValue e).Literal := by
  intro e' he' howner
  rcases Array.mem_push.1 he' with he' | rfl
  · exact hs e' he' howner
  · exact h howner

theorem step (hs : s.Literal) (h : s.Step t) : t.Literal := by
  cases h with
  | withdrawn e _ _ _ =>
    unfold Session.withdrawn
    split <;> exact hs
  | grow t h =>
    cases h with
    | code t h =>
      cases h with
      | float c => exact hs.withValue fun _ => .inl ⟨c, rfl⟩
      | string bytes => exact hs.withValue fun _ => .inr ⟨_, rfl⟩
      | value c f b i r t _ _ _ _ => exact hs.withValue (by simp)
      | _ => exact hs
    | opened name params _ _ _ _ =>
      intro e he howner
      rcases Array.mem_append.1 he with he | he
      · exact hs e he howner
      · obtain ⟨i, _, rfl⟩ := List.mem_map.1 (List.mem_toArray.1 he)
        cases howner
    | _ => exact hs

theorem steps (hs : s.Literal) (h : s.Steps t) : t.Literal := by
  induction h with
  | refl => exact hs
  | tail _ hstep ih => exact ih.step hstep

end Literal

variable {s : Session} {name : String} {params : List String} {args : List Float}

/-- What a handle stands for in a function that was just begun was there before, or is one of its
parameters. -/
theorem value_opened_cases {v : ValueId} {e : ValueEntry}
    (h : (s.opened name params).value v = .ok e) :
    s.value v = .ok e ∨ ∃ i < params.length, v = ⟨s.id, s.values.size + i⟩ ∧
      e = ⟨.temp i, .double, some s.module.functions.length⟩ := by
  obtain ⟨hid, hget⟩ := Handle.resolve_eq_ok_iff.1 h
  by_cases hlt : v.index < s.values.size
  · refine .inl (Handle.resolve_eq_ok_iff.2 ⟨hid, ?_⟩)
    rwa [← Array.getElem?_append_left hlt]
  · obtain ⟨i, hi⟩ := Nat.exists_eq_add_of_le (Nat.not_lt.1 hlt)
    have hget : (s.values ++ ((List.range params.length).map fun i =>
        (⟨.temp i, .double, some s.module.functions.length⟩ : ValueEntry)).toArray)[v.index]? =
          some e := hget
    rw [hi, Array.getElem?_append_right (Nat.le_add_right ..), Nat.add_sub_cancel_left] at hget
    rw [List.getElem?_toArray, List.getElem?_map, Option.map_eq_some_iff] at hget
    obtain ⟨j, hj, rfl⟩ := hget
    obtain ⟨hi', rfl⟩ := List.getElem?_eq_some_iff.1 hj
    rw [List.getElem_range]
    refine .inr ⟨i, by simpa using hi', ?_, rfl⟩
    rw [← hi]
    exact congrArg (Handle.mk · v.index) hid

/-- The parameters of a function that was just begun stand for its arguments. -/
theorem worksheet_param {i : Nat} (hi : i < params.length) :
    (Worksheet.start (s.opened name params) ⟨s.id, s.functions.size⟩ args).values
      ⟨s.id, s.values.size + i⟩ = args[i]?.map .number := by
  have hindex : ((List.range params.length).map fun i =>
      (⟨s.id, s.values.size + i⟩ : ValueId)).idxOf? ⟨s.id, s.values.size + i⟩ = some i := by
    rw [List.idxOf?_eq_some_iff]
    refine ⟨by simpa using hi, by simp, fun j hj => ?_⟩
    simp
    omega
  simp only [Worksheet.start, opened_entry, Except.toOption, Option.bind_some, hindex]

/-- Constants stand for themselves. -/
theorem worksheet_constant {v : ValueId} {e : ValueEntry} (hv : s.value v = .ok e) :
    (Worksheet.start (s.opened name params) ⟨s.id, s.functions.size⟩ args).values v =
      e.operand.float?.map (.number ·.value) := by
  have hindex : ((List.range params.length).map fun i =>
      (⟨s.id, s.values.size + i⟩ : ValueId)).idxOf? v = none := by
    rw [List.idxOf?_eq_none_iff]
    intro hmem
    obtain ⟨i, _, rfl⟩ := List.mem_map.1 hmem
    have hget := (Handle.resolve_eq_ok_iff.1 hv).2
    simp at hget
  have hvalue : (s.opened name params).value v = .ok e := Handle.resolve_append hv _
  simp only [Worksheet.start, opened_entry, Except.toOption, Option.bind_some, hindex, hvalue]

/-- A function that was just begun has no code yet, and its parameters hold the arguments. -/
theorem Executes.opened (hs : s.Rooted) (hlit : s.Literal) (hu : s.poisonedBy = none)
    (hl : params.length = args.length) :
    (s.opened name params).Executes (s.workplace name params) args
      (.start (s.opened name params) ⟨s.id, s.functions.size⟩ args) := by
  refine ⟨[], _, opened_worksAt hu, .refl _, ?_⟩
  constructor
  · intro v e he howner htype
    rcases value_opened_cases he with hold | ⟨i, hi, rfl, rfl⟩
    · have hmem := resolve_eq_ok hold
      rcases howner with howner | howner
      · rcases hlit e hmem howner with ⟨c, rfl⟩ | ⟨n, hbytes⟩
        · exact ⟨.number c.value, worksheet_constant hold, rfl, by simp, rfl⟩
        · simp [hbytes, Ty.bytes] at htype
      · -- Nothing that was there before belongs to the new function.
        exact absurd (hs.values e hmem _ howner) (Nat.lt_irrefl _)
    · obtain ⟨x, hx⟩ : ∃ x, args[i]? = some x := ⟨_, List.getElem?_eq_getElem (hl ▸ hi)⟩
      refine ⟨.number x, by rw [worksheet_param hi, hx]; rfl, rfl, ?_, ?_⟩
      · rintro _ ⟨⟩
        exact hi
      · simp [Store.held, Store.ofArgs, hx, Datum.held]
  · intro v x hx
    simp only [Worksheet.start, opened_entry, Except.toOption, Option.bind_some] at hx
    split at hx
    next i hi =>
      obtain ⟨hlt, rfl, _⟩ := List.idxOf?_eq_some_iff.1 hi
      rw [List.getElem_map, List.getElem_range]
      exact ⟨_, opened_value (by simpa using hlt)⟩
    next =>
      cases hv : (s.opened name params).value v with
      | ok e => exact ⟨e, rfl⟩
      | error err => simp [hv] at hx
  · intro slot e he howner
    exact absurd howner (Nat.ne_of_lt (hs.slots e (resolve_eq_ok he)))
  · intro slot _ e _ he _ howner
    exact absurd howner (Nat.ne_of_lt (hs.slots e (resolve_eq_ok he)))

/-- A request that begins a function opens it, after a name was taken for it if it has none. -/
theorem exists_opened {r : Request} (hr : r.begins) {f : FunctionId}
    (h : (s.request r).1 = .ok (.function f)) :
    ∃ t name params, s.Steps t ∧ t.poisonedBy = none ∧ f = ⟨t.id, t.functions.size⟩ ∧
      (s.request r).2 = t.opened name params := by
  cases r with
  | beginFunction name params =>
    rcases beginFunction_cases s name params with ⟨err, herr⟩ | ⟨hu, _, _, _, hok⟩
    · rw [request_of_error rfl herr] at h
      cases h
    · rw [request_of_ok rfl hok] at h ⊢
      cases h
      exact ⟨s, name, params, .refl, hu, rfl, rfl⟩
  | beginTopLevel =>
    rcases beginTopLevel_cases s with ⟨err, herr⟩ | ⟨hu, ⟨err, herr⟩ | ⟨_, hok⟩⟩
    · rw [request_of_error rfl herr] at h
      cases h
    · rw [request_of_error rfl herr] at h
      cases h
    · rw [request_of_ok rfl hok] at h ⊢
      cases h
      exact ⟨s.nameTaken, _, _, .single (.grow _ (.name hu)), hu, rfl, rfl⟩
  | _ => cases hr

/-! ### Functions that calculate -/

/-- A calculation that is ended with a handle answers with the number that this stands for. -/
theorem Executes.ended {w : Workplace} {d : Worksheet} (h : s.Executes w args d) {f : FunctionId}
    {v : ValueId} (hend : (s.request (.endFunction f v)).1 = .ok .done) :
    ∃ code x, (s.request (.endFunction f v)).2.Ended w code ∧ d.number v = some x ∧
      ∀ callee out, (w.function code).answer? callee args out = some (.ok x out) := by
  obtain ⟨code, st, h⟩ := h
  rcases endFunction_cases s f v with ⟨err, herr⟩ | ⟨t, hok, _, hended⟩
  · rw [request_of_error rfl herr] at hend
    cases hend
  obtain ⟨a, ha, hended⟩ := hended w code h.works
  obtain ⟨x, hx, hst⟩ := h.shows.number ha
  rw [request_of_ok rfl hok]
  refine ⟨_, x, hended, hx, fun callee out => ?_⟩
  change (Store.ofArgs args).run callee (code ++ [.ret a]) out = _
  rw [h.reaches callee [.ret a] out, Store.run, hst, Option.map_some]

/-- What a function answers when it is ended is what it returns in the finished module. -/
theorem Ended.call_after {w : Workplace} {code : List Instr} (h : s.Ended w code) (hs : s.Formed)
    (hext : w.head.isExternal = false)
    (hn : w.head.params.map Prod.fst = List.range w.head.arity) {later : List Request}
    (hformed : (s.after later).Formed) (htidy : (s.after later).Tidy) {g : Function}
    (hg : (s.after later).module.functions[w.before.length]? = some g) (hlive : g.isLive)
    {m : Module} (hm : (s.after later).close = .ok m) (hl : g.arity = args.length) {x : Float}
    (ha : ∀ callee out, (w.function code).answer? callee args out = some (.ok x out)) :
    Eval.call m g.name args = (.ok x, "") := by
  have hended : s.module.functions[w.before.length]? =
      some { w.function code with stage := .terminated } := by
    rw [h.functions]
    exact List.getElem?_concat_length
  obtain ⟨g', hg', hsettled⟩ := hs.mayBecome_after hended rfl later
  obtain rfl : g' = g := Option.some.inj (hg'.symm.trans hg)
  have hmem : g' ∈ (s.after later).module.live :=
    List.mem_filter.2 ⟨List.mem_of_getElem? hg, hlive⟩
  rcases hsettled with rfl | rfl | habandoned
  · exact call_of_answer hformed htidy hm hmem hext hn hl fun callee => ha callee ""
  · exact call_of_answer hformed htidy hm hmem hext hn hl fun callee => ha callee ""
  · simp [Function.isLive, habandoned] at hlive

/-- A function that was begun keeps its handle and its number of parameters. -/
theorem Retains.opened {t : Session} (h : (s.opened name params).Retains t) {g : Function}
    (hg : t.function ⟨s.id, s.functions.size⟩ = .ok g) :
    t.module.functions[s.module.functions.length]? = some g ∧ g.arity = params.length := by
  obtain ⟨e, he, rfl⟩ := function_eq_ok.1 hg
  obtain rfl := Except.ok.inj ((h.entries _ _ opened_entry).symm.trans he)
  obtain ⟨g, hg, _, harity⟩ := h.module s.module.functions.length _ List.getElem?_concat_length
  rw [functionAt, hg, Option.getD_some]
  exact ⟨rfl, harity.trans (arity_declare name params)⟩

/-- **Functions do what was asked for.** A function is begun in any session, then constants,
variables and expressions are asked for, some of which may be refused, and it is ended with one of
the handles. Whatever is asked of the session after that, if it can be closed and the function was
not abandoned, a call returns the number that the handle stands for when the same requests are
carried out on the arguments. What a handle stands for at any time is what it stands for at the end,
although variables are overwritten. -/
theorem call_calculated (id : Nat) (o : SessionOptions) (target : Target)
    (before body later : List Request) (opening : Request) (f : FunctionId) (v : ValueId)
    (hopening : opening.begins) (hbody : ∀ r ∈ body, r.isCalculation) :
    let s₀ := (start id o target).after before
    let s₁ := (s₀.request opening).2
    let s₂ := s₁.after body
    let s := (s₂.request (.endFunction f v)).2.after later
    (s₀.request opening).1 = .ok (.function f) →
    (s₂.request (.endFunction f v)).1 = .ok .done →
    ∀ g m args, s.function f = .ok g → g.isLive → s.close = .ok m → g.arity = args.length →
      ∃ d x, (Worksheet.start s₁ f args).run s₁ body = some d ∧ d.number v = some x ∧
        Eval.call m g.name args = (.ok x, "") ∧
        ∀ done rest d', body = done ++ rest →
          (Worksheet.start s₁ f args).run s₁ done = some d' → d'.Within d := by
  intro s₀ s₁ s₂ s hf hend g m args hg hlive hm hl
  have hs : s = (start id o target).after
      (before ++ opening :: body ++ .endFunction f v :: later) := by
    simp [s, s₂, s₁, s₀, after]
  have hs₁ : s = s₁.after (body ++ .endFunction f v :: later) := by
    simp [s, s₂, after]
  have hs₀ : s₀.InOrder := (InOrder.start id o target).steps (after_steps _ before)
  have hlit : s₀.Literal := Literal.steps (by simp [Literal, start]) (after_steps _ before)
  have horder : s₁.InOrder := hs₀.request opening
  obtain ⟨t, name, params, hsteps, hu, rfl, hopened⟩ := exists_opened hopening hf
  have hretains : (t.opened name params).Retains s := by
    rw [← hopened, hs₁]
    exact .steps (after_steps s₁ _)
  obtain ⟨hplace, harity⟩ := hretains.opened hg
  have hstart : s₁.Executes (t.workplace name params) args
      (.start s₁ ⟨t.id, t.functions.size⟩ args) := by
    rw [show s₁ = _ from hopened]
    exact .opened (hs₀.steps hsteps).rooted (hlit.steps hsteps) hu (harity.symm.trans hl)
  obtain ⟨d, hrun, hexecutes, _⟩ := hstart.after horder hbody
  obtain ⟨code, x, hended, hx, hanswer⟩ := hexecutes.ended hend
  have horder₂ : s₂.InOrder := horder.steps (after_steps s₁ body)
  refine ⟨d, x, hrun, hx, ?_, ?_⟩
  · have hformed : s.Formed := hs ▸ .after id o target _
    have htidy : s.Tidy := hs ▸ .after id o target _
    exact hended.call_after (horder₂.request _).steady.formed rfl (Function.declare_fst name params)
      hformed htidy hplace hlive hm hl hanswer
  · rintro done rest d' rfl hdone
    exact hstart.within horder hbody hdone hrun

/-- Requests for two variables that take over each other's values, where a value that was read
before is used after the variable has changed. -/
def exchangeBody : List Request :=
  [.declareVariable ⟨0, 0⟩ "a", .read ⟨0, 0⟩, .floatConstant 2.0, .declareVariable ⟨0, 2⟩ "b",
    .read ⟨0, 1⟩, .arith .mul ⟨0, 1⟩ ⟨0, 3⟩, .assign ⟨0, 0⟩ ⟨0, 4⟩, .assign ⟨0, 1⟩ ⟨0, 1⟩,
    .read ⟨0, 0⟩, .arith .sub ⟨0, 5⟩ ⟨0, 1⟩, .compare .olt ⟨0, 1⟩ ⟨0, 5⟩, .widen ⟨0, 7⟩,
    .read ⟨0, 1⟩, .arith .add ⟨0, 6⟩ ⟨0, 8⟩, .arith .add ⟨0, 10⟩ ⟨0, 9⟩]

theorem call_calculated_exchange :
    let target : Target := { triple := Target.host, arch := "x86_64", os := "linux" }
    let s₁ := ((start 0 {} target).request (.beginFunction "f" ["x"])).2
    let s := ((s₁.after exchangeBody).request (.endFunction ⟨0, 0⟩ ⟨0, 11⟩)).2
    ((Worksheet.start s₁ ⟨0, 0⟩ [3.0]).run s₁ exchangeBody).bind (·.number ⟨0, 11⟩) = some 7.0 ∧
      ∃ m, s.close = .ok m ∧ Eval.call m "f" [3.0] = (.ok 7.0, "") := by
  intro target s₁ s
  have hcarried : ((Worksheet.start s₁ ⟨0, 0⟩ [3.0]).run s₁ exchangeBody).bind
      (·.number ⟨0, 11⟩) = some 7.0 := by decide +kernel
  have hm := close_eq_ok (s := s).2 ⟨by decide +kernel, by decide +kernel, rfl⟩
  have hname : (s.functionAt 0).name = "f" := by decide +kernel
  obtain ⟨d, x, hrun, hx, hcall, _⟩ := call_calculated 0 {} target [] exchangeBody []
    (.beginFunction "f" ["x"]) ⟨0, 0⟩ ⟨0, 11⟩ rfl (by decide) (by decide +kernel)
    (by decide +kernel) (s.functionAt 0) _ [3.0] (by decide +kernel) (by decide +kernel) hm
    (by decide +kernel)
  have hnumber : d.number ⟨0, 11⟩ = some 7.0 := by
    rw [← hcarried]
    exact (congrArg (Option.bind · (·.number ⟨0, 11⟩)) hrun).symm
  refine ⟨hcarried, _, hm, ?_⟩
  rw [← hname, hcall, Option.some.inj (hx.symm.trans hnumber)]

end Session

end StraightLine
