import StraightLine.Proofs.SessionShape

/-!
# What abandoning a function breaks

A function is verified once, against the module as it is then. Later requests matter to it only
through the arities of the functions that it calls, and all requests but one leave these alone: a
verified function stays well formed unless a function that it calls is abandoned. Then it does not,
since nobody asks whether the function is called (`Session.verified_upheld`).
-/

namespace StraightLine

namespace Module

/-- Whether a function calls the one at a place. -/
def callsAt (m : Module) (f : Function) (place : Nat) : Bool :=
  f.instrs.any fun i => i.callee?.bind m.index? = some place

/-- Whether a function of a kind calls another, the one at a place. -/
def isCalledBy (kind : Function → Bool) (m : Module) (place : Nat) : Bool :=
  (m.functions.eraseIdx place).any fun f => kind f && m.callsAt f place

theorem callsAt_iff {m : Module} {f : Function} {place : Nat} :
    m.callsAt f place ↔ ∃ name, f.calls name ∧ m.index? name = some place := by
  constructor
  · intro h
    obtain ⟨i, hi, hplace⟩ := List.any_eq_true.1 h
    obtain ⟨name, hname, hindex⟩ := Option.bind_eq_some_iff.1 (of_decide_eq_true hplace)
    exact ⟨name, Function.calls_of_mem hi hname, hindex⟩
  · rintro ⟨name, hcalls, hindex⟩
    obtain ⟨i, hi, hname⟩ := List.any_eq_true.1 hcalls
    exact List.any_eq_true.2 ⟨i, hi, by simp [of_decide_eq_true hname, hindex]⟩

theorem not_callsAt_of_isCalledBy {m : Module} {kind : Function → Bool} {place j : Nat}
    (h : m.isCalledBy kind place = false) {f : Function} (hf : m.functions[j]? = some f)
    (hj : j ≠ place) (hkind : kind f) : m.callsAt f place = false := by
  have hmem : f ∈ m.functions.eraseIdx place := List.mem_eraseIdx_iff_getElem?.2 ⟨j, hj, hf⟩
  simpa [hkind] using List.any_eq_false.1 h f hmem

section Withdrawing

variable {m : Module} {place : Nat} {g : Function → Function} {name : String}

/-- A name goes on standing for a function when another is no longer live. -/
theorem find?_modify_of_index? (hg : ∀ f, (g f).isLive = false) (h : m.index? name ≠ some place) :
    (m.modify place g).find? name = m.find? name := by
  have hgone (f : Function) : isNamed name (g f) = false := by simp [isNamed, hg]
  simp only [find?, modify, index?] at h ⊢
  generalize m.functions = fs at h
  induction fs generalizing place with
  | nil => cases place <;> rfl
  | cons f fs ih =>
    cases hf : isNamed name f with
    | true =>
      cases place with
      | zero => simp [List.findIdx?_cons, hf] at h
      | succ place => simp [hf]
    | false =>
      cases place with
      | zero => simp [hf, hgone]
      | succ place =>
        simp only [List.modify_succ_cons, List.find?_cons, hf]
        exact ih fun hplace => h (by simp [List.findIdx?_cons, hf, hplace])

/-- The name of a function that is no longer live stands for nothing. -/
theorem find?_modify_eq_none (hg : ∀ f, (g f).isLive = false)
    (hdistinct : (m.live.map Function.name).Nodup) (h : m.index? name = some place) :
    (m.modify place g).find? name = none := by
  have hgone (f : Function) : isNamed name (g f) = false := by simp [isNamed, hg]
  rw [nodup_names_iff] at hdistinct
  simp only [find?, modify, index?] at h ⊢
  generalize m.functions = fs at h hdistinct
  induction fs generalizing place with
  | nil => cases h
  | cons f fs ih =>
    obtain ⟨hfirst, hrest⟩ := List.pairwise_cons.1 hdistinct
    rw [List.findIdx?_cons] at h
    cases hf : isNamed name f with
    | true =>
      obtain rfl : 0 = place := by simpa [hf] using h
      obtain ⟨hlive, hname⟩ := isNamed_iff.1 hf
      rw [List.modify_zero_cons, List.find?_cons, hgone, List.find?_eq_none]
      intro f' hf' hnamed
      obtain ⟨hlive', hname'⟩ := isNamed_iff.1 hnamed
      exact hfirst f' hf' hlive hlive' (hname.trans hname'.symm)
    | false =>
      obtain ⟨place, hplace, rfl⟩ : ∃ k, fs.findIdx? (isNamed name) = some k ∧ k + 1 = place := by
        simpa [hf] using h
      simp only [List.modify_succ_cons, List.find?_cons, hf]
      exact ih hplace hrest

end Withdrawing

end Module

namespace Session

/-! ### Steps and arities -/

variable {s t : Session}

/-- The arities of functions last while nothing is taken away. -/
theorem GrowStep.arities (h : s.GrowStep t) {name : String} {k : Nat}
    (hname : s.module.arities name = some k) : t.module.arities name = some k := by
  have appended {s : Session} (c : Cursor) (i : Instr) :
      (s.appended c i).module.arities = s.module.arities :=
    Module.arities_modify fun f _ => ⟨rfl, rfl, rfl⟩
  cases h with
  | code t h =>
    cases h with
    | define c f b i _ _ _ => rwa [appended]
    | append c f b i _ _ _ => rwa [appended]
    | _ => exact hname
  | name _ => exact hname
  | opened name params _ _ _ _ => exact Module.arities_add hname _
  | declared name arity _ _ _ => exact Module.arities_add hname _
  | ended c f b v hsite _ =>
    rw [returned_eq]
    refine (congrFun (Module.arities_modify fun f' hf' => ?_) name).trans hname
    obtain rfl : f' = f := Option.some.inj (hf'.symm.trans hsite.function)
    exact ⟨rfl, by simp [Function.isLive, hsite.building], rfl⟩
  | verified e f _ _ hfunction hstage _ _ =>
    refine (congrFun (Module.arities_modify fun f' hf' => ?_) name).trans hname
    obtain rfl : f' = f := Option.some.inj (hf'.symm.trans hfunction)
    exact ⟨rfl, by simp [Function.isLive, hstage.2], rfl⟩
  | poisoned e f err _ _ _ _ => exact hname

/-- Where a step makes a function verified, it is well formed. -/
theorem GrowStep.verified_cases (h : s.GrowStep t) {f : Function} (hf : f ∈ t.module.functions)
    (hstage : f.stage = .verified) :
    f ∈ s.module.functions ∨ f.WellFormed s.module.arities := by
  -- No other change of a function makes it verified.
  have changed {place : Nat} {g : Function → Function}
      (hg : ∀ f, s.module.functions[place]? = some f → (g f).stage ≠ .verified)
      (hf : f ∈ (s.module.modify place g).functions) : f ∈ s.module.functions :=
    forall_modify (P := fun f => f.stage = .verified → f ∈ s.module.functions)
      (fun f hf _ => hf) (fun f hf hv => absurd hv (hg f hf)) f hf hstage
  have appended {c : Cursor} {f' : Function} {b : Block} (hsite : s.Site c f' b) {i : Instr}
      (hf : f ∈ (s.module.modify c.function (·.appendTo c.block i)).functions) :
      f ∈ s.module.functions := by
    refine changed (fun f'' hf'' => ?_) hf
    obtain rfl : f'' = f' := Option.some.inj (hf''.symm.trans hsite.function)
    simp [Function.appendTo, hsite.building]
  have added {g : Function} (hg : g.stage ≠ .verified) (hf : f ∈ (s.module.add g).functions) :
      f ∈ s.module.functions := by
    rcases List.mem_append.1 hf with hf | hf
    · exact hf
    · rw [List.mem_singleton.1 hf] at hstage
      exact absurd hstage hg
  cases h with
  | code t h =>
    cases h with
    | define c f b i hsite _ _ => exact .inl (appended hsite hf)
    | append c f b i hsite _ _ => exact .inl (appended hsite hf)
    | _ => exact .inl hf
  | name _ => exact .inl hf
  | opened name params _ _ _ _ => exact .inl (added (by simp) hf)
  | declared name arity _ _ _ =>
    exact .inl (added (by simp [Function.external, Function.declare]) hf)
  | ended c f b v _ _ =>
    rw [returned_eq] at hf
    exact .inl (changed (fun _ _ => by simp) hf)
  | verified e f' _ _ hfunction _ _ hcorrect =>
    refine forall_modify (P := fun f => f.stage = .verified →
      f ∈ s.module.functions ∨ f.WellFormed s.module.arities) (fun f hf _ => .inl hf) ?_ f hf hstage
    intro f'' hf'' _
    obtain rfl : f'' = f' := Option.some.inj (hf''.symm.trans hfunction)
    have hwf := Module.verifyFunction_eq_ok.1 hcorrect
    exact .inr ⟨hwf.returns, hwf.bodiless, hwf.numbered, hwf.closed, hwf.typed⟩
  | poisoned e f' err _ _ _ _ => exact .inl hf

/-- A verified function is not changed by abandoning. -/
theorem mem_withdrawn {place : Nat} {f : Function} (hf : f ∈ s.module.functions)
    (hstage : f.stage = .verified) (hplace : (s.functionAt place).stage ≠ .verified) :
    f ∈ (s.withdrawn place).module.functions := by
  obtain ⟨j, hj⟩ := List.mem_iff_getElem?.1 hf
  have hne : place ≠ j := by
    rintro rfl
    rw [functionAt, hj] at hplace
    exact hplace hstage
  rw [(withdrawn_fields s place).2.2.2]
  exact List.mem_of_getElem? ((functions_modify_of_ne hne _).trans hj)

/-- Functions that do not call an abandoned one stay well formed, and others do not. -/
theorem wellFormed_withdrawn_iff (hs : s.Formed) {f : Function}
    (hf : f.WellFormed s.module.arities) (place : Nat) :
    f.WellFormed (s.withdrawn place).module.arities ↔ s.module.callsAt f place = false := by
  have hgone (f : Function) :
      ({ f with stage := .abandoned, blocks := [] } : Function).isLive = false := rfl
  rw [(withdrawn_fields s place).2.2.2, Bool.eq_false_iff, ne_eq, Module.callsAt_iff]
  constructor
  · rintro hwf ⟨name, hcalls, hindex⟩
    have hsome := hwf.isSome_of_calls hcalls
    rw [Module.arities, Module.find?_modify_eq_none hgone hs.distinct hindex] at hsome
    cases hsome
  · intro hcalls
    apply hf.of_calls
    intro name k hname hk
    rw [Module.arities, Module.find?_modify_of_index? hgone]
    · exact hk
    · intro hindex
      exact hcalls ⟨name, hname, hindex⟩

/-! ### Histories that spare functions -/

/-- Whether a request abandons no function that another of a kind calls. -/
def spares (kind : Function → Bool) (s : Session) : Request → Bool
  | .abandonFunction function =>
    match s.entry function with
    | .ok e => !s.module.isCalledBy kind e.index
    | .error _ => true
  | _ => true

/-- Whether along a history no function is abandoned that another of a kind calls. -/
def sparesAlong (kind : Function → Bool) (s : Session) : List Request → Bool
  | [] => true
  | r :: history => s.spares kind r && (s.request r).2.sparesAlong kind history

/-- What survives the steps that take nothing away, and the abandoning of functions that are not
called, holds after every history that spares the others. -/
theorem sparesAlong_induction {kind : Function → Bool} {P : Session → Prop}
    (hgrow : ∀ s t, P s → GrowStep s t → P t)
    (hwithdrawn : ∀ s e, P s → e ∈ s.functions → s.module.isCalledBy kind e.index = false →
      P (s.withdrawn e.index))
    (hs : P s) {history : List Request} (h : s.sparesAlong kind history) :
    P (s.after history) := by
  induction history generalizing s with
  | nil => exact hs
  | cons r history ih =>
    obtain ⟨hr, hhistory⟩ := Bool.and_eq_true_iff.1 h
    refine ih ?_ hhistory
    show P (s.request r).2
    rw [request_snd]
    by_cases habandon : ∃ f, r = .abandonFunction f
    · obtain ⟨f, rfl⟩ := habandon
      rw [Request.perform, result_map]
      rcases abandonFunction_cases s f with ⟨err, hres⟩ | ⟨e, _, he, _, hres⟩
      · rwa [result_error hres]
      · rw [result_ok hres]
        have hspared : s.module.isCalledBy kind e.index = false := by simpa [spares, he] using hr
        exact hwithdrawn s e hs (resolve_eq_ok he) hspared
    · have hsteps := grows_perform (not_exists.1 habandon) s
      generalize result r.perform s = t at hsteps
      induction hsteps with
      | refl => exact hs
      | tail _ hstep ih => exact hgrow _ _ ih hstep

/-! ### Verified functions -/

/-- Every verified function is well formed in the module as it is now. -/
def Upheld (s : Session) : Prop :=
  ∀ f ∈ s.module.functions, f.stage = .verified → f.WellFormed s.module.arities

/-- While nothing is taken away, what is verified stays well formed. -/
theorem Upheld.growStep (hs : s.Upheld) (h : s.GrowStep t) : t.Upheld := by
  intro f hf hstage
  have hwf : f.WellFormed s.module.arities :=
    (h.verified_cases hf hstage).elim (fun hf => hs f hf hstage) fun hwf => hwf
  exact hwf.of_calls fun _ _ _ hname => h.arities hname

/-- So it does when functions are abandoned that no verified function calls. -/
theorem Upheld.withdrawn (hs : s.Upheld) (hformed : s.Formed) {place : Nat}
    (hcalled : s.module.isCalledBy (fun f => f.stage = .verified) place = false) :
    (s.withdrawn place).Upheld := by
  intro f hf hstage
  obtain ⟨j, hj⟩ := List.mem_iff_getElem?.1 hf
  rw [(withdrawn_fields s place).2.2.2] at hj
  rcases functions_modify_cases hj with ⟨_, f', _, rfl⟩ | ⟨hne, hj⟩
  · -- The abandoned function is not a verified one.
    cases hstage
  · apply (wellFormed_withdrawn_iff hformed (hs f (List.mem_of_getElem? hj) hstage) place).2
    exact Module.not_callsAt_of_isCalledBy hcalled hj (Ne.symm hne) (decide_eq_true hstage)

/-- **Verified functions stay well formed, but for calls to what is abandoned.** They all do after
every history in which no function is abandoned that a verified one calls. Where a function is
abandoned after any history, the verified functions that are accepted before and do not call it are
accepted after it, and those that do call it are not. -/
theorem verified_upheld (id : Nat) (o : SessionOptions) (target : Target)
    (history : List Request) :
    let s := (start id o target).after history
    ((start id o target).sparesAlong (fun f => f.stage = .verified) history →
      ∀ f ∈ s.module.functions, f.stage = .verified → s.module.verifyFunction f = .ok ()) ∧
    ∀ handle e t, s.entry handle = .ok e → s.request (.abandonFunction handle) = (.ok .done, t) →
      ∀ f ∈ s.module.functions, f.stage = .verified → s.module.verifyFunction f = .ok () →
        f ∈ t.module.functions ∧
          (t.module.verifyFunction f = .ok () ↔ s.module.callsAt f e.index = false) := by
  intro s
  constructor
  · intro hspares f hf hstage
    have hupheld : s.Formed ∧ s.Upheld := by
      refine sparesAlong_induction (P := fun s => s.Formed ∧ s.Upheld) ?_ ?_ ⟨.start .., ?_⟩ hspares
      · rintro s t ⟨hformed, hs⟩ hstep
        exact ⟨hformed.growStep hstep, hs.growStep hstep⟩
      · rintro s e ⟨hformed, hs⟩ _ hcalled
        exact ⟨hformed.withdrawn e.index, hs.withdrawn hformed hcalled⟩
      · intro f hf
        cases hf
    exact Module.verifyFunction_eq_ok.2 (hupheld.2 f hf hstage)
  · intro handle e t he hrequest f hf hstage haccepted
    have hformed : s.Formed := .after id o target history
    rcases abandonFunction_cases s handle with ⟨err, h⟩ | ⟨e', _, he', hplace, h⟩
    · cases (request_of_error rfl h).symm.trans hrequest
    · obtain rfl := Except.ok.inj (he'.symm.trans he)
      cases (request_of_ok rfl h).symm.trans hrequest
      refine ⟨mem_withdrawn hf hstage hplace, ?_⟩
      rw [Module.verifyFunction_eq_ok]
      exact wellFormed_withdrawn_iff hformed (Module.verifyFunction_eq_ok.1 haccepted) _

/-- Requests for a function `f` that is verified while it calls a function `g` that is still built,
and one that is abandoned before anybody calls it. -/
def callerHistory : List Request :=
  [.beginFunction "g" ["x"], .beginFunction "f" ["x"], .call ⟨0, 0⟩ [⟨0, 1⟩],
    .endFunction ⟨0, 1⟩ ⟨0, 2⟩, .verifyFunction ⟨0, 1⟩, .declareFunction "h" 0,
    .abandonFunction ⟨0, 2⟩]

theorem verified_upheld_caller :
    let target : Target := { triple := Target.host, arch := "x86_64", os := "linux" }
    let s := (start 0 {} target).after callerHistory
    (∀ f ∈ s.module.functions, f.stage = .verified → s.module.verifyFunction f = .ok ()) ∧
      ∃ f ∈ s.module.functions, f.stage = .verified ∧ s.module.callsAt f 0 ∧
        ∃ t, s.request (.abandonFunction ⟨0, 0⟩) = (.ok .done, t) ∧ f ∈ t.module.functions ∧
          t.module.verifyFunction f ≠ .ok () := by
  intro target s
  obtain ⟨hall, habandon⟩ := verified_upheld 0 {} target callerHistory
  have hall := hall (by decide +kernel)
  let f := s.functionAt 1
  have hf : f ∈ s.module.functions := by decide +kernel
  have hstage : f.stage = .verified := by decide +kernel
  have hcalls : s.module.callsAt f 0 := by decide +kernel
  let t := (s.request (.abandonFunction ⟨0, 0⟩)).2
  have hrequest : s.request (.abandonFunction ⟨0, 0⟩) = (.ok .done, t) := by decide +kernel
  obtain ⟨hmem, hiff⟩ :=
    habandon ⟨0, 0⟩ ⟨0, [⟨0, 0⟩]⟩ t (by decide +kernel) hrequest f hf hstage (hall f hf hstage)
  refine ⟨hall, f, hf, hstage, hcalls, t, hrequest, hmem, fun h => ?_⟩
  cases hcalls.symm.trans (hiff.1 h)

/-- A function that is verified is broken when the half-built function that it calls is abandoned,
in a session that is not poisoned. -/
theorem abandon_breaks_caller :
    let target : Target := { triple := Target.host, arch := "x86_64", os := "linux" }
    let s := (start 0 {} target).after (callerHistory ++ [.abandonFunction ⟨0, 0⟩])
    s.poisonedBy = none ∧ ∃ f ∈ s.module.functions, f.stage = .verified ∧
      s.module.verifyFunction f =
        .error (.verification "f" "call to undeclared function @g") := by
  intro target s
  exact ⟨by decide +kernel, s.functionAt 1, by decide +kernel, by decide +kernel, by decide +kernel⟩

end Session

end StraightLine
