import StraightLine.Proofs.Handles
import StraightLine.Proofs.Poisoning

/-!
# Functions around top-level expressions

A session tells the functions around top-level expressions from all others by their names alone.
That is right, since a request adds at most one function, under a reserved name exactly if it is to
begin or to wrap a top-level expression (`Session.InOrder.enlists`), and names never change.
-/

namespace StraightLine

/-- Whether a request begins a function around a top-level expression. -/
def Request.isTopLevel : Request → Bool
  | beginTopLevel | wrapTopLevel _ => true
  | _ => false

namespace Session

variable {α : Type} {s t u : Session} {b : Bool} {h : FunctionId}

/-- The request adds the function behind a handle that has stood for nothing before. -/
def Introduces (s : Session) (r : Request) (h : FunctionId) : Prop :=
  (∀ g, s.function h ≠ .ok g) ∧ ∃ g, (s.request r).2.function h = .ok g

theorem InOrder.after (id : Nat) (o : SessionOptions) (target : Target) (history : List Request) :
    ((Session.start id o target).after history).InOrder :=
  (InOrder.start id o target).steps (after_steps _ history)

/-! ### Reserved names -/

theorem isTopLevel_eq_ok :
    s.isTopLevel h = .ok b ↔ ∃ g, s.function h = .ok g ∧ s.wrappers.reserves g.name = b := by
  rw [isTopLevel]
  cases s.function h <;> simp [Except.map]

/-- Which names are reserved does not depend on those that were handed out. -/
theorem Named.reserves_eq (hs : s.Named) (ht : t.Named) (name : String) :
    t.wrappers.reserves name = s.wrappers.reserves name := by
  rw [NameFamily.reserves, NameFamily.reserves, ht.stem, hs.stem]

/-- The next name is one of those that the family had to give from the start. -/
theorem Named.next_mem_takeMany (hs : s.Named) (id : Nat) (o : SessionOptions) (target : Target) :
    s.wrappers.take.1 ∈ (Session.start id o target).wrappers.takeMany (s.wrappers.next + 1) := by
  refine NameFamily.mem_takeMany.2 ⟨s.wrappers.next, Nat.zero_le _, by omega, ?_⟩
  rw [NameFamily.take, NameFamily.member, NameFamily.member, hs.stem]
  rfl

/-! ### What is kept -/

theorem Retains.after (s : Session) (history : List Request) : s.Retains (s.after history) :=
  .steps (after_steps s history)

/-- No name goes away. -/
theorem Retains.exists_name (hr : s.Retains t) {f : Function} (hf : f ∈ s.module.functions) :
    ∃ g ∈ t.module.functions, g.name = f.name := by
  obtain ⟨place, hplace⟩ := List.mem_iff_getElem?.1 hf
  obtain ⟨g, hg, hname, _⟩ := hr.module place f hplace
  exact ⟨g, List.mem_of_getElem? hg, hname⟩

/-- The function behind a handle keeps its name. -/
theorem Retains.function (hr : s.Retains t) (hs : s.Formed) {g : Function}
    (hg : s.function h = .ok g) : ∃ g', t.function h = .ok g' ∧ g'.name = g.name := by
  obtain ⟨e, he, rfl⟩ := function_eq_ok.1 hg
  obtain ⟨g', hg', hname, _⟩ := hr.module e.index _ (hs.functionAt (resolve_eq_ok he))
  refine ⟨g', function_eq_ok.2 ⟨e, hr.entries h e he, ?_⟩, hname⟩
  rw [functionAt, hg', Option.getD_some]

theorem Retains.isTopLevel (hr : s.Retains t) (hs : s.InOrder) (ht : t.InOrder)
    (hb : s.isTopLevel h = .ok b) : t.isTopLevel h = .ok b := by
  obtain ⟨g, hg, hreserved⟩ := isTopLevel_eq_ok.1 hb
  obtain ⟨g', hg', hname⟩ := hr.function hs.steady.formed hg
  refine isTopLevel_eq_ok.2 ⟨g', hg', ?_⟩
  rw [hname, hs.steady.named.reserves_eq ht.steady.named, hreserved]

/-! ### What requests add -/

/-- Nothing is changed that function handles stand for, and there is no handle more. -/
def SameHandles (s t : Session) : Prop := s.Retains t ∧ t.functions = s.functions

theorem Makes.sameHandles {x : SessionM α} (hx : Makes x)
    (hfunctions : ∀ s, (result x s).functions = s.functions) : Takes SameHandles x :=
  fun s => .single ⟨.steps (hx s), hfunctions s⟩

theorem Builds.sameHandles {x : SessionM α} (hx : Builds x) : Takes SameHandles x :=
  Makes.sameHandles hx.grows.makes fun s => (hx.untouched s).functions

theorem sameHandles_endFunction (h : FunctionId) (v : ValueId) :
    Takes SameHandles (endFunction h v) :=
  Makes.sameHandles (grows_endFunction h v).makes fun s => (untouched_endFunction s h v).functions

theorem sameHandles_abandonFunction (h : FunctionId) : Takes SameHandles (abandonFunction h) :=
  Makes.sameHandles (makes_abandonFunction h) fun s => (untouched_abandonFunction s h).functions

theorem sameHandles_verifyFunction (h : FunctionId) : Takes SameHandles (verifyFunction h) := by
  refine Makes.sameHandles (grows_verifyFunction h).makes fun s => ?_
  have hverdict := verifyFunction_verdict s h
  unfold result
  generalize verifyFunction h s = r at hverdict
  cases hverdict <;> rfl

theorem sameHandles_finishTopLevel (h : FunctionId) (v : ValueId) :
    Takes SameHandles (finishTopLevel h v) :=
  takes_bind (sameHandles_endFunction h v) fun _ => sameHandles_verifyFunction h

/-- There is at most one function handle more, to a function whose name is reserved or is not. -/
inductive Enlists (b : Bool) (s t : Session) : Prop
  | same (functions : t.functions = s.functions)
  | one (e : FunctionEntry) (f : Function) (functions : t.functions = s.functions.push e)
      (place : t.module.functions[e.index]? = some f) (name : s.wrappers.reserves f.name = b)

namespace Enlists

theorem opened {name : String} {params : List String} (hname : s.wrappers.reserves name = b) :
    Enlists b s (s.opened name params) :=
  .one _ _ rfl List.getElem?_concat_length hname

theorem declared {name : String} {arity : Nat} (hname : s.wrappers.reserves name = b) :
    Enlists b s (s.declared name arity) :=
  .one _ _ rfl List.getElem?_concat_length hname

theorem wrapping (s : Session) : Enlists true s s.wrapping :=
  .one _ _ rfl List.getElem?_concat_length (s.wrappers.reserves_member s.wrappers.next)

theorem sameHandles (h : Enlists b s t) (htu : Relation.ReflTransGen SameHandles t u) :
    Enlists b s u := by
  induction htu with
  | refl => exact h
  | tail _ hstep ih =>
    obtain ⟨hretains, hfunctions⟩ := hstep
    cases ih with
    | same hsame => exact .same (hfunctions.trans hsame)
    | one e f hpush hf hname =>
      obtain ⟨g, hg, hgname, _⟩ := hretains.module e.index f hf
      exact .one e g (hfunctions.trans hpush) hg (hgname ▸ hname)

theorem of_takes {x : SessionM α} (hx : Takes SameHandles x) (s : Session) :
    Enlists b s (result x s) :=
  (same rfl).sameHandles (hx s)

/-- A handle of the grown session is an old one, or it is to the function that was added. -/
theorem function (h : Enlists b s t) (hid : t.id = s.id) {f : FunctionId} {g : Function}
    (hg : t.function f = .ok g) :
    (∃ g', s.function f = .ok g') ∨ s.wrappers.reserves g.name = b := by
  obtain ⟨e', he', rfl⟩ := function_eq_ok.1 hg
  cases h with
  | same hsame =>
    rw [entry, hid, hsame] at he'
    exact .inl ⟨_, function_eq_ok.2 ⟨e', he', rfl⟩⟩
  | one e f hpush hf hname =>
    rw [entry, hid, hpush] at he'
    rcases Handle.resolve_push_cases he' with hold | ⟨_, rfl⟩
    · exact .inl ⟨_, function_eq_ok.2 ⟨e', hold, rfl⟩⟩
    · rw [functionAt, hf, Option.getD_some]
      exact .inr hname

end Enlists

/-- The function that is begun stays, whether the value can be wrapped or not. -/
theorem InOrder.enlists_wrapTopLevel (hs : s.InOrder) (v : ValueId) :
    Enlists true s (result (wrapTopLevel v) s) := by
  refine result_query (.same rfl) fun _ hu => result_query (.same rfl) fun _ _ => ?_
  obtain ⟨hbegin, _⟩ := hs.steady.beginTopLevel (ensureUsable_eq_ok.1 hu)
  have hfinish (w : FunctionId) : Takes SameHandles (finishTopLevel w v >>= fun _ => pure w) :=
    takes_bind (sameHandles_finishTopLevel w v) fun _ => takes_pure w
  rw [result, andThen_of_ok hbegin, ← result]
  exact (Enlists.wrapping s).sameHandles (hfinish _ s.wrapping)

/-- **What a request adds has a reserved name exactly if it is for a top-level expression.** -/
theorem InOrder.enlists (hs : s.InOrder) (r : Request) :
    Enlists r.isTopLevel s (s.request r).2 := by
  rw [request_snd]
  have kept {γ : Type} {x : SessionM γ} (hx : Takes SameHandles x) {g : γ → Reply} :
      Enlists r.isTopLevel s (result (g <$> x) s) := by
    rw [result_map]
    exact .of_takes hx s
  cases r with
  | floatConstant x => exact kept (builds_floatConstant x).sameHandles
  | stringConstant bs => exact kept (builds_stringConstant bs).sameHandles
  | declareVariable v n => exact kept (builds_declareVariable v n).sameHandles
  | assign p v => exact kept (builds_assign p v).sameHandles
  | read p => exact kept (builds_read p).sameHandles
  | arith op a b => exact kept (builds_arith op a b).sameHandles
  | compare p a b => exact kept (builds_compare p a b).sameHandles
  | widen v => exact kept (builds_widen v).sameHandles
  | call h args => exact kept (builds_call h args).sameHandles
  | endFunction h v => exact kept (sameHandles_endFunction h v)
  | verifyFunction h => exact kept (sameHandles_verifyFunction h)
  | abandonFunction h => exact kept (sameHandles_abandonFunction h)
  | finishTopLevel h v => exact kept (sameHandles_finishTopLevel h v)
  | beginFunction n ps =>
    rw [Request.perform, result_map]
    rcases beginFunction_cases s n ps with ⟨e, h⟩ | ⟨_, hname, _, _, h⟩
    · rw [result_error h]
      exact .same rfl
    · rw [result_ok h]
      exact .opened hname
  | declareFunction n k =>
    rw [Request.perform, result_map]
    rcases declareFunction_cases s n k with ⟨e, h⟩ | ⟨_, hname, _, h⟩
    · rw [result_error h]
      exact .same rfl
    · rw [result_ok h]
      exact .declared hname
  | beginTopLevel =>
    rw [Request.perform, result_map]
    cases hu : s.poisonedBy with
    | some f =>
      have h : Session.beginTopLevel s = .error (.poisoned f) s := ask_of_poisoned hu _
      rw [result_error h]
      exact .same rfl
    | none =>
      rw [result_ok (hs.steady.beginTopLevel hu).1]
      exact .wrapping s
  | wrapTopLevel v =>
    rw [Request.perform, result_map]
    exact hs.enlists_wrapTopLevel v

/-- A function that a request introduces is taken for what the request is for. -/
theorem InOrder.isTopLevel_of_introduces (hs : s.InOrder) {r : Request} (hr : s.Introduces r h) :
    (s.request r).2.isTopLevel h = .ok r.isTopLevel := by
  obtain ⟨hnew, g, hg⟩ := hr
  have hname := ((hs.enlists r).function (Retains.request s r).id hg).resolve_left
    (not_exists.2 hnew)
  refine isTopLevel_eq_ok.2 ⟨g, hg, ?_⟩
  rw [hs.steady.named.reserves_eq (hs.request r).steady.named, hname]

/-- What a function was introduced for stays known. -/
theorem InOrder.isTopLevel_after (hs : s.InOrder) {before rest : List Request} {r : Request}
    (hr : (s.after before).Introduces r h) :
    (s.after (before ++ r :: rest)).isTopLevel h = .ok r.isTopLevel := by
  have hbefore : (s.after before).InOrder := hs.steps (after_steps s before)
  have hrest := after_steps ((s.after before).request r).2 rest
  rw [after_append]
  exact (Retains.steps hrest).isTopLevel (hbefore.request r) ((hbefore.request r).steps hrest)
    (hbefore.isTopLevel_of_introduces hr)

theorem start_function (id : Nat) (o : SessionOptions) (target : Target) (h : FunctionId)
    (g : Function) : (start id o target).function h ≠ .ok g := by
  intro hg
  obtain ⟨e, he, _⟩ := function_eq_ok.1 hg
  simpa [start] using resolve_eq_ok he

/-- Every function was introduced by a request. -/
theorem exists_introduces {g : Function} {history : List Request} (hs : ∀ g, s.function h ≠ .ok g)
    (hg : (s.after history).function h = .ok g) :
    ∃ before r rest, history = before ++ r :: rest ∧ (s.after before).Introduces r h := by
  induction history using List.reverseRecOn generalizing g with
  | nil => exact absurd hg (hs g)
  | append_singleton history r ih =>
    rw [after_concat] at hg
    by_cases hold : ∃ g', (s.after history).function h = .ok g'
    · obtain ⟨g', hg'⟩ := hold
      obtain ⟨before, r', rest, rfl, hr'⟩ := ih hg'
      exact ⟨before, r', rest ++ [r], by simp, hr'⟩
    · exact ⟨history, r, [], rfl, not_exists.1 hold, g, hg⟩

/-! ### Reserved names are refused -/

/-- What looks at the mark of the session and then whether the name is reserved is refused. -/
theorem refused_of_reserves {name : String} (hname : s.wrappers.reserves name)
    (k : Unit → SessionM α) :
    ∃ err, (query ensureUsable >>= fun _ => query (·.checkNotReserved name) >>= k) s =
        .error err s ∧ (s.poisonedBy = none → err = (Refusal.reservedName name).error name) := by
  have hreserved : s.checkNotReserved name = .error ((Refusal.reservedName name).error name) :=
    if_pos hname
  cases hu : s.poisonedBy with
  | some f => exact ⟨_, ask_of_poisoned hu _, by simp⟩
  | none =>
    refine ⟨_, ?_, fun _ => rfl⟩
    rw [bind_query_of_ok (ensureUsable_eq_ok.2 hu), bind_query_of_error hreserved]

/-- **Nobody can choose a reserved name.** -/
theorem request_of_reserves {name : String} (hname : s.wrappers.reserves name) {r : Request}
    (hr : (∃ params, r = .beginFunction name params) ∨ ∃ arity, r = .declareFunction name arity) :
    ∃ err, s.request r = (.error err, s) ∧
      (s.poisonedBy = none → err = (Refusal.reservedName name).error name) := by
  rcases hr with ⟨params, rfl⟩ | ⟨arity, rfl⟩
  · obtain ⟨err, hrefused, herr⟩ := refused_of_reserves hname fun _ => openFunction name params
    exact ⟨err, request_of_error rfl hrefused, herr⟩
  · obtain ⟨err, hrefused, herr⟩ := refused_of_reserves hname fun _ => do
      query fun s => s.checkNewName name
      let index ← build (Draft.addFunction (Function.external name arity))
      addEntry ⟨index, []⟩
    exact ⟨err, request_of_error rfl hrefused, herr⟩

/-! ### Histories -/

/-- **Names of top-level expressions never collide.** Whatever was asked of a session, while it is
not poisoned a function around a top-level expression can be begun, and its name, one of those that
the family of the session gives, is the name of no function that the module had at any time. The
functions that are taken for top-level ones are exactly those that a request to begin or to wrap a
top-level expression has introduced. And nobody can begin or declare a function under a name that
the family gives, early or late. -/
theorem wrapper_names (id : Nat) (o : SessionOptions) (target : Target) (history : List Request) :
    let s₀ := start id o target
    let s := s₀.after history
    (s.poisonedBy = none → ∃ w g,
      let t := (s.request .beginTopLevel).2
      (s.request .beginTopLevel).1 = .ok (.function w) ∧ t.function w = .ok g ∧
        (∃ k, g.name ∈ s₀.wrappers.takeMany k) ∧
        ∀ before, before <+: history → ∀ f ∈ (s₀.after before).module.functions,
          f.name ≠ g.name) ∧
    (∀ h b, s.isTopLevel h = .ok b ↔ ∃ before r rest, history = before ++ r :: rest ∧
      (s₀.after before).Introduces r h ∧ r.isTopLevel = b) ∧
    ∀ k, ∀ name ∈ s₀.wrappers.takeMany k, ∀ r : Request,
      ((∃ params, r = .beginFunction name params) ∨ ∃ arity, r = .declareFunction name arity) →
        ∃ err, s.request r = (.error err, s) ∧
          (s.poisonedBy = none → err = (Refusal.reservedName name).error name) := by
  intro s₀ s
  have hs : s.InOrder := .after id o target history
  have hnamed := (InOrder.start id o target).steady.named
  refine ⟨fun hu => ?_, fun h b => ⟨fun hb => ?_, ?_⟩, fun k name hname r hr => ?_⟩
  · obtain ⟨hbegin, _⟩ := hs.steady.beginTopLevel hu
    have hrequest : s.request .beginTopLevel = (.ok (.function _), s.wrapping) :=
      request_of_ok rfl hbegin
    refine ⟨_, s.wrapping.functionAt s.module.functions.length, congrArg Prod.fst hrequest, ?_,
      ⟨s.wrappers.next + 1, ?_⟩, ?_⟩
    · rw [hrequest]
      exact function_eq_ok.2 ⟨_, wrapping_entry s, rfl⟩
    · rw [wrapping_functionAt]
      exact hs.steady.named.next_mem_takeMany id o target
    · rintro before ⟨rest, rfl⟩ f hf
      obtain ⟨g, hg, hname⟩ := (Retains.after (s₀.after before) rest).exists_name hf
      rw [← after_append] at hg
      rw [wrapping_functionAt, ← hname]
      exact hs.steady.named.ne_next hg
  · obtain ⟨g, hg, _⟩ := isTopLevel_eq_ok.1 hb
    obtain ⟨before, r, rest, rfl, hr⟩ := exists_introduces (start_function id o target h) hg
    have hr' : s.isTopLevel h = .ok r.isTopLevel :=
      (InOrder.start id o target).isTopLevel_after hr
    exact ⟨before, r, rest, rfl, hr, Except.ok.inj (hr'.symm.trans hb)⟩
  · rintro ⟨before, r, rest, rfl, hr, rfl⟩
    exact (InOrder.start id o target).isTopLevel_after hr
  · obtain ⟨n, _, _, rfl⟩ := NameFamily.mem_takeMany.1 hname
    refine request_of_reserves ?_ hr
    rw [hnamed.reserves_eq hs.steady.named]
    exact s₀.wrappers.reserves_member n

/-- A double is wrapped under the first name of the family. A string is not wrapped, but uses the
second name up. The name of the eighth wrapper cannot be taken before its time. -/
theorem wrapper_names_two :
    let target : Target := { triple := Target.host, arch := "x86_64", os := "linux" }
    let history : List Request := [.floatConstant 1.5, .wrapTopLevel ⟨0, 0⟩,
      .stringConstant [104, 105], .wrapTopLevel ⟨0, 1⟩, .beginFunction "f" ["x"]]
    let s := (start 0 {} target).after history
    s.module.functions.map Function.name = ["__anon_expr", "__anon_expr.1", "f"] ∧
      (∃ w g, (s.request .beginTopLevel).1 = .ok (.function w) ∧
        (s.request .beginTopLevel).2.function w = .ok g ∧
        ∀ f ∈ s.module.functions, f.name ≠ g.name) ∧
      s.isTopLevel ⟨0, 1⟩ = .ok true ∧
      (∃ before r rest, history = before ++ r :: rest ∧
        ((start 0 {} target).after before).Introduces r ⟨0, 1⟩ ∧ r.isTopLevel = true) ∧
      s.request (.declareFunction "__anon_expr.7" 2) =
        (.error ((Refusal.reservedName "__anon_expr.7").error "__anon_expr.7"), s) := by
  intro target history s
  obtain ⟨hbegin, hexactly, hrefused⟩ := wrapper_names 0 {} target history
  have hu : s.poisonedBy = none := by decide +kernel
  obtain ⟨w, g, hok, hg, _, hnew⟩ := hbegin hu
  have htop : s.isTopLevel ⟨0, 1⟩ = .ok true := by decide +kernel
  obtain ⟨err, herror, herr⟩ := hrefused 8 "__anon_expr.7" (by decide +kernel)
    (.declareFunction "__anon_expr.7" 2) (.inr ⟨2, rfl⟩)
  rw [herr hu] at herror
  exact ⟨by decide +kernel, ⟨w, g, hok, hg, hnew history (List.prefix_refl _)⟩, htop,
    (hexactly ⟨0, 1⟩ true).1 htop, herror⟩

end Session

end StraightLine
