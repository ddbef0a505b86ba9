import StraightLine.Proofs.Wrapping

/-!
# Poisoned sessions

When a function fails verification its session is poisoned, under the name of the function. From
then on nothing is granted but constants, and nothing else in the session changes
(`Session.after_of_poisoned`). Only the requests that verify a function can poison a session, and
they say so by the error that they fail with (`Session.Tells`).
-/

namespace StraightLine

namespace Request

/-- Whether a request makes a constant, which needs no function. -/
def isConstant : Request → Bool
  | floatConstant _ | stringConstant _ => true
  | _ => false

/-- Whether a request verifies a function. -/
def verifies : Request → Bool
  | verifyFunction _ | finishTopLevel _ _ | wrapTopLevel _ => true
  | _ => false

end Request

namespace Session

variable {α β : Type} {s t : Session} {f : String}

/-! ### After a function has failed -/

theorem ensureUsable_of_poisoned (hf : s.poisonedBy = some f) :
    s.ensureUsable = .error (.poisoned f) := by
  rw [ensureUsable, hf]

/-- What looks at the mark of the session first is refused. -/
theorem ask_of_poisoned (hf : s.poisonedBy = some f) (k : Unit → SessionM α) :
    (query ensureUsable >>= k) s = .error (.poisoned f) s :=
  bind_query_of_error (ensureUsable_of_poisoned hf)

/-- A request for code is refused. -/
theorem code_of_poisoned (hf : s.poisonedBy = some f) (k : Nat → SessionM α) :
    (cursorFunction >>= k) s = .error (.poisoned f) s :=
  andThen_of_error (ask_of_poisoned hf fun _ => query underConstruction)

/-- **A poisoned session grants nothing but constants**, and refuses all else without a trace. -/
theorem request_of_poisoned (hf : s.poisonedBy = some f) {r : Request}
    (hr : r.isConstant = false) : s.request r = (.error (.poisoned f), s) := by
  cases r with
  | floatConstant _ | stringConstant _ => cases hr
  | beginFunction _ _ | declareFunction _ _ | endFunction _ _ | verifyFunction _
  | abandonFunction _ | beginTopLevel | wrapTopLevel _ =>
    exact request_of_error rfl (ask_of_poisoned hf _)
  | declareVariable _ _ | assign _ _ | read _ | arith _ _ _ | compare _ _ _ | widen _ | call _ _ =>
    exact request_of_error rfl (code_of_poisoned hf _)
  | finishTopLevel _ _ =>
    -- The function is ended before it is verified, and that looks at the mark.
    exact request_of_error rfl (andThen_of_error (ask_of_poisoned hf _))

theorem close_of_poisoned (hf : s.poisonedBy = some f) : s.close = .error (.poisoned f) := by
  rw [close, ensureUsable_of_poisoned hf]
  rfl

/-- A constant is a value more, and nothing else. -/
theorem request_constant {r : Request} (hr : r.isConstant) (s : Session) :
    ∃ e, (s.request r).2 = s.withValue e := by
  cases r with
  | floatConstant x => exact ⟨_, rfl⟩
  | stringConstant bs => exact ⟨_, rfl⟩
  | _ => cases hr

/-- **What is poisoned stays as it is**, but for its constants. -/
theorem after_of_poisoned (hf : s.poisonedBy = some f) (later : List Request) :
    s.after later = { s with values := (s.after later).values } := by
  induction later generalizing s with
  | nil => rfl
  | cons r later ih =>
    have hcons : s.after (r :: later) = (s.request r).2.after later := rfl
    rw [hcons]
    cases hr : r.isConstant with
    | true =>
      obtain ⟨e, he⟩ := request_constant hr s
      rw [he]
      exact ih (s := s.withValue e) hf
    | false =>
      rw [request_of_poisoned hf hr]
      exact ih hf

/-- **When a function fails verification the session is poisoned**, and the cursor is gone. -/
theorem Steady.poisoned_of_unverified (hs : s.Steady) {r : Request} {message : String}
    (h : s.request r = (.error (.verification f message), t)) :
    t.poisonedBy = some f ∧ t.draft.cursor = none := by
  by_cases htext : ∃ v, r = .wrapTopLevel v ∧ s.poisonedBy = none ∧ s.IsText v
  · -- A constant that is no double is not wrapped, but no function is verified either.
    obtain ⟨v, rfl, hu, e, he, howner, htype⟩ := htext
    cases (request_of_error rfl (hs.wrapTopLevel_of_type_ne hu he howner htype)).symm.trans h
  · have horderly : s.Orderly (r.perform s) := by
      by_cases hr : ∃ v, r = .wrapTopLevel v
      · obtain ⟨v, rfl⟩ := hr
        exact (hs.orderly_wrapTopLevel fun hv => htext ⟨v, rfl, hv⟩).map _
      · exact hs.orderly_perform (not_exists.1 hr)
    rw [request] at h
    generalize r.perform s = result at h horderly
    cases horderly with
    | granted a t => cases h
    | refused err hrefusal =>
      cases h
      cases hrefusal
    | unverified f message t hpoisoned hcursor =>
      cases h
      exact ⟨hpoisoned, hcursor⟩

/-! ### How sessions are poisoned -/

/-- Sessions with the same function handles and the same mark. -/
structure Untouched (s t : Session) : Prop where
  functions : t.functions = s.functions
  poisonedBy : t.poisonedBy = s.poisonedBy

theorem Untouched.refl (s : Session) : s.Untouched s := ⟨rfl, rfl⟩

theorem Untouched.trans {u : Session} (h : s.Untouched t) (h' : t.Untouched u) : s.Untouched u :=
  ⟨h'.functions.trans h.functions, h'.poisonedBy.trans h.poisonedBy⟩

/-- What only builds code touches code alone. -/
theorem Builds.untouched {x : SessionM α} (hx : Builds x) (s : Session) :
    s.Untouched (result x s) := by
  have hsteps := hx s
  generalize result x s = t at hsteps
  induction hsteps with
  | refl => exact .refl s
  | tail _ hstep ih => exact ih.trans (by cases hstep <;> exact ⟨rfl, rfl⟩)

theorem untouched_endFunction (s : Session) (h : FunctionId) (v : ValueId) :
    s.Untouched (result (endFunction h v) s) := by
  refine result_query (.refl s) fun _ hu => result_query (.refl s) fun e _ =>
    result_query (.refl s) fun _ hends => result_query (.refl s) fun w _ => ?_
  show s.Untouched (result (returnValue e.index w) s)
  rcases returnValue_cases (site_of_checkEnds hu hends) w with ⟨err, h⟩ | ⟨c, _, _, _, _, h⟩
  · rw [result_error h]
    exact .refl s
  · rw [result_ok h]
    exact ⟨rfl, rfl⟩

theorem untouched_abandonFunction (s : Session) (h : FunctionId) :
    s.Untouched (result (abandonFunction h) s) := by
  rcases abandonFunction_cases s h with ⟨err, hfail⟩ | ⟨e, _, _, _, hok⟩
  · rw [result_error hfail]
    exact .refl s
  · rw [result_ok hok, withdrawn]
    split <;> exact ⟨rfl, rfl⟩

/-- A request under which a session is poisoned only by a function that fails verification, and
which then fails by the error that names the function. -/
def Tells (x : SessionM α) : Prop :=
  ∀ s f, s.poisonedBy = none → (result x s).poisonedBy = some f →
    ∃ message, x s = .error (.verification f message) (result x s)

theorem tells_of_poisonedBy {x : SessionM α} (h : ∀ s, (result x s).poisonedBy = s.poisonedBy) :
    Tells x := by
  intro s f hs hf
  rw [h s, hs] at hf
  cases hf

theorem tells_query (q : Session → Except Error α) : Tells (query q) := by
  refine tells_of_poisonedBy fun s => ?_
  unfold result query
  cases q s <;> rfl

theorem tells_bind {x : SessionM α} {k : α → SessionM β} (hx : Tells x) (hk : ∀ a, Tells (k a)) :
    Tells (x >>= k) := by
  intro s f hs hf
  cases h : x s with
  | error err u =>
    have hbind : (x >>= k) s = .error err u := andThen_of_error h
    rw [result_error hbind] at hf ⊢
    rw [← result_error h] at hf
    obtain ⟨message, hmessage⟩ := hx s f hs hf
    cases h.symm.trans hmessage
    exact ⟨message, hbind⟩
  | ok a u =>
    have hbind : (x >>= k) s = k a u := andThen_of_ok h
    have hresult : result (x >>= k) s = result (k a) u := by rw [result, hbind, result]
    -- If the first request had poisoned the session it would have failed.
    have hu : u.poisonedBy = none := by
      cases hpoisoned : u.poisonedBy with
      | none => rfl
      | some g =>
        obtain ⟨_, hmessage⟩ := hx s g hs (by rwa [result_ok h])
        cases h.symm.trans hmessage
    rw [hresult] at hf ⊢
    rw [hbind]
    exact hk a u f hu hf

theorem poisonedBy_beginTopLevel (s : Session) :
    (result beginTopLevel s).poisonedBy = s.poisonedBy := by
  rcases beginTopLevel_cases s with ⟨e, h⟩ | ⟨_, ⟨e, h⟩ | ⟨_, h⟩⟩
  · rw [result_error h]
  · rw [result_error h]
    rfl
  · rw [result_ok h]
    rfl

theorem tells_verifyFunction (h : FunctionId) : Tells (verifyFunction h) := by
  intro s f hs hf
  have hverdict := verifyFunction_verdict s h
  unfold result at hf ⊢
  generalize verifyFunction h s = r at hverdict hf
  cases hverdict with
  | refused err _ => cases hs.symm.trans hf
  | settled e _ _ => cases hs.symm.trans hf
  | faulty e err _ _ hincorrect =>
    obtain ⟨message, rfl⟩ := verification_of_error hincorrect
    cases hf
    exact ⟨message, rfl⟩
  | passed e _ _ _ _ _ => cases hs.symm.trans hf

theorem tells_finishTopLevel (h : FunctionId) (v : ValueId) : Tells (finishTopLevel h v) :=
  tells_bind (tells_of_poisonedBy fun s => (untouched_endFunction s h v).poisonedBy) fun _ =>
    tells_verifyFunction h

theorem tells_wrapTopLevel (v : ValueId) : Tells (wrapTopLevel v) :=
  tells_bind (tells_query _) fun _ => tells_bind (tells_query _) fun _ =>
    tells_bind (tells_of_poisonedBy poisonedBy_beginTopLevel) fun h =>
      tells_bind (tells_finishTopLevel h v) fun _ => tells_of_poisonedBy fun _ => rfl

/-- A request that verifies nothing poisons nothing. -/
theorem poisonedBy_request {r : Request} (hr : r.verifies = false) (s : Session) :
    (s.request r).2.poisonedBy = s.poisonedBy := by
  have built {γ : Type} {x : SessionM γ} (hx : Builds x) {g : γ → Reply} :
      (result (g <$> x) s).poisonedBy = s.poisonedBy := by
    rw [result_map]
    exact (hx.untouched s).poisonedBy
  rw [request_snd]
  cases r with
  | floatConstant c => exact built (builds_floatConstant c)
  | stringConstant bs => exact built (builds_stringConstant bs)
  | declareVariable v n => exact built (builds_declareVariable v n)
  | assign p v => exact built (builds_assign p v)
  | read p => exact built (builds_read p)
  | arith op a b => exact built (builds_arith op a b)
  | compare p a b => exact built (builds_compare p a b)
  | widen v => exact built (builds_widen v)
  | call h args => exact built (builds_call h args)
  | beginFunction n ps =>
    rw [Request.perform, result_map]
    rcases beginFunction_cases s n ps with ⟨e, h⟩ | ⟨_, _, _, _, h⟩
    · rw [result_error h]
    · rw [result_ok h]
      rfl
  | declareFunction n k =>
    rw [Request.perform, result_map]
    rcases declareFunction_cases s n k with ⟨e, h⟩ | ⟨_, _, _, h⟩
    · rw [result_error h]
    · rw [result_ok h]
      rfl
  | endFunction h v =>
    rw [Request.perform, result_map]
    exact (untouched_endFunction s h v).poisonedBy
  | abandonFunction h =>
    rw [Request.perform, result_map]
    exact (untouched_abandonFunction s h).poisonedBy
  | beginTopLevel =>
    rw [Request.perform, result_map]
    exact poisonedBy_beginTopLevel s
  | verifyFunction h => cases hr
  | finishTopLevel h v => cases hr
  | wrapTopLevel v => cases hr

/-- **Only a request that verifies a function poisons a session**, and says so. -/
theorem request_poisons {r : Request} (hs : s.poisonedBy = none)
    (hf : (s.request r).2.poisonedBy = some f) :
    r.verifies ∧ ∃ message, (s.request r).1 = .error (.verification f message) := by
  have told {γ : Type} {x : SessionM γ} (hx : Tells x) {g : γ → Reply}
      (hperform : r.perform = g <$> x) : ∃ message, (s.request r).1 =
        .error (.verification f message) := by
    rw [request_snd, hperform, result_map] at hf
    obtain ⟨message, hmessage⟩ := hx s f hs hf
    exact ⟨message, by rw [request_of_error hperform hmessage]⟩
  cases hr : r.verifies with
  | false =>
    rw [poisonedBy_request hr, hs] at hf
    cases hf
  | true =>
    refine ⟨rfl, ?_⟩
    cases r with
    | verifyFunction h => exact told (tells_verifyFunction h) rfl
    | finishTopLevel h v => exact told (tells_finishTopLevel h v) rfl
    | wrapTopLevel v => exact told (tells_wrapTopLevel v) rfl
    | _ => cases hr

theorem after_append (s : Session) (before later : List Request) :
    s.after (before ++ later) = (s.after before).after later :=
  List.foldl_append

theorem after_concat (s : Session) (history : List Request) (r : Request) :
    s.after (history ++ [r]) = ((s.after history).request r).2 :=
  after_append s history [r]

/-- A session that is poisoned was so by a request of its history. -/
theorem exists_unverified (hs : s.poisonedBy = none) {history : List Request}
    (hf : (s.after history).poisonedBy = some f) :
    ∃ before r rest, history = before ++ r :: rest ∧ r.verifies ∧
      ∃ message, ((s.after before).request r).1 = .error (.verification f message) := by
  induction history using List.reverseRecOn with
  | nil => cases hs.symm.trans hf
  | append_singleton history r ih =>
    rw [after_concat] at hf
    cases hpoisoned : (s.after history).poisonedBy with
    | none => exact ⟨history, r, [], rfl, request_poisons hpoisoned hf⟩
    | some g =>
      -- The mark does not change any more, so it was set before.
      have hsame : ((s.after history).request r).2.poisonedBy = some g := by
        have hone := after_of_poisoned hpoisoned [r]
        rw [show (s.after history).after [r] = ((s.after history).request r).2 from rfl] at hone
        rw [hone]
        exact hpoisoned
      obtain rfl : g = f := Option.some.inj (hsame.symm.trans hf)
      obtain ⟨before, r', rest, rfl, hr'⟩ := ih hpoisoned
      exact ⟨before, r', rest ++ [r], by simp, hr'⟩

/-! ### Histories -/

/-- **Poisoning is permanent and total.** When a request of any history fails since the function `f`
fails verification, the cursor is gone, and whatever is asked of the session from then on, nothing
in it changes but its constants: it does not close, and every request for anything but a constant is
refused under the name `f`. And a session is poisoned under a name only after a request to verify a
function, alone or at the end of a top-level expression, has failed under that name. -/
theorem poisoned_for_good (id : Nat) (o : SessionOptions) (target : Target)
    (history : List Request) :
    let s := (start id o target).after history
    (∀ r f message, (s.request r).1 = .error (.verification f message) →
      let p := (s.request r).2
      p.draft.cursor = none ∧ ∀ later,
        let t := p.after later
        t = { p with values := t.values } ∧ t.close = .error (.poisoned f) ∧
          ∀ q : Request, q.isConstant = false → t.request q = (.error (.poisoned f), t)) ∧
    ∀ f, s.poisonedBy = some f →
      ∃ before r rest, history = before ++ r :: rest ∧ r.verifies ∧
        ∃ message, (((start id o target).after before).request r).1 =
          .error (.verification f message) := by
  intro s
  constructor
  · intro r f message h p
    have hs : s.Steady := .after id o target history
    obtain ⟨hpoisoned, hcursor⟩ := hs.poisoned_of_unverified (t := p) (Prod.ext h rfl)
    refine ⟨hcursor, fun later => ?_⟩
    intro t
    have ht : t = { p with values := t.values } := after_of_poisoned hpoisoned later
    have hmark : t.poisonedBy = some f := by
      rw [ht]
      exact hpoisoned
    exact ⟨ht, close_of_poisoned hmark, fun q hq => request_of_poisoned hmark hq⟩
  · intro f hf
    exact exists_unverified rfl hf

/-- A function that is verified before it returns poisons its session. There a constant can still be
made, but no function can be begun. -/
theorem poisoned_for_good_begun :
    let target : Target := { triple := Target.host, arch := "x86_64", os := "linux" }
    let begun : List Request := [.beginFunction "f" ["x"]]
    let verified : List Request := [.beginFunction "f" ["x"], .verifyFunction ⟨0, 0⟩]
    let p := (start 0 {} target).after verified
    let t := p.after [.floatConstant 1.5, .beginTopLevel]
    (((start 0 {} target).after begun).request (.verifyFunction ⟨0, 0⟩)).1 =
        .error (.verification "f" "block 'entry' is empty") ∧
      t.values.size = p.values.size + 1 ∧ t.module = p.module ∧
      t.request (.beginFunction "g" []) = (.error (.poisoned "f"), t) ∧
      p.poisonedBy = some "f" ∧
      ∃ before r rest, verified = before ++ r :: rest ∧ r.verifies := by
  intro target begun verified p t
  have hverify : (((start 0 {} target).after begun).request (.verifyFunction ⟨0, 0⟩)).1 =
      .error (.verification "f" "block 'entry' is empty") := by decide +kernel
  obtain ⟨_, hlater⟩ := (poisoned_for_good 0 {} target begun).1 _ _ _ hverify
  obtain ⟨ht, _, hrefused⟩ := hlater [.floatConstant 1.5, .beginTopLevel]
  have hmodule := congrArg Session.module ht
  have hp : p.poisonedBy = some "f" := by decide +kernel
  obtain ⟨before, r, rest, hsplit, hr, _⟩ := (poisoned_for_good 0 {} target verified).2 "f" hp
  exact ⟨hverify, by decide +kernel, hmodule, hrefused _ rfl, hp, before, r, rest, hsplit, hr⟩

end Session

end StraightLine
