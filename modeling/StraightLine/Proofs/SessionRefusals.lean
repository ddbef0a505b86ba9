import StraightLine.Proofs.SessionNames
import StraightLine.Proofs.SessionTyping

/-!
# Requests that are refused

A session checks a request in full before it builds anything. What it then does cannot fail, since
the cursor is always behind a block (`Session.Aimed`, which every step keeps) and new names are
new. So a request that is not granted is refused without a trace, or a function has failed
verification (`Session.Orderly`). The one exception is the request to wrap a value, which begins a
function before it looks at the type of the value.
-/

namespace StraightLine

/-- An error by which a session refuses a request. -/
def Error.isRefusal : Error → Bool
  | construction _ _ | staleHandle _ | poisoned _ => true
  | _ => false

namespace Session

variable {α β : Type} {s t u : Session}

/-! ### The cursor -/

/-- The cursor, if there is one, is behind the only block of a function. -/
def Aimed (s : Session) : Prop :=
  ∀ c, s.draft.cursor = some c → ∃ f b, s.module.functions[c.function]? = some f ∧
    f.blocks = [b] ∧ b.id = c.block

namespace Aimed

theorem start (id : Nat) (o : SessionOptions) (t : Target) : (Session.start id o t).Aimed := by
  intro c hc
  cases hc

/-- The cursor stays behind its block when a function is changed that keeps its block. -/
theorem modified (hs : s.Aimed) {place : Nat} {g : Function → Function}
    (hcursor : t.draft.cursor = s.draft.cursor) (hmodule : t.module = s.module.modify place g)
    (hg : ∀ f b, f.blocks = [b] → ∃ b', (g f).blocks = [b'] ∧ b'.id = b.id) : t.Aimed := by
  intro c hc
  obtain ⟨f, b, hf, hb, hid⟩ := hs c (hcursor ▸ hc)
  rw [hmodule]
  by_cases hplace : place = c.function
  · subst hplace
    obtain ⟨b', hb', hid'⟩ := hg f b hb
    exact ⟨g f, b', functions_modify hf g, hb', hid'.trans hid⟩
  · exact ⟨f, b, (functions_modify_of_ne hplace g).trans hf, hb, hid⟩

theorem appended (hs : s.Aimed) (c : Cursor) (i : Instr) : (s.appended c i).Aimed := by
  refine hs.modified (g := (·.appendTo c.block i)) rfl rfl fun f b hb => ?_
  rw [Function.appendTo, hb, Function.appendToBlocks, Function.appendToBlocks]
  split
  · exact ⟨_, rfl, rfl⟩
  · exact ⟨b, rfl, rfl⟩

/-- **Every step keeps the cursor behind a block.** -/
theorem step (hs : s.Aimed) (h : s.Step t) : t.Aimed := by
  cases h with
  | withdrawn e _ _ _ =>
    unfold Session.withdrawn
    split
    next =>
      intro c hc
      cases hc
    next hcursor =>
      intro c hc
      have hplace : e.index ≠ c.function := by
        rintro heq
        simp [show s.draft.cursor = some c from hc, heq] at hcursor
      obtain ⟨f, b, hf, hb⟩ := hs c hc
      exact ⟨f, b, (functions_modify_of_ne hplace _).trans hf, hb⟩
  | grow t h =>
    cases h with
    | code t h =>
      cases h with
      | define c f b i _ _ _ => exact (show s.numbered.Aimed from hs).appended c i
      | append c f b i _ _ _ => exact hs.appended c i
      | _ => exact hs
    | name _ => exact hs
    | opened name params _ _ _ _ =>
      intro c hc
      obtain rfl : _ = c := Option.some.inj hc
      exact ⟨_, _, List.getElem?_concat_length, rfl, rfl⟩
    | declared name arity _ _ _ =>
      intro c hc
      obtain ⟨f, b, hf, hb⟩ := hs c hc
      refine ⟨f, b, ?_, hb⟩
      change (s.module.functions ++ [_])[c.function]? = some f
      rw [List.getElem?_append_left (List.getElem?_eq_some_iff.1 hf).1, hf]
    | ended c f b v _ _ =>
      exact (hs.appended c (.ret v)).modified rfl rfl fun f b hb => ⟨b, hb, rfl⟩
    | verified e f _ _ _ _ _ _ => exact hs.modified rfl rfl fun f b hb => ⟨b, hb, rfl⟩
    | poisoned e f err _ _ _ _ =>
      intro c hc
      cases hc

/-- Where instructions go there is an open block. -/
theorem exists_site (hs : s.Aimed) (hformed : s.Formed) {place : Nat} (h : s.site = .ok place) :
    ∃ c f b, s.Site c f b ∧ c.function = place := by
  obtain ⟨hu, c, f, hc, rfl, hf, hstage⟩ := site_eq_ok h
  obtain ⟨f', b, hf', hb, hid⟩ := hs c hc
  obtain rfl : f' = f := Option.some.inj (hf'.symm.trans hf)
  obtain ⟨b', _, hb', hopen⟩ := (hformed.functions f' (List.mem_of_getElem? hf)).of_building hstage
  obtain rfl : b' = b := List.head_eq_of_cons_eq (hb'.symm.trans hb)
  refine ⟨c, f', b', ⟨hu, hc, hf, hstage, ?_, ?_⟩, rfl⟩
  · simp [Function.block?, hb, hid]
  · rw [Block.isTerminated, Option.any_eq_false]
    intro i hi
    simpa using hopen i (List.mem_of_getLast? hi)

end Aimed

/-- What every history leaves behind that requests rely on. -/
structure Steady (s : Session) : Prop where
  formed : s.Formed
  named : s.Named
  aimed : s.Aimed

theorem Steady.after (id : Nat) (o : SessionOptions) (t : Target) (history : List Request) :
    ((Session.start id o t).after history).Steady := by
  refine after_induction (fun s t hs h => ?_) ⟨.start id o t, .start id o t, .start id o t⟩ history
  exact ⟨hs.formed.step h, hs.named.step h, hs.aimed.step h⟩

/-! ### Queries -/

/-- An answer to a query that, if it is an error, is a refusal. -/
def Graceful : Except Error α → Prop
  | .ok _ => True
  | .error err => err.isRefusal

theorem Graceful.isRefusal {r : Except Error α} (hr : Graceful r) {err : Error}
    (h : r = .error err) : err.isRefusal := by
  rw [h] at hr
  exact hr

theorem Graceful.bind {r : Except Error α} {k : α → Except Error β} (hr : Graceful r)
    (hk : ∀ a, Graceful (k a)) : Graceful (r >>= k) := by
  cases r with
  | ok a => exact hk a
  | error err => exact hr

theorem graceful_ensureUsable (s : Session) : Graceful s.ensureUsable := by
  unfold ensureUsable
  split
  · exact rfl
  · exact trivial

theorem graceful_underConstruction (s : Session) : Graceful s.underConstruction := by
  unfold underConstruction
  split
  · exact rfl
  · dsimp only
    split
    · exact trivial
    · exact rfl

theorem graceful_site (s : Session) : Graceful s.site :=
  (graceful_ensureUsable s).bind fun _ => graceful_underConstruction s

/-- A handle that leads nowhere is stale. -/
theorem graceful_resolve {k : HandleKind} (h : Handle k) (session : Nat) (arena : Array α) :
    Graceful (h.resolve session arena) := by
  unfold Handle.resolve
  split
  · split
    · exact trivial
    · exact rfl
  · exact rfl

theorem graceful_operandIn (s : Session) (place : Nat) (v : ValueId) :
    Graceful (s.operandIn place v) := by
  refine (graceful_resolve v s.id s.values).bind fun e => ?_
  split
  · split
    · exact trivial
    · exact rfl
  · exact trivial

theorem graceful_doubleIn (s : Session) (place : Nat) (v : ValueId) :
    Graceful (s.doubleIn place v) := by
  refine (graceful_operandIn s place v).bind fun e => ?_
  split
  · exact trivial
  · exact rfl

theorem graceful_flagIn (s : Session) (place : Nat) (v : ValueId) :
    Graceful (s.flagIn place v) := by
  refine (graceful_operandIn s place v).bind fun e => ?_
  split
  · exact trivial
  · exact rfl

theorem graceful_pointerIn (s : Session) (place : Nat) (h : SlotId) :
    Graceful (s.pointerIn place h) := by
  refine (graceful_resolve h s.id s.slots).bind fun e => ?_
  split
  · exact trivial
  · exact rfl

theorem graceful_mapM_doubleIn (s : Session) (place : Nat) (vs : List ValueId) :
    Graceful (vs.mapM (s.doubleIn place)) := by
  induction vs with
  | nil => exact trivial
  | cons v vs ih =>
    rw [List.mapM_cons]
    exact (graceful_doubleIn s place v).bind fun _ => ih.bind fun _ => trivial

theorem graceful_callee (s : Session) (f : FunctionId) : Graceful (s.callee f) := by
  have hfunction : Graceful (s.function f) := by
    have hentry : Graceful (s.entry f) := graceful_resolve f s.id s.functions
    rw [function]
    cases h : s.entry f with
    | ok e => exact trivial
    | error err => exact hentry.isRefusal h
  refine hfunction.bind fun g => ?_
  split
  · exact trivial
  · exact rfl

theorem graceful_checkArity (s : Session) (place : Nat) (g : Function) (given : Nat) :
    Graceful (s.checkArity place g given) := by
  unfold checkArity
  split
  · exact trivial
  · exact rfl

theorem graceful_checkNotReserved (s : Session) (name : String) :
    Graceful (s.checkNotReserved name) := by
  unfold checkNotReserved
  split
  · exact rfl
  · exact trivial

theorem graceful_checkNewName (s : Session) (name : String) : Graceful (s.checkNewName name) := by
  unfold checkNewName
  split
  · exact rfl
  · split
    · exact rfl
    · exact trivial

theorem graceful_checkParams (name : String) (params : List String) :
    Graceful (checkParams name params) := by
  unfold checkParams
  split
  · exact rfl
  · exact trivial

theorem graceful_checkEnds (s : Session) (place : Nat) : Graceful (s.checkEnds place) := by
  unfold checkEnds
  dsimp only
  split
  · split
    · exact trivial
    · exact rfl
  · exact rfl

/-! ### Requests -/

/-- What may come of a request: it is granted, or refused without a trace, or a function has failed
verification and the session is poisoned. -/
inductive Orderly (s : Session) : EStateM.Result Error Session α → Prop
  | granted (a : α) (t : Session) : Orderly s (.ok a t)
  | refused (err : Error) (refusal : err.isRefusal) : Orderly s (.error err s)
  | unverified (function message : String) (t : Session)
      (poisoned : t.poisonedBy = some function) (cursor : t.draft.cursor = none) :
      Orderly s (.error (.verification function message) t)

theorem orderly_ok {r : EStateM.Result Error Session α} {a : α} (h : r = .ok a t) :
    s.Orderly r := by
  rw [h]
  exact .granted a t

/-- A query comes before anything is built. -/
theorem Orderly.ask {q : Session → Except Error α} {k : α → SessionM β} (hq : Graceful (q s))
    (hk : ∀ a, q s = .ok a → s.Orderly (k a s)) : s.Orderly ((query q >>= k) s) := by
  cases h : q s with
  | ok a =>
    rw [bind_query_of_ok h]
    exact hk a h
  | error err =>
    rw [bind_query_of_error h]
    exact .refused err (hq.isRefusal h)

theorem Orderly.map {x : SessionM α} (h : s.Orderly (x t)) (g : α → β) :
    s.Orderly ((g <$> x) t) := by
  change s.Orderly (EStateM.map g x t)
  unfold EStateM.map
  cases hx : x t with
  | ok a u => exact .granted (g a) u
  | error err u =>
    rw [hx] at h
    cases h with
    | refused _ hrefusal => exact .refused err hrefusal
    | unverified f message _ hpoisoned hcursor => exact .unverified f message u hpoisoned hcursor

namespace Steady

/-- Every request for code starts by looking for the function under construction. -/
theorem orderly_code (hs : s.Steady) {k : Nat → SessionM α}
    (hk : ∀ {c f b}, s.Site c f b → s.Orderly (k c.function s)) :
    s.Orderly ((cursorFunction >>= k) s) := by
  rw [cursorFunction_eq]
  refine .ask (graceful_site s) fun place hplace => ?_
  obtain ⟨c, f, b, hsite, rfl⟩ := hs.aimed.exists_site hs.formed hplace
  exact hk hsite

theorem orderly_arith (hs : s.Steady) (op : Arith) (lhs rhs : ValueId) :
    s.Orderly (arith op lhs rhs s) :=
  hs.orderly_code fun hsite => .ask (graceful_doubleIn ..) fun _ _ =>
    .ask (graceful_doubleIn ..) fun _ _ => orderly_ok (emit_of_site hsite _ _)

theorem orderly_compare (hs : s.Steady) (p : Predicate) (lhs rhs : ValueId) :
    s.Orderly (compare p lhs rhs s) :=
  hs.orderly_code fun hsite => .ask (graceful_doubleIn ..) fun _ _ =>
    .ask (graceful_doubleIn ..) fun _ _ => orderly_ok (emit_of_site hsite _ _)

theorem orderly_widen (hs : s.Steady) (value : ValueId) : s.Orderly (widen value s) :=
  hs.orderly_code fun hsite => .ask (graceful_flagIn ..) fun _ _ =>
    orderly_ok (emit_of_site hsite _ _)

theorem orderly_read (hs : s.Steady) (slot : SlotId) : s.Orderly (read slot s) :=
  hs.orderly_code fun hsite => .ask (graceful_pointerIn ..) fun _ _ =>
    orderly_ok (emit_of_site hsite _ _)

theorem orderly_call (hs : s.Steady) (f : FunctionId) (args : List ValueId) :
    s.Orderly (call f args s) :=
  hs.orderly_code fun hsite => .ask (graceful_callee s f) fun _ _ =>
    .ask (graceful_checkArity ..) fun _ _ => .ask (graceful_mapM_doubleIn ..) fun _ _ =>
      orderly_ok (emit_of_site hsite _ _)

theorem orderly_declareVariable (hs : s.Steady) (initial : ValueId) (name : String) :
    s.Orderly (declareVariable initial name s) :=
  hs.orderly_code fun hsite => .ask (graceful_doubleIn ..) fun v _ =>
    orderly_ok (makeVariable_of_site hsite v name)

theorem orderly_assign (hs : s.Steady) (slot : SlotId) (value : ValueId) :
    s.Orderly (assign slot value s) :=
  hs.orderly_code fun hsite => .ask (graceful_pointerIn ..) fun _ _ =>
    .ask (graceful_doubleIn ..) fun _ _ => orderly_ok (append_of_site hsite _)

theorem orderly_endFunction (hs : s.Steady) (function : FunctionId) (value : ValueId) :
    s.Orderly (endFunction function value s) := by
  refine .ask (graceful_ensureUsable s) fun _ hu => .ask (graceful_resolve ..) fun e _ =>
    .ask (graceful_checkEnds s e.index) fun _ hends => .ask (graceful_doubleIn ..) fun v _ => ?_
  obtain ⟨c, f, b, hsite, hplace⟩ :=
    hs.aimed.exists_site hs.formed (site_of_checkEnds hu hends)
  rw [← hplace]
  exact orderly_ok (returnValue_of_site hsite v)

end Steady

theorem orderly_openFunction (s : Session) (name : String) (params : List String) :
    s.Orderly (openFunction name params s) := by
  refine .ask (graceful_checkNewName s name) fun _ hname =>
    .ask (graceful_checkParams name params) fun _ hparams => ?_
  have h := openFunction_of_ok hname hparams
  rw [openFunction, bind_query_of_ok hname, bind_query_of_ok hparams] at h
  exact orderly_ok h

theorem orderly_beginFunction (s : Session) (name : String) (params : List String) :
    s.Orderly (beginFunction name params s) :=
  .ask (graceful_ensureUsable s) fun _ _ => .ask (graceful_checkNotReserved s name) fun _ _ =>
    orderly_openFunction s name params

theorem orderly_declareFunction (s : Session) (name : String) (arity : Nat) :
    s.Orderly (declareFunction name arity s) :=
  .ask (graceful_ensureUsable s) fun _ _ => .ask (graceful_checkNotReserved s name) fun _ _ =>
    .ask (graceful_checkNewName s name) fun _ _ => orderly_ok rfl

/-- The name of a function around a top-level expression is new, so that to begin one fails only in
a session that is poisoned. -/
theorem Steady.orderly_beginTopLevel (hs : s.Steady) : s.Orderly (beginTopLevel s) := by
  cases hu : s.ensureUsable with
  | ok _ => exact orderly_ok (hs.named.beginTopLevel (ensureUsable_eq_ok.1 hu)).2
  | error err =>
    rw [beginTopLevel, bind_query_of_error hu]
    exact .refused err ((graceful_ensureUsable s).isRefusal hu)

/-- A function is not verified after it was abandoned. -/
theorem verifyFunction_of_abandoned {function : FunctionId} {e : FunctionEntry}
    (hu : s.ensureUsable = .ok ()) (he : s.entry function = .ok e)
    (hstage : (s.functionAt e.index).stage = .abandoned) :
    verifyFunction function s =
      .error ((Refusal.abandoned (s.functionAt e.index).name).error (s.functionAt e.index).name)
        s := by
  rw [verifyFunction, bind_query_of_ok hu, bind_query_of_ok he]
  simp only [bind, EStateM.bind, get, getThe, MonadStateOf.get, EStateM.get, hstage]
  rfl

/-- To verify a function that was not abandoned is granted, or the function fails. -/
theorem orderly_verifyFunction_of_live {function : FunctionId} {e : FunctionEntry}
    (hu : t.poisonedBy = none) (he : t.entry function = .ok e)
    (hstage : (t.functionAt e.index).stage ≠ .abandoned) (s : Session) :
    s.Orderly (verifyFunction function t) := by
  have hverdict := verifyFunction_verdict t function
  generalize verifyFunction function t = r at hverdict
  cases hverdict with
  | refused err hreason => exact absurd (hreason hu e he) hstage
  | settled _ _ _ => exact .granted () t
  | faulty _ err _ _ hincorrect =>
    obtain ⟨message, rfl⟩ := verification_of_error hincorrect
    exact .unverified _ message _ rfl rfl
  | passed _ _ _ _ _ _ => exact .granted () _

theorem orderly_verifyFunction (s : Session) (function : FunctionId) :
    s.Orderly (verifyFunction function s) := by
  cases hu : s.ensureUsable with
  | error err =>
    rw [verifyFunction, bind_query_of_error hu]
    exact .refused err ((graceful_ensureUsable s).isRefusal hu)
  | ok _ =>
    cases he : s.entry function with
    | error err =>
      rw [verifyFunction, bind_query_of_ok hu, bind_query_of_error he]
      exact .refused err ((graceful_resolve function s.id s.functions).isRefusal he)
    | ok e =>
      by_cases hstage : (s.functionAt e.index).stage = .abandoned
      · rw [verifyFunction_of_abandoned hu he hstage]
        exact .refused _ rfl
      · exact orderly_verifyFunction_of_live (ensureUsable_eq_ok.1 hu) he hstage s

theorem orderly_abandonFunction (s : Session) (function : FunctionId) :
    s.Orderly (abandonFunction function s) := by
  refine .ask (graceful_ensureUsable s) fun _ hu => .ask (graceful_resolve ..) fun e he => ?_
  by_cases hstage : (s.functionAt e.index).stage = .verified
  · change s.Orderly ((if (s.functionAt e.index).stage = .verified then _ else _ : SessionM Unit) s)
    rw [if_pos hstage]
    exact .refused _ rfl
  · have h := abandonFunction_of_ok (ensureUsable_eq_ok.1 hu) he hstage
    rw [abandonFunction, bind_query_of_ok hu, bind_query_of_ok he] at h
    exact orderly_ok h

/-- A function that is ended is the one under construction. -/
theorem endFunction_eq_ok {function : FunctionId} {value : ValueId}
    (h : endFunction function value s = .ok () t) :
    ∃ e c f b v, s.entry function = .ok e ∧ s.Site c f b ∧ c.function = e.index ∧
      t = s.returned c v := by
  obtain ⟨_, hu, h⟩ := ask_eq_ok.1 h
  obtain ⟨e, he, h⟩ := ask_eq_ok.1 h
  obtain ⟨_, hends, h⟩ := ask_eq_ok.1 h
  obtain ⟨v, _, h⟩ := ask_eq_ok.1 h
  rcases returnValue_cases (site_of_checkEnds hu hends) v with
    ⟨err, herr⟩ | ⟨c, f, b, hsite, hc, hok⟩
  · cases herr.symm.trans h
  · cases hok.symm.trans h
    exact ⟨e, c, f, b, v, he, hsite, hc, rfl⟩

/-- After a function was ended it is there to be verified. -/
theorem orderly_verifyFunction_of_ended {function : FunctionId} {value : ValueId}
    (h : endFunction function value t = .ok () u) (s : Session) :
    s.Orderly (verifyFunction function u) := by
  obtain ⟨e, c, f, b, v, he, hsite, hc, rfl⟩ := endFunction_eq_ok h
  have hstage : ((t.returned c v).functionAt e.index).stage = .terminated := by
    rw [functionAt, returned_eq, ← hc]
    change ((t.module.modify c.function _).functions[c.function]?.getD _).stage = _
    rw [functions_modify hsite.function, Option.getD_some]
  exact orderly_verifyFunction_of_live (t := t.returned c v) hsite.usable he (by simp [hstage]) s

theorem Steady.orderly_finishTopLevel (hs : s.Steady) (wrapper : FunctionId) (value : ValueId) :
    s.Orderly (finishTopLevel wrapper value s) := by
  have hend := hs.orderly_endFunction wrapper value
  cases h : endFunction wrapper value s with
  | error err t =>
    rw [h] at hend
    rw [finishTopLevel, andThen_of_error h]
    cases hend with
    | refused _ hrefusal => exact .refused err hrefusal
    | unverified f message _ hpoisoned hcursor => exact .unverified f message t hpoisoned hcursor
  | ok _ t =>
    rw [finishTopLevel, andThen_of_ok h]
    exact orderly_verifyFunction_of_ended h s

/-- **What may come of a request.** -/
theorem Steady.orderly_perform (hs : s.Steady) {r : Request} (hr : ∀ v, r ≠ .wrapTopLevel v) :
    s.Orderly (r.perform s) := by
  cases r with
  | floatConstant x => exact .granted _ _
  | stringConstant bs => exact .granted _ _
  | beginFunction n ps => exact (orderly_beginFunction s n ps).map _
  | declareFunction n k => exact (orderly_declareFunction s n k).map _
  | endFunction f v => exact (hs.orderly_endFunction f v).map _
  | verifyFunction f => exact (orderly_verifyFunction s f).map _
  | abandonFunction f => exact (orderly_abandonFunction s f).map _
  | declareVariable v n => exact (hs.orderly_declareVariable v n).map _
  | assign p v => exact (hs.orderly_assign p v).map _
  | read p => exact (hs.orderly_read p).map _
  | arith op a b => exact (hs.orderly_arith op a b).map _
  | compare p a b => exact (hs.orderly_compare p a b).map _
  | widen v => exact (hs.orderly_widen v).map _
  | call f args => exact (hs.orderly_call f args).map _
  | beginTopLevel => exact hs.orderly_beginTopLevel.map _
  | finishTopLevel f v => exact (hs.orderly_finishTopLevel f v).map _
  | wrapTopLevel v => exact absurd rfl (hr v)

/-- **A request that is refused changes nothing.** After every history, and whatever handles a
request is given, other than one to wrap a value: if it is refused, by an error of construction or
as it comes with a stale handle or to a poisoned session, then the whole session is as before; and
it never fails by an error of the library itself. -/
theorem refused_unchanged (id : Nat) (o : SessionOptions) (target : Target)
    (history : List Request) (r : Request) (hr : ∀ v, r ≠ .wrapTopLevel v) :
    let s := (start id o target).after history
    ∀ err t, s.request r = (.error err, t) →
      (err.isRefusal → t = s) ∧ ∀ message, err ≠ .internal message := by
  intro s err t h
  have horderly := (Steady.after id o target history).orderly_perform hr
  change s.Orderly _ at horderly
  rw [request] at h
  generalize r.perform s = result at h horderly
  cases horderly with
  | granted a t => cases h
  | refused err hrefusal =>
    cases h
    refine ⟨fun _ => rfl, fun message heq => ?_⟩
    rw [heq] at hrefusal
    cases hrefusal
  | unverified f message t =>
    cases h
    refine ⟨fun hrefusal => ?_, fun message heq => ?_⟩
    · cases hrefusal
    · cases heq

/-- Where a function is under construction, a sum with a string, a call with too few arguments and
the variable of another session are refused, and nothing has changed. -/
theorem refused_unchanged_sum :
    let target : Target := { triple := Target.host, arch := "x86_64", os := "linux" }
    let s := (start 0 {} target).after [.beginFunction "f" ["x"], .stringConstant [104, 105]]
    (∃ f message, s.request (.arith .add ⟨0, 0⟩ ⟨0, 1⟩) = (.error (.construction f message), s)) ∧
      (∃ f message, s.request (.call ⟨0, 0⟩ []) = (.error (.construction f message), s)) ∧
      ∃ message, s.request (.read ⟨1, 0⟩) = (.error (.staleHandle message), s) := by
  intro target s
  have unchanged {r : Request} (hr : ∀ v, r ≠ .wrapTopLevel v) {err : Error}
      (hrefusal : err.isRefusal) (h : (s.request r).1 = .error err) :
      s.request r = (.error err, s) := by
    have hrequest : s.request r = (.error err, (s.request r).2) := Prod.ext h rfl
    have ht := (refused_unchanged 0 {} target _ r hr err (s.request r).2 hrequest).1 hrefusal
    rwa [ht] at hrequest
  have hsum : (s.request (.arith .add ⟨0, 0⟩ ⟨0, 1⟩)).1 =
      .error ((Refusal.notDouble ⟨0, 1⟩ (.bytes 2)).error "f") := by decide +kernel
  have hcall : (s.request (.call ⟨0, 0⟩ [])).1 =
      .error ((Refusal.wrongArity "f" 1 0).error "f") := by decide +kernel
  have hread : (s.request (.read ⟨1, 0⟩)).1 = .error ((⟨1, 0⟩ : SlotId).foreign 0) := by
    decide +kernel
  exact ⟨⟨_, _, unchanged (by simp) rfl hsum⟩, ⟨_, _, unchanged (by simp) rfl hcall⟩,
    _, unchanged (by simp) rfl hread⟩

end Session

end StraightLine
