import StraightLine.Proofs.Optimization
import StraightLine.Proofs.SessionSafety

/-!
# What the options of a session decide

No request looks at the options or the target of its session (`Session.Blind`): they only choose the
passes that run when the session is closed, and whether the module is verified between them. What a
session builds is safe, so that passes keep not only what its functions return but also how they
fail. Together, no program can tell the options of its session (`Session.close_options`).
-/

namespace StraightLine

/-! ### Requests do not look at the options -/

namespace Session

/-- The session with other options and another target. -/
def retuned (o : SessionOptions) (t : Target) (s : Session) : Session :=
  { s with options := o, target := t }

/-- What a request gives, and the session after it with other options and another target. -/
def retunedResult {α : Type} (o : SessionOptions) (t : Target) :
    EStateM.Result Error Session α → EStateM.Result Error Session α
  | .ok a s => .ok a (s.retuned o t)
  | .error e s => .error e (s.retuned o t)

/-- A request that does not look at the options or the target, and leaves them as they are. -/
def Blind {α : Type} (x : SessionM α) : Prop :=
  ∀ o t s, x (retuned o t s) = retunedResult o t (x s)

section Blind

variable {α β : Type}

theorem blind_pure (a : α) : Blind (pure a : SessionM α) := fun _ _ _ => rfl

theorem blind_throw (e : Error) : Blind (throw e : SessionM α) := fun _ _ _ => rfl

/-- A change of the session that neither reads nor changes the options. -/
theorem blind_modifyGet {f : Session → α × Session}
    (hf : ∀ o t s, f (retuned o t s) = ((f s).1, (f s).2.retuned o t)) :
    Blind (modifyGet f : SessionM α) := by
  intro o t s
  change EStateM.Result.ok _ _ = _
  rw [hf]
  rfl

theorem blind_bind {x : SessionM α} {k : α → SessionM β} (hx : Blind x) (hk : ∀ a, Blind (k a)) :
    Blind (x >>= k) := by
  intro o t s
  change EStateM.bind x k _ = retunedResult o t (EStateM.bind x k s)
  unfold EStateM.bind
  rw [hx o t s]
  cases x s with
  | ok a s => exact hk a o t s
  | error e s => rfl

theorem blind_map (f : α → β) {x : SessionM α} (hx : Blind x) : Blind (f <$> x) := by
  intro o t s
  change EStateM.map f x _ = retunedResult o t (EStateM.map f x s)
  unfold EStateM.map
  rw [hx o t s]
  cases x s <;> rfl

theorem blind_query {q : Session → Except Error α} (hq : ∀ o t s, q (retuned o t s) = q s) :
    Blind (query q) := by
  intro o t s
  unfold query
  rw [hq]
  cases q s <;> rfl

theorem blind_ask {q : Session → Except Error α} {k : α → SessionM β}
    (hq : ∀ o t s, q (retuned o t s) = q s) (hk : ∀ a, Blind (k a)) : Blind (query q >>= k) :=
  blind_bind (blind_query hq) hk

theorem blind_build (b : Building α) : Blind (build b) := by
  intro o t s
  have hdraft : (retuned o t s).draft = s.draft := rfl
  unfold build
  rw [hdraft]
  cases b s.draft <;> rfl

theorem blind_get {k : Session → SessionM α} (hk : ∀ s, Blind (k s))
    (hs : ∀ o t s, k (retuned o t s) = k s) : Blind (get >>= k) := by
  intro o t s
  change k (retuned o t s) (retuned o t s) = retunedResult o t (k s s)
  rw [hs, hk s o t s]

theorem blind_mapM {f : α → SessionM β} (hf : ∀ a, Blind (f a)) (as : List α) :
    Blind (as.mapM f) := by
  induction as with
  | nil => exact blind_pure []
  | cons a as ih =>
    rw [List.mapM_cons]
    exact blind_bind (hf a) fun b => blind_bind ih fun bs => blind_pure (b :: bs)

end Blind

theorem blind_addValue (e : ValueEntry) : Blind (addValue e) := blind_modifyGet fun _ _ _ => rfl

theorem blind_addSlot (e : SlotEntry) : Blind (addSlot e) := blind_modifyGet fun _ _ _ => rfl

theorem blind_addEntry (e : FunctionEntry) : Blind (addEntry e) := blind_modifyGet fun _ _ _ => rfl

/-! ### Requests for code -/

/-- The beginning of every request for code. -/
theorem blind_cursorFunction : Blind cursorFunction :=
  blind_ask (fun _ _ _ => rfl) fun _ => blind_query fun _ _ _ => rfl

/-- The end of every request for an expression. -/
theorem blind_define (i : Nat → Instr) (e : Operand → ValueEntry) :
    Blind (do let v ← build (Draft.define i); addValue (e v)) :=
  blind_bind (blind_build _) fun _ => blind_addValue _

theorem blind_declareVariable (v : ValueId) (name : String) : Blind (declareVariable v name) :=
  blind_bind blind_cursorFunction fun _ => blind_ask (fun _ _ _ => rfl) fun _ =>
    blind_bind (blind_build _) fun _ => blind_bind (blind_build _) fun _ => blind_addSlot _

theorem blind_assign (p : SlotId) (v : ValueId) : Blind (assign p v) :=
  blind_bind blind_cursorFunction fun _ => blind_ask (fun _ _ _ => rfl) fun _ =>
    blind_ask (fun _ _ _ => rfl) fun _ => blind_build _

theorem blind_read (p : SlotId) : Blind (read p) :=
  blind_bind blind_cursorFunction fun _ => blind_ask (fun _ _ _ => rfl) fun _ => blind_define _ _

theorem blind_arith (op : Arith) (a b : ValueId) : Blind (arith op a b) :=
  blind_bind blind_cursorFunction fun _ => blind_ask (fun _ _ _ => rfl) fun _ =>
    blind_ask (fun _ _ _ => rfl) fun _ => blind_define _ _

theorem blind_compare (p : Predicate) (a b : ValueId) : Blind (compare p a b) :=
  blind_bind blind_cursorFunction fun _ => blind_ask (fun _ _ _ => rfl) fun _ =>
    blind_ask (fun _ _ _ => rfl) fun _ => blind_define _ _

theorem blind_widen (v : ValueId) : Blind (widen v) :=
  blind_bind blind_cursorFunction fun _ => blind_ask (fun _ _ _ => rfl) fun _ => blind_define _ _

theorem blind_call (f : FunctionId) (args : List ValueId) : Blind (call f args) :=
  blind_bind blind_cursorFunction fun _ => blind_ask (fun _ _ _ => rfl) fun _ =>
    blind_ask (fun _ _ _ => rfl) fun _ => blind_ask (fun _ _ _ => rfl) fun _ => blind_define _ _

/-! ### Requests about functions -/

theorem blind_openFunction (name : String) (params : List String) :
    Blind (openFunction name params) :=
  blind_ask (fun _ _ _ => rfl) fun _ => blind_ask (fun _ _ _ => rfl) fun _ =>
    blind_bind (blind_build _) fun _ => blind_bind (blind_build _) fun _ =>
      blind_bind (blind_build _) fun _ => blind_bind (blind_mapM (fun _ => blind_addValue _) _)
        fun _ => blind_addEntry _

theorem blind_beginFunction (name : String) (params : List String) :
    Blind (beginFunction name params) :=
  blind_ask (fun _ _ _ => rfl) fun _ => blind_ask (fun _ _ _ => rfl) fun _ =>
    blind_openFunction name params

theorem blind_declareFunction (name : String) (arity : Nat) : Blind (declareFunction name arity) :=
  blind_ask (fun _ _ _ => rfl) fun _ => blind_ask (fun _ _ _ => rfl) fun _ =>
    blind_ask (fun _ _ _ => rfl) fun _ => blind_bind (blind_build _) fun _ => blind_addEntry _

theorem blind_beginTopLevel : Blind beginTopLevel :=
  blind_ask (fun _ _ _ => rfl) fun _ => blind_bind (blind_modifyGet fun _ _ _ => rfl) fun _ =>
    blind_openFunction _ _

theorem blind_endFunction (f : FunctionId) (v : ValueId) : Blind (endFunction f v) :=
  blind_ask (fun _ _ _ => rfl) fun _ => blind_ask (fun _ _ _ => rfl) fun _ =>
    blind_ask (fun _ _ _ => rfl) fun _ => blind_ask (fun _ _ _ => rfl) fun _ =>
      blind_bind (blind_build _) fun _ => blind_build _

theorem blind_poison (name : String) : Blind (poison name) :=
  blind_bind (blind_modifyGet fun _ _ _ => rfl) fun _ => blind_build _

theorem blind_verifyFunction (f : FunctionId) : Blind (verifyFunction f) := by
  refine blind_ask (fun _ _ _ => rfl) fun _ => blind_ask (fun _ _ _ => rfl) fun e =>
    blind_get (fun s => ?_) fun _ _ _ => rfl
  dsimp only
  split
  · exact blind_pure ()
  · exact blind_throw _
  · split
    · exact blind_bind (blind_poison _) fun _ => blind_throw _
    · split
      · exact blind_build _
      · exact blind_pure ()

theorem blind_abandonFunction (f : FunctionId) : Blind (abandonFunction f) := by
  refine blind_ask (fun _ _ _ => rfl) fun _ => blind_ask (fun _ _ _ => rfl) fun e =>
    blind_get (fun s => ?_) fun _ _ _ => rfl
  dsimp only
  split
  · exact blind_throw _
  · refine blind_bind (blind_build _) fun _ => ?_
    split
    · exact blind_build _
    · exact blind_pure ()

theorem blind_finishTopLevel (f : FunctionId) (v : ValueId) : Blind (finishTopLevel f v) :=
  blind_bind (blind_endFunction f v) fun _ => blind_verifyFunction f

theorem blind_wrapTopLevel (v : ValueId) : Blind (wrapTopLevel v) :=
  blind_ask (fun _ _ _ => rfl) fun _ => blind_ask (fun _ _ _ => rfl) fun _ =>
    blind_bind blind_beginTopLevel fun _ => blind_bind (blind_finishTopLevel _ _) fun _ =>
      blind_pure _

/-- **No request looks at the options.** -/
theorem blind_perform (r : Request) : Blind r.perform := by
  cases r with
  | floatConstant x => exact blind_map _ (blind_addValue _)
  | stringConstant bs => exact blind_map _ (blind_addValue _)
  | beginFunction n ps => exact blind_map _ (blind_beginFunction n ps)
  | declareFunction n k => exact blind_map _ (blind_declareFunction n k)
  | endFunction f v => exact blind_map _ (blind_endFunction f v)
  | verifyFunction f => exact blind_map _ (blind_verifyFunction f)
  | abandonFunction f => exact blind_map _ (blind_abandonFunction f)
  | declareVariable v n => exact blind_map _ (blind_declareVariable v n)
  | assign p v => exact blind_map _ (blind_assign p v)
  | read p => exact blind_map _ (blind_read p)
  | arith op a b => exact blind_map _ (blind_arith op a b)
  | compare p a b => exact blind_map _ (blind_compare p a b)
  | widen v => exact blind_map _ (blind_widen v)
  | call f args => exact blind_map _ (blind_call f args)
  | beginTopLevel => exact blind_map _ blind_beginTopLevel
  | finishTopLevel f v => exact blind_map _ (blind_finishTopLevel f v)
  | wrapTopLevel v => exact blind_map _ (blind_wrapTopLevel v)

/-- Beyond the name of its module, a new session does not look at the options either. -/
theorem start_retuned (id : Nat) (o : SessionOptions) (t : Target) (b₁ b₂ c₁ c₂ : Bool) :
    start id { o with optimize := b₁, verifyEach := c₁ } t =
      (start id { o with optimize := b₂, verifyEach := c₂ } t).retuned
        { o with optimize := b₁, verifyEach := c₁ }
        (if b₁ then t else { t with effort := .none }) :=
  rfl

/-- A request gets the same reply under other options. -/
theorem request_retuned (o : SessionOptions) (t : Target) (s : Session) (r : Request) :
    (s.retuned o t).request r = ((s.request r).1, (s.request r).2.retuned o t) := by
  unfold request
  rw [blind_perform r o t s]
  cases r.perform s <;> rfl

/-- Other options change nothing else in a history. -/
theorem after_retuned (o : SessionOptions) (t : Target) (s : Session) (history : List Request) :
    (s.retuned o t).after history = (s.after history).retuned o t := by
  induction history generalizing s with
  | nil => rfl
  | cons r history ih =>
    change ((s.retuned o t).request r).2.after history = ((s.request r).2.after history).retuned o t
    rw [request_retuned]
    exact ih _

end Session

/-! ### Safe modules -/

namespace Eval

variable {A : Arities} {m n : Module}

/-- A safe function does what a function does that refines it, also where it fails. -/
theorem enter_eq_of_refines {f g : Function} (hf : f.WellFormed A) (hs : f.Safe)
    (hext : f.isExternal = false) (hg : g.Refines A f) {args : List Float}
    (hl : f.arity = args.length) (callee : Callee) (out : String) :
    enter callee g args out = enter callee f args out := by
  obtain ⟨a, ha⟩ :=
    Option.isSome_iff_exists.1 (Function.answer?_isSome hf hs hext hl.symm callee out)
  rw [enter_of_answer (hf.numbered hext) hl ha]
  exact enter_of_answer (hg.wellFormed.numbered (hg.isExternal.trans hext)) (hg.arity_eq.trans hl)
    (hg.answer callee args out a hl.symm ha)

/-- In a module whose functions are safe, a call does what it does in a module that refines it. -/
theorem call_eq_of_refines (hn : n.Refines A m) (hs : ∀ name f, m.find? name = some f → f.Safe)
    (name : String) (args : List Float) : call n name args = call m name args := by
  have hcall := callAt_rel (R := (· = ·)) hn (fun _ => rfl) ?_ maxDepth name args ""
  · rw [call, call, hcall]
  · intro d name f g args out hf hwf href hext hl ih
    have hcallee : callAt m d = callAt n d := funext fun h => funext fun xs => funext (ih h xs)
    rw [hcallee]
    exact (enter_eq_of_refines hwf (hs name f hf) hext href hl _ out).symm

end Eval

/-! ### Closing -/

/-- The module with its functions marked as verified. -/
def Module.finished (m : Module) : Module :=
  { m with functions := m.functions.map Session.markVerified }

/-- What refines a function does so when both are marked. -/
theorem Function.Refines.markVerified {A : Arities} {f g : Function} (h : g.Refines A f) :
    (Session.markVerified g).Refines A (Session.markVerified f) := by
  unfold Session.markVerified
  by_cases hf : f.isExternal
  · rwa [if_pos hf, if_pos (h.isExternal.trans hf)]
  · rw [if_neg hf, if_neg (h.isExternal ▸ hf)]
    exact ⟨h.name, h.params, h.isExternal, rfl,
      ⟨h.wellFormed.returns, h.wellFormed.bodiless, h.wellFormed.numbered, h.wellFormed.closed,
        h.wellFormed.typed⟩, h.answer⟩

namespace Module

variable {m n : Module}

/-- Functions keep their names when a module is finished. -/
theorem find?_finished (hm : ∀ f ∈ m.functions, f.isLive) (name : String) :
    m.finished.find? name = (m.find? name).map Session.markVerified := by
  unfold find? finished
  rw [List.find?_map, ← List.head?_filter, ← List.head?_filter]
  congr 2
  refine List.filter_congr fun f hf => ?_
  have hlive := hm f hf
  unfold Function.comp isNamed Session.markVerified
  split
  next => rfl
  next => rw [hlive]; rfl

/-- What refines a module does so when both are finished. -/
theorem Refines.finished {A : Arities} (h : n.Refines A m) (hm : ∀ f ∈ m.functions, f.isLive)
    (hn : ∀ f ∈ n.functions, f.isLive) : n.finished.Refines A m.finished := by
  refine ⟨fun name f hf => ?_, fun name hnone => ?_⟩
  · rw [find?_finished hm] at hf
    obtain ⟨f, hfound, rfl⟩ := Option.map_eq_some_iff.1 hf
    obtain ⟨g, hg, hwf, href⟩ := h.found name f hfound
    refine ⟨Session.markVerified g, ?_, ?_, href.markVerified⟩
    · rw [find?_finished hn, hg, Option.map_some]
    · exact (Function.Refines.refl hwf).markVerified.wellFormed
  · rw [find?_finished hm, Option.map_eq_none_iff] at hnone
    rw [find?_finished hn, h.missing name hnone, Option.map_none]

end Module

namespace Pass

/-- Passes abandon no function. -/
theorem isLive_of_mem_runAll {m : Module} (hv : m.verify = .ok ())
    (hm : ∀ f ∈ m.functions, f.isLive) (ps : List Pass) :
    ∀ f ∈ (runAll ps m).functions, f.isLive := by
  induction ps generalizing m with
  | nil => exact hm
  | cons p ps ih =>
    refine ih (p.verify_runOnModule hv) fun g hg => ?_
    obtain ⟨f, hf, rfl⟩ := List.mem_map.1 hg
    have hwf := (Module.verify_eq_ok.1 hv).2 f (List.mem_filter.2 ⟨hf, hm f hf⟩)
    rw [if_pos (hm f hf), p.isLive_run hwf]
    exact hm f hf

end Pass

namespace Session

theorem Step.pipeline {s t : Session} (h : s.Step t) : t.pipeline = s.pipeline := by
  cases h with
  | grow _ h =>
    cases h with
    | code _ h => cases h <;> rfl
    | _ => rfl
  | withdrawn e _ _ _ =>
    unfold Session.withdrawn
    split <;> rfl

/-- The passes that will finish a module are known from the start. -/
theorem Steps.pipeline {s t : Session} (h : s.Steps t) : t.pipeline = s.pipeline := by
  induction h with
  | refl => rfl
  | tail _ hstep ih => exact hstep.pipeline.trans ih

/-- A session can be closed when it is usable and its module verifies; the passes do not matter. -/
theorem close_eq_ok {s : Session} {m : Module} :
    s.close = .ok m ↔ s.poisonedBy = none ∧ s.module.dropAbandoned.verify = .ok () ∧
      m = (Pass.runAll s.pipeline.passes s.module.dropAbandoned).finished := by
  have hunfold : s.close = (do
      s.ensureUsable
      (s.pipeline.run s.module.dropAbandoned).1
      pure (s.pipeline.run s.module.dropAbandoned).2.finished) := rfl
  rw [hunfold, bind_eq_ok]
  cases hv : s.module.dropAbandoned.verify with
  | error e => simp [Pipeline.run, hv]
  | ok _ =>
    have hrun : s.pipeline.run s.module.dropAbandoned =
        (.ok (), Pass.runAll s.pipeline.passes s.module.dropAbandoned) := by
      simp only [Pipeline.run, hv, Pipeline.runPasses_of_verify hv]
    simp only [hrun]
    constructor
    · rintro ⟨_, hu, h⟩
      exact ⟨ensureUsable_eq_ok.1 hu, trivial, (Except.ok.inj h).symm⟩
    · rintro ⟨hu, _, rfl⟩
      exact ⟨(), ensureUsable_eq_ok.2 hu, rfl⟩

/-- Calls in the finished module do what they do in a module on which no passes have run. -/
theorem call_close {s : Session} (hs : s.Tidy) {m : Module} (hm : s.close = .ok m) (name : String)
    (args : List Float) :
    Eval.call m name args = Eval.call s.module.dropAbandoned.finished name args := by
  obtain ⟨_, hv, rfl⟩ := close_eq_ok.1 hm
  have hlive : ∀ f ∈ s.module.dropAbandoned.functions, f.isLive := fun f hf =>
    (List.mem_filter.1 hf).2
  have href := (Pass.runAll_refines hv).finished hlive
    (Pass.isLive_of_mem_runAll hv hlive s.pipeline.passes)
  refine Eval.call_eq_of_refines href (fun name f hf => ?_) name args
  rw [Module.find?_finished hlive] at hf
  obtain ⟨g, hg, rfl⟩ := Option.map_eq_some_iff.1 hf
  have hmem := List.mem_of_find?_eq_some hg
  have hsafe := hs.safe g (List.mem_filter.1 hmem).1
  unfold markVerified
  split
  · exact hsafe
  · exact ⟨hsafe.single, hsafe.filled⟩

/-- **The options do not change what a program does.** After the same requests, two sessions that
differ in `optimize` and `verifyEach` answer every further request in the same way, and can be
closed or not alike; if they can, every call in the two finished modules gives the same value or the
same failure, and writes the same text. -/
theorem close_options (id : Nat) (o : SessionOptions) (t : Target) (history : List Request)
    (optimize₁ optimize₂ verifyEach₁ verifyEach₂ : Bool) :
    let s₁ := (start id { o with optimize := optimize₁, verifyEach := verifyEach₁ } t).after history
    let s₂ := (start id { o with optimize := optimize₂, verifyEach := verifyEach₂ } t).after history
    (∀ r, (s₁.request r).1 = (s₂.request r).1) ∧
      ((∃ m, s₁.close = .ok m) ↔ ∃ m, s₂.close = .ok m) ∧
      ∀ m₁ m₂, s₁.close = .ok m₁ → s₂.close = .ok m₂ →
        ∀ name args, Eval.call m₁ name args = Eval.call m₂ name args := by
  intro s₁ s₂
  -- One session is the other with its options and target set anew.
  obtain ⟨o', t', hs⟩ : ∃ o t, s₁ = s₂.retuned o t :=
    ⟨_, _, (congrArg (after · history) (start_retuned ..)).trans (after_retuned ..)⟩
  have hmodule : s₁.module = s₂.module := by rw [hs]; rfl
  have hpoisoned : s₁.poisonedBy = s₂.poisonedBy := by rw [hs]; rfl
  refine ⟨fun r => ?_, ?_, fun m₁ m₂ h₁ h₂ name args => ?_⟩
  · rw [hs, request_retuned]
  · simp only [close_eq_ok, exists_and_left, exists_eq, hmodule, hpoisoned]
  · rw [call_close (.after ..) h₁, call_close (.after ..) h₂, hmodule]

/-- Requests for a function that keeps its parameter in a variable and adds the two. -/
def sampleHistory : List Request :=
  [.beginFunction "f" ["x"], .declareVariable ⟨0, 0⟩ "y", .read ⟨0, 0⟩,
    .arith .add ⟨0, 0⟩ ⟨0, 1⟩, .endFunction ⟨0, 0⟩ ⟨0, 2⟩, .verifyFunction ⟨0, 0⟩]

theorem close_options_sample :
    let t : Target := { triple := Target.host, arch := "x86_64", os := "linux" }
    ∃ m₁ m₂,
      ((start 0 { optimize := true } t).after sampleHistory).close = .ok m₁ ∧
      ((start 0 { optimize := false } t).after sampleHistory).close = .ok m₂ ∧
      m₁ ≠ m₂ ∧ Eval.call m₁ "f" [2.5] = Eval.call m₂ "f" [2.5] ∧
      Eval.call m₂ "f" [2.5] = (.ok 5.0, "") := by
  intro t
  have h₁ := close_eq_ok (s := (start 0 { optimize := true } t).after sampleHistory).2
    ⟨by decide +kernel, by decide +kernel, rfl⟩
  have h₂ := close_eq_ok (s := (start 0 { optimize := false } t).after sampleHistory).2
    ⟨by decide +kernel, by decide +kernel, rfl⟩
  have hcall := (close_options 0 {} t sampleHistory true false true true).2.2 _ _ h₁ h₂ "f" [2.5]
  exact ⟨_, _, h₁, h₂, by decide +kernel, hcall, by decide +kernel⟩

end Session

end StraightLine
