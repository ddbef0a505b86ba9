import StraightLine.Proofs.LoweredCode

/-!
# What becomes of an item

An item that is lowered is refused, is begun and given up, or is accepted (`Lower.Outcome`). An
accepted one is the last function of the module from then on, and does what the item says
(`Lower.Realizes`) whenever the functions that it can call do; these are the live functions of the
module and itself.
-/

namespace StraightLine

open Eval (Run)
open Interpreter (Value Local Locals Definition)

namespace Session

/-- The place of a function that is begun. -/
def workplace (s : Session) (name : String) (params : List String) : Workplace where
  before := s.module.functions
  head := Function.declare name params
  label := s.draft.labels.next

variable {s : Session} {name : String} {params : List String}

/-- Code goes into a function that has just been begun. -/
theorem opened_worksAt (hu : s.poisonedBy = none) :
    (s.opened name params).WorksAt (s.workplace name params) [] :=
  ⟨hu, rfl, rfl⟩

theorem opened_entry : (s.opened name params).entry ⟨s.id, s.functions.size⟩ =
    .ok ⟨s.module.functions.length,
      (List.range params.length).map fun i => ⟨s.id, s.values.size + i⟩⟩ :=
  Handle.resolve_push_size _

/-- The parameters of a new function are its first temps. -/
theorem opened_value {i : Nat} (hi : i < params.length) :
    (s.opened name params).value ⟨s.id, s.values.size + i⟩ =
      .ok ⟨.temp i, .double, some s.module.functions.length⟩ := by
  simp [value, opened, Handle.resolve, hi]

/-- The handles to the parameters of a new function stand for its first temps. -/
theorem opened_param_eq_ok {i : Nat} {v : ValueId}
    (hv : (s.opened name params).param ⟨s.id, s.functions.size⟩ i = .ok v) :
    i < params.length ∧ (s.opened name params).value v =
      .ok ⟨.temp i, .double, some s.module.functions.length⟩ := by
  rw [param, opened_entry] at hv
  by_cases hi : i < params.length
  · obtain rfl : (⟨s.id, s.values.size + i⟩ : ValueId) = v := by
      simpa [bind, Except.bind, pure, Except.pure, hi] using hv
    exact ⟨hi, opened_value hi⟩
  · simp [bind, Except.bind, hi, throw, throwThe, MonadExceptOf.throw] at hv

/-- These hold the arguments that the function is called with. -/
theorem opened_holds {i : Nat} {v : ValueId}
    (hv : (s.opened name params).param ⟨s.id, s.functions.size⟩ i = .ok v) {args : List Float}
    {x : Float} (hx : args[i]? = some x) :
    (s.opened name params).Holds (Store.ofArgs args) v (.number x) := by
  obtain ⟨hi, hvalue⟩ := opened_param_eq_ok hv
  refine ⟨_, hvalue, rfl, ?_, ?_⟩
  · rintro _ ⟨⟩
    exact hi
  · simp [Store.float, Store.held, Store.ofArgs, hx]

theorem arity_external (name : String) (arity : Nat) :
    (Function.external name arity).arity = arity :=
  (arity_declare name _).trans (by simp)

/-- A function that has just been ended and passes verification is correct, and verified from then
on. -/
theorem Ended.verified {t : Session} {w : Workplace} {code : List Instr} (h : s.Ended w code)
    {f : FunctionId} {e : FunctionEntry} (hentry : s.entry f = .ok e)
    (hplace : e.index = w.before.length) (hext : w.head.isExternal = false)
    (hverify : verifyFunction f s = .ok () t) :
    { w.function code with stage := .terminated }.WellFormed s.module.arities ∧
      t = s.changed w.before.length (fun g => { g with stage := .verified }) ∧
      t.module.functions = w.before ++ [{ w.function code with stage := .verified }] := by
  have hverdict := verifyFunction_verdict s f
  rw [hverify] at hverdict
  cases hverdict with
  | settled e' he hdone =>
    -- The function was ended just now, so it was neither verified before nor is it external.
    obtain rfl := Except.ok.inj (he.symm.trans hentry)
    rw [hplace, h.functionAt] at hdone
    simp [Workplace.function, hext] at hdone
  | passed e' _ he _ _ hok =>
    obtain rfl := Except.ok.inj (he.symm.trans hentry)
    rw [hplace, h.functionAt] at hok
    refine ⟨Module.verifyFunction_eq_ok.1 hok, by rw [hplace], ?_⟩
    change s.module.functions.modify _ _ = _
    rw [hplace, h.functions]
    exact modify_last ..

end Session

namespace Lower

open Session (andThen_eq_ok andThen_eq_error andThen_of_ok andThen_of_error ask_eq_ok)

variable {s t : Session}

/-! ### Bodies -/

theorem paramScope_error {f : FunctionId} {i : Nat} {ps : List String} {e : Error}
    (h : paramScope f i ps s = .error e t) : t = s := by
  induction ps generalizing i s with
  | nil => cases h
  | cons p ps ih =>
    rw [paramScope, Session.bind_query] at h
    cases hv : s.param f i with
    | error e =>
      rw [hv] at h
      cases h
      rfl
    | ok v =>
      rw [hv] at h
      rcases andThen_eq_error.1 h with h | ⟨_, _, _, h⟩
      · exact ih h
      · cases h

/-- The names that a body starts with stand for its arguments. -/
theorem paramScope_matches {f : FunctionId} {i : Nat} {ps : List String} {scope : Scope}
    (h : paramScope f i ps s = .ok scope t) :
    t = s ∧ (∀ name slot, scope.lookup name ≠ some (.slot slot)) ∧
      ∀ (st : Store) (xs : List Float), xs.length = ps.length →
        (∀ j v x, s.param f (i + j) = .ok v → xs[j]? = some x → s.Holds st v (.number x)) →
        ∀ name v, scope.lookup name = some (.param v) →
          ∃ x, (Interpreter.start ps xs).lookup name = some (.param x) ∧
            s.Holds st v (.number x) := by
  induction ps generalizing i s scope with
  | nil =>
    cases h
    exact ⟨rfl, by simp, by simp⟩
  | cons p ps ih =>
    obtain ⟨v, hv, h⟩ := ask_eq_ok.1 h
    obtain ⟨scope', u, hscope, h⟩ := andThen_eq_ok.1 h
    cases h
    obtain ⟨rfl, hslots, hparams⟩ := ih hscope
    refine ⟨rfl, fun name slot hlookup => ?_, fun st xs hlength hholds name v' hlookup => ?_⟩
    · by_cases hname : name = p
      · subst hname
        simp at hlookup
      · rw [lookup_cons_of_ne hname] at hlookup
        exact hslots name slot hlookup
    · obtain ⟨x, xs, rfl⟩ : ∃ x xs', xs = x :: xs' :=
        List.exists_cons_of_length_eq_add_one (by simpa using hlength)
      change ∃ y, ((p, Local.param x) :: Interpreter.start ps xs).lookup name = _ ∧ _
      by_cases hname : name = p
      · subst hname
        rw [List.lookup_cons_self] at hlookup ⊢
        cases hlookup
        exact ⟨x, rfl, hholds 0 v x hv rfl⟩
      · rw [lookup_cons_of_ne hname] at hlookup ⊢
        refine hparams st xs (by simpa using hlength) (fun j v y hv hy => ?_) name v' hlookup
        exact hholds (j + 1) v y (by rwa [Nat.add_comm j, ← Nat.add_assoc]) hy

/-- A function does what a definition says, whenever what it can call does. -/
structure Realizes (known : String → Prop) (g : Function) (name : String) (d : Definition) :
    Prop where
  named : g.name = name
  live : g.isLive
  arity : g.arity = d.arity
  meaning : match d with
    | .external _ => g.isExternal = true
    | .function params body => g.isExternal = false ∧ g.stage = .verified ∧
        ∀ c₁ c₂ : Callee, (∀ h, known h → c₁ h = c₂ h) → ∀ args, args.length = params.length →
          Eval.enter c₁ g args = Interpreter.stmts c₂ name (Interpreter.start params args) body

/-- A name of a function that the next item can call: that of a live function, or its own. -/
def Callable (s : Session) (name g : String) : Prop :=
  g = name ∨ ∃ f ∈ s.module.functions, f.isLive ∧ f.name = g

/-- A verified body does what the interpreter does. -/
theorem body_ok {name : String} {params : List String} {init : List Stmt} {e : Expr}
    (hu : s.poisonedBy = none) (hinit : ∀ st ∈ init, st.isReturn = false)
    (h : body ⟨s.id, s.functions.size⟩ params (init ++ [.ret e]) (s.opened name params) =
      .ok () t) :
    t.poisonedBy = none ∧ t.id = s.id ∧ t.functions = (s.opened name params).functions ∧
      ∃ g, t.module.functions = s.module.functions ++ [g] ∧
        Realizes (Callable s name) g name (.function params (init ++ [.ret e])) := by
  obtain ⟨scope, s₁, hscope, h⟩ := andThen_eq_ok.1 h
  obtain ⟨_, s₂, hstmts, hverify⟩ := andThen_eq_ok.1 h
  obtain ⟨rfl, hslots, hparams⟩ := paramScope_matches hscope
  obtain ⟨code, hended, hextends, hanswer⟩ :=
    stmts_answer init hinit hstmts (Session.opened_worksAt hu)
  have hentry := (hextends.entry _).trans Session.opened_entry
  obtain ⟨hwf, rfl, hfunctions⟩ := hended.verified hentry rfl rfl hverify
  refine ⟨hended.usable, hextends.id, hextends.functions, _, hfunctions, rfl, rfl,
    Session.arity_declare name params, rfl, rfl, fun c₁ c₂ hc args hl => ?_⟩
  funext out
  refine Eval.enter_of_answer (hwf.numbered rfl)
    ((Session.arity_declare name params).trans hl.symm) ?_
  refine hanswer c₁ c₂ hc _ _ ⟨fun n v hv => ?_, ?_, ?_⟩ out
  · exact hparams _ args hl (fun j v x hv hx => Session.opened_holds (by simpa using hv) hx) n v hv
  · exact fun n slot hn => absurd hn (hslots n slot)
  · exact fun n _ slot _ _ hn => absurd hn (hslots n slot)

/-- A body that is refused leaves its function the last one, and not verified. -/
theorem body_error {name : String} {params : List String} {init : List Stmt} {e : Expr}
    {err : Error} (hu : s.poisonedBy = none) (hinit : ∀ st ∈ init, st.isReturn = false)
    (h : body ⟨s.id, s.functions.size⟩ params (init ++ [.ret e]) (s.opened name params) =
      .error err t) :
    t.id = s.id ∧ t.functions = (s.opened name params).functions ∧
      ∃ f, t.module.functions = s.module.functions ++ [f] ∧ f.stage ≠ .verified := by
  have hworks : (s.opened name params).WorksAt (s.workplace name params) [] :=
    Session.opened_worksAt hu
  rcases andThen_eq_error.1 h with h | ⟨scope, s₁, hscope, h⟩
  · obtain rfl := paramScope_error h
    exact ⟨rfl, rfl, _, hworks.functions, by simp [Workplace.function]⟩
  · obtain ⟨rfl, _⟩ := paramScope_matches hscope
    rcases andThen_eq_error.1 h with h | ⟨_, s₂, hstmts, h⟩
    · have hsteps := stmts_error init hinit h
      obtain ⟨code, hw⟩ := hworks.codeSteps hsteps
      exact ⟨hsteps.extends.id, hsteps.extends.functions, _, hw.functions,
        by simp [Workplace.function]⟩
    · obtain ⟨code, hended, hextends, _⟩ := stmts_answer init hinit hstmts hworks
      have hverdict := Session.verifyFunction_verdict s₂ ⟨s.id, s.functions.size⟩
      rw [h] at hverdict
      cases hverdict with
      | refused _ _ => exact ⟨hextends.id, hextends.functions, _, hended.functions, by simp⟩
      | faulty e _ _ _ _ => exact ⟨hextends.id, hextends.functions, _, hended.functions, by simp⟩

/-! ### Items -/

/-- The handle to what an item has become. -/
def Lowered.handle : Lowered → FunctionId
  | function f | external f | topLevel f => f

/-- What can come of an item with a name and a meaning. -/
inductive Outcome (s : Session) (name : String) (d : Definition) :
    EStateM.Result Error Session Lowered → Prop
  /-- Nothing is begun. -/
  | refused (err : Error) (t : Session) (id : t.id = s.id) (functions : t.functions = s.functions)
      (module : t.module = s.module) (poisoned : t.poisonedBy = s.poisonedBy) :
      Outcome s name d (.error err t)
  /-- A function is begun and given up, or poisons the session. -/
  | dropped (err : Error) (t : Session) (e : FunctionEntry) (f : Function)
      (usable : s.poisonedBy = none) (id : t.id = s.id)
      (functions : t.functions = s.functions.push e)
      (module : t.module.functions = s.module.functions ++ [f])
      (gone : t.poisonedBy = none → f.isLive = false) : Outcome s name d (.error err t)
  | accepted (x : Lowered) (t : Session) (e : FunctionEntry) (g : Function)
      (usable : s.poisonedBy = none) (still : t.poisonedBy = none) (id : t.id = s.id)
      (functions : t.functions = s.functions.push e) (place : e.index = s.module.functions.length)
      (module : t.module.functions = s.module.functions ++ [g]) (new : s.module.find? name = none)
      (handle : x.handle = ⟨s.id, s.functions.size⟩)
      (realizes : Realizes (Callable s name) g name d) : Outcome s name d (.ok x t)

/-- It does not matter for an item which names its family has taken. -/
theorem Outcome.of_nameTaken {name : String} {d : Definition}
    {r : EStateM.Result Error Session Lowered} (h : Outcome s.nameTaken name d r) :
    Outcome s name d r := by
  cases h with
  | refused err t hid hfunctions hmodule hp => exact .refused err t hid hfunctions hmodule hp
  | dropped err t e f hu hid hfunctions hmodule hgone =>
    exact .dropped err t e f hu hid hfunctions hmodule hgone
  | accepted x t e g hu hu' hid hfunctions hplace hmodule hnew hhandle hrealizes =>
    exact .accepted x t e g hu hu' hid hfunctions hplace hmodule hnew hhandle hrealizes

/-- What comes of a function that is begun. -/
theorem begun_outcome {name : String} {params : List String} {init : List Stmt} {e : Expr}
    (hu : s.poisonedBy = none) (hnew : s.checkNewName name = .ok ())
    (hinit : ∀ st ∈ init, st.isReturn = false) (x : FunctionId → Lowered)
    (hx : ∀ f, (x f).handle = f) :
    let f : FunctionId := ⟨s.id, s.functions.size⟩
    Outcome s name (.function params (init ++ [.ret e]))
      ((settle f (body f params (init ++ [.ret e])) >>= fun _ => pure (x f))
        (s.opened name params)) := by
  intro f
  change Outcome s name _ (EStateM.bind (settle f _) _ _)
  unfold EStateM.bind settle
  cases hbody : body f params (init ++ [.ret e]) (s.opened name params) with
  | ok _ t =>
    obtain ⟨hu', hid, hfunctions, g, hmodule, hrealizes⟩ := body_ok hu hinit hbody
    exact .accepted _ t _ g hu hu' hid hfunctions rfl hmodule
      (Session.checkNewName_eq_ok.1 hnew).2 (hx f) hrealizes
  | error err t =>
    obtain ⟨hid, hfunctions, g, hmodule, hstage⟩ := body_error hu hinit hbody
    cases hp : t.isPoisoned with
    | true =>
      dsimp only
      rw [if_pos hp]
      exact .dropped err t _ g hu hid hfunctions hmodule fun h => by
        simp [Session.isPoisoned, h] at hp
    | false =>
      have hu' : t.poisonedBy = none := by simpa [Session.isPoisoned] using hp
      -- The function is not verified, so to abandon it cannot fail.
      have hentry : t.entry f = (s.opened name params).entry f := by
        rw [Session.entry, Session.entry, hid, hfunctions]
        rfl
      have hat : t.functionAt s.module.functions.length = g := by
        simp [Session.functionAt, hmodule]
      have hgone := Session.abandonFunction_of_ok hu' (hentry.trans Session.opened_entry)
        (by rw [hat]; exact hstage)
      obtain ⟨hid', hfunctions', _, hmodule'⟩ :=
        Session.withdrawn_fields t s.module.functions.length
      dsimp only
      rw [if_neg (by simp [hp]), hgone]
      refine .dropped err _ _ { g with stage := .abandoned, blocks := [] } hu (hid'.trans hid)
        (hfunctions'.trans hfunctions) ?_ fun _ => rfl
      rw [hmodule', Module.modify, hmodule]
      exact Session.modify_last ..

/-- The name under which an item is lowered; an expression gets the next one of its family. -/
def itemName (s : Session) : Item → String
  | .function proto _ | .external proto => proto.name
  | .topLevel _ => s.wrappers.take.1

/-- What an item means: an expression is a function without parameters that returns it. -/
def itemDefinition : Item → Definition
  | .function proto body => .function proto.params body
  | .external proto => .external proto.params.length
  | .topLevel value => .function [] [.ret value]

/-- A body that is accepted returns in its last statement, and in no other. -/
theorem exists_of_checkReturns {name : String} {b : List Stmt} (h : checkReturns name b = .ok ()) :
    ∃ init e, b = init ++ [.ret e] ∧ ∀ st ∈ init, st.isReturn = false := by
  unfold checkReturns at h
  split at h
  next => cases h
  next hcount =>
    split at h
    next hlast =>
      obtain ⟨last, hlast, hreturn⟩ := (Option.any_eq_true ..).1 hlast
      obtain ⟨init, rfl⟩ := List.getLast?_eq_some_iff.1 hlast
      cases last with
      | ret e =>
        refine ⟨init, e, rfl, fun st hst => ?_⟩
        have hnone : init.countP Stmt.isReturn = 0 := by
          rw [not_not, List.countP_append, List.countP_singleton, if_pos hreturn] at hcount
          omega
        simpa using List.countP_eq_zero.1 hnone st hst
      | _ => cases hreturn
    next => cases h

/-- An expression is lowered as the body that returns it. -/
theorem finishTopLevel_eq_body (f : FunctionId) (value : Expr) :
    (do Session.finishTopLevel f (← expr [] value)) = body f [] [.ret value] := by
  simp [body, paramScope, stmts, stmt, Session.finishTopLevel]

theorem paramNames_of_ok {f : FunctionId} {g : Function} (hf : s.function f = .ok g)
    (hg : s.module.find? g.name = some g) : paramNames f s = .ok (g.params.map Prod.snd) := by
  simp [paramNames, hf, hg, bind, Except.bind, pure, Except.pure]

/-- The module has a function that was begun, with the names of its parameters. -/
theorem paramNames_opened {name : String} (hnew : s.checkNewName name = .ok ())
    (params : List String) :
    paramNames ⟨s.id, s.functions.size⟩ (s.opened name params) = .ok params := by
  let g := (s.workplace name params).function []
  have hmodule : (s.opened name params).module.functions = s.module.functions ++ [g] := rfl
  have hfunction : (s.opened name params).function ⟨s.id, s.functions.size⟩ = .ok g := by
    rw [Session.function, Session.opened_entry]
    simp [Except.map, Session.functionAt, hmodule]
  have hfind : (s.opened name params).module.find? g.name = some g := by
    have hnone := (Session.checkNewName_eq_ok.1 hnew).2
    rw [Module.find?] at hnone ⊢
    change List.find? (Module.isNamed name) _ = some g
    rw [hmodule, List.find?_append, hnone]
    exact List.find?_cons_of_pos (decide_eq_true rfl)
  rw [paramNames_of_ok hfunction hfind]
  exact congrArg Except.ok (Session.params_declare name params)

/-- **A body is lowered with the parameters of its prototype**, since these are what the module has
for a function that was begun with them. -/
theorem item_function (proto : Prototype) (b : List Stmt) :
    item (.function proto b) = (do
      Session.query fun _ => checkReturns proto.name b
      let f ← Session.beginFunction proto.name proto.params
      settle f (body f proto.params b)
      pure (.function f)) := by
  funext s
  rw [item, Session.bind_query, Session.bind_query]
  cases checkReturns proto.name b with
  | error e => rfl
  | ok _ =>
    rcases Session.beginFunction_cases s proto.name proto.params with ⟨e, h⟩ | ⟨_, _, hnew, _, h⟩
    · simp only [andThen_of_error h]
    · have hbody : (do body ⟨s.id, s.functions.size⟩ (← Session.query (paramNames _)) b)
          (s.opened proto.name proto.params) =
          body ⟨s.id, s.functions.size⟩ proto.params b (s.opened proto.name proto.params) :=
        Session.bind_query_of_ok (paramNames_opened hnew proto.params)
      simp only [andThen_of_ok h]
      change EStateM.bind (settle _ _) _ _ = EStateM.bind (settle _ _) _ _
      simp only [EStateM.bind, settle, hbody]

/-- **What becomes of an item.** -/
theorem item_outcome (s : Session) (i : Item) :
    Outcome s (itemName s i) (itemDefinition i) (item i s) := by
  cases i with
  | function proto b =>
    rw [item_function, Session.bind_query]
    cases hreturns : checkReturns proto.name b with
    | error e => exact .refused e s rfl rfl rfl rfl
    | ok _ =>
      obtain ⟨init, e, rfl, hinit⟩ := exists_of_checkReturns hreturns
      rcases Session.beginFunction_cases s proto.name proto.params with
        ⟨err, h⟩ | ⟨hu, _, hnew, _, h⟩
      · rw [andThen_of_error h]
        exact .refused err s rfl rfl rfl rfl
      · rw [andThen_of_ok h]
        exact begun_outcome hu hnew hinit .function fun _ => rfl
  | external proto =>
    rw [item, map_eq_pure_bind]
    rcases Session.declareFunction_cases s proto.name proto.params.length with
      ⟨err, h⟩ | ⟨hu, _, hnew, h⟩
    · rw [andThen_of_error h]
      exact .refused err s rfl rfl rfl rfl
    · rw [andThen_of_ok h]
      refine .accepted _ _ _ _ hu hu rfl rfl rfl rfl (Session.checkNewName_eq_ok.1 hnew).2 rfl
        ⟨rfl, rfl, ?_, rfl⟩
      exact Session.arity_external proto.name proto.params.length
  | topLevel value =>
    rw [item]
    rcases Session.beginTopLevel_cases s with ⟨err, h⟩ | ⟨hu, ⟨err, h⟩ | ⟨hnew, h⟩⟩
    · rw [andThen_of_error h]
      exact .refused err s rfl rfl rfl rfl
    · rw [andThen_of_error h]
      exact .refused err _ rfl rfl rfl rfl
    · rw [andThen_of_ok h]
      simp only [finishTopLevel_eq_body]
      have hinit : ∀ st ∈ ([] : List Stmt), st.isReturn = false := by simp
      refine Outcome.of_nameTaken ?_
      exact begun_outcome (s := s.nameTaken) hu hnew hinit .topLevel fun _ => rfl

end Lower

end StraightLine
