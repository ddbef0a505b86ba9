import StraightLine.Proofs.Workplace

/-!
# What lowered code does

The code that an expression or a statement is lowered to does what the interpreter does with it
(`Lower.expr_adds`, `Lower.stmt_adds`), in every store that matches the names of the function. It is
enough that the functions which code at this place can call do the same on both sides.
-/

namespace StraightLine

open Eval (Run)
open Interpreter (Value Local Locals)

namespace Session

/-! ### Requests that succeed -/

theorem WorksAt.place_eq {s : Session} {w : Workplace} {code : List Instr} (hw : s.WorksAt w code)
    {place : Nat} (h : s.site = .ok place) : place = w.before.length := by
  obtain ⟨_, c, _, hc, rfl, _⟩ := site_eq_ok h
  rw [hw.cursor_eq hc]

/-- An instruction is put behind the code of a workplace, and its result gets the handle `v`. -/
structure Emits (s : Session) (w : Workplace) (code : List Instr) (i : Instr) (type : Ty)
    (v : ValueId) (t : Session) : Prop where
  worksAt : t.WorksAt w (code ++ [i])
  grows : s.Extends t
  value : t.value v = .ok ⟨.temp s.draft.temps.next, type, some w.before.length⟩
  temps : t.draft.temps.next = s.draft.temps.next + 1

variable {s t : Session} {w : Workplace} {code : List Instr} {v : ValueId}

/-- A request for an expression that succeeds has put its instruction behind the code. -/
theorem emits {place : Nat} (hs : s.site = .ok place) {i : Nat → Instr} {type : Ty}
    (h : (build (Draft.define i) >>= fun r => addValue ⟨r, type, some place⟩) s = .ok v t)
    (hw : s.WorksAt w code) : s.Emits w code (i s.draft.temps.next) type v t := by
  rcases emit_cases hs i type with ⟨e, herr⟩ | ⟨c, f, b, hsite, rfl, hok⟩
  · cases herr.symm.trans h
  · cases hok.symm.trans h
    have ha := hw.numbered.appended hsite.cursor (i s.draft.temps.next)
    refine ⟨ha.withValue _, ?_, ?_, rfl⟩
    · exact ((Extends.numbered s).trans (.appended ..)).trans (.withValue ..)
    · rw [← hw.place_eq hs]
      exact Handle.resolve_push_size _

theorem arith_eq_ok {op : Arith} {lhs rhs : ValueId} (h : arith op lhs rhs s = .ok v t)
    (hw : s.WorksAt w code) : ∃ a b, s.doubleIn w.before.length lhs = .ok a ∧
      s.doubleIn w.before.length rhs = .ok b ∧
      s.Emits w code (.arith s.draft.temps.next op a b) .double v t := by
  rw [arith, cursorFunction_eq] at h
  obtain ⟨place, hs, h⟩ := ask_eq_ok.1 h
  obtain ⟨a, ha, h⟩ := ask_eq_ok.1 h
  obtain ⟨b, hb, h⟩ := ask_eq_ok.1 h
  have hplace := hw.place_eq hs
  exact ⟨a, b, hplace ▸ ha, hplace ▸ hb, emits hs h hw⟩

theorem compare_eq_ok {p : Predicate} {lhs rhs : ValueId} (h : compare p lhs rhs s = .ok v t)
    (hw : s.WorksAt w code) : ∃ a b, s.doubleIn w.before.length lhs = .ok a ∧
      s.doubleIn w.before.length rhs = .ok b ∧
      s.Emits w code (.compare s.draft.temps.next p a b) .i1 v t := by
  rw [compare, cursorFunction_eq] at h
  obtain ⟨place, hs, h⟩ := ask_eq_ok.1 h
  obtain ⟨a, ha, h⟩ := ask_eq_ok.1 h
  obtain ⟨b, hb, h⟩ := ask_eq_ok.1 h
  have hplace := hw.place_eq hs
  exact ⟨a, b, hplace ▸ ha, hplace ▸ hb, emits hs h hw⟩

theorem widen_eq_ok {value : ValueId} (h : widen value s = .ok v t) (hw : s.WorksAt w code) :
    ∃ a, s.flagIn w.before.length value = .ok a ∧
      s.Emits w code (.widen s.draft.temps.next a) .double v t := by
  rw [widen, cursorFunction_eq] at h
  obtain ⟨place, hs, h⟩ := ask_eq_ok.1 h
  obtain ⟨a, ha, h⟩ := ask_eq_ok.1 h
  exact ⟨a, hw.place_eq hs ▸ ha, emits hs h hw⟩

theorem read_eq_ok {slot : SlotId} (h : read slot s = .ok v t) (hw : s.WorksAt w code) :
    ∃ p, s.pointerIn w.before.length slot = .ok p ∧
      s.Emits w code (.load s.draft.temps.next p .double) .double v t := by
  rw [read, cursorFunction_eq] at h
  obtain ⟨place, hs, h⟩ := ask_eq_ok.1 h
  obtain ⟨p, hp, h⟩ := ask_eq_ok.1 h
  exact ⟨p, hw.place_eq hs ▸ hp, emits hs h hw⟩

/-- A request for a call that succeeds has found its function, and doubles for its arguments. -/
theorem call_eq_ok {f : FunctionId} {args : List ValueId} (h : call f args s = .ok v t) :
    ∃ place e vs, s.site = .ok place ∧ s.entry f = .ok e ∧
      List.Forall₂ (fun a v => s.doubleIn place a = .ok v) args vs ∧
      ∀ w code, s.WorksAt w code → s.Emits w code
        (.call s.draft.temps.next (.function (s.functionAt e.index).name) vs) .double v t := by
  rw [call, cursorFunction_eq] at h
  obtain ⟨place, hs, h⟩ := ask_eq_ok.1 h
  obtain ⟨g, hg, h⟩ := ask_eq_ok.1 h
  obtain ⟨_, _, h⟩ := ask_eq_ok.1 h
  obtain ⟨vs, hvs, h⟩ := ask_eq_ok.1 h
  obtain ⟨e, he, rfl, _⟩ := callee_eq_ok hg
  exact ⟨place, e, vs, hs, he, forall₂_of_mapM_ok hvs, fun w code hw => emits hs h hw⟩

/-- The temp of an emitted instruction holds the value of its handle. -/
theorem Emits.holds {i : Instr} (h : s.Emits w code i .double v t) (st : Store) (x : Float) :
    t.Holds (st.put (s.draft.temps.next, .float x)) v (.number x) := by
  refine ⟨_, h.value, rfl, fun id hid => ?_, ?_⟩
  · cases hid
    rw [h.temps]
    exact Nat.lt_succ_self _
  · exact Store.float_eq_some.2 (Store.put_self st (s.draft.temps.next, .float x))

/-- A variable is made by two instructions, and its handle stands for the new slot. -/
theorem declareVariable_eq_ok {name : String} {slot : SlotId}
    (h : declareVariable v name s = .ok slot t) (hw : s.WorksAt w code) :
    ∃ a, s.doubleIn w.before.length v = .ok a ∧ s.Extends t ∧ t.Points slot s.draft.temps.next ∧
      t.WorksAt w (code ++ [.alloca s.draft.temps.next .double name,
        .store a (.temp s.draft.temps.next)]) ∧ t.draft.temps.next = s.draft.temps.next + 1 := by
  rw [declareVariable, cursorFunction_eq] at h
  obtain ⟨place, hs, h⟩ := ask_eq_ok.1 h
  obtain ⟨a, ha, h⟩ := ask_eq_ok.1 h
  refine ⟨a, hw.place_eq hs ▸ ha, ?_⟩
  rcases makeVariable_cases hs a name with ⟨e, herr⟩ | ⟨c, f, b, hsite, rfl, hok⟩
  · cases herr.symm.trans h
  · cases hok.symm.trans h
    have hmade := hw.numbered.appended hsite.cursor (.alloca s.draft.temps.next .double name)
    have hfilled := hmade.appended hsite.cursor (.store a (.temp s.draft.temps.next))
    refine ⟨?_, ⟨Nat.lt_succ_self _, _, Handle.resolve_push_size _, rfl⟩, ?_, rfl⟩
    · exact (((Extends.numbered s).trans (.appended ..)).trans (.appended ..)).trans (.withSlot ..)
    · rw [List.append_assoc] at hfilled
      exact hfilled.withSlot _

theorem assign_eq_ok {slot : SlotId} (h : assign slot v s = .ok () t) (hw : s.WorksAt w code) :
    ∃ p a, s.pointerIn w.before.length slot = .ok p ∧ s.doubleIn w.before.length v = .ok a ∧
      s.Extends t ∧ t.WorksAt w (code ++ [.store a p]) ∧
      t.draft.temps.next = s.draft.temps.next := by
  rw [assign, cursorFunction_eq] at h
  obtain ⟨place, hs, h⟩ := ask_eq_ok.1 h
  obtain ⟨p, hp, h⟩ := ask_eq_ok.1 h
  obtain ⟨a, ha, h⟩ := ask_eq_ok.1 h
  have hplace := hw.place_eq hs
  refine ⟨p, a, hplace ▸ hp, hplace ▸ ha, ?_⟩
  rcases append_cases hs (.store a p) with ⟨e, herr⟩ | ⟨c, f, b, hsite, _, hok⟩
  · cases herr.symm.trans h
  · cases hok.symm.trans h
    exact ⟨.appended .., hw.appended hsite.cursor _, rfl⟩

/-- The function of a workplace is ended. -/
structure Ended (s : Session) (w : Workplace) (code : List Instr) : Prop where
  usable : s.poisonedBy = none
  functions : s.module.functions = w.before ++ [{ w.function code with stage := .terminated }]

theorem Ended.functionAt (h : s.Ended w code) :
    s.functionAt w.before.length = { w.function code with stage := .terminated } := by
  simp [Session.functionAt, h.functions]

/-- To end a function fails without a trace, or puts a return behind its code. -/
theorem endFunction_cases (s : Session) (function : FunctionId) (value : ValueId) :
    (∃ e, endFunction function value s = .error e s) ∨
      ∃ t, endFunction function value s = .ok () t ∧ s.Extends t ∧
        ∀ w code, s.WorksAt w code → ∃ a, s.doubleIn w.before.length value = .ok a ∧
          t.Ended w (code ++ [.ret a]) := by
  unfold endFunction
  cases hu : s.ensureUsable with
  | error e => exact .inl ⟨e, bind_query_of_error hu⟩
  | ok _ =>
    rw [bind_query_of_ok hu]
    cases he : s.entry function with
    | error e => exact .inl ⟨e, bind_query_of_error he⟩
    | ok e =>
      rw [bind_query_of_ok he]
      cases hends : s.checkEnds e.index with
      | error e => exact .inl ⟨e, bind_query_of_error hends⟩
      | ok _ =>
        rw [bind_query_of_ok hends]
        cases hv : s.doubleIn e.index value with
        | error e => exact .inl ⟨e, bind_query_of_error hv⟩
        | ok a =>
          rw [bind_query_of_ok hv]
          have hs := site_of_checkEnds hu hends
          rcases returnValue_cases hs a with ⟨err, h⟩ | ⟨c, f, b, hsite, hplace, h⟩
          · exact .inl ⟨err, h⟩
          · refine .inr ⟨_, h, ?_, fun w code hw => ⟨a, hw.place_eq hs ▸ hv, hw.usable, ?_⟩⟩
            · exact ⟨rfl, rfl, fun _ _ h => h, fun _ _ h => h, Nat.le_refl _⟩
            · have ha := (hw.appended hsite.cursor (.ret a)).functions
              change (s.appended c (.ret a)).module.functions.modify c.function _ = _
              rw [ha, hw.cursor_eq hsite.cursor, modify_last]

/-! ### Calls by name -/

/-- A handle that is found by name stands for a live function with the name. -/
theorem functionNamed?_eq_some {name : String} {f : FunctionId}
    (h : s.functionNamed? name = some f) :
    ∃ e g, s.entry f = .ok e ∧ s.module.functions[e.index]? = some g ∧ Module.isNamed name g := by
  simp only [functionNamed?, Option.bind_eq_bind, Option.bind_eq_some_iff, Option.pure_def,
    Option.some.injEq] at h
  obtain ⟨index, hindex, i, hi, rfl⟩ := h
  obtain ⟨hlt, hnamed, _⟩ := List.findIdx?_eq_some_iff_getElem.1 hindex
  obtain ⟨hlt', heq, _⟩ := Array.findIdx?_eq_some_iff_getElem.1 hi
  have hindex' : s.functions[i].index = index := by simpa using heq
  refine ⟨s.functions[i], s.module.functions[index], ?_, ?_, hnamed⟩
  · simp [entry, Handle.resolve, hlt']
  · rw [hindex', List.getElem?_eq_getElem hlt]

/-- A function of the module that is found by name can be called. -/
theorem WorksAt.knows (hw : s.WorksAt w code) {place : Nat} {g : Function} {name : String}
    (hg : s.module.functions[place]? = some g) (hnamed : Module.isNamed name g) : w.Knows name := by
  obtain ⟨hlive, rfl⟩ := Module.isNamed_iff.1 hnamed
  have hmem := List.mem_of_getElem? hg
  rw [hw.functions, List.mem_append, List.mem_singleton] at hmem
  rcases hmem with hmem | rfl
  · exact .inr ⟨g, hmem, hlive, rfl⟩
  · exact .inl rfl

end Session

/-- Lowering put code behind that of a workplace which does what the computation `x` does, in every
store that matches the names in scope; `post` relates the stores before and after it. -/
def Session.Adds {α : Type} (s : Session) (w : Workplace) (code : List Instr) (scope : Lower.Scope)
    (t : Session) (x : Callee → Locals → Run α) (post : Store → α → Store → Prop) : Prop :=
  ∃ is, t.WorksAt w (code ++ is) ∧ s.Extends t ∧
    ∀ c₁ c₂ : Callee, (∀ g, w.Knows g → c₁ g = c₂ g) →
      ∀ st locals, s.Matches st scope locals → st.Does c₁ is (x c₂ locals) (post st)

namespace Lower

open Session (andThen_eq_ok andThen_eq_error ask_eq_ok)

variable {s t : Session} {w : Workplace} {code : List Instr} {scope : Scope} {v : ValueId}

theorem callee_of_none {name : String} (h : s.functionNamed? name = none) (given : Nat) :
    callee name given s = refuse (.noFunction name) s := by
  simp only [callee, bind, EStateM.bind, get, getThe, MonadStateOf.get, EStateM.get, h]

theorem callee_of_some {name : String} {f : FunctionId} (h : s.functionNamed? name = some f)
    (given : Nat) : callee name given s = (do
      let g ← Session.query fun s => s.function f
      if g.arity ≠ given then refuse (.wrongArity name g.arity given)
      pure f : SessionM FunctionId) s := by
  simp only [callee, bind, EStateM.bind, get, getThe, MonadStateOf.get, EStateM.get, h]

theorem callee_eq_ok {name : String} {given : Nat} {f : FunctionId}
    (h : callee name given s = .ok f t) : s = t ∧ s.functionNamed? name = some f := by
  cases hf : s.functionNamed? name with
  | none =>
    rw [callee_of_none hf] at h
    cases h
  | some f' =>
    rw [callee_of_some hf] at h
    obtain ⟨g, hg, h⟩ := ask_eq_ok.1 h
    split at h
    next => cases h
    next =>
      cases h
      exact ⟨rfl, rfl⟩

/-! ### Expressions -/

/-- The code of an operator, whose sides must be doubles. -/
theorem binary_adds {op : BinaryOp} {lhs rhs : ValueId} (h : binary op lhs rhs s = .ok v t)
    (hw : s.WorksAt w code) :
    ∃ a b is, s.doubleIn w.before.length lhs = .ok a ∧ s.doubleIn w.before.length rhs = .ok b ∧
      t.WorksAt w (code ++ is) ∧ s.Extends t ∧
      ∀ (callee : Callee) (st : Store) x y, st.float a = some x → st.float b = some y →
        st.Does callee is (pure (.number (Interpreter.apply op x y))) fun z st' =>
          st.Agrees s.draft.temps.next st' ∧ t.Holds st' v z := by
  simp only [Interpreter.apply_eq]
  unfold binary at h
  generalize op.meaning = meaning at h ⊢
  cases meaning with
  | arithmetic op =>
    obtain ⟨a, b, ha, hb, hemit⟩ := Session.arith_eq_ok h hw
    refine ⟨a, b, _, ha, hb, hemit.worksAt, hemit.grows, fun callee st x y hx hy => ?_⟩
    have heffect : st.effect (.arith s.draft.temps.next op a b) =
        some (s.draft.temps.next, .float (op.eval x y)) := by
      simp [Store.effect, hx, hy]
    exact .plain rfl heffect (Store.does_pure ⟨.put st (Nat.le_refl _) _, hemit.holds st _⟩)
  | comparison p =>
    obtain ⟨flag, u, hcompare, hwiden⟩ := andThen_eq_ok.1 h
    obtain ⟨a, b, ha, hb, hemit⟩ := Session.compare_eq_ok hcompare hw
    obtain ⟨c, hc, hemit'⟩ := Session.widen_eq_ok hwiden hemit.worksAt
    obtain ⟨owner, hflag, _⟩ := Session.flagIn_eq_ok hc
    cases hemit.value.symm.trans hflag
    refine ⟨a, b, _, ha, hb, List.append_assoc code _ _ ▸ hemit'.worksAt,
      hemit.grows.trans hemit'.grows, fun callee st x y hx hy => ?_⟩
    have heffect : st.effect (.compare s.draft.temps.next p a b) =
        some (s.draft.temps.next, .bool (p.eval x y)) := by
      simp [Store.effect, hx, hy]
    have heffect' : (st.put (s.draft.temps.next, .bool (p.eval x y))).effect
        (.widen u.draft.temps.next (.temp s.draft.temps.next)) =
          some (u.draft.temps.next, .float (StraightLine.widen (p.eval x y))) := by
      simp [Store.effect, Store.flag, Store.held, Store.put]
    have hagrees := Store.Agrees.put st (Nat.le_refl s.draft.temps.next) (.bool (p.eval x y))
    have hagrees := hagrees.trans (Nat.le_refl _)
      (.put _ hemit.grows.temps (.float (StraightLine.widen (p.eval x y))))
    exact .plain rfl heffect (.plain rfl heffect' (Store.does_pure ⟨hagrees, hemit'.holds _ _⟩))

/-- The code of a name. -/
theorem useVariable_adds {name : String} (h : useVariable scope name s = .ok v t)
    (hw : s.WorksAt w code) :
    s.Adds w code scope t
      (fun callee locals => Interpreter.expr callee w.head.name locals (.var name))
      fun st x st' => st.Agrees s.draft.temps.next st' ∧ t.Holds st' v x := by
  unfold useVariable at h
  cases hlookup : scope.lookup name with
  | none =>
    rw [hlookup] at h
    cases h
  | some binding =>
    rw [hlookup] at h
    cases binding with
    | param value =>
      cases h
      refine ⟨[], by rwa [List.append_nil], .refl s, fun c₁ c₂ _ st locals hm => ?_⟩
      obtain ⟨x, hx, hholds⟩ := hm.param name v hlookup
      simp only [Interpreter.expr, hx]
      exact Store.does_pure ⟨.refl _ st, hholds⟩
    | slot slot =>
      obtain ⟨p, hp, hemit⟩ := Session.read_eq_ok h hw
      refine ⟨_, hemit.worksAt, hemit.grows, fun c₁ c₂ _ st locals hm => ?_⟩
      obtain ⟨q, x, hx, hq, hst⟩ := hm.slot name slot hlookup
      obtain rfl := hq.pointerIn hp
      have heffect : st.effect (.load s.draft.temps.next (.temp q) .double) =
          some (s.draft.temps.next, .float x) := by
        simp [Store.effect, Store.slot, hst]
      simp only [Interpreter.expr, hx]
      exact .plain rfl heffect (Store.does_pure ⟨.put st (Nat.le_refl _) _, hemit.holds st _⟩)

/-- A constant is known without code. -/
theorem constant_adds {entry : ValueEntry} (h : Session.addValue entry s = .ok v t)
    (hw : s.WorksAt w code) {x : Value} (hentry : ∀ n st, entry.Denotes n st x) :
    s.Adds w code scope t (fun _ _ => pure x)
      fun st x st' => st.Agrees s.draft.temps.next st' ∧ t.Holds st' v x := by
  obtain ⟨rfl, rfl⟩ := EStateM.Result.ok.inj h
  refine ⟨[], ?_, .withValue s entry, fun c₁ c₂ _ st locals _ => ?_⟩
  · rw [List.append_nil]
    exact hw.withValue entry
  · exact Store.does_pure ⟨.refl _ st, entry, Handle.resolve_push_size entry, hentry _ st⟩

mutual

/-- **The code of an expression does what the interpreter does.** -/
theorem expr_adds (e : Expr) {s t : Session} {v : ValueId} {code : List Instr}
    (h : expr scope e s = .ok v t) (hw : s.WorksAt w code) :
    s.Adds w code scope t (fun callee locals => Interpreter.expr callee w.head.name locals e)
      fun st x st' => st.Agrees s.draft.temps.next st' ∧ t.Holds st' v x := by
  match e with
  | .number x =>
    exact constant_adds h hw fun n st => ⟨rfl, by simp, rfl⟩
  | .string str =>
    exact constant_adds (x := .text str) h hw fun n st => by simp [ValueEntry.Denotes, Ty.bytes]
  | .var name => exact useVariable_adds h hw
  | .binary op l r =>
    obtain ⟨lhs, s₁, hl, h⟩ := andThen_eq_ok.1 h
    obtain ⟨rhs, s₂, hr, h⟩ := andThen_eq_ok.1 h
    obtain ⟨is₁, hw₁, he₁, hdoes₁⟩ := expr_adds l hl hw
    obtain ⟨is₂, hw₂, he₂, hdoes₂⟩ := expr_adds r hr hw₁
    obtain ⟨a, b, is₃, ha, hb, hw₃, he₃, hdoes₃⟩ := binary_adds h hw₂
    refine ⟨is₁ ++ (is₂ ++ is₃), by simpa using hw₃, (he₁.trans he₂).trans he₃,
      fun c₁ c₂ hc st locals hm => ?_⟩
    simp only [Interpreter.expr]
    refine (hdoes₁ c₁ c₂ hc st locals hm).bind fun x st₁ ⟨hst₁, hx⟩ => ?_
    obtain ⟨x, rfl, _⟩ := (hx.mono he₂ (.refl _ st₁)).float ha
    simp only [Interpreter.number, pure_bind]
    refine (hdoes₂ c₁ c₂ hc st₁ locals (hm.mono he₁ hst₁)).bind fun y st₂ ⟨hst₂, hy⟩ => ?_
    obtain ⟨y, rfl, hyb⟩ := hy.float hb
    -- The code of the right side has left the temp of the left one alone.
    obtain ⟨_, hnumber, hxa⟩ := (hx.mono he₂ hst₂).float ha
    cases hnumber
    simp only [pure_bind]
    refine (hdoes₃ c₁ st₂ x y hxa hyb).mono fun z st₃ ⟨hst₃, hz⟩ => ⟨?_, hz⟩
    exact (hst₁.trans he₁.temps hst₂).trans (he₁.trans he₂).temps hst₃
  | .call name args =>
    obtain ⟨f, s₀, hf, h⟩ := andThen_eq_ok.1 h
    obtain ⟨rfl, hfound⟩ := callee_eq_ok hf
    obtain ⟨vs, s₁, hargs, h⟩ := andThen_eq_ok.1 h
    obtain ⟨place, entry, as, hs, hentry, has, hemit⟩ := Session.call_eq_ok h
    obtain ⟨is₁, hw₁, he₁, hdoes₁⟩ := exprs_adds args hargs hw ⟨place, as, has⟩
    have hemit := hemit w _ hw₁
    obtain ⟨entry', g, hentry', hg, hnamed⟩ := Session.functionNamed?_eq_some hfound
    rw [he₁.entry] at hentry
    obtain rfl := Except.ok.inj (hentry.symm.trans hentry')
    have hname : (s₁.functionAt entry.index).name = name := by
      rw [hw.name_functionAt_eq hw₁, Session.functionAt, hg]
      exact (Module.isNamed_iff.1 hnamed).2
    refine ⟨is₁ ++ _, by simpa using hemit.worksAt, he₁.trans hemit.grows,
      fun c₁ c₂ hc st locals hm => ?_⟩
    simp only [Interpreter.expr]
    refine (hdoes₁ c₁ c₂ hc st locals hm).bind fun xs st₁ ⟨hst₁, hxs⟩ => ?_
    rw [← hc name (hw.knows hg hnamed), hname]
    refine (Store.does_call (Session.Holds.mapM_float has hxs) fun x => ?_).map _ fun x st₂ h => h
    exact ⟨hst₁.trans he₁.temps (.put st₁ (Nat.le_refl _) _), hemit.holds st₁ x⟩

/-- The code of arguments does what the interpreter does, if they are doubles. -/
theorem exprs_adds (es : List Expr) {s t : Session} {vs : List ValueId} {code : List Instr}
    (h : exprs scope es s = .ok vs t) (hw : s.WorksAt w code)
    (hdouble : ∃ place as, List.Forall₂ (fun v a => t.doubleIn place v = .ok a) vs as) :
    s.Adds w code scope t (fun callee locals => Interpreter.exprs callee w.head.name locals es)
      fun st xs st' => st.Agrees s.draft.temps.next st' ∧
        List.Forall₂ (fun v x => t.Holds st' v (.number x)) vs xs := by
  match es with
  | [] =>
    cases h
    refine ⟨[], by rwa [List.append_nil], .refl s, fun c₁ c₂ _ st locals _ => ?_⟩
    simp only [Interpreter.exprs]
    exact Store.does_pure ⟨.refl _ st, .nil⟩
  | e :: es =>
    obtain ⟨v, s₁, he, h⟩ := andThen_eq_ok.1 h
    obtain ⟨vs, s₂, hes, h⟩ := andThen_eq_ok.1 h
    cases h
    obtain ⟨place, _, has⟩ := hdouble
    obtain ⟨a, as, ha, has, _⟩ := List.forall₂_cons_left_iff.1 has
    obtain ⟨is₁, hw₁, he₁, hdoes₁⟩ := expr_adds e he hw
    obtain ⟨is₂, hw₂, he₂, hdoes₂⟩ := exprs_adds es hes hw₁ ⟨place, as, has⟩
    refine ⟨is₁ ++ is₂, by simpa using hw₂, he₁.trans he₂, fun c₁ c₂ hc st locals hm => ?_⟩
    simp only [Interpreter.exprs]
    refine (hdoes₁ c₁ c₂ hc st locals hm).bind fun x st₁ ⟨hst₁, hx⟩ => ?_
    obtain ⟨x, rfl, _⟩ := (hx.mono he₂ (.refl _ st₁)).float ha
    simp only [Interpreter.number, pure_bind]
    refine (hdoes₂ c₁ c₂ hc st₁ locals (hm.mono he₁ hst₁)).map _ fun xs st₂ ⟨hst₂, hxs⟩ => ?_
    exact ⟨hst₁.trans he₁.temps hst₂, .cons (hx.mono he₂ hst₂) hxs⟩

end

/-! ### Statements -/

/-- The code of a new variable, which is made and filled with the value. -/
theorem bind_adds {function : FunctionId} {scope' : Scope} {name : String} {value : Expr}
    (h : stmt function scope (.bind name value) s = .ok scope' t) (hw : s.WorksAt w code) :
    s.Adds w code scope t
      (fun callee locals => Interpreter.stmt callee w.head.name locals (.bind name value))
      fun _ locals' st' => t.Matches st' scope' locals' := by
  obtain ⟨v, s₁, he, h⟩ := andThen_eq_ok.1 h
  obtain ⟨slot, s₂, hdeclare, h⟩ := andThen_eq_ok.1 h
  cases h
  obtain ⟨is, hw₁, he₁, hdoes⟩ := expr_adds value he hw
  obtain ⟨a, ha, he₂, hpoints, hw₂, _⟩ := Session.declareVariable_eq_ok hdeclare hw₁
  refine ⟨is ++ _, by simpa using hw₂, he₁.trans he₂, fun c₁ c₂ hc st locals hm => ?_⟩
  simp only [Interpreter.stmt]
  refine (hdoes c₁ c₂ hc st locals hm).bind fun x st₁ ⟨hst₁, hx⟩ => ?_
  obtain ⟨x, rfl, hfloat⟩ := hx.float ha
  simp only [Interpreter.number, pure_bind]
  -- The value is still there after the slot is made: it lies in a temp below that of the slot.
  have hmade := Store.Agrees.put st₁ (Nat.le_refl s₁.draft.temps.next) (.slot none)
  obtain ⟨_, hnumber, hfloat'⟩ := (hx.mono (.refl s₁) hmade).float ha
  cases hnumber
  have heffect : (st₁.put (s₁.draft.temps.next, .slot none)).effect
      (.store a (.temp s₁.draft.temps.next)) = some (s₁.draft.temps.next, .slot (some x)) := by
    have hslot := Store.put_self st₁ (s₁.draft.temps.next, .slot none)
    simp [Store.effect, Store.slot, hslot, hfloat']
  have hagrees := hmade.trans (Nat.le_refl _) (.put _ (Nat.le_refl _) (.slot (some x)))
  refine .plain rfl rfl (.plain rfl heffect (Store.does_pure ?_))
  exact (hm.mono he₁ hst₁).bind he₂ hagrees hpoints (Nat.le_refl _) (Store.put_self _ _) name

/-- The code of a change, which goes to the slot of the latest variable with the name. -/
theorem assign_adds {function : FunctionId} {scope' : Scope} {name : String} {value : Expr}
    (h : stmt function scope (.assign name value) s = .ok scope' t) (hw : s.WorksAt w code) :
    s.Adds w code scope t
      (fun callee locals => Interpreter.stmt callee w.head.name locals (.assign name value))
      fun _ locals' st' => t.Matches st' scope' locals' := by
  rw [stmt] at h
  cases hlookup : scope.lookup name with
  | none =>
    rw [hlookup] at h
    cases h
  | some binding =>
    rw [hlookup] at h
    cases binding with
    | param _ => cases h
    | slot slot =>
      obtain ⟨v, s₁, he, h⟩ := andThen_eq_ok.1 h
      obtain ⟨_, s₂, hassign, h⟩ := andThen_eq_ok.1 h
      cases h
      obtain ⟨is, hw₁, he₁, hdoes⟩ := expr_adds value he hw
      obtain ⟨p, a, hp, ha, he₂, hw₂, _⟩ := Session.assign_eq_ok hassign hw₁
      refine ⟨is ++ _, by simpa using hw₂, he₁.trans he₂, fun c₁ c₂ hc st locals hm => ?_⟩
      simp only [Interpreter.stmt]
      refine (hdoes c₁ c₂ hc st locals hm).bind fun x st₁ ⟨hst₁, hx⟩ => ?_
      obtain ⟨x, rfl, hfloat⟩ := hx.float ha
      have hm₁ := hm.mono he₁ hst₁
      obtain ⟨q, y, _, hq, hslot⟩ := hm₁.slot name slot hlookup
      obtain rfl := hq.pointerIn hp
      have heffect : st₁.effect (.store a (.temp q)) = some (q, .slot (some x)) := by
        simp [Store.effect, Store.slot, hslot, hfloat]
      obtain ⟨locals', hlocals, hm₂⟩ := hm₁.assign hlookup hq x
      simp only [Interpreter.number, pure_bind, hlocals]
      exact .plain rfl heffect (Store.does_pure (hm₂.mono he₂ (.refl _ _)))

/-- **The code of a statement does what the interpreter does**, and leaves the names as it does. -/
theorem stmt_adds {function : FunctionId} {scope' : Scope} {st : Stmt}
    (h : stmt function scope st s = .ok scope' t) (hst : st.isReturn = false)
    (hw : s.WorksAt w code) :
    s.Adds w code scope t (fun callee locals => Interpreter.stmt callee w.head.name locals st)
      fun _ locals' st' => t.Matches st' scope' locals' := by
  cases st with
  | bind name value => exact bind_adds h hw
  | assign name value => exact assign_adds h hw
  | eval value =>
    obtain ⟨v, s₁, he, h⟩ := andThen_eq_ok.1 h
    cases h
    obtain ⟨is, hw₁, he₁, hdoes⟩ := expr_adds value he hw
    refine ⟨is, hw₁, he₁, fun c₁ c₂ hc st locals hm => ?_⟩
    simp only [Interpreter.stmt]
    exact (hdoes c₁ c₂ hc st locals hm).map _ fun x st₁ ⟨hst₁, _⟩ => hm.mono he₁ hst₁
  | ret value => cases hst

theorem interpreter_stmts_cons {callee : Callee} {name : String} {locals : Locals} {st : Stmt}
    (hst : st.isReturn = false) (rest : List Stmt) :
    Interpreter.stmts callee name locals (st :: rest) =
      Interpreter.stmt callee name locals st >>= fun locals =>
        Interpreter.stmts callee name locals rest := by
  cases st with
  | ret e => cases hst
  | _ => rfl

/-- **The code of a body answers what the interpreter does.** -/
theorem stmts_answer {function : FunctionId} (init : List Stmt) {e : Expr}
    (hinit : ∀ st ∈ init, st.isReturn = false) {s t : Session} {scope : Scope} {code : List Instr}
    (h : stmts function scope (init ++ [.ret e]) s = .ok () t) (hw : s.WorksAt w code) :
    ∃ is, t.Ended w (code ++ is) ∧ s.Extends t ∧
      ∀ c₁ c₂ : Callee, (∀ g, w.Knows g → c₁ g = c₂ g) →
        ∀ st locals, s.Matches st scope locals → ∀ out, st.run c₁ is out =
          some (Interpreter.stmts c₂ w.head.name locals (init ++ [.ret e]) out) := by
  induction init generalizing s scope code with
  | nil =>
    obtain ⟨scope', s₁, hstmt, h⟩ := andThen_eq_ok.1 h
    cases h
    obtain ⟨v, s₁, he, hend⟩ := andThen_eq_ok.1 hstmt
    obtain ⟨_, s₂, hend, h⟩ := andThen_eq_ok.1 hend
    cases h
    obtain ⟨is, hw₁, he₁, hdoes⟩ := expr_adds e he hw
    rcases Session.endFunction_cases s₁ function v with ⟨err, herr⟩ | ⟨u, hok, he₂, hended⟩
    · cases herr.symm.trans hend
    · cases hok.symm.trans hend
      obtain ⟨a, ha, hended⟩ := hended w _ hw₁
      refine ⟨is ++ [.ret a], by simpa using hended, he₁.trans he₂,
        fun c₁ c₂ hc st locals hm out => ?_⟩
      refine (hdoes c₁ c₂ hc st locals hm).answer (fun x st₁ ⟨_, hx⟩ out => ?_) out
      obtain ⟨y, rfl, hfloat⟩ := hx.float ha
      rw [Store.run, hfloat]
      rfl
  | cons st init ih =>
    rw [List.forall_mem_cons] at hinit
    obtain ⟨scope', s₁, hstmt, h⟩ := andThen_eq_ok.1 h
    obtain ⟨is₁, hw₁, he₁, hdoes⟩ := stmt_adds hstmt hinit.1 hw
    obtain ⟨is₂, hended, he₂, hanswer⟩ := ih hinit.2 h hw₁
    refine ⟨is₁ ++ is₂, by simpa using hended, he₁.trans he₂,
      fun c₁ c₂ hc st locals hm out => ?_⟩
    rw [List.cons_append, interpreter_stmts_cons hinit.1]
    exact (hdoes c₁ c₂ hc st locals hm).answer
      (fun locals' st₁ hm₁ => hanswer c₁ c₂ hc st₁ locals' hm₁) out

/-! ### Lowering that fails -/

open Session (Builds takes_bind takes_pure)

theorem builds_refuse {α : Type} (r : Refusal) : Builds (refuse r : SessionM α) := fun _ => .refl

theorem builds_useVariable (scope : Scope) (name : String) : Builds (useVariable scope name) := by
  unfold useVariable
  cases scope.lookup name with
  | none => exact builds_refuse _
  | some binding =>
    cases binding with
    | param v => exact takes_pure v
    | slot slot => exact Session.builds_read slot

theorem builds_binary (op : BinaryOp) (lhs rhs : ValueId) : Builds (binary op lhs rhs) := by
  unfold binary
  cases op.meaning with
  | arithmetic op => exact Session.builds_arith op lhs rhs
  | comparison p => exact takes_bind (Session.builds_compare p lhs rhs) Session.builds_widen

theorem builds_callee (name : String) (given : Nat) : Builds (callee name given) := by
  intro s
  cases hf : s.functionNamed? name with
  | none => rw [Session.result_error (callee_of_none hf given)]
  | some f =>
    rw [Session.result, callee_of_some hf]
    refine takes_bind (Session.takes_query _) (fun g => ?_) s
    split
    · exact takes_bind (builds_refuse _) fun _ => takes_pure f
    · exact takes_pure f

mutual

/-- An expression that is lowered only builds code, also when it is refused. -/
theorem builds_expr (scope : Scope) (e : Expr) : Builds (expr scope e) := by
  match e with
  | .number c => exact Session.builds_floatConstant c
  | .string str => exact Session.builds_stringConstant _
  | .var name => exact builds_useVariable scope name
  | .binary op l r =>
    exact takes_bind (builds_expr scope l) fun lhs => takes_bind (builds_expr scope r) fun rhs =>
      builds_binary op lhs rhs
  | .call name args =>
    exact takes_bind (builds_callee name _) fun f => takes_bind (builds_exprs scope args) fun vs =>
      Session.builds_call f vs

theorem builds_exprs (scope : Scope) (es : List Expr) : Builds (exprs scope es) := by
  match es with
  | [] => exact takes_pure []
  | e :: es =>
    exact takes_bind (builds_expr scope e) fun v => takes_bind (builds_exprs scope es) fun vs =>
      takes_pure (v :: vs)

end

theorem builds_stmt (function : FunctionId) (scope : Scope) {st : Stmt}
    (hst : st.isReturn = false) :
    Builds (stmt function scope st) := by
  cases st with
  | bind name value =>
    exact takes_bind (builds_expr scope value) fun v =>
      takes_bind (Session.builds_declareVariable v name) fun slot => takes_pure _
  | assign name value =>
    rw [stmt]
    cases scope.lookup name with
    | none => exact builds_refuse _
    | some binding =>
      cases binding with
      | param v => exact builds_refuse _
      | slot slot =>
        exact takes_bind (builds_expr scope value) fun v =>
          takes_bind (Session.builds_assign slot v) fun _ => takes_pure scope
  | eval value => exact takes_bind (builds_expr scope value) fun _ => takes_pure scope
  | ret value => cases hst

/-- A body that is refused has only built code. -/
theorem stmts_error {function : FunctionId} (init : List Stmt) {e : Expr}
    (hinit : ∀ st ∈ init, st.isReturn = false) {s t : Session} {scope : Scope} {err : Error}
    (h : stmts function scope (init ++ [.ret e]) s = .error err t) : s.CodeSteps t := by
  have hbuilds {α : Type} {x : SessionM α} (hx : Builds x) {s t : Session} :
      (∀ a, x s = .ok a t → s.CodeSteps t) ∧ ∀ err, x s = .error err t → s.CodeSteps t :=
    ⟨fun _ h => Session.result_ok h ▸ hx s, fun _ h => Session.result_error h ▸ hx s⟩
  induction init generalizing s scope with
  | nil =>
    rcases andThen_eq_error.1 h with h | ⟨_, _, _, h⟩
    · rcases andThen_eq_error.1 h with h | ⟨v, u, he, h⟩
      · exact (hbuilds (builds_expr scope e)).2 _ h
      · have hsteps := (hbuilds (builds_expr scope e)).1 _ he
        rcases andThen_eq_error.1 h with h | ⟨_, _, _, h⟩
        · rcases Session.endFunction_cases u function v with ⟨err, herr⟩ | ⟨_, hok, _⟩
          · cases herr.symm.trans h
            exact hsteps
          · cases hok.symm.trans h
        · cases h
    · cases h
  | cons st init ih =>
    rw [List.forall_mem_cons] at hinit
    rcases andThen_eq_error.1 h with h | ⟨scope', u, hstmt, h⟩
    · exact (hbuilds (builds_stmt function scope hinit.1)).2 _ h
    · exact ((hbuilds (builds_stmt function scope hinit.1)).1 _ hstmt).trans (ih hinit.2 h)

end Lower

end StraightLine
