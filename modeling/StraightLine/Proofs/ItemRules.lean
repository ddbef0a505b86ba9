import StraightLine.Proofs.CodeRequests

/-!
# The rules of items

When an item is in order (`Item.Lawful`) is said here without handles or code. An expression is
numeric (`Expr.Numeric`) when all that it uses is there; a string is not, and stands alone. A
statement is in order after others (`Stmt.InOrder`) when its expressions are, and what it assigns is
a variable. The lowering of expressions and statements decides these rules (`Lower.expr_decides`,
`Lower.stmts_decides`): what is in order becomes code, and all else is refused.
-/

namespace StraightLine

/-! ### Rules -/

/-- An expression that has a number for a value: its variables are visible, and its calls give
functions as many arguments as they take. `calls` says which functions there are, and of how many
arguments. -/
inductive Expr.Numeric (calls : String → Nat → Prop) (visible : List String) : Expr → Prop
  | number (c : Numeral) : Numeric calls visible (.number c)
  | var (name : String) (isVisible : name ∈ visible) : Numeric calls visible (.var name)
  | binary (op : BinaryOp) (l r : Expr) (left : Numeric calls visible l)
      (right : Numeric calls visible r) : Numeric calls visible (.binary op l r)
  | call (name : String) (args : List Expr) (callee : calls name args.length)
      (numeric : ∀ e ∈ args, Numeric calls visible e) : Numeric calls visible (.call name args)

/-- An expression that can be a statement of its own. Strings can only be that. -/
def Expr.Stands (calls : String → Nat → Prop) (visible : List String) (e : Expr) : Prop :=
  e.Numeric calls visible ∨ ∃ text, e = .string text

/-- The variable that a statement makes. -/
def Stmt.binds? : Stmt → Option String
  | .bind name _ => some name
  | _ => none

/-- The variables that statements make. -/
def Stmt.bound (b : List Stmt) : List String := b.filterMap binds?

/-- A statement that is in order after others, in a function with some parameters. What is assigned
must be a variable, and so must not be a parameter that none hides. -/
def Stmt.InOrder (calls : String → Nat → Prop) (params : List String) (earlier : List Stmt) :
    Stmt → Prop
  | .bind _ e | .ret e => e.Numeric calls (params ++ bound earlier)
  | .assign name e => name ∈ bound earlier ∧ e.Numeric calls (params ++ bound earlier)
  | .eval e => e.Stands calls (params ++ bound earlier)

/-- Statements that are in order one after another, after others. -/
def Stmt.AllInOrder (calls : String → Nat → Prop) (params : List String) :
    List Stmt → List Stmt → Prop
  | _, [] => True
  | earlier, st :: rest =>
    st.InOrder calls params earlier ∧ AllInOrder calls params (earlier ++ [st]) rest

/-- A body that returns in its last statement, and in no other. -/
def Stmt.ReturnsLast (b : List Stmt) : Prop :=
  ∃ init e, b = init ++ [.ret e] ∧ ∀ st ∈ init, st.isReturn = false

/-- A name that is kept for functions around top-level expressions. -/
def Session.Reserved (name : String) : Prop :=
  name = wrapperStem ∨ ∃ rest, name = wrapperStem ++ "." ++ rest

/-- A name that can be given to a new function. -/
structure Session.Admissible (s : Session) (name : String) : Prop where
  nonempty : name ≠ ""
  free : ¬ Reserved name
  new : ∀ f ∈ s.module.live, f.name ≠ name

/-- The calls that are open to a new function: of itself, and of the live functions, with as many
arguments as they take. -/
def Session.Calls (s : Session) (own : String) (arity : Nat) (name : String) (given : Nat) : Prop :=
  (name = own ∧ given = arity) ∨ ∃ f ∈ s.module.live, f.name = name ∧ f.arity = given

/-- **The rules of items.** A function has an admissible name, parameters with different names, and
a body that returns at its end only and whose statements are in order. A declared function has an
admissible name. A top-level expression is numeric, with no variable in sight. -/
def Item.Lawful (s : Session) : Item → Prop
  | .function proto body =>
    s.Admissible proto.name ∧ proto.params.Nodup ∧ Stmt.ReturnsLast body ∧
      Stmt.AllInOrder (s.Calls proto.name proto.params.length) proto.params [] body
  | .external proto => s.Admissible proto.name
  | .topLevel value => value.Numeric (s.Calls s.wrappers.take.1 0) []

namespace Expr

variable {calls : String → Nat → Prop} {visible : List String}

theorem stands_var_iff {name : String} :
    (Expr.var name).Stands calls visible ↔ name ∈ visible := by
  constructor
  · rintro (h | ⟨text, h⟩)
    · cases h
      assumption
    · cases h
  · intro h
    exact .inl (.var name h)

theorem stands_binary_iff {op : BinaryOp} {l r : Expr} :
    (Expr.binary op l r).Stands calls visible ↔
      l.Numeric calls visible ∧ r.Numeric calls visible := by
  constructor
  · rintro (h | ⟨text, h⟩)
    · cases h with
      | binary _ _ _ hl hr => exact ⟨hl, hr⟩
    · cases h
  · rintro ⟨hl, hr⟩
    exact .inl (.binary op l r hl hr)

theorem stands_call_iff {name : String} {args : List Expr} :
    (Expr.call name args).Stands calls visible ↔
      calls name args.length ∧ ∀ e ∈ args, e.Numeric calls visible := by
  constructor
  · rintro (h | ⟨text, h⟩)
    · cases h with
      | call _ _ hcallee hargs => exact ⟨hcallee, hargs⟩
    · cases h
  · rintro ⟨hcallee, hargs⟩
    exact .inl (.call name args hcallee hargs)

end Expr

/-! ### Functions by name -/

/-- The arities of the functions that code at a workplace can call. -/
def Workplace.arities (w : Workplace) : Arities := fun name =>
  ((w.before ++ [w.function []]).find? (Module.isNamed name)).map Function.arity

/-- Code at a workplace can call a function with a number of arguments. -/
def Workplace.Calls (w : Workplace) (name : String) (given : Nat) : Prop :=
  w.arities name = some given

namespace Session

variable {s t : Session} {w : Workplace} {code : List Instr}

theorem WorksAt.arities (hw : s.WorksAt w code) : s.module.arities = w.arities := by
  funext name
  have hsame : Module.isNamed name (w.function code) = Module.isNamed name (w.function []) := rfl
  simp only [Module.arities, Module.find?, Workplace.arities, hw.functions, List.find?_append,
    List.find?_cons, List.find?_nil, hsame]
  cases w.before.find? (Module.isNamed name) with
  | some f => rfl
  | none => cases Module.isNamed name (w.function []) <;> rfl

/-- More code does not change what names stand for. -/
theorem WorksAt.functionNamed?_eq (hw : s.WorksAt w code) {code' : List Instr}
    (hw' : t.WorksAt w code') (hextends : s.Extends t) (name : String) :
    t.functionNamed? name = s.functionNamed? name := by
  have hsame : Module.isNamed name (w.function code') = Module.isNamed name (w.function code) := rfl
  have hindex : t.module.index? name = s.module.index? name := by
    rw [Module.index?, Module.index?, hw.functions, hw'.functions, List.findIdx?_append,
      List.findIdx?_append, List.findIdx?_singleton, List.findIdx?_singleton, hsame]
  rw [functionNamed?, functionNamed?, hindex, hextends.functions, hextends.id]

/-- Every live function is found by its name. -/
theorem Formed.functionNamed?_of_find? (hs : s.Formed) {name : String} {g : Function}
    (h : s.module.find? name = some g) : ∃ f, s.functionNamed? name = some f := by
  obtain ⟨place, hplace⟩ : ∃ place, s.module.index? name = some place := by
    rw [← Option.isSome_iff_exists, Module.index?, List.findIdx?_isSome, List.any_eq_true]
    exact ⟨g, List.mem_of_find?_eq_some h, List.find?_some h⟩
  obtain ⟨hlt, _⟩ := List.findIdx?_eq_some_iff_getElem.1 hplace
  obtain ⟨handle, e, he, hindex⟩ := hs.exists_entry hlt
  obtain ⟨i, hi⟩ : ∃ i, s.functions.findIdx? (fun e => e.index = place) = some i := by
    rw [← Option.isSome_iff_exists, Array.findIdx?_isSome, Array.any_eq_true']
    exact ⟨e, resolve_eq_ok he, by simpa using hindex⟩
  exact ⟨⟨s.id, i⟩, by simp [functionNamed?, hplace, hi]⟩

/-- A function that is found by name can be called, with as many arguments as it takes. -/
theorem Formed.callee_of_functionNamed? (hs : s.Formed) {name : String} {f : FunctionId}
    (h : s.functionNamed? name = some f) :
    ∃ g, s.function f = .ok g ∧ s.callee f = .ok g ∧ s.module.arities name = some g.arity := by
  obtain ⟨e, g, he, hg, hnamed⟩ := functionNamed?_eq_some h
  obtain ⟨hlive, rfl⟩ := Module.isNamed_iff.1 hnamed
  have hfunction : s.function f = .ok g := by
    simp [function, he, Except.map, Session.functionAt, hg]
  refine ⟨g, hfunction, ?_, ?_⟩
  · rw [callee, hfunction]
    exact if_pos hlive
  · exact Module.arities_of_mem_live hs.distinct
      (List.mem_filter.2 ⟨List.mem_of_getElem? hg, hlive⟩)

end Session

namespace Lower

open Session (Decides Working decides_ok)

variable {s t : Session} {w : Workplace} {scope : Scope}

theorem decides_refuse {α : Type} {good : α → Session → Prop} {bad : Session → Prop} (r : Refusal)
    (hbad : bad s) : Decides (refuse r s) good bad :=
  ⟨hbad, _, _, rfl⟩

/-- The rule for calls: a call is granted when the function is there and takes as many arguments. -/
theorem callee_decides (hw : s.Working w) (name : String) (given : Nat) :
    Decides (callee name given s)
      (fun f t => t = s ∧ w.Calls name given ∧ s.functionNamed? name = some f)
      (fun _ => ¬ w.Calls name given) := by
  obtain ⟨code, hworks⟩ := hw.works
  simp only [Workplace.Calls, ← hworks.arities]
  cases hf : s.functionNamed? name with
  | none =>
    rw [callee_of_none hf]
    refine decides_refuse _ fun harity => ?_
    obtain ⟨g, hg, _⟩ := Option.map_eq_some_iff.1 harity
    obtain ⟨f, hsome⟩ := hw.formed.functionNamed?_of_find? hg
    cases hf.symm.trans hsome
  | some f =>
    obtain ⟨g, hg, _, harity⟩ := hw.formed.callee_of_functionNamed? hf
    rw [callee_of_some hf, Session.bind_query_of_ok hg, harity]
    by_cases hgiven : g.arity = given
    · rw [if_neg (not_not.2 hgiven)]
      exact decides_ok rfl ⟨rfl, by rw [hgiven], rfl⟩
    · rw [if_pos hgiven]
      have hrefuse : Decides (refuse (.wrongArity name g.arity given) s)
          (fun (_ : Unit) _ => False) (fun _ => ¬ some g.arity = some given) :=
        decides_refuse _ fun h => hgiven (Option.some.inj h)
      exact hrefuse.bind (fun _ _ _ h => h.elim) fun _ h => h

/-! ### Expressions -/

/-- The names of a function under construction stand for what they should: variables for slots, and
parameters for doubles unless a variable hides them. -/
structure Scoped (s : Session) (place : Nat) (scope : Scope) (params vars : List String) :
    Prop where
  param : ∀ name v, scope.lookup name = some (.param v) →
    name ∈ params ∧ name ∉ vars ∧ s.Has place v .double
  slot : ∀ name h, scope.lookup name = some (.slot h) → name ∈ vars ∧ s.HasSlot place h
  unbound : ∀ name, scope.lookup name = none → name ∉ params ∧ name ∉ vars

theorem Scoped.mono {place : Nat} {params vars : List String}
    (h : Scoped s place scope params vars) (ht : s.Extends t) :
    Scoped t place scope params vars where
  param name v hv := by
    obtain ⟨hparam, hvar, hhas⟩ := h.param name v hv
    exact ⟨hparam, hvar, hhas.mono ht⟩
  slot name slot hslot := by
    obtain ⟨hvar, hhas⟩ := h.slot name slot hslot
    exact ⟨hvar, hhas.mono ht⟩
  unbound := h.unbound

/-- A parameter hides those of its name that come behind it. -/
theorem Scoped.param_cons {place : Nat} {params : List String}
    (h : Scoped s place scope params []) (name : String) {v : ValueId}
    (hv : s.Has place v .double) :
    Scoped s place ((name, .param v) :: scope) (name :: params) [] where
  param n v' hv' := by
    by_cases hn : n = name
    · subst hn
      rw [List.lookup_cons_self] at hv'
      cases hv'
      exact ⟨List.mem_cons_self, List.not_mem_nil, hv⟩
    · rw [lookup_cons_of_ne hn] at hv'
      obtain ⟨hparam, hvar, hhas⟩ := h.param n v' hv'
      exact ⟨List.mem_cons_of_mem name hparam, hvar, hhas⟩
  slot n h' hh' := by
    by_cases hn : n = name
    · simp [hn] at hh'
    · rw [lookup_cons_of_ne hn] at hh'
      exact h.slot n h' hh'
  unbound n hnone := by
    by_cases hn : n = name
    · simp [hn] at hnone
    · rw [lookup_cons_of_ne hn] at hnone
      obtain ⟨hparam, hvar⟩ := h.unbound n hnone
      exact ⟨by simp [hparam, hn], hvar⟩

/-- A new variable hides what had its name. -/
theorem Scoped.bind {place : Nat} {params vars : List String}
    (h : Scoped s place scope params vars) (name : String) {slot : SlotId}
    (hslot : s.HasSlot place slot) :
    Scoped s place ((name, .slot slot) :: scope) params (vars ++ [name]) where
  param n v hv := by
    by_cases hn : n = name
    · simp [hn] at hv
    · rw [lookup_cons_of_ne hn] at hv
      obtain ⟨hparam, hvar, hhas⟩ := h.param n v hv
      exact ⟨hparam, by simp [hvar, hn], hhas⟩
  slot n h' hh' := by
    by_cases hn : n = name
    · subst hn
      rw [List.lookup_cons_self] at hh'
      cases hh'
      exact ⟨by simp, hslot⟩
    · rw [lookup_cons_of_ne hn] at hh'
      obtain ⟨hvar, hhas⟩ := h.slot n h' hh'
      exact ⟨by simp [hvar], hhas⟩
  unbound n hnone := by
    by_cases hn : n = name
    · simp [hn] at hnone
    · rw [lookup_cons_of_ne hn] at hnone
      obtain ⟨hparam, hvar⟩ := h.unbound n hnone
      exact ⟨hparam, by simp [hvar, hn]⟩

theorem codeSteps_of_ok {α : Type} {x : SessionM α} (hx : Session.Builds x) {a : α}
    (h : x s = .ok a t) : s.CodeSteps t :=
  Session.result_ok h ▸ hx s

theorem useVariable_decides (hw : s.Working w) {params vars : List String}
    (hscope : Scoped s w.before.length scope params vars) (name : String) :
    Decides (useVariable scope name s)
      (fun v t => name ∈ params ++ vars ∧ t.Has w.before.length v .double)
      (fun _ => name ∉ params ++ vars) := by
  unfold useVariable
  cases hlookup : scope.lookup name with
  | none =>
    obtain ⟨hparam, hvar⟩ := hscope.unbound name hlookup
    exact decides_refuse _ (by simp [hparam, hvar])
  | some binding =>
    cases binding with
    | param v =>
      obtain ⟨hparam, _, hhas⟩ := hscope.param name v hlookup
      exact decides_ok rfl ⟨by simp [hparam], hhas⟩
    | slot slot =>
      obtain ⟨hvar, hslot⟩ := hscope.slot name slot hlookup
      obtain ⟨v, t, h, hv⟩ := hw.read_of_hasSlot hslot
      exact decides_ok h ⟨by simp [hvar], hv⟩

theorem binary_decides (hw : s.Working w) (op : BinaryOp) {lhs rhs : ValueId} {tl tr : Ty}
    (hl : s.Has w.before.length lhs tl) (hr : s.Has w.before.length rhs tr) :
    Decides (binary op lhs rhs s)
      (fun v t => (tl = .double ∧ tr = .double) ∧ t.Has w.before.length v .double)
      (fun _ => ¬ (tl = .double ∧ tr = .double)) := by
  unfold binary
  cases op.meaning with
  | arithmetic op => exact hw.decides_arith op hl hr
  | comparison p =>
    refine (hw.decides_compare p hl hr).bind (fun v t h hv => ?_) fun _ h => h
    have hw' := hw.codeSteps (codeSteps_of_ok (Session.builds_compare p lhs rhs) h)
    obtain ⟨v', u, hwiden, hv'⟩ := hw'.widen_of_has hv.2
    exact decides_ok hwiden ⟨hv.1, hv'⟩

section Expressions

variable {params vars : List String}

mutual

/-- **The lowering of an expression decides whether it can be a statement**, and its value is a
double exactly when it is numeric. -/
theorem expr_decides {s : Session} (hw : s.Working w)
    (hscope : Scoped s w.before.length scope params vars) (e : Expr) :
    Decides (expr scope e s)
      (fun v t => ∃ ty, t.Has w.before.length v ty ∧ e.Stands w.Calls (params ++ vars) ∧
        (ty = .double ↔ e.Numeric w.Calls (params ++ vars)))
      (fun _ => ¬ e.Stands w.Calls (params ++ vars)) := by
  -- A double is what is left to show where the expression is not a string.
  have double {v : ValueId} {t : Session} (hv : t.Has w.before.length v .double)
      (he : e.Numeric w.Calls (params ++ vars)) :
      ∃ ty, t.Has w.before.length v ty ∧ e.Stands w.Calls (params ++ vars) ∧
        (ty = .double ↔ e.Numeric w.Calls (params ++ vars)) :=
    ⟨.double, hv, .inl he, fun _ => he, fun _ => rfl⟩
  match e with
  | .number c =>
    refine decides_ok rfl (double ?_ (.number c))
    exact ⟨_, Handle.resolve_push_size _, rfl, .inl rfl⟩
  | .string text =>
    refine decides_ok rfl ⟨_, ⟨_, Handle.resolve_push_size _, rfl, .inl rfl⟩, .inr ⟨text, rfl⟩, ?_⟩
    constructor
    · intro h
      cases h
    · intro h
      cases h
  | .var name =>
    refine (useVariable_decides hw hscope name).imp (fun v t _ h => ?_) fun _ _ _ h hstands => ?_
    · exact double h.2 (.var name h.1)
    · exact h (Expr.stands_var_iff.1 hstands)
  | .binary op l r =>
    refine (expr_decides hw hscope l).bind (fun v t hl hv => ?_) fun _ h hstands => ?_
    · obtain ⟨tl, hvl, _, htl⟩ := hv
      have hsteps := codeSteps_of_ok (builds_expr scope l) hl
      have hwt := hw.codeSteps hsteps
      refine (expr_decides hwt (hscope.mono hsteps.extends) r).bind (fun v' u hr hv' => ?_)
        fun _ h hstands => ?_
      · obtain ⟨tr, hvr, _, htr⟩ := hv'
        have hsteps' := codeSteps_of_ok (builds_expr scope r) hr
        refine (binary_decides (hwt.codeSteps hsteps') op (hvl.mono hsteps'.extends) hvr).imp
          (fun v'' u' _ h => ?_) fun _ _ _ h hstands => ?_
        · exact double h.2 (.binary op l r (htl.1 h.1.1) (htr.1 h.1.2))
        · obtain ⟨hl, hr⟩ := Expr.stands_binary_iff.1 hstands
          exact h ⟨htl.2 hl, htr.2 hr⟩
      · exact h (.inl (Expr.stands_binary_iff.1 hstands).2)
    · exact h (.inl (Expr.stands_binary_iff.1 hstands).1)
  | .call name args =>
    refine (callee_decides hw name args.length).bind (fun f t _ hf => ?_) fun _ h hstands => ?_
    · obtain ⟨rfl, hcalls, hnamed⟩ := hf
      refine (exprs_decides hw hscope args).bind (fun vs u hvs h => ?_) fun _ h hstands => ?_
      · obtain ⟨tys, hhas, hlength, hall⟩ := h
        have hsteps := codeSteps_of_ok (builds_exprs scope args) hvs
        have hwu := hw.codeSteps hsteps
        -- The name still stands for the function, which takes as many arguments as there are.
        obtain ⟨code, hworks⟩ := hw.works
        obtain ⟨code', hworks'⟩ := hwu.works
        rw [← hworks.functionNamed?_eq hworks' hsteps.extends] at hnamed
        obtain ⟨g, _, hcallee, harity⟩ := hwu.formed.callee_of_functionNamed? hnamed
        have hgiven : g.arity = vs.length := by
          rw [hworks'.arities, show w.arities name = some args.length from hcalls] at harity
          rw [hlength]
          exact (Option.some.inj harity).symm
        refine (hwu.decides_call hcallee hgiven hhas).imp (fun v u' _ h => ?_)
          fun _ _ _ h hstands => ?_
        · exact double h.2 (.call name args hcalls (hall.1 h.1))
        · exact h (hall.2 (Expr.stands_call_iff.1 hstands).2)
      · exact h (Expr.stands_call_iff.1 hstands).2
    · exact h (Expr.stands_call_iff.1 hstands).1

/-- Arguments become doubles exactly when all are numeric. -/
theorem exprs_decides {s : Session} (hw : s.Working w)
    (hscope : Scoped s w.before.length scope params vars) (es : List Expr) :
    Decides (exprs scope es s)
      (fun vs t => ∃ tys, List.Forall₂ (t.Has w.before.length) vs tys ∧ vs.length = es.length ∧
        ((∀ ty ∈ tys, ty = .double) ↔ ∀ e ∈ es, e.Numeric w.Calls (params ++ vars)))
      (fun _ => ¬ ∀ e ∈ es, e.Numeric w.Calls (params ++ vars)) := by
  match es with
  | [] => exact decides_ok rfl ⟨[], .nil, rfl, by simp⟩
  | e :: es =>
    simp only [List.forall_mem_cons]
    refine (expr_decides hw hscope e).bind (fun v t he hv => ?_) fun _ h hall => h (.inl hall.1)
    obtain ⟨ty, hvt, _, hty⟩ := hv
    have hsteps := codeSteps_of_ok (builds_expr scope e) he
    have hwt := hw.codeSteps hsteps
    refine (exprs_decides hwt (hscope.mono hsteps.extends) es).bind (fun vs u hes h => ?_)
      fun _ h hall => h hall.2
    obtain ⟨tys, hhas, hlength, hall⟩ := h
    have hsteps' := codeSteps_of_ok (builds_exprs scope es) hes
    refine decides_ok rfl ⟨ty :: tys, .cons (hvt.mono hsteps'.extends) hhas, by simp [hlength], ?_⟩
    rw [List.forall_mem_cons, hty, hall]

end

end Expressions

/-! ### Statements -/

section Statements

variable {params : List String} {earlier : List Stmt} {function : FunctionId}

/-- The lowering of an expression that must be numeric, and of what is done with its value. -/
theorem numeric_decides {α : Type} (hw : s.Working w) {vars : List String}
    (hscope : Scoped s w.before.length scope params vars) (e : Expr) {k : ValueId → SessionM α}
    {good : α → Session → Prop}
    (hk : ∀ v t ty, s.CodeSteps t → t.Has w.before.length v ty →
      Decides (k v t) (fun a u => ty = .double ∧ good a u) (fun _ => ty ≠ .double)) :
    Decides ((expr scope e >>= k) s)
      (fun a u => e.Numeric w.Calls (params ++ vars) ∧ good a u)
      (fun _ => ¬ e.Numeric w.Calls (params ++ vars)) := by
  refine (expr_decides hw hscope e).bind (fun v t he hv => ?_) fun _ h hnumeric => h (.inl hnumeric)
  obtain ⟨ty, hvt, _, hty⟩ := hv
  refine (hk v t ty (codeSteps_of_ok (builds_expr scope e) he) hvt).imp (fun a u _ h => ?_)
    fun _ _ _ h hnumeric => ?_
  · exact ⟨hty.1 h.1, h.2⟩
  · exact h (hty.2 hnumeric)

/-- **The lowering of a statement decides whether it is in order.** -/
theorem stmt_decides (hw : s.Working w)
    (hscope : Scoped s w.before.length scope params (Stmt.bound earlier)) {st : Stmt}
    (hst : st.isReturn = false) :
    Decides (stmt function scope st s)
      (fun scope' t => st.InOrder w.Calls params earlier ∧
        Scoped t w.before.length scope' params (Stmt.bound (earlier ++ [st])))
      (fun _ => ¬ st.InOrder w.Calls params earlier) := by
  cases st with
  | bind name e =>
    have hbound : Stmt.bound (earlier ++ [.bind name e]) = Stmt.bound earlier ++ [name] := by
      simp [Stmt.bound, Stmt.binds?]
    rw [hbound]
    refine numeric_decides hw hscope e fun v t ty hsteps hv => ?_
    refine ((hw.codeSteps hsteps).decides_declareVariable hv name).bind (fun slot u h hslot => ?_)
      fun _ h => h
    have hextends := (codeSteps_of_ok (Session.builds_declareVariable v name) h).extends
    exact decides_ok rfl
      ⟨hslot.1, (hscope.mono (hsteps.extends.trans hextends)).bind name hslot.2⟩
  | assign name e =>
    have hbound : Stmt.bound (earlier ++ [.assign name e]) = Stmt.bound earlier := by
      simp [Stmt.bound, Stmt.binds?]
    rw [hbound, stmt]
    cases hlookup : scope.lookup name with
    | none => exact decides_refuse _ fun h => (hscope.unbound name hlookup).2 h.1
    | some binding =>
      cases binding with
      | param v => exact decides_refuse _ fun h => (hscope.param name v hlookup).2.1 h.1
      | slot slot =>
        obtain ⟨hvar, hslot⟩ := hscope.slot name slot hlookup
        have hdecides : Decides ((expr scope e >>= fun v => do
              Session.assign slot v
              pure scope) s)
            (fun scope' t => e.Numeric w.Calls (params ++ Stmt.bound earlier) ∧
              Scoped t w.before.length scope' params (Stmt.bound earlier))
            (fun _ => ¬ e.Numeric w.Calls (params ++ Stmt.bound earlier)) := by
          refine numeric_decides hw hscope e fun v t ty hsteps hv => ?_
          refine ((hw.codeSteps hsteps).decides_assign (hslot.mono hsteps.extends) hv).bind
            (fun _ u h hty => ?_) fun _ h => h
          have hextends := (codeSteps_of_ok (Session.builds_assign slot v) h).extends
          exact decides_ok rfl ⟨hty, hscope.mono (hsteps.extends.trans hextends)⟩
        exact hdecides.imp (fun _ _ _ h => ⟨⟨hvar, h.1⟩, h.2⟩) fun _ _ _ h horder => h horder.2
  | eval e =>
    have hbound : Stmt.bound (earlier ++ [.eval e]) = Stmt.bound earlier := by
      simp [Stmt.bound, Stmt.binds?]
    rw [hbound]
    refine (expr_decides hw hscope e).bind (fun v t he hv => ?_) fun _ h => h
    obtain ⟨_, _, hstands, _⟩ := hv
    exact decides_ok rfl
      ⟨hstands, hscope.mono (codeSteps_of_ok (builds_expr scope e) he).extends⟩
  | ret e => cases hst

/-- **The lowering of a body decides whether its statements are in order.** -/
theorem stmts_decides (init : List Stmt) {e : Expr} (hinit : ∀ st ∈ init, st.isReturn = false)
    {entry : FunctionEntry} (hplace : entry.index = w.before.length) {s : Session}
    (hentry : s.entry function = .ok entry) (hw : s.Working w) {scope : Scope}
    {earlier : List Stmt}
    (hscope : Scoped s w.before.length scope params (Stmt.bound earlier)) :
    Decides (stmts function scope (init ++ [.ret e]) s)
      (fun _ t => Stmt.AllInOrder w.Calls params earlier (init ++ [.ret e]) ∧
        s.Extends t ∧ ∃ code, t.Ended w code)
      (fun _ => ¬ Stmt.AllInOrder w.Calls params earlier (init ++ [.ret e])) := by
  induction init generalizing s scope earlier with
  | nil =>
    have hdecides : Decides (stmt function scope (.ret e) s)
        (fun _ t => e.Numeric w.Calls (params ++ Stmt.bound earlier) ∧
          s.Extends t ∧ ∃ code, t.Ended w code)
        (fun _ => ¬ e.Numeric w.Calls (params ++ Stmt.bound earlier)) := by
      refine numeric_decides hw hscope e fun v t ty hsteps hv => ?_
      refine ((hw.codeSteps hsteps).decides_endFunction
        ((hsteps.extends.entry function).trans hentry) hplace hv).bind (fun _ u _ h => ?_)
        fun _ h => h
      exact decides_ok rfl ⟨h.1, hsteps.extends.trans h.2.1, h.2.2⟩
    refine hdecides.bind (fun _ t _ h => ?_) fun _ h horder => h horder.1
    exact decides_ok rfl ⟨⟨h.1, trivial⟩, h.2⟩
  | cons st init ih =>
    rw [List.forall_mem_cons] at hinit
    refine (stmt_decides hw hscope hinit.1).bind (fun scope' t h hst => ?_)
      fun _ h horder => h horder.1
    have hsteps := codeSteps_of_ok (builds_stmt function scope hinit.1) h
    refine (ih hinit.2 ((hsteps.extends.entry function).trans hentry) (hw.codeSteps hsteps)
      hst.2).imp (fun _ u _ h => ?_) fun _ _ _ h horder => h horder.2
    exact ⟨⟨hst.1, h.1⟩, hsteps.extends.trans h.2.1, h.2.2⟩

end Statements

end Lower

end StraightLine
