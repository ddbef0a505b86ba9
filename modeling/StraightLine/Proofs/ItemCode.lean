import StraightLine.Proofs.ItemAcceptance

/-!
# The code of items

Which code an item becomes depends on the item alone. `Expr.code` and `Stmt.code` write it on a
tape, without a session, handles or checks, and never fail. Where lowering succeeds, it has put just
this code into its function (`Lower.expr_writes`, `Lower.stmts_writes`). So the live functions of a
session are known from the items that it has accepted, up to the labels of their blocks
(`Lower.Listing.compiled_addAll`).
-/

namespace StraightLine

open Interpreter (Definition)

/-! ### Code on a tape -/

/-- Code that is written instruction by instruction, and the number of the next temp. -/
structure Tape where
  next : Nat
  instrs : List Instr := []

/-- Something that writes code. -/
abbrev Coding := StateM Tape

namespace Coding

/-- Writes an instruction. -/
def write (i : Instr) : Coding Unit := modify fun k => { k with instrs := k.instrs ++ [i] }

/-- Writes an instruction that defines the next temp, and gives the temp. -/
def define (i : Nat → Instr) : Coding Nat := do
  let k ← get
  set { k with next := k.next + 1 }
  write (i k.next)
  pure k.next

end Coding

open Coding (write define)

/-- Where the value of a name is kept: in a temp, or in the slot that a temp points to. -/
inductive Place where
  | param (temp : Nat)
  | slot (temp : Nat)

/-- Where the values of the names of a function are kept, the latest name first. -/
abbrev Places := List (String × Place)

/-- The code of an operator. -/
def BinaryOp.code (op : BinaryOp) (a b : Operand) : Coding Operand :=
  match op.meaning with
  | .arithmetic op => do
    let r ← define fun r => .arith r op a b
    pure (.temp r)
  | .comparison p => do
    let c ← define fun r => .compare r p a b
    let r ← define fun r => .widen r (.temp c)
    pure (.temp r)

mutual

/-- The code of an expression, and the operand for its value. -/
def Expr.code (places : Places) : Expr → Coding Operand
  | .number c => pure (.float c)
  | .string s => pure (.string s.toUTF8.toList)
  | .var name =>
    match places.lookup name with
    | some (.param i) => pure (.temp i)
    | some (.slot p) => do
      let r ← define fun r => .load r (.temp p) .double
      pure (.temp r)
    | none => pure .undef
  | .binary op l r => do
    let a ← Expr.code places l
    let b ← Expr.code places r
    op.code a b
  | .call name args => do
    let as ← Expr.codes places args
    let r ← define fun r => .call r (.function name) as
    pure (.temp r)

/-- The code of arguments, from left to right. -/
def Expr.codes (places : Places) : List Expr → Coding (List Operand)
  | [] => pure []
  | e :: es => do
    let a ← Expr.code places e
    let as ← Expr.codes places es
    pure (a :: as)

end

/-- The code of a statement, and where the values of names are kept after it. -/
def Stmt.code (places : Places) : Stmt → Coding Places
  | .bind name e => do
    let a ← e.code places
    let p ← define fun r => .alloca r .double name
    write (.store a (.temp p))
    pure ((name, .slot p) :: places)
  | .assign name e => do
    let a ← e.code places
    match places.lookup name with
    | some (.slot p) => write (.store a (.temp p))
    | _ => pure ()
    pure places
  | .eval e => do
    let _ ← e.code places
    pure places
  | .ret e => do
    let a ← e.code places
    write (.ret a)
    pure places

/-- The code of statements one after another. -/
def Stmt.codes : Places → List Stmt → Coding Unit
  | _, [] => pure ()
  | places, st :: rest => do
    let places ← st.code places
    Stmt.codes places rest

/-- Parameters are the first temps. -/
def Place.ofParams (params : List String) : Places :=
  (Function.numberFrom 0 params).map fun p => (p.2, .param p.1)

/-- The code of the body of a function. -/
def Stmt.bodyCode (params : List String) (b : List Stmt) : List Instr :=
  (Stmt.codes (Place.ofParams params) b { next := params.length }).2.instrs

/-- The function that a definition becomes under a name, if its block gets a label. -/
def Interpreter.Definition.compiled (name : String) (label : Nat) : Definition → Function
  | .external arity => Function.external name arity
  | .function params b =>
    { Function.declare name params with
      stage := .verified
      blocks := [{ id := label, name := Session.entryName, instrs := Stmt.bodyCode params b }] }

theorem Interpreter.Definition.compiled_name (d : Definition) (name : String) (label : Nat) :
    (d.compiled name label).name = name := by
  cases d <;> rfl

theorem Interpreter.Definition.compiled_isLive (d : Definition) (name : String) (label : Nat) :
    (d.compiled name label).isLive := by
  cases d <;> rfl

/-! ### Lowering writes the code -/

namespace Session

/-- The session puts code into a function as a tape has it. -/
structure Writes (s : Session) (w : Workplace) (k : Tape) : Prop where
  worksAt : s.WorksAt w k.instrs
  next : s.draft.temps.next = k.next

/-- A handle stands for an operand. -/
def Means (s : Session) (v : ValueId) (a : Operand) : Prop :=
  ∃ type owner, s.value v = .ok ⟨a, type, owner⟩

/-- What a name is bound to stands for the place where its value is kept. -/
def Binds (s : Session) : Lower.Binding → Place → Prop
  | .param v, .param i => s.Means v (.temp i)
  | .slot h, .slot p => s.Points h p
  | _, _ => False

/-- The names in scope are bound to the places where their values are kept. -/
def Locates (s : Session) (scope : Lower.Scope) (places : Places) : Prop :=
  List.Forall₂ (fun b p => b.1 = p.1 ∧ s.Binds b.2 p.2) scope places

variable {s t : Session} {w : Workplace} {k : Tape} {v : ValueId} {a : Operand}

theorem Means.mono (h : s.Means v a) (ht : s.Extends t) : t.Means v a := by
  obtain ⟨type, owner, hv⟩ := h
  exact ⟨type, owner, ht.values v _ hv⟩

theorem Means.unique (h : s.Means v a) {b : Operand} (hb : s.Means v b) : b = a := by
  obtain ⟨type, owner, hv⟩ := h
  obtain ⟨type', owner', hv'⟩ := hb
  cases hv.symm.trans hv'
  rfl

theorem Means.doubleIn (h : s.Means v a) {place : Nat} {b : Operand}
    (hb : s.doubleIn place v = .ok b) : b = a := by
  obtain ⟨owner, hv, _⟩ := doubleIn_eq_ok hb
  exact h.unique ⟨_, owner, hv⟩

theorem Means.mapM_doubleIn {vs : List ValueId} {as bs : List Operand} {place : Nat}
    (h : List.Forall₂ s.Means vs as)
    (hbs : List.Forall₂ (fun v b => s.doubleIn place v = .ok b) vs bs) : bs = as := by
  induction h generalizing bs with
  | nil =>
    cases hbs
    rfl
  | cons hv _ ih =>
    cases hbs with
    | cons hb hbs => rw [hv.doubleIn hb, ih hbs]

theorem Binds.mono {b : Lower.Binding} {p : Place} (h : s.Binds b p) (ht : s.Extends t) :
    t.Binds b p := by
  cases b <;> cases p
  · exact Means.mono h ht
  · exact h
  · exact h
  · exact Points.mono h ht

theorem Locates.mono {scope : Lower.Scope} {places : Places} (h : s.Locates scope places)
    (ht : s.Extends t) : t.Locates scope places :=
  h.imp fun _ _ hb => ⟨hb.1, hb.2.mono ht⟩

theorem Locates.lookup {scope : Lower.Scope} {places : Places} (h : s.Locates scope places)
    {name : String} {b : Lower.Binding} (hb : scope.lookup name = some b) :
    ∃ p, places.lookup name = some p ∧ s.Binds b p := by
  induction h with
  | nil => cases hb
  | @cons x y scope places hxy _ ih =>
    obtain ⟨n, b'⟩ := x
    obtain ⟨n', p⟩ := y
    obtain ⟨rfl, hbinds⟩ : n = n' ∧ s.Binds b' p := hxy
    by_cases hn : name = n
    · subst hn
      rw [List.lookup_cons_self] at hb
      cases hb
      exact ⟨p, List.lookup_cons_self, hbinds⟩
    · rw [lookup_cons_of_ne hn] at hb ⊢
      exact ih hb

/-- An instruction that is emitted is the next one on the tape. -/
theorem Writes.define (hk : s.Writes w k) {i : Nat → Instr} {type : Ty}
    (h : s.Emits w k.instrs (i s.draft.temps.next) type v t) :
    t.Writes w (Coding.define i k).2 ∧ t.Means v (.temp (Coding.define i k).1) := by
  obtain ⟨hworks, _, hvalue, htemps⟩ := h
  rw [hk.next] at hworks hvalue htemps
  exact ⟨⟨hworks, htemps⟩, _, _, hvalue⟩

end Session

namespace Lower

open Session (andThen_eq_ok ask_eq_ok)

variable {s t : Session} {w : Workplace} {k : Tape} {scope : Scope} {places : Places}
  {v : ValueId}

theorem binary_writes {op : BinaryOp} {lhs rhs : ValueId} {a b : Operand}
    (h : binary op lhs rhs s = .ok v t) (hk : s.Writes w k) (ha : s.Means lhs a)
    (hb : s.Means rhs b) :
    t.Writes w (op.code a b k).2 ∧ t.Means v (op.code a b k).1 ∧ s.Extends t := by
  unfold binary at h
  unfold BinaryOp.code
  generalize op.meaning = meaning at h ⊢
  cases meaning with
  | arithmetic op =>
    obtain ⟨a', b', ha', hb', hemit⟩ := Session.arith_eq_ok h hk.worksAt
    rw [ha.doubleIn ha', hb.doubleIn hb'] at hemit
    obtain ⟨hwrites, hmeans⟩ := hk.define (i := fun r => .arith r op a b) hemit
    exact ⟨hwrites, hmeans, hemit.grows⟩
  | comparison p =>
    obtain ⟨flag, u, hcompare, hwiden⟩ := andThen_eq_ok.1 h
    obtain ⟨a', b', ha', hb', hemit⟩ := Session.compare_eq_ok hcompare hk.worksAt
    rw [ha.doubleIn ha', hb.doubleIn hb'] at hemit
    obtain ⟨hwrites, hmeans⟩ := hk.define (i := fun r => .compare r p a b) hemit
    obtain ⟨c, hc, hemit'⟩ := Session.widen_eq_ok hwiden hwrites.worksAt
    obtain ⟨owner, hflag, _⟩ := Session.flagIn_eq_ok hc
    rw [hmeans.unique ⟨_, owner, hflag⟩] at hemit'
    obtain ⟨hwrites', hmeans'⟩ := hwrites.define (i := fun r => .widen r _) hemit'
    exact ⟨hwrites', hmeans', hemit.grows.trans hemit'.grows⟩

theorem useVariable_writes {name : String} (h : useVariable scope name s = .ok v t)
    (hk : s.Writes w k) (hscope : s.Locates scope places) :
    t.Writes w ((Expr.var name).code places k).2 ∧
      t.Means v ((Expr.var name).code places k).1 ∧ s.Extends t := by
  unfold useVariable at h
  unfold Expr.code
  cases hlookup : scope.lookup name with
  | none =>
    rw [hlookup] at h
    cases h
  | some binding =>
    rw [hlookup] at h
    obtain ⟨p, hp, hbinds⟩ := hscope.lookup hlookup
    rw [hp]
    cases binding with
    | param value =>
      cases h
      cases p with
      | param i => exact ⟨hk, hbinds, .refl s⟩
      | slot p => exact hbinds.elim
    | slot slot =>
      cases p with
      | param i => exact hbinds.elim
      | slot p =>
        obtain ⟨q, hq, hemit⟩ := Session.read_eq_ok h hk.worksAt
        rw [Session.Points.pointerIn hbinds hq] at hemit
        obtain ⟨hwrites, hmeans⟩ := hk.define (i := fun r => .load r (.temp p) .double) hemit
        exact ⟨hwrites, hmeans, hemit.grows⟩

theorem constant_writes {a : Operand} {type : Ty}
    (h : Session.addValue ⟨a, type, none⟩ s = .ok v t) (hk : s.Writes w k) :
    t.Writes w k ∧ t.Means v a ∧ s.Extends t := by
  obtain ⟨rfl, rfl⟩ := EStateM.Result.ok.inj h
  exact ⟨⟨hk.worksAt.withValue _, hk.next⟩, ⟨_, _, Handle.resolve_push_size _⟩, .withValue s _⟩

mutual

/-- **An expression that is lowered has become its code.** -/
theorem expr_writes (e : Expr) {s t : Session} {v : ValueId} {k : Tape}
    (h : expr scope e s = .ok v t) (hk : s.Writes w k) (hscope : s.Locates scope places) :
    t.Writes w (e.code places k).2 ∧ t.Means v (e.code places k).1 ∧ s.Extends t := by
  match e with
  | .number c => exact constant_writes h hk
  | .string str => exact constant_writes h hk
  | .var name => exact useVariable_writes h hk hscope
  | .binary op l r =>
    obtain ⟨lhs, s₁, hl, h⟩ := andThen_eq_ok.1 h
    obtain ⟨rhs, s₂, hr, h⟩ := andThen_eq_ok.1 h
    obtain ⟨hk₁, ha, he₁⟩ := expr_writes l hl hk hscope
    obtain ⟨hk₂, hb, he₂⟩ := expr_writes r hr hk₁ (hscope.mono he₁)
    obtain ⟨hk₃, hv, he₃⟩ := binary_writes h hk₂ (ha.mono he₂) hb
    exact ⟨hk₃, hv, (he₁.trans he₂).trans he₃⟩
  | .call name args =>
    obtain ⟨f, s₀, hf, h⟩ := andThen_eq_ok.1 h
    obtain ⟨rfl, hfound⟩ := callee_eq_ok hf
    obtain ⟨vs, s₁, hargs, h⟩ := andThen_eq_ok.1 h
    obtain ⟨hk₁, hvs, he₁⟩ := exprs_writes args hargs hk hscope
    obtain ⟨place, entry, as, hs, hentry, has, hemit⟩ := Session.call_eq_ok h
    have hemit := hemit w _ hk₁.worksAt
    -- The handle that the name led to still stands for the function with this name.
    obtain ⟨entry', g, hentry', hg, hnamed⟩ := Session.functionNamed?_eq_some hfound
    rw [he₁.entry] at hentry
    obtain rfl := Except.ok.inj (hentry.symm.trans hentry')
    have hname : (s₁.functionAt entry.index).name = name := by
      rw [hk.worksAt.name_functionAt_eq hk₁.worksAt, Session.functionAt, hg]
      exact (Module.isNamed_iff.1 hnamed).2
    rw [hname, Session.Means.mapM_doubleIn hvs has] at hemit
    obtain ⟨hk₂, hv⟩ := hk₁.define (i := fun r => .call r (.function name) _) hemit
    exact ⟨hk₂, hv, he₁.trans hemit.grows⟩

theorem exprs_writes (es : List Expr) {s t : Session} {vs : List ValueId} {k : Tape}
    (h : exprs scope es s = .ok vs t) (hk : s.Writes w k) (hscope : s.Locates scope places) :
    t.Writes w (Expr.codes places es k).2 ∧
      List.Forall₂ t.Means vs (Expr.codes places es k).1 ∧ s.Extends t := by
  match es with
  | [] =>
    cases h
    exact ⟨hk, .nil, .refl s⟩
  | e :: es =>
    obtain ⟨v, s₁, he, h⟩ := andThen_eq_ok.1 h
    obtain ⟨vs, s₂, hes, h⟩ := andThen_eq_ok.1 h
    cases h
    obtain ⟨hk₁, hv, he₁⟩ := expr_writes e he hk hscope
    obtain ⟨hk₂, hvs, he₂⟩ := exprs_writes es hes hk₁ (hscope.mono he₁)
    exact ⟨hk₂, .cons (hv.mono he₂) hvs, he₁.trans he₂⟩

end

/-- **A statement that is lowered has become its code**, and leaves the names where that does. -/
theorem stmt_writes {function : FunctionId} {scope' : Scope} {st : Stmt}
    (h : stmt function scope st s = .ok scope' t) (hst : st.isReturn = false) (hk : s.Writes w k)
    (hscope : s.Locates scope places) :
    t.Writes w (st.code places k).2 ∧ t.Locates scope' (st.code places k).1 ∧ s.Extends t := by
  cases st with
  | bind name value =>
    obtain ⟨v, s₁, he, h⟩ := andThen_eq_ok.1 h
    obtain ⟨slot, s₂, hdeclare, h⟩ := andThen_eq_ok.1 h
    cases h
    obtain ⟨hk₁, ha, he₁⟩ := expr_writes value he hk hscope
    obtain ⟨a, ha', he₂, hpoints, hworks, htemps⟩ :=
      Session.declareVariable_eq_ok hdeclare hk₁.worksAt
    rw [hk₁.next] at hpoints hworks htemps
    rw [ha.doubleIn ha', List.append_cons] at hworks
    exact ⟨⟨hworks, htemps⟩, .cons ⟨rfl, hpoints⟩ (hscope.mono (he₁.trans he₂)), he₁.trans he₂⟩
  | assign name value =>
    rw [stmt] at h
    cases hlookup : scope.lookup name with
    | none =>
      rw [hlookup] at h
      cases h
    | some binding =>
      rw [hlookup] at h
      obtain ⟨p, hp, hbinds⟩ := hscope.lookup hlookup
      cases binding with
      | param _ => cases h
      | slot slot =>
        obtain ⟨v, s₁, he, h⟩ := andThen_eq_ok.1 h
        obtain ⟨_, s₂, hassign, h⟩ := andThen_eq_ok.1 h
        cases h
        obtain ⟨hk₁, ha, he₁⟩ := expr_writes value he hk hscope
        obtain ⟨q, a, hq, ha', he₂, hworks, htemps⟩ := Session.assign_eq_ok hassign hk₁.worksAt
        cases p with
        | param i => exact hbinds.elim
        | slot p =>
          rw [ha.doubleIn ha', Session.Points.pointerIn (Session.Points.mono hbinds he₁) hq]
            at hworks
          simp only [Stmt.code, hp]
          exact ⟨⟨hworks, htemps.trans hk₁.next⟩, hscope.mono (he₁.trans he₂), he₁.trans he₂⟩
  | eval value =>
    obtain ⟨v, s₁, he, h⟩ := andThen_eq_ok.1 h
    cases h
    obtain ⟨hk₁, _, he₁⟩ := expr_writes value he hk hscope
    exact ⟨hk₁, hscope.mono he₁, he₁⟩
  | ret value => cases hst

/-- **A body that is lowered has become its code.** -/
theorem stmts_writes {function : FunctionId} (init : List Stmt) {e : Expr}
    (hinit : ∀ st ∈ init, st.isReturn = false) {s t : Session} {scope : Scope} {places : Places}
    {k : Tape} (h : stmts function scope (init ++ [.ret e]) s = .ok () t) (hk : s.Writes w k)
    (hscope : s.Locates scope places) :
    t.Ended w (Stmt.codes places (init ++ [.ret e]) k).2.instrs ∧ s.Extends t := by
  induction init generalizing s scope places k with
  | nil =>
    obtain ⟨scope', s₁, hstmt, h⟩ := andThen_eq_ok.1 h
    cases h
    obtain ⟨v, s₁, he, hend⟩ := andThen_eq_ok.1 hstmt
    obtain ⟨_, s₂, hend, h⟩ := andThen_eq_ok.1 hend
    cases h
    obtain ⟨hk₁, ha, he₁⟩ := expr_writes e he hk hscope
    rcases Session.endFunction_cases s₁ function v with ⟨err, herr⟩ | ⟨u, hok, he₂, hended⟩
    · cases herr.symm.trans hend
    · cases hok.symm.trans hend
      obtain ⟨a, ha', hended⟩ := hended w _ hk₁.worksAt
      rw [ha.doubleIn ha'] at hended
      exact ⟨hended, he₁.trans he₂⟩
  | cons st init ih =>
    rw [List.forall_mem_cons] at hinit
    obtain ⟨scope', s₁, hstmt, h⟩ := andThen_eq_ok.1 h
    obtain ⟨hk₁, hscope₁, he₁⟩ := stmt_writes hstmt hinit.1 hk hscope
    obtain ⟨hended, he₂⟩ := ih hinit.2 h hk₁ hscope₁
    exact ⟨hended, he₁.trans he₂⟩

/-! ### Functions -/

/-- The names that a body starts with are those of the parameters. -/
theorem paramScope_locates {f : FunctionId} {n : Nat} {ps : List String} {scope : Scope}
    (h : paramScope f n ps s = .ok scope t)
    (hparam : ∀ i v, s.param f i = .ok v → s.Means v (.temp i)) :
    t = s ∧ s.Locates scope ((Function.numberFrom n ps).map fun p => (p.2, .param p.1)) := by
  induction ps generalizing n scope with
  | nil =>
    cases h
    exact ⟨rfl, .nil⟩
  | cons p ps ih =>
    obtain ⟨v, hv, h⟩ := ask_eq_ok.1 h
    obtain ⟨scope', u, hscope, h⟩ := andThen_eq_ok.1 h
    cases h
    obtain ⟨rfl, hlocates⟩ := ih hscope
    exact ⟨rfl, .cons ⟨rfl, hparam n v hv⟩ hlocates⟩

/-- A body that is verified has become the function of its definition. -/
theorem body_compiled {name : String} {params : List String} {init : List Stmt} {e : Expr}
    (hu : s.poisonedBy = none) (hinit : ∀ st ∈ init, st.isReturn = false)
    (h : body ⟨s.id, s.functions.size⟩ params (init ++ [.ret e]) (s.opened name params) =
      .ok () t) :
    t.module.functions = s.module.functions ++
      [(Definition.function params (init ++ [.ret e])).compiled name s.draft.labels.next] := by
  obtain ⟨scope, s₁, hscope, h⟩ := andThen_eq_ok.1 h
  obtain ⟨_, s₂, hstmts, hverify⟩ := andThen_eq_ok.1 h
  have hwrites : (s.opened name params).Writes (s.workplace name params)
      { next := params.length } := ⟨Session.opened_worksAt hu, rfl⟩
  obtain ⟨rfl, hlocates⟩ := paramScope_locates hscope fun i v hv =>
    ⟨_, _, (Session.opened_param_eq_ok hv).2⟩
  obtain ⟨hended, hextends⟩ := stmts_writes init hinit hstmts hwrites hlocates
  have hentry := (hextends.entry _).trans Session.opened_entry
  exact (hended.verified hentry rfl rfl hverify).2.2

theorem settle_eq_ok {f : FunctionId} {x : SessionM Unit} (h : settle f x s = .ok () t) :
    x s = .ok () t := by
  unfold settle at h
  split at h
  next heq =>
    cases h
    exact heq
  next =>
    split at h
    next => cases h
    next => split at h <;> cases h

/-- A function that is begun and accepted has become that of its definition. -/
theorem begun_compiled {name : String} {params : List String} {init : List Stmt} {e : Expr}
    (hu : s.poisonedBy = none) (hinit : ∀ st ∈ init, st.isReturn = false) {x y : Lowered}
    (h : (settle ⟨s.id, s.functions.size⟩
        (body ⟨s.id, s.functions.size⟩ params (init ++ [.ret e])) >>= fun _ => pure x)
      (s.opened name params) = .ok y t) :
    ∃ label, t.module.functions = s.module.functions ++
      [(Definition.function params (init ++ [.ret e])).compiled name label] := by
  obtain ⟨_, u, hsettle, h⟩ := andThen_eq_ok.1 h
  cases h
  exact ⟨_, body_compiled hu hinit (settle_eq_ok hsettle)⟩

/-- **An item that is accepted has become the function of its definition.** -/
theorem item_compiled {i : Item} {x : Lowered} (h : item i s = .ok x t) :
    ∃ label, t.module.functions =
      s.module.functions ++ [(itemDefinition i).compiled (itemName s i) label] := by
  cases i with
  | function proto b =>
    rw [item_function] at h
    obtain ⟨_, hreturns, h⟩ := ask_eq_ok.1 h
    obtain ⟨init, e, rfl, hinit⟩ := exists_of_checkReturns hreturns
    obtain ⟨f, u, hbegin, h⟩ := andThen_eq_ok.1 h
    rcases Session.beginFunction_cases s proto.name proto.params with
      ⟨err, herr⟩ | ⟨hu, _, _, _, hok⟩
    · cases herr.symm.trans hbegin
    · cases hok.symm.trans hbegin
      exact begun_compiled hu hinit h
  | external proto =>
    rw [item, map_eq_pure_bind] at h
    obtain ⟨f, u, hdeclare, h⟩ := andThen_eq_ok.1 h
    cases h
    rcases Session.declareFunction_cases s proto.name proto.params.length with
      ⟨err, herr⟩ | ⟨_, _, _, hok⟩
    · cases herr.symm.trans hdeclare
    · cases hok.symm.trans hdeclare
      exact ⟨0, rfl⟩
  | topLevel value =>
    obtain ⟨f, u, hbegin, h⟩ := andThen_eq_ok.1 h
    rcases Session.beginTopLevel_cases s with ⟨err, herr⟩ | ⟨hu, ⟨err, herr⟩ | ⟨_, hok⟩⟩
    · cases herr.symm.trans hbegin
    · cases herr.symm.trans hbegin
    · cases hok.symm.trans hbegin
      simp only [finishTopLevel_eq_body] at h
      have hinit : ∀ st ∈ ([] : List Stmt), st.isReturn = false := by simp
      exact begun_compiled (s := s.nameTaken) hu hinit h

namespace Listing

/-- The live functions of the session are those that the accepted items become, in their order. -/
def Compiled (l : Listing) : Prop :=
  List.Forall₂ (fun f a => ∃ label, f = a.definition.compiled a.name label)
    l.session.module.live l.accepted

/-- Functions of the host are declared one after another, when their names are new. -/
theorem declareHosts_of_new {hosts : List (String × Nat)} (hu : s.poisonedBy = none)
    (hhosts : NewHosts s hosts) :
    ∃ t, declareHosts hosts s = .ok () t ∧ t.module.functions =
      s.module.functions ++ hosts.map fun h => Function.external h.1 h.2 := by
  induction hosts generalizing s with
  | nil => exact ⟨s, rfl, by simp⟩
  | cons h hosts ih =>
    obtain ⟨name, arity⟩ := h
    obtain ⟨hrun, hrest⟩ := declareHosts_cons hu hhosts
    obtain ⟨t, ht, hfunctions⟩ := ih (s := s.declared name arity) hu hrest
    refine ⟨t, hrun.trans ht, hfunctions.trans ?_⟩
    rw [List.map_cons, List.append_cons]
    rfl

theorem compiled_start (id : Nat) (o : SessionOptions) (target : Target) (hosts : Bool) :
    (start id o target hosts).Compiled := by
  cases hosts with
  | false => exact .nil
  | true =>
    obtain ⟨t, ht, hfunctions⟩ := declareHosts_of_new rfl (newHosts_start id o target)
    have hlive : t.module.live = Eval.hostLibrary.map fun h => Function.external h.1 h.2 := by
      rw [Module.live, hfunctions]
      rfl
    change List.Forall₂ _ (Session.result (declareHosts Eval.hostLibrary) _).module.live _
    rw [Session.result_ok ht, hlive]
    simp [start, Eval.hostLibrary, Definition.compiled]

/-- An item that is refused leaves no live function behind. -/
theorem live_of_error (hs : s.Ready) {i : Item} {err : Error} (h : item i s = .error err t) :
    t.module.live = s.module.live := by
  have hnext : t.Ready := by
    have hdecides := item_decides hs i
    rw [h] at hdecides
    exact hdecides.1.2
  have houtcome := item_outcome s i
  rw [h] at houtcome
  cases houtcome with
  | refused _ _ _ _ hmodule _ => rw [hmodule]
  | dropped _ _ e f _ _ _ hfunctions hgone =>
    rw [live_append hfunctions, List.filter_cons_of_neg (by simp [hgone hnext.usable]),
      List.filter_nil, List.append_nil]

/-- An item that is accepted leaves the function of its definition, behind the others. -/
theorem live_of_ok {i : Item} {x : Lowered} (h : item i s = .ok x t) :
    ∃ label, t.module.live =
      s.module.live ++ [(itemDefinition i).compiled (itemName s i) label] := by
  obtain ⟨label, hfunctions⟩ := item_compiled h
  refine ⟨label, ?_⟩
  rw [live_append hfunctions, List.filter_cons_of_pos (Definition.compiled_isLive ..),
    List.filter_nil]

/-- **To lower an item keeps the functions those of the accepted items.** -/
theorem Compiled.add {l : Listing} (hl : l.Compiled) (hready : l.session.Ready) (i : Item) :
    (l.add i).Compiled := by
  unfold Listing.add
  cases hitem : item i l.session with
  | ok x t =>
    obtain ⟨label, hlive⟩ := live_of_ok hitem
    change List.Forall₂ _ t.module.live _
    rw [hlive]
    exact List.rel_append hl (.cons ⟨label, rfl⟩ .nil)
  | error err t =>
    change List.Forall₂ _ t.module.live l.accepted
    rw [live_of_error hready hitem]
    exact hl

/-- **The live functions of a session are those of the items that it has accepted.** -/
theorem compiled_addAll {l : Listing} (hl : l.Compiled) (hready : l.session.Ready)
    (items : List Item) : (l.addAll items).Compiled := by
  induction items generalizing l with
  | nil => exact hl
  | cons i items ih => exact ih (hl.add hready i) (ready_add hready i)

end Listing

end Lower

end StraightLine
