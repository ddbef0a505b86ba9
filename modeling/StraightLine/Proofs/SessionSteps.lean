import StraightLine.Proofs.WellFormed
import StraightLine.Session.Request

/-!
# What requests do to a session

All that a request can do to a session, whether it succeeds or fails, is a sequence of the steps
listed here. A step says what is known where it is made: an instruction goes to the end of an open
block of the function under construction, and its operands are behind handles that may be used
there.

The steps that put code under the cursor (`CodeStep`) are set apart from the others that take
nothing away (`GrowStep`), and these from the one that abandons a function (`Step`). That the
requests for code are made of the first is shown here.
-/

namespace StraightLine.Session

open Relation (ReflTransGen)

/-- The session after a request, whether it succeeds or not. -/
def result {α : Type} (x : SessionM α) (s : Session) : Session :=
  match x s with
  | .ok _ s => s
  | .error _ s => s

/-! ### Places and operands -/

/-- The open block `b` of the function `f` is under the cursor. -/
structure Site (s : Session) (c : Cursor) (f : Function) (b : Block) : Prop where
  usable : s.poisonedBy = none
  cursor : s.draft.cursor = some c
  function : s.module.functions[c.function]? = some f
  building : f.stage = .building
  block : f.block? c.block = some b
  isOpen : b.isTerminated = false

/-- A handle to an operand of a type can be used in the function at a place. -/
def Offers (s : Session) (place : Nat) (t : Ty) (v : Operand) : Prop :=
  ∃ e ∈ s.values, e.operand = v ∧ e.type = t ∧ (e.owner = none ∨ e.owner = some place)

/-- A handle to a slot can be used in the function at a place. -/
def OffersSlot (s : Session) (place : Nat) (p : Operand) : Prop :=
  ∃ e ∈ s.slots, e.ptr = p ∧ e.owner = place

/-- The instructions that requests put behind a block of the function at a place. -/
inductive Admits (s : Session) (place : Nat) (b : Block) : Instr → Prop
  | alloca (r : Nat) (name : String) : Admits s place b (.alloca r .double name)
  /-- The first store into a slot directly follows its making. -/
  | fill (v : Operand) (r : Nat) (name : String)
      (made : b.instrs.getLast? = some (.alloca r .double name))
      (value : s.Offers place .double v) : Admits s place b (.store v (.temp r))
  | store (v p : Operand) (value : s.Offers place .double v) (slot : s.OffersSlot place p) :
      Admits s place b (.store v p)
  | load (r : Nat) (p : Operand) (slot : s.OffersSlot place p) :
    Admits s place b (.load r p .double)
  | arith (r : Nat) (op : Arith) (v w : Operand) (left : s.Offers place .double v)
      (right : s.Offers place .double w) : Admits s place b (.arith r op v w)
  | compare (r : Nat) (p : Predicate) (v w : Operand) (left : s.Offers place .double v)
      (right : s.Offers place .double w) : Admits s place b (.compare r p v w)
  | widen (r : Nat) (v : Operand) (value : s.Offers place .i1 v) : Admits s place b (.widen r v)
  | call (r : Nat) (e : FunctionEntry) (g : Function) (vs : List Operand) (mem : e ∈ s.functions)
      (function : g = s.functionAt e.index) (live : g.isLive) (arity : g.arity = vs.length)
      (args : ∀ v ∈ vs, s.Offers place .double v) : Admits s place b (.call r (.function g.name) vs)

/-! ### Steps -/

/-- The session after a temp is numbered. -/
def numbered (s : Session) : Session :=
  { s with draft := { s.draft with temps := s.draft.temps.take.2 } }

/-- The session after an instruction is put behind a block. -/
def appended (s : Session) (c : Cursor) (i : Instr) : Session :=
  { s with draft := { s.draft with
      module := s.draft.module.modify c.function (·.appendTo c.block i) } }

/-- The session with a value more. -/
def withValue (s : Session) (e : ValueEntry) : Session := { s with values := s.values.push e }

/-- The session with a slot more. -/
def withSlot (s : Session) (e : SlotEntry) : Session := { s with slots := s.slots.push e }

/-- The session after the function at a place is changed. -/
def changed (s : Session) (place : Nat) (g : Function → Function) : Session :=
  { s with draft := { s.draft with module := s.draft.module.modify place g } }

/-- A step that builds code under the cursor. -/
inductive CodeStep (s : Session) : Session → Prop
  /-- A temp is numbered and not used. -/
  | skip (usable : s.poisonedBy = none) : CodeStep s s.numbered
  /-- An instruction defines the next temp. -/
  | define (c : Cursor) (f : Function) (b : Block) (i : Instr) (site : s.Site c f b)
      (admits : s.Admits c.function b i) (result : i.result? = some s.draft.temps.next) :
      CodeStep s (s.numbered.appended c i)
  /-- An instruction that defines nothing. -/
  | append (c : Cursor) (f : Function) (b : Block) (i : Instr) (site : s.Site c f b)
      (admits : s.Admits c.function b i) (result : i.result? = none) : CodeStep s (s.appended c i)
  | float (c : Numeral) : CodeStep s (s.withValue ⟨.float c, .double, none⟩)
  | string (bytes : List UInt8) :
      CodeStep s (s.withValue ⟨.string bytes, .bytes bytes.length, none⟩)
  /-- The result of the last instruction gets a handle. -/
  | value (c : Cursor) (f : Function) (b : Block) (i : Instr) (r : Nat) (t : Ty)
      (site : s.Site c f b) (last : b.instrs.getLast? = some i) (result : i.result? = some r)
      (type : i.resultType? = some t) :
      CodeStep s (s.withValue ⟨.temp r, t, some c.function⟩)
  /-- The slot that was filled last gets a handle. -/
  | slot (c : Cursor) (f : Function) (b : Block) (v : Operand) (r : Nat) (name : String)
      (site : s.Site c f b) (last : b.instrs.getLast? = some (.store v (.temp r))) :
      CodeStep s (s.withSlot ⟨.temp r, c.function, name⟩)

/-- The session after a function with an empty block is begun. -/
def opened (s : Session) (name : String) (params : List String) : Session :=
  let place := s.module.functions.length
  let label := s.draft.labels.next
  { s with
    draft :=
      { module := s.module.add { Function.declare name params with
          stage := .building, blocks := [{ id := label, name := entryName }] }
        cursor := some ⟨place, label⟩
        temps := ⟨params.length⟩
        labels := s.draft.labels.take.2 }
    values := s.values ++
      ((List.range params.length).map fun i => ⟨.temp i, .double, some place⟩).toArray
    functions := s.functions.push
      ⟨place, (List.range params.length).map fun i => ⟨s.id, s.values.size + i⟩⟩ }

/-- The session after a function of the host is declared. -/
def declared (s : Session) (name : String) (arity : Nat) : Session :=
  { s with
    draft := { s.draft with module := s.module.add (Function.external name arity) }
    functions := s.functions.push ⟨s.module.functions.length, []⟩ }

/-- The session without a cursor. -/
def uncursored (s : Session) : Session := { s with draft := { s.draft with cursor := none } }

/-- The session after the function under the cursor returns and is ended. -/
def returned (s : Session) (c : Cursor) (v : Operand) : Session :=
  (s.appended c (.ret v)).changed c.function fun f => { f with stage := .terminated }

/-- The session with the function at a place abandoned. -/
def withdrawn (s : Session) (place : Nat) : Session :=
  let t := s.changed place fun f => { f with stage := .abandoned, blocks := [] }
  if s.draft.cursor.any fun c => c.function = place then t.uncursored else t

theorem returned_eq (s : Session) (c : Cursor) (v : Operand) :
    s.returned c v =
      s.changed c.function fun f => { f.appendTo c.block (.ret v) with stage := .terminated } := by
  simp [returned, appended, changed, Module.modify, List.modify_modify_eq, Function.comp_def]

theorem withdrawn_fields (s : Session) (place : Nat) :
    (s.withdrawn place).id = s.id ∧ (s.withdrawn place).functions = s.functions ∧
      (s.withdrawn place).poisonedBy = s.poisonedBy ∧ (s.withdrawn place).module =
        s.module.modify place fun f => { f with stage := .abandoned, blocks := [] } := by
  unfold withdrawn
  split <;> exact ⟨rfl, rfl, rfl, rfl⟩

/-- A step in the building of a module that takes nothing away. -/
inductive GrowStep (s : Session) : Session → Prop
  | code (t : Session) (step : s.CodeStep t) : GrowStep s t
  /-- A name is taken for a function around a top-level expression. -/
  | name (usable : s.poisonedBy = none) : GrowStep s { s with wrappers := s.wrappers.take.2 }
  | opened (name : String) (params : List String) (usable : s.poisonedBy = none)
      (new : s.checkNewName name = .ok ()) (distinct : checkParams name params = .ok ())
      (origin : s.wrappers.reserves name = false ∨
        params = [] ∧ ∃ n, s.wrappers.next = n + 1 ∧ name = s.wrappers.member n) :
      GrowStep s (s.opened name params)
  | declared (name : String) (arity : Nat) (usable : s.poisonedBy = none)
      (new : s.checkNewName name = .ok ()) (user : s.wrappers.reserves name = false) :
      GrowStep s (s.declared name arity)
  /-- The function under the cursor returns. -/
  | ended (c : Cursor) (f : Function) (b : Block) (v : Operand) (site : s.Site c f b)
      (value : s.Offers c.function .double v) : GrowStep s (s.returned c v)
  | verified (e : FunctionEntry) (f : Function) (usable : s.poisonedBy = none)
      (mem : e ∈ s.functions) (function : s.module.functions[e.index]? = some f)
      (stage : f.stage ≠ .verified ∧ f.stage ≠ .abandoned) (internal : f.isExternal = false)
      (correct : s.module.verifyFunction f = .ok ()) :
      GrowStep s (s.changed e.index fun f => { f with stage := .verified })
  | poisoned (e : FunctionEntry) (f : Function) (err : Error) (usable : s.poisonedBy = none)
      (mem : e ∈ s.functions) (function : f = s.functionAt e.index)
      (incorrect : s.module.verifyFunction f = .error err) :
      GrowStep s { s with poisonedBy := some f.name, draft := { s.draft with cursor := none } }

/-- A step in the building of a module. -/
inductive Step (s : Session) : Session → Prop
  | grow (t : Session) (step : s.GrowStep t) : Step s t
  /-- A function that is not verified is abandoned. -/
  | withdrawn (e : FunctionEntry) (usable : s.poisonedBy = none) (mem : e ∈ s.functions)
      (stage : (s.functionAt e.index).stage ≠ .verified) : Step s (s.withdrawn e.index)

/-- Any number of steps. -/
abbrev Steps : Session → Session → Prop := ReflTransGen Step

/-- Any number of steps that take nothing away. -/
abbrev GrowSteps : Session → Session → Prop := ReflTransGen GrowStep

/-- Any number of steps that build code. -/
abbrev CodeSteps : Session → Session → Prop := ReflTransGen CodeStep

/-! ### Requests in sequence -/

theorem andThen_of_ok {α β : Type} {x : SessionM α} {k : α → SessionM β} {s t : Session} {a : α}
    (h : x s = .ok a t) : (x >>= k) s = k a t := by
  change EStateM.bind x k s = _
  rw [EStateM.bind, h]

theorem andThen_of_error {α β : Type} {x : SessionM α} {k : α → SessionM β} {s t : Session}
    {e : Error} (h : x s = .error e t) : (x >>= k) s = .error e t := by
  change EStateM.bind x k s = _
  rw [EStateM.bind, h]

/-- Two requests succeed together when each does in its turn. -/
theorem andThen_eq_ok {α β : Type} {x : SessionM α} {k : α → SessionM β} {s t : Session} {b : β} :
    (x >>= k) s = .ok b t ↔ ∃ a u, x s = .ok a u ∧ k a u = .ok b t := by
  change EStateM.bind x k s = _ ↔ _
  unfold EStateM.bind
  cases x s <;> simp

/-- Two requests fail together when the first does, or the second after it. -/
theorem andThen_eq_error {α β : Type} {x : SessionM α} {k : α → SessionM β} {s t : Session}
    {e : Error} : (x >>= k) s = .error e t ↔
      x s = .error e t ∨ ∃ a u, x s = .ok a u ∧ k a u = .error e t := by
  change EStateM.bind x k s = _ ↔ _
  unfold EStateM.bind
  cases x s <;> simp

/-! ### Queries -/

theorem bind_query {α β : Type} (q : Session → Except Error α) (k : α → SessionM β) (s : Session) :
    (query q >>= k) s =
      match q s with
      | .ok a => k a s
      | .error e => .error e s := by
  change EStateM.bind (query q) k s = _
  unfold EStateM.bind query
  cases q s <;> rfl

theorem bind_query_of_ok {α β : Type} {q : Session → Except Error α} {k : α → SessionM β}
    {s : Session} {a : α} (h : q s = .ok a) : (query q >>= k) s = k a s := by
  rw [bind_query, h]

theorem bind_query_of_error {α β : Type} {q : Session → Except Error α} {k : α → SessionM β}
    {s : Session} {e : Error} (h : q s = .error e) : (query q >>= k) s = .error e s := by
  rw [bind_query, h]

/-- A query that is answered leaves the session as it is. -/
theorem ask_eq_ok {α β : Type} {q : Session → Except Error α} {k : α → SessionM β} {s t : Session}
    {b : β} : (query q >>= k) s = .ok b t ↔ ∃ a, q s = .ok a ∧ k a s = .ok b t := by
  rw [bind_query]
  cases q s <;> simp

/-- The place of the function that instructions go to, if the session takes any. -/
def site (s : Session) : Except Error Nat := do
  s.ensureUsable
  s.underConstruction

theorem cursorFunction_eq : cursorFunction = query site := by
  funext s
  rw [cursorFunction, bind_query]
  unfold query site
  cases s.ensureUsable <;> rfl

theorem ensureUsable_eq_ok {s : Session} : s.ensureUsable = .ok () ↔ s.poisonedBy = none := by
  unfold ensureUsable
  cases s.poisonedBy <;> simp

theorem functionAt_of_stage {s : Session} {place : Nat}
    (h : (s.functionAt place).stage ≠ .declared) :
    s.module.functions[place]? = some (s.functionAt place) := by
  unfold functionAt at h ⊢
  cases hf : s.module.functions[place]? with
  | none => simp [hf] at h
  | some f => rfl

/-- Where instructions go there is a function under construction. -/
theorem site_eq_ok {s : Session} {place : Nat} (h : s.site = .ok place) :
    s.poisonedBy = none ∧ ∃ c f, s.draft.cursor = some c ∧ c.function = place ∧
      s.module.functions[place]? = some f ∧ f.stage = .building := by
  obtain ⟨hu, h⟩ := seq_eq_ok.1 h
  refine ⟨ensureUsable_eq_ok.1 hu, ?_⟩
  simp only [underConstruction] at h
  split at h
  next => cases h
  next c hc =>
    split at h
    next hb =>
      cases h
      exact ⟨c, _, hc, rfl, functionAt_of_stage (by simp [hb]), hb⟩
    next => cases h

/-- A handle leads to something that is there. -/
theorem resolve_eq_ok {k : HandleKind} {α : Type} {h : Handle k} {session : Nat} {arena : Array α}
    {a : α} (ha : h.resolve session arena = .ok a) : a ∈ arena := by
  unfold Handle.resolve at ha
  split at ha
  · split at ha
    next hget =>
      cases ha
      exact Array.mem_of_getElem? hget
    next => cases ha
  · cases ha

/-- A handle can be used in the function that made its value; constants can be used everywhere. -/
theorem operandIn_eq_ok {s : Session} {place : Nat} {h : ValueId} {e : ValueEntry}
    (he : s.operandIn place h = .ok e) :
    s.value h = .ok e ∧ (e.owner = none ∨ e.owner = some place) := by
  obtain ⟨e', hv, he⟩ := bind_eq_ok.1 he
  split at he
  next owner ho =>
    split at he
    next howner =>
      cases he
      exact ⟨hv, .inr (howner ▸ ho)⟩
    next => cases he
  next ho =>
    cases he
    exact ⟨hv, .inl ho⟩

/-- What is behind a handle that must have a type. -/
theorem typedIn_eq_ok {s : Session} {place : Nat} {h : ValueId} {v : Operand} {t : Ty}
    {refusal : ValueEntry → Error}
    (hv : (do
      let e ← s.operandIn place h
      if e.type = t then pure e.operand else throw (refusal e)) = Except.ok v) :
    ∃ owner, s.value h = .ok ⟨v, t, owner⟩ ∧ (owner = none ∨ owner = some place) := by
  obtain ⟨⟨v', t', owner⟩, he, hv⟩ := bind_eq_ok.1 hv
  obtain ⟨hval, howner⟩ := operandIn_eq_ok he
  split at hv
  next ht =>
    cases hv
    cases ht
    exact ⟨owner, hval, howner⟩
  next => cases hv

theorem doubleIn_eq_ok {s : Session} {place : Nat} {h : ValueId} {v : Operand}
    (hv : s.doubleIn place h = .ok v) :
    ∃ owner, s.value h = .ok ⟨v, .double, owner⟩ ∧ (owner = none ∨ owner = some place) :=
  typedIn_eq_ok hv

theorem flagIn_eq_ok {s : Session} {place : Nat} {h : ValueId} {v : Operand}
    (hv : s.flagIn place h = .ok v) :
    ∃ owner, s.value h = .ok ⟨v, .i1, owner⟩ ∧ (owner = none ∨ owner = some place) :=
  typedIn_eq_ok hv

theorem pointerIn_eq_ok {s : Session} {place : Nat} {h : SlotId} {p : Operand}
    (hp : s.pointerIn place h = .ok p) : ∃ name, s.slot h = .ok ⟨p, place, name⟩ := by
  obtain ⟨⟨p', owner, name⟩, he, hp⟩ := bind_eq_ok.1 hp
  split at hp
  next howner =>
    cases hp
    cases howner
    exact ⟨name, he⟩
  next => cases hp

theorem offers_of_doubleIn {s : Session} {place : Nat} {h : ValueId} {v : Operand}
    (hv : s.doubleIn place h = .ok v) : s.Offers place .double v := by
  obtain ⟨owner, he, howner⟩ := doubleIn_eq_ok hv
  exact ⟨_, resolve_eq_ok he, rfl, rfl, howner⟩

theorem offers_of_flagIn {s : Session} {place : Nat} {h : ValueId} {v : Operand}
    (hv : s.flagIn place h = .ok v) : s.Offers place .i1 v := by
  obtain ⟨owner, he, howner⟩ := flagIn_eq_ok hv
  exact ⟨_, resolve_eq_ok he, rfl, rfl, howner⟩

theorem offersSlot_of_pointerIn {s : Session} {place : Nat} {h : SlotId} {p : Operand}
    (hp : s.pointerIn place h = .ok p) : s.OffersSlot place p := by
  obtain ⟨name, he⟩ := pointerIn_eq_ok hp
  exact ⟨_, resolve_eq_ok he, rfl, rfl⟩

/-- What can be called is live. -/
theorem callee_eq_ok {s : Session} {h : FunctionId} {g : Function} (hg : s.callee h = .ok g) :
    ∃ e, s.entry h = .ok e ∧ g = s.functionAt e.index ∧ g.isLive := by
  obtain ⟨g', he, hg⟩ := bind_eq_ok.1 hg
  split at hg
  next hlive =>
    cases hg
    cases hentry : s.entry h with
    | error e => simp [function, hentry, Except.map] at he
    | ok e =>
      simp only [function, hentry, Except.map, Except.ok.injEq] at he
      exact ⟨e, rfl, he.symm, hlive⟩
  next => cases hg

theorem forall₂_of_mapM_ok {ε α β : Type} {f : α → Except ε β} {xs : List α} {ys : List β}
    (h : xs.mapM f = .ok ys) : List.Forall₂ (fun x y => f x = .ok y) xs ys := by
  induction xs generalizing ys with
  | nil =>
    cases h
    exact .nil
  | cons x xs ih =>
    rw [List.mapM_cons] at h
    obtain ⟨y, hy, h⟩ := bind_eq_ok.1 h
    obtain ⟨ys, hys, h⟩ := bind_eq_ok.1 h
    cases h
    exact .cons hy (ih hys)

theorem checkArity_eq_ok {s : Session} {place given : Nat} {g : Function}
    (h : s.checkArity place g given = .ok ()) : g.arity = given := by
  unfold checkArity at h
  split at h
  next harity => exact harity
  next => cases h

theorem offers_of_mapM_doubleIn {s : Session} {place : Nat} {args : List ValueId}
    {vs : List Operand} (h : List.Forall₂ (fun a v => s.doubleIn place a = .ok v) args vs)
    {v : Operand} (hv : v ∈ vs) : s.Offers place .double v := by
  induction h with
  | nil => cases hv
  | cons ha _ ih =>
    rcases List.mem_cons.1 hv with rfl | hv
    · exact offers_of_doubleIn ha
    · exact ih hv

/-! ### Building -/

theorem bind_build {α β : Type} (d : Building α) (k : α → SessionM β) (s : Session) :
    (build d >>= k) s =
      match d s.draft with
      | .ok a d => k a { s with draft := d }
      | .error e d => .error e { s with draft := d } := by
  change EStateM.bind (build d) k s = _
  unfold EStateM.bind build
  cases d s.draft <;> rfl

theorem draft_append_of_open {d : Draft} {c : Cursor} {f : Function} {b : Block} (i : Instr)
    (hc : d.cursor = some c) (hf : d.module.functions[c.function]? = some f)
    (hb : f.block? c.block = some b) (ht : b.isTerminated = false) :
    Draft.append i d =
      .ok () { d with module := d.module.modify c.function (·.appendTo c.block i) } := by
  obtain ⟨m, cursor, temps, labels⟩ := d
  subst hc
  simp only [Draft.append, bind, EStateM.bind, get, getThe, MonadStateOf.get, EStateM.get, hf, hb,
    ht]
  rfl

/-- An instruction is put behind an open block, or nothing happens. -/
theorem draft_append_cases {d : Draft} {c : Cursor} {f : Function} (i : Instr)
    (hc : d.cursor = some c) (hf : d.module.functions[c.function]? = some f) :
    (∃ e, Draft.append i d = .error e d) ∨
      ∃ b, f.block? c.block = some b ∧ b.isTerminated = false ∧
        Draft.append i d =
          .ok () { d with module := d.module.modify c.function (·.appendTo c.block i) } := by
  cases hb : f.block? c.block with
  | none =>
    refine .inl ⟨(Draft.Fault.lostBlock f.name).error, ?_⟩
    simp only [Draft.append, bind, EStateM.bind, get, getThe, MonadStateOf.get, EStateM.get, hc, hf,
      hb]
    rfl
  | some b =>
    cases ht : b.isTerminated with
    | true =>
      refine .inl ⟨(Draft.Fault.terminated f.name i).error, ?_⟩
      simp only [Draft.append, bind, EStateM.bind, get, getThe, MonadStateOf.get, EStateM.get, hc,
        hf, hb, ht, if_true]
      rfl
    | false => exact .inr ⟨b, rfl, ht, draft_append_of_open i hc hf hb ht⟩

theorem draft_define_of_open {d : Draft} {c : Cursor} {f : Function} {b : Block} (i : Nat → Instr)
    (hc : d.cursor = some c) (hf : d.module.functions[c.function]? = some f)
    (hb : f.block? c.block = some b) (ht : b.isTerminated = false) :
    Draft.define i d = .ok (.temp d.temps.next)
      { d with
        temps := d.temps.take.2
        module := d.module.modify c.function (·.appendTo c.block (i d.temps.next)) } := by
  have hdefine : Draft.define i d =
      EStateM.bind (Draft.append (i d.temps.next)) (fun _ => pure (.temp d.temps.next))
        { d with temps := d.temps.take.2 } := rfl
  have happend := draft_append_of_open (d := { d with temps := d.temps.take.2 }) (i d.temps.next)
    hc hf hb ht
  rw [hdefine, EStateM.bind, happend]
  rfl

/-- An instruction is put behind an open block and defines the next temp, or only the temp is
numbered. -/
theorem draft_define_cases {d : Draft} {c : Cursor} {f : Function} (i : Nat → Instr)
    (hc : d.cursor = some c) (hf : d.module.functions[c.function]? = some f) :
    (∃ e, Draft.define i d = .error e { d with temps := d.temps.take.2 }) ∨
      ∃ b, f.block? c.block = some b ∧ b.isTerminated = false ∧
        Draft.define i d = .ok (.temp d.temps.next)
          { d with
            temps := d.temps.take.2
            module := d.module.modify c.function (·.appendTo c.block (i d.temps.next)) } := by
  have hdefine : Draft.define i d =
      (Draft.append (i d.temps.next) >>= fun _ => pure (.temp d.temps.next))
        { d with temps := d.temps.take.2 } := rfl
  rw [hdefine]
  change (∃ e, EStateM.bind _ _ _ = _) ∨ ∃ b, _ ∧ _ ∧ EStateM.bind _ _ _ = _
  rcases draft_append_cases (d := { d with temps := d.temps.take.2 }) (i d.temps.next) hc hf with
    ⟨e, h⟩ | ⟨b, hb, ht, h⟩
  · exact .inl ⟨e, by rw [EStateM.bind, h]⟩
  · exact .inr ⟨b, hb, ht, by rw [EStateM.bind, h]; rfl⟩

/-- The block that is found by its label is the one that grows. -/
theorem block?_appendTo {f : Function} {id : Nat} {b : Block} (h : f.block? id = some b)
    (i : Instr) : (f.appendTo id i).block? id = some { b with instrs := b.instrs ++ [i] } := by
  unfold Function.block? Function.appendTo at *
  dsimp only
  generalize f.blocks = bs at h ⊢
  induction bs with
  | nil => cases h
  | cons b' bs ih =>
    by_cases hid : b'.id = id
    · obtain rfl : b' = b := by simpa [hid] using h
      simp [Function.appendToBlocks, hid]
    · simpa [Function.appendToBlocks, hid] using ih (by simpa [hid] using h)

/-- In a function with one block, what is put behind a block is put behind all. -/
theorem instrs_appendTo {f : Function} (h : f.blocks.length ≤ 1) {id : Nat} {b : Block}
    (hb : f.block? id = some b) (i : Instr) :
    f.instrs = b.instrs ∧ (f.appendTo id i).instrs = b.instrs ++ [i] ∧
      (f.appendTo id i).blocks.length = f.blocks.length := by
  unfold Function.block? at hb
  match hbs : f.blocks, h with
  | [], _ => simp [hbs] at hb
  | [b'], _ =>
    have hid : b'.id = id := by
      have := List.find?_some hb
      have hmem := List.mem_of_find?_eq_some hb
      simp_all
    obtain rfl : b' = b := by simpa [hbs, hid] using hb
    simp [Function.instrs, Function.appendTo, Function.appendToBlocks, hbs, hid]

theorem functions_modify {m : Module} {place : Nat} {f : Function}
    (h : m.functions[place]? = some f) (g : Function → Function) :
    (m.modify place g).functions[place]? = some (g f) := by
  simp [Module.modify, h]

theorem isTerminator_of_result? {i : Instr} {r : Nat} (h : i.result? = some r) :
    i.isTerminator = false := by
  cases i <;> simp_all [Instr.result?, Instr.isTerminator]

/-- The block under the cursor after an instruction is put behind it. -/
theorem Site.appended {s : Session} {c : Cursor} {f : Function} {b : Block} (h : s.Site c f b)
    {i : Instr} (hi : i.isTerminator = false) :
    (s.appended c i).Site c (f.appendTo c.block i) { b with instrs := b.instrs ++ [i] } where
  usable := h.usable
  cursor := h.cursor
  function := functions_modify h.function _
  building := h.building
  block := block?_appendTo h.block i
  isOpen := by simp [Block.isTerminated, hi]

theorem Site.numbered {s : Session} {c : Cursor} {f : Function} {b : Block} (h : s.Site c f b) :
    s.numbered.Site c f b :=
  ⟨h.usable, h.cursor, h.function, h.building, h.block, h.isOpen⟩

/-- The session after an instruction defines the next temp and its result gets a handle. -/
def emitted (s : Session) (c : Cursor) (i : Nat → Instr) (t : Ty) : Session :=
  (s.numbered.appended c (i s.draft.temps.next)).withValue
    ⟨.temp s.draft.temps.next, t, some c.function⟩

theorem emit_of_site {s : Session} {c : Cursor} {f : Function} {b : Block} (hs : s.Site c f b)
    (i : Nat → Instr) (t : Ty) :
    (build (Draft.define i) >>= fun v => addValue ⟨v, t, some c.function⟩) s =
      .ok ⟨s.id, s.values.size⟩ (s.emitted c i t) := by
  rw [bind_build, draft_define_of_open i hs.cursor hs.function hs.block hs.isOpen]
  rfl

/-- What requests for an expression do in the end: they define a temp and give it a handle, or only
number it. -/
theorem emit_cases {s : Session} {place : Nat} (hs : s.site = .ok place) (i : Nat → Instr)
    (t : Ty) :
    (∃ e, (build (Draft.define i) >>= fun v => addValue ⟨v, t, some place⟩) s =
      .error e s.numbered) ∨
      ∃ c f b, s.Site c f b ∧ c.function = place ∧
        (build (Draft.define i) >>= fun v => addValue ⟨v, t, some place⟩) s =
          .ok ⟨s.id, s.values.size⟩ (s.emitted c i t) := by
  obtain ⟨hu, c, f, hc, rfl, hf, hb⟩ := site_eq_ok hs
  rcases draft_define_cases i hc hf with ⟨e, h⟩ | ⟨b, hblock, ht, _⟩
  · exact .inl ⟨e, by rw [bind_build, h]; rfl⟩
  · have hsite : s.Site c f b := ⟨hu, hc, hf, hb, hblock, ht⟩
    exact .inr ⟨c, f, b, hsite, rfl, emit_of_site hsite i t⟩

/-- The steps that define a temp and give it a handle. -/
theorem emitted_steps {s : Session} {c : Cursor} {f : Function} {b : Block} (hs : s.Site c f b)
    {i : Nat → Instr} {t : Ty} (hadmits : s.Admits c.function b (i s.draft.temps.next))
    (hresult : ∀ r, (i r).result? = some r) (htype : ∀ r, (i r).resultType? = some t) :
    s.CodeSteps (s.emitted c i t) := by
  have hterm := isTerminator_of_result? (hresult s.draft.temps.next)
  exact .tail (.single (.define c f b _ hs hadmits (hresult _)))
    (.value c _ _ _ _ t (hs.numbered.appended hterm) (by simp) (hresult _) (htype _))

theorem append_of_site {s : Session} {c : Cursor} {f : Function} {b : Block} (hs : s.Site c f b)
    (i : Instr) : build (Draft.append i) s = .ok () (s.appended c i) := by
  rw [build, draft_append_of_open i hs.cursor hs.function hs.block hs.isOpen]
  rfl

/-- An instruction that defines nothing is put behind the block under the cursor, or nothing
happens. -/
theorem append_cases {s : Session} {place : Nat} (hs : s.site = .ok place) (i : Instr) :
    (∃ e, build (Draft.append i) s = .error e s) ∨
      ∃ c f b, s.Site c f b ∧ c.function = place ∧
        build (Draft.append i) s = .ok () (s.appended c i) := by
  obtain ⟨hu, c, f, hc, rfl, hf, hb⟩ := site_eq_ok hs
  rcases draft_append_cases i hc hf with ⟨e, h⟩ | ⟨b, hblock, ht, _⟩
  · exact .inl ⟨e, by rw [build, h]⟩
  · have hsite : s.Site c f b := ⟨hu, hc, hf, hb, hblock, ht⟩
    exact .inr ⟨c, f, b, hsite, rfl, append_of_site hsite i⟩

/-- The session after a variable is made that holds `v`. -/
def withVariable (s : Session) (c : Cursor) (v : Operand) (name : String) : Session :=
  ((s.numbered.appended c (.alloca s.draft.temps.next .double name)).appended c
    (.store v (.temp s.draft.temps.next))).withSlot ⟨.temp s.draft.temps.next, c.function, name⟩

/-- The end of the request for a variable. -/
def makeVariable (place : Nat) (v : Operand) (name : String) : SessionM SlotId := do
  let ptr ← build (Draft.define fun r => .alloca r .double name)
  build (Draft.append (.store v ptr))
  addSlot ⟨ptr, place, name⟩

theorem makeVariable_of_site {s : Session} {c : Cursor} {f : Function} {b : Block}
    (hs : s.Site c f b) (v : Operand) (name : String) :
    makeVariable c.function v name s = .ok ⟨s.id, s.slots.size⟩ (s.withVariable c v name) := by
  -- The block is still open after the slot is made, so the store cannot fail.
  have hmade := hs.numbered.appended (i := .alloca s.draft.temps.next .double name) rfl
  have hdefine := draft_define_of_open (fun r => .alloca r .double name) hs.cursor hs.function
    hs.block hs.isOpen
  rw [makeVariable, bind_build, hdefine]
  exact andThen_of_ok (append_of_site hmade _)

/-- What the request for a variable does in the end: it makes the slot and fills it, or only numbers
a temp. -/
theorem makeVariable_cases {s : Session} {place : Nat} (hs : s.site = .ok place) (v : Operand)
    (name : String) :
    (∃ e, makeVariable place v name s = .error e s.numbered) ∨
      ∃ c f b, s.Site c f b ∧ c.function = place ∧
        makeVariable place v name s = .ok ⟨s.id, s.slots.size⟩ (s.withVariable c v name) := by
  obtain ⟨hu, c, f, hc, rfl, hf, hb⟩ := site_eq_ok hs
  rcases draft_define_cases (fun r => .alloca r .double name) hc hf with ⟨e, h⟩ | ⟨b, hblock, ht, _⟩
  · exact .inl ⟨e, by rw [makeVariable, bind_build, h]; rfl⟩
  · have hsite : s.Site c f b := ⟨hu, hc, hf, hb, hblock, ht⟩
    exact .inr ⟨c, f, b, hsite, rfl, makeVariable_of_site hsite v name⟩

/-- The steps that make a variable. -/
theorem withVariable_steps {s : Session} {c : Cursor} {f : Function} {b : Block}
    (hs : s.Site c f b) {v : Operand} (hv : s.Offers c.function .double v) (name : String) :
    s.CodeSteps (s.withVariable c v name) := by
  have hmade := hs.numbered.appended (i := .alloca s.draft.temps.next .double name) rfl
  have hfilled := hmade.appended (i := .store v (.temp s.draft.temps.next)) rfl
  have hfill := CodeStep.append c _ _ _ hmade (.fill v s.draft.temps.next name (by simp) hv) rfl
  have hslot := CodeStep.slot c _ _ v s.draft.temps.next name hfilled (by simp)
  exact .tail (.tail (.single (.define c f b _ hs (.alloca _ name) rfl)) hfill) hslot

/-! ### Code -/

/-- A request that only takes steps of a kind. -/
def Takes {α : Type} (R : Session → Session → Prop) (x : SessionM α) : Prop :=
  ∀ s, ReflTransGen R s (result x s)

/-- A request that only builds code under the cursor. -/
abbrev Builds {α : Type} (x : SessionM α) : Prop := Takes CodeStep x

/-- A request that takes nothing away. -/
abbrev Grows {α : Type} (x : SessionM α) : Prop := Takes GrowStep x

/-- A request that is made of steps. -/
abbrev Makes {α : Type} (x : SessionM α) : Prop := Takes Step x

theorem CodeSteps.growSteps {s t : Session} (h : s.CodeSteps t) : s.GrowSteps t :=
  ReflTransGen.mono (fun _ t ht => GrowStep.code t ht) _ _ h

theorem Builds.grows {α : Type} {x : SessionM α} (h : Builds x) : Grows x :=
  fun s => CodeSteps.growSteps (h s)

theorem Grows.makes {α : Type} {x : SessionM α} (h : Grows x) : Makes x :=
  fun s => ReflTransGen.mono (fun _ t ht => Step.grow t ht) _ _ (h s)

section Takes

variable {α β : Type} {R : Session → Session → Prop}

theorem takes_pure (a : α) : Takes R (pure a : SessionM α) := fun _ => .refl

theorem takes_query (q : Session → Except Error α) : Takes R (query q) := by
  intro s
  have h : result (query q) s = s := by
    unfold result query
    cases q s <;> rfl
  rw [h]

theorem takes_bind {x : SessionM α} {k : α → SessionM β} (hx : Takes R x)
    (hk : ∀ a, Takes R (k a)) :
    Takes R (x >>= k) := by
  intro s
  have hs := hx s
  have hbind : result (x >>= k) s = match x s with
      | .ok a t => result (k a) t
      | .error _ t => t := by
    change (match EStateM.bind x k s with
      | .ok _ t => t
      | .error _ t => t) = _
    unfold EStateM.bind
    cases x s <;> rfl
  rw [hbind]
  unfold result at hs
  cases h : x s with
  | error e t => simpa [h] using hs
  | ok a t => exact (show ReflTransGen R s t by simpa [h] using hs).trans (hk a t)

theorem result_map (g : α → β) (x : SessionM α) (s : Session) :
    result (g <$> x) s = result x s := by
  change (match EStateM.map g x s with
    | .ok _ t => t
    | .error _ t => t) = _
  unfold EStateM.map result
  cases x s <;> rfl

theorem takes_map {x : SessionM α} (g : α → β) (hx : Takes R x) : Takes R (g <$> x) := by
  intro s
  rw [result_map]
  exact hx s

end Takes

theorem result_error {α : Type} {x : SessionM α} {s t : Session} {e : Error}
    (h : x s = .error e t) :
    result x s = t := by
  rw [result, h]

theorem result_ok {α : Type} {x : SessionM α} {s t : Session} {a : α} (h : x s = .ok a t) :
    result x s = t := by
  rw [result, h]

/-- What holds of a session when nothing is done, and after what follows a query that is answered,
holds after both. -/
theorem result_query {α β : Type} {P : Session → Prop} {q : Session → Except Error α}
    {k : α → SessionM β} {s : Session} (hs : P s) (h : ∀ a, q s = .ok a → P (result (k a) s)) :
    P (result (query q >>= k) s) := by
  rw [result, bind_query]
  cases hq : q s with
  | error e => exact hs
  | ok a => exact h a hq

/-- The last part of a request for an expression is made of steps, if its instruction is one that
the session admits. -/
theorem steps_emit {s : Session} {place : Nat} (hs : s.site = .ok place) {i : Nat → Instr} {t : Ty}
    (hadmits : ∀ b r, s.Admits place b (i r)) (hresult : ∀ r, (i r).result? = some r)
    (htype : ∀ r, (i r).resultType? = some t) :
    s.CodeSteps (result (build (Draft.define i) >>= fun v => addValue ⟨v, t, some place⟩) s) := by
  rcases emit_cases hs i t with ⟨e, h⟩ | ⟨c, f, b, hsite, rfl, h⟩
  · rw [result_error h]
    exact .single (.skip (site_eq_ok hs).1)
  · rw [result_ok h]
    exact emitted_steps hsite (hadmits b _) hresult htype

theorem builds_arith (op : Arith) (lhs rhs : ValueId) : Builds (arith op lhs rhs) := by
  intro s
  rw [arith, cursorFunction_eq]
  refine result_query .refl fun place hs => result_query .refl fun a ha =>
    result_query .refl fun b hb => ?_
  exact steps_emit hs (fun _ r => .arith r op a b (offers_of_doubleIn ha) (offers_of_doubleIn hb))
    (fun _ => rfl) fun _ => rfl

theorem builds_compare (p : Predicate) (lhs rhs : ValueId) : Builds (compare p lhs rhs) := by
  intro s
  rw [compare, cursorFunction_eq]
  refine result_query .refl fun place hs => result_query .refl fun a ha =>
    result_query .refl fun b hb => ?_
  exact steps_emit hs (fun _ r => .compare r p a b (offers_of_doubleIn ha) (offers_of_doubleIn hb))
    (fun _ => rfl) fun _ => rfl

theorem builds_widen (value : ValueId) : Builds (widen value) := by
  intro s
  rw [widen, cursorFunction_eq]
  refine result_query .refl fun place hs => result_query .refl fun a ha => ?_
  exact steps_emit hs (fun _ r => .widen r a (offers_of_flagIn ha)) (fun _ => rfl) fun _ => rfl

theorem builds_read (slot : SlotId) : Builds (read slot) := by
  intro s
  rw [read, cursorFunction_eq]
  refine result_query .refl fun place hs => result_query .refl fun p hp => ?_
  exact steps_emit hs (fun _ r => .load r p (offersSlot_of_pointerIn hp)) (fun _ => rfl)
    fun _ => rfl

theorem builds_call (f : FunctionId) (args : List ValueId) : Builds (call f args) := by
  intro s
  rw [call, cursorFunction_eq]
  refine result_query .refl fun place hs => result_query .refl fun g hg =>
    result_query .refl fun _ harity => result_query .refl fun vs hvs => ?_
  obtain ⟨e, he, rfl, hlive⟩ := callee_eq_ok hg
  have hvs := forall₂_of_mapM_ok hvs
  refine steps_emit hs (fun _ r => .call r e _ vs (resolve_eq_ok he) rfl hlive ?_ ?_) (fun _ => rfl)
    fun _ => rfl
  · rw [checkArity_eq_ok harity, hvs.length_eq]
  · exact fun v hv => offers_of_mapM_doubleIn hvs hv

theorem builds_floatConstant (c : Numeral) : Builds (floatConstant c) :=
  fun _ => .single (.float c)

theorem builds_stringConstant (bytes : List UInt8) : Builds (stringConstant bytes) :=
  fun _ => .single (.string bytes)

theorem builds_assign (slot : SlotId) (value : ValueId) : Builds (assign slot value) := by
  intro s
  rw [assign, cursorFunction_eq]
  refine result_query .refl fun place hs => result_query .refl fun p hp =>
    result_query .refl fun v hv => ?_
  rcases append_cases hs (.store v p) with ⟨e, h⟩ | ⟨c, f, b, hsite, rfl, h⟩
  · rw [result_error h]
  · rw [result_ok h]
    have hadmits := Admits.store (b := b) v p (offers_of_doubleIn hv) (offersSlot_of_pointerIn hp)
    exact .single (.append c f b _ hsite hadmits rfl)

theorem builds_declareVariable (initial : ValueId) (name : String) :
    Builds (declareVariable initial name) := by
  intro s
  rw [declareVariable, cursorFunction_eq]
  refine result_query .refl fun place hs => result_query .refl fun v hv => ?_
  show s.CodeSteps (result (makeVariable place v name) s)
  rcases makeVariable_cases hs v name with ⟨e, h⟩ | ⟨c, f, b, hsite, rfl, h⟩
  · rw [result_error h]
    exact .single (.skip (site_eq_ok hs).1)
  · rw [result_ok h]
    exact withVariable_steps hsite (offers_of_doubleIn hv) name

end StraightLine.Session
