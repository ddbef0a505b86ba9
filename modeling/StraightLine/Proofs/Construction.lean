import StraightLine.Proofs.SessionLifecycle

/-!
# Construction only appends

Everything that can be done with a draft is an action, and a run is a list of actions. It begins
with any draft: the module, the cursor and the numbers need not come from earlier actions. What an
action can do is said once (`Draft.Does`). It follows that a block never loses an instruction, that
only the block under the cursor gets one (`Draft.Grows`), and that nothing is ever put behind a
return. As long as the cursor is not moved again, each temp that is defined is above those before
(`Draft.Rises`).
-/

namespace StraightLine

/-! ### Places -/

/-- The block at a place of the function at a place. -/
def Module.blockAt? (m : Module) (f k : Nat) : Option Block :=
  m.functions[f]?.bind fun g => g.blocks[k]?

/-- The block with instructions put behind its own. -/
def Block.write (b : Block) (new : List Instr) : Block := { b with instrs := b.instrs ++ new }

/-- Nothing stands behind a return. -/
def Block.EndsAtReturn (b : Block) : Prop :=
  ∀ code v rest, b.instrs = code ++ .ret v :: rest → rest = []

/-- Nothing stands behind a return in any block. -/
def Module.EndsAtReturns (m : Module) : Prop := ∀ f k b, m.blockAt? f k = some b → b.EndsAtReturn

namespace Draft

/-- The place of the first block with the label of the cursor in the function of the cursor. -/
def target? (d : Draft) : Option (Nat × Nat) :=
  d.cursor.bind fun c => d.module.functions[c.function]?.bind fun f =>
    (f.blocks.findIdx? fun b => b.id = c.block).map fun k => (c.function, k)

/-- The block under the cursor is there and has not ended. -/
def IsOpen (d : Draft) : Prop :=
  ∃ f k b, d.target? = some (f, k) ∧ d.module.blockAt? f k = some b ∧ b.isTerminated = false

/-! ### Actions -/

/-- What defines a temp. -/
inductive Computation where
  | alloca (type : Ty) (name : String)
  | load (ptr : Operand) (type : Ty)
  | arith (op : Arith) (lhs rhs : Operand)
  | compare (pred : Predicate) (lhs rhs : Operand)
  | widen (value : Operand)
  | call (callee : Operand) (args : List Operand)
  deriving DecidableEq, Repr

/-- The instruction that defines a temp. -/
def Computation.instr : Computation → Nat → Instr
  | alloca t n, r => .alloca r t n
  | load p t, r => .load r p t
  | arith op a b, r => .arith r op a b
  | compare p a b, r => .compare r p a b
  | widen v, r => .widen r v
  | call f args, r => .call r f args

/-- Something that can be done with a draft. -/
inductive Action where
  | newTemp
  | newLabel
  | appendBlock (function : Nat) (name : String)
  | position (function block : Nat)
  | clearCursor
  | define (c : Computation)
  | store (value ptr : Operand)
  | ret (value : Operand)
  deriving DecidableEq, Repr

/-- What an action that succeeds gives. -/
inductive Answer where
  | done
  | label (id : Nat)
  | operand (v : Operand)
  deriving DecidableEq, Repr

namespace Action

/-- Takes an action. -/
def perform : Action → Building Answer
  | newTemp => (fun r => .operand (.temp r)) <$> Draft.newTemp
  | newLabel => .label <$> Draft.newLabel
  | appendBlock f n => .label <$> Draft.appendBlock f n
  | position f b => (fun _ => .done) <$> Draft.position f b
  | clearCursor => (fun _ => .done) <$> Draft.clearCursor
  | define c => .operand <$> Draft.define c.instr
  | store v p => (fun _ => .done) <$> Draft.append (.store v p)
  | ret v => (fun _ => .done) <$> Draft.append (.ret v)

/-- The instruction that an action asks for, by the number of the next temp. -/
def instr? (r : Nat) : Action → Option Instr
  | define c => some (c.instr r)
  | store v p => some (.store v p)
  | ret v => some (.ret v)
  | _ => none

end Action

/-- What an action gives, and the draft after it. -/
def step (d : Draft) (a : Action) : Except Error Answer × Draft :=
  match a.perform d with
  | .ok r d => (.ok r, d)
  | .error e d => (.error e, d)

/-- The draft after a run of actions, whether they succeed or not. -/
def after (d : Draft) (run : List Action) : Draft := run.foldl (fun d a => (d.step a).2) d

/-- The instruction that an action puts at the cursor: what it asks for, unless it fails. -/
def wrote (d : Draft) (a : Action) : List Instr :=
  match (d.step a).1 with
  | .ok _ => (a.instr? d.temps.next).toList
  | .error _ => []

/-- Whether an action moves the cursor to a block. -/
def moves (d : Draft) (a : Action) : Bool :=
  match a, (d.step a).1 with
  | .position _ _, .ok _ => true
  | _, _ => false

/-- Whether no action of a run moves the cursor to a block. -/
def still (d : Draft) : List Action → Bool
  | [] => true
  | a :: run => !d.moves a && (d.step a).2.still run

/-- What an action can do. -/
inductive Does (d : Draft) : Action → Except Error Answer → Draft → Prop
  /-- It fails, and at most numbers are taken. -/
  | refused (a : Action) (e : Error) (temps labels : Counter) (htemps : d.temps.next ≤ temps.next)
    (hclosed : ∀ r i, a.instr? r = some i → ¬d.IsOpen) :
    Does d a (.error e) { d with temps := temps, labels := labels }
  /-- Only numbers are taken. -/
  | counted (a : Action) (r : Answer) (temps labels : Counter)
    (htemps : d.temps.next ≤ temps.next) (ha : a = .newTemp ∨ a = .newLabel) :
    Does d a (.ok r) { d with temps := temps, labels := labels }
  /-- A function gets an empty block. -/
  | extended (f : Nat) (name : String) (labels : Counter) :
    Does d (.appendBlock f name) (.ok (.label d.labels.next))
      { d with
        labels := labels
        module := d.module.modify f (·.addBlock { id := d.labels.next, name := name }) }
  /-- The cursor comes to a block, and temps are numbered from the arity of its function on. -/
  | moved (f label k : Nat) (g : Function) (hg : d.module.functions[f]? = some g)
    (hk : (g.blocks.findIdx? fun b => b.id = label) = some k) :
    Does d (.position f label) (.ok .done)
      { d with cursor := some ⟨f, label⟩, temps := ⟨g.arity⟩ }
  /-- There is no cursor any more. -/
  | cleared : Does d .clearCursor (.ok .done) { d with cursor := none }
  /-- The block under the cursor gets an instruction, and a temp that it defines is the next one. -/
  | built (a : Action) (r : Answer) (i : Instr) (c : Cursor) (temps : Counter)
    (hi : a.instr? d.temps.next = some i) (hc : d.cursor = some c) (hopen : d.IsOpen)
    (htemps : d.temps.next ≤ temps.next)
    (hresult : ∀ n, i.result? = some n → n = d.temps.next ∧ n < temps.next) :
    Does d a (.ok r)
      { d with
        temps := temps
        module := d.module.modify c.function (·.appendTo c.block i) }

/-! ### What an action does -/

variable {d : Draft}

/-- A function looks a block up by its place. -/
theorem block?_eq_some_iff {f : Function} {label : Nat} {b : Block} :
    f.block? label = some b ↔
      ∃ k, (f.blocks.findIdx? fun b => b.id = label) = some k ∧ f.blocks[k]? = some b := by
  unfold Function.block?
  induction f.blocks with
  | nil => simp
  | cons b' bs ih =>
    by_cases hid : b'.id = label
    · simp [List.findIdx?_cons, hid]
    · simp [List.findIdx?_cons, hid, ih]

theorem target?_eq_some_iff {f k : Nat} :
    d.target? = some (f, k) ↔ ∃ c g, d.cursor = some c ∧ c.function = f ∧
      d.module.functions[f]? = some g ∧
      (g.blocks.findIdx? fun b => b.id = c.block) = some k := by
  simp only [target?, Option.bind_eq_some_iff, Option.map_eq_some_iff, Prod.mk.injEq]
  constructor
  · rintro ⟨c, hc, g, hg, k, hk, rfl, rfl⟩
    exact ⟨c, g, hc, rfl, hg, hk⟩
  · rintro ⟨c, g, hc, rfl, hg, hk⟩
    exact ⟨c, hc, g, hg, k, hk, rfl, rfl⟩

theorem isOpen_iff : d.IsOpen ↔ ∃ c f b, d.cursor = some c ∧
    d.module.functions[c.function]? = some f ∧ f.block? c.block = some b ∧
    b.isTerminated = false := by
  constructor
  · rintro ⟨f, k, b, htarget, hb, hopen⟩
    obtain ⟨c, g, hc, rfl, hg, hk⟩ := target?_eq_some_iff.1 htarget
    rw [Module.blockAt?, hg, Option.bind_some] at hb
    exact ⟨c, g, b, hc, hg, block?_eq_some_iff.2 ⟨k, hk, hb⟩, hopen⟩
  · rintro ⟨c, g, b, hc, hg, hb, hopen⟩
    obtain ⟨k, hk, hb⟩ := block?_eq_some_iff.1 hb
    exact ⟨c.function, k, b, target?_eq_some_iff.2 ⟨c, g, hc, rfl, hg, hk⟩,
      by rw [Module.blockAt?, hg, Option.bind_some, hb], hopen⟩

/-- An instruction is put at the cursor if the block there is open, and else nothing happens. -/
theorem append_cases (d : Draft) (i : Instr) :
    (∃ e, ¬d.IsOpen ∧ append i d = .error e d) ∨
      ∃ c, d.cursor = some c ∧ d.IsOpen ∧
        append i d =
          .ok () { d with module := d.module.modify c.function (·.appendTo c.block i) } := by
  obtain hc | ⟨c, hc⟩ := Option.eq_none_or_eq_some d.cursor
  · refine .inl ⟨Fault.noCursor.error, by simp [isOpen_iff, hc], ?_⟩
    simp only [append, bind, EStateM.bind, get, getThe, MonadStateOf.get, EStateM.get, hc]
    rfl
  · obtain hf | ⟨f, hf⟩ := Option.eq_none_or_eq_some d.module.functions[c.function]?
    · refine .inl ⟨Fault.lostFunction.error, by simp [isOpen_iff, hc, hf], ?_⟩
      simp only [append, bind, EStateM.bind, get, getThe, MonadStateOf.get, EStateM.get, hc, hf]
      rfl
    · by_cases hopen : d.IsOpen
      · obtain ⟨c', f', b, hc', hf', hb, ht⟩ := isOpen_iff.1 hopen
        obtain rfl : c = c' := Option.some.inj (hc.symm.trans hc')
        exact .inr ⟨c, hc, hopen, Session.draft_append_of_open i hc hf' hb ht⟩
      · rcases Session.draft_append_cases i hc hf with ⟨e, h⟩ | ⟨b, hb, ht, -⟩
        · exact .inl ⟨e, hopen, h⟩
        · exact absurd (isOpen_iff.2 ⟨c, f, b, hc, hf, hb, ht⟩) hopen

theorem result?_instr (c : Computation) (r : Nat) : (c.instr r).result? = some r := by
  cases c <;> rfl

theorem step_of_ok {α : Type} {a : Action} {g : α → Answer} {b : Building α} {x : α} {t : Draft}
    (ha : a.perform = g <$> b) (h : b d = .ok x t) : d.step a = (.ok (g x), t) := by
  have hmap : (g <$> b) d = .ok (g x) t := by
    change EStateM.map g b d = _
    rw [EStateM.map, h]
  rw [step, ha, hmap]

theorem step_of_error {α : Type} {a : Action} {g : α → Answer} {b : Building α} {e : Error}
    {t : Draft} (ha : a.perform = g <$> b) (h : b d = .error e t) : d.step a = (.error e, t) := by
  have hmap : (g <$> b) d = .error e t := by
    change EStateM.map g b d = _
    rw [EStateM.map, h]
  rw [step, ha, hmap]

/-- A store or a return is put at the cursor, or nothing happens. -/
theorem does_append {a : Action} {i : Instr}
    (ha : a.perform = (fun _ => .done) <$> append i) (hi : ∀ r, a.instr? r = some i)
    (hresult : i.result? = none) : d.Does a (d.step a).1 (d.step a).2 := by
  rcases append_cases d i with ⟨e, hclosed, h⟩ | ⟨c, hc, hopen, h⟩
  · rw [step_of_error ha h]
    exact .refused a e d.temps d.labels le_rfl fun _ _ _ => hclosed
  · rw [step_of_ok ha h]
    exact .built a .done i c d.temps (hi _) hc hopen le_rfl (by simp [hresult])

/-- The next temp is taken, and an instruction that defines it is put at the cursor if it can be. -/
theorem does_define (c : Computation) :
    d.Does (.define c) (d.step (.define c)).1 (d.step (.define c)).2 := by
  have hdefine : define c.instr d =
      (append (c.instr d.temps.next) >>= fun _ => pure (.temp d.temps.next) : Building Operand)
        { d with temps := d.temps.take.2 } := rfl
  have htemps : d.temps.next < d.temps.take.2.next := Nat.lt_succ_self _
  rcases append_cases { d with temps := d.temps.take.2 } (c.instr d.temps.next) with
    ⟨e, hclosed, h⟩ | ⟨at', hc, hopen, h⟩
  · have hfail : define c.instr d = .error e { d with temps := d.temps.take.2 } := by
      rw [hdefine]
      change EStateM.bind _ _ _ = _
      rw [EStateM.bind, h]
    rw [step_of_error (a := .define c) rfl hfail]
    exact .refused _ e _ d.labels htemps.le fun _ _ _ => hclosed
  · have hdone : define c.instr d = .ok (.temp d.temps.next)
        { d with
          temps := d.temps.take.2
          module := d.module.modify at'.function
            (·.appendTo at'.block (c.instr d.temps.next)) } := by
      rw [hdefine]
      change EStateM.bind _ _ _ = _
      rw [EStateM.bind, h]
      rfl
    rw [step_of_ok (a := .define c) rfl hdone]
    refine .built _ _ _ at' _ rfl hc hopen htemps.le fun n hn => ?_
    rw [result?_instr, Option.some.injEq] at hn
    exact ⟨hn.symm, hn ▸ htemps⟩

theorem does_appendBlock (f : Nat) (name : String) :
    d.Does (.appendBlock f name) (d.step (.appendBlock f name)).1
      (d.step (.appendBlock f name)).2 := by
  by_cases hf : f < d.module.functions.length
  · rw [step_of_ok (a := .appendBlock f name) rfl (Session.draft_appendBlock hf name)]
    exact .extended f name _
  · have hfail : appendBlock f name d =
        .error (Fault.noFunction f).error { d with labels := d.labels.take.2 } := by
      have happend : appendBlock f name d =
          (if f < d.module.functions.length then do
            set { d with
              labels := d.labels.take.2
              module := d.module.modify f (·.addBlock { id := d.labels.next, name := name }) }
            pure d.labels.next
          else throw (Fault.noFunction f).error : Building Nat)
            { d with labels := d.labels.take.2 } := rfl
      rw [happend, if_neg hf]
      rfl
    rw [step_of_error (a := .appendBlock f name) rfl hfail]
    exact .refused _ _ d.temps _ le_rfl (by simp [Action.instr?])

theorem does_position (f label : Nat) :
    d.Does (.position f label) (d.step (.position f label)).1 (d.step (.position f label)).2 := by
  have hrefused {e : Error} (h : position f label d = .error e d) :
      d.Does (.position f label) (d.step (.position f label)).1 (d.step (.position f label)).2 := by
    rw [step_of_error (a := .position f label) rfl h]
    exact .refused _ e d.temps d.labels le_rfl (by simp [Action.instr?])
  obtain hg | ⟨g, hg⟩ := Option.eq_none_or_eq_some d.module.functions[f]?
  · refine hrefused (e := (Fault.noFunction f).error) ?_
    simp only [position, bind, EStateM.bind, get, getThe, MonadStateOf.get, EStateM.get, hg]
    rfl
  · obtain hb | ⟨b, hb⟩ := Option.eq_none_or_eq_some (g.block? label)
    · refine hrefused (e := (Fault.noBlock g.name label).error) ?_
      simp only [position, bind, EStateM.bind, get, getThe, MonadStateOf.get, EStateM.get, hg, hb]
      rfl
    · rw [step_of_ok (a := .position f label) rfl (Session.draft_position hg (by simp [hb]))]
      obtain ⟨k, hk, -⟩ := block?_eq_some_iff.1 hb
      exact .moved f label k g hg hk

/-- **Every action does one of the things that an action can do.** -/
theorem does_step (d : Draft) (a : Action) : d.Does a (d.step a).1 (d.step a).2 := by
  cases a with
  | newTemp => exact .counted _ _ d.temps.take.2 d.labels (Nat.le_succ _) (.inl rfl)
  | newLabel => exact .counted _ _ d.temps d.labels.take.2 le_rfl (.inr rfl)
  | appendBlock f name => exact does_appendBlock f name
  | position f label => exact does_position f label
  | clearCursor => exact .cleared
  | define c => exact does_define c
  | store v p => exact does_append rfl (fun _ => rfl) rfl
  | ret v => exact does_append rfl (fun _ => rfl) rfl

/-! ### Blocks -/

theorem getElem?_appendToBlocks (label : Nat) (i : Instr) (bs : List Block) (k : Nat) :
    (Function.appendToBlocks label i bs)[k]? =
      if (bs.findIdx? fun b => b.id = label) = some k then bs[k]?.map (·.write [i])
      else bs[k]? := by
  induction bs generalizing k with
  | nil => simp [Function.appendToBlocks]
  | cons b bs ih =>
    by_cases hid : b.id = label
    · cases k <;> simp [Function.appendToBlocks, List.findIdx?_cons, hid, Block.write]
    · cases k with
      | zero => simp [Function.appendToBlocks, List.findIdx?_cons, hid]
      | succ k => simp [Function.appendToBlocks, List.findIdx?_cons, hid, ih]

theorem findIdx?_appendToBlocks (label : Nat) (i : Instr) (bs : List Block) (l : Nat) :
    ((Function.appendToBlocks label i bs).findIdx? fun b => b.id = l) =
      bs.findIdx? fun b => b.id = l := by
  induction bs with
  | nil => rfl
  | cons b bs ih =>
    by_cases hid : b.id = label
    · simp [Function.appendToBlocks, List.findIdx?_cons, hid]
    · simp [Function.appendToBlocks, List.findIdx?_cons, hid, ih]

/-- An instruction comes to the block under the cursor, and the others stay. -/
theorem blockAt?_appendTo {c : Cursor} (hc : d.cursor = some c) (i : Instr) (f k : Nat) :
    (d.module.modify c.function (·.appendTo c.block i)).blockAt? f k =
      if d.target? = some (f, k) then (d.module.blockAt? f k).map (·.write [i])
      else d.module.blockAt? f k := by
  by_cases hf : c.function = f
  · subst hf
    cases hg : d.module.functions[c.function]? with
    | none => simp [Module.blockAt?, Module.modify, hg]
    | some g =>
      simp [Module.blockAt?, Module.modify, target?, hc, hg, Function.appendTo,
        getElem?_appendToBlocks]
  · have htarget : d.target? ≠ some (f, k) := by
      intro h
      obtain ⟨c', g, hc', hf', -⟩ := target?_eq_some_iff.1 h
      obtain rfl : c = c' := Option.some.inj (hc.symm.trans hc')
      exact hf hf'
    rw [if_neg htarget]
    simp [Module.blockAt?, Module.modify, hf]

/-- A block that is added comes behind the others. -/
theorem blockAt?_addBlock (m : Module) (f : Nat) (b : Block) (j k : Nat) :
    (m.modify f (·.addBlock b)).blockAt? j k =
      if f = j ∧ m.functions[f]?.map (·.blocks.length) = some k then some b
      else m.blockAt? j k := by
  by_cases hf : f = j
  · subst hf
    cases hg : m.functions[f]? with
    | none => simp [Module.blockAt?, Module.modify, hg]
    | some g =>
      have hblocks : (g.blocks ++ [b])[k]? =
          if g.blocks.length = k then some b else g.blocks[k]? := by
        grind
      simpa [Module.blockAt?, Module.modify, hg, Function.addBlock] using hblocks
  · simp [Module.blockAt?, Module.modify, hf]

/-- Every block of `s` is in `t` where it was, with all its instructions. Those in `new` stand
behind them in the block that is under the cursor of `s`, which was open, and in no other. -/
structure Grows (s t : Draft) (new : List Instr) : Prop where
  blocks : ∀ f k b, s.module.blockAt? f k = some b →
    t.module.blockAt? f k = some (if s.target? = some (f, k) then b.write new else b)
  isOpen : new ≠ [] → s.IsOpen

variable {s t u : Draft} {a : Action} {i : Instr} {new more : List Instr}

@[simp] theorem write_nil (b : Block) : b.write [] = b := by simp [Block.write]

@[simp] theorem write_write (b : Block) : (b.write new).write more = b.write (new ++ more) := by
  simp [Block.write]

theorem Grows.of_module (h : t.module = s.module) : s.Grows t [] where
  blocks f k b hb := by simp [h, hb]
  isOpen h := absurd rfl h

/-- **An action puts what it asks for behind the block under the cursor, or nothing.** -/
theorem Grows.step (s : Draft) (a : Action) : s.Grows (s.step a).2 (s.wrote a) := by
  have hdoes := does_step s a
  unfold wrote
  generalize (s.step a).1 = r at hdoes
  generalize (s.step a).2 = t at hdoes
  cases hdoes with
  | refused _ e temps labels _ _ => exact .of_module rfl
  | counted _ r temps labels _ ha => rcases ha with rfl | rfl <;> exact .of_module rfl
  | moved f label k g _ _ => exact .of_module rfl
  | cleared => exact .of_module rfl
  | extended f name labels =>
    refine ⟨fun j k b hb => ?_, fun h => absurd rfl h⟩
    -- The place of a block that is there is before the one of the new block.
    have hplace : ¬(f = j ∧ s.module.functions[f]?.map (·.blocks.length) = some k) := by
      rintro ⟨rfl, hlength⟩
      obtain ⟨g, hg, rfl⟩ := Option.map_eq_some_iff.1 hlength
      simp [Module.blockAt?, hg] at hb
    rw [blockAt?_addBlock, if_neg hplace, hb]
    simp [Action.instr?]
  | built _ r i c temps hi hc hopen _ _ =>
    simp only [hi, Option.toList_some]
    refine ⟨fun f k b hb => ?_, fun _ => hopen⟩
    rw [blockAt?_appendTo hc, hb]
    split_ifs <;> rfl

/-- **What fails changes nothing but numbers.** -/
theorem step_error {e : Error} (h : (s.step a).1 = .error e) :
    (s.step a).2.module = s.module ∧ (s.step a).2.cursor = s.cursor := by
  have hdoes := does_step s a
  rw [h] at hdoes
  generalize (s.step a).2 = t at hdoes
  cases hdoes with
  | refused _ e temps labels _ _ => exact ⟨rfl, rfl⟩

/-- An instruction is written exactly if the block under the cursor is open. -/
theorem wrote_eq_iff (hi : a.instr? s.temps.next = some i) : s.wrote a = [i] ↔ s.IsOpen := by
  have hdoes := does_step s a
  unfold wrote
  generalize (s.step a).1 = r at hdoes
  generalize (s.step a).2 = t at hdoes
  cases hdoes with
  | refused _ e temps labels _ hclosed => simp [hclosed _ _ hi]
  | built _ r j c temps _ _ hopen _ _ => simp [hi, hopen]
  | counted _ r temps labels _ ha => rcases ha with rfl | rfl <;> simp [Action.instr?] at hi
  | moved f label k g _ _ => simp [Action.instr?] at hi
  | cleared => simp [Action.instr?] at hi
  | extended f name labels => simp [Action.instr?] at hi

/-! ### Returns -/

theorem endsAtReturn_write {b : Block} (h : b.EndsAtReturn) (hopen : b.isTerminated = false) :
    (b.write [i]).EndsAtReturn := by
  intro code v rest heq
  rcases List.eq_nil_or_concat rest with rfl | ⟨rest, j, rfl⟩
  · rfl
  · -- The return would stand at the end of a block that has not ended.
    have hinstrs : b.instrs = code ++ .ret v :: rest := by
      have happend : b.instrs ++ [i] = (code ++ .ret v :: rest) ++ [j] := by
        simpa [Block.write] using heq
      exact (List.append_inj' happend rfl).1
    obtain rfl := h code v rest hinstrs
    simp [Block.isTerminated, hinstrs, Instr.isTerminator] at hopen

/-- **No action puts anything behind a return.** -/
theorem Does.endsAtReturns {r : Except Error Answer} (hdoes : s.Does a r t)
    (h : s.module.EndsAtReturns) : t.module.EndsAtReturns := by
  cases hdoes with
  | refused _ e temps labels _ _ => exact h
  | counted _ r temps labels _ _ => exact h
  | moved f label k g _ _ => exact h
  | cleared => exact h
  | extended f name labels =>
    intro j k b hb
    simp only [blockAt?_addBlock] at hb
    split_ifs at hb with hplace
    · obtain rfl := Option.some.inj hb
      rintro code v rest heq
      simp at heq
    · exact h j k b hb
  | built _ r i c temps _ hc hopen _ _ =>
    intro f k b hb
    simp only [blockAt?_appendTo hc] at hb
    split_ifs at hb with htarget
    · obtain ⟨f', k', b', htarget', hb', hnotEnded⟩ := hopen
      obtain ⟨rfl, rfl⟩ := Prod.mk.inj (Option.some.inj (htarget'.symm.trans htarget))
      rw [hb', Option.map_some, Option.some.injEq] at hb
      subst hb
      exact endsAtReturn_write (h f' k' b' hb') hnotEnded
    · exact h f k b hb

/-! ### Runs -/

theorem endsAtReturns_after (h : s.module.EndsAtReturns) (run : List Action) :
    (s.after run).module.EndsAtReturns := by
  induction run generalizing s with
  | nil => exact h
  | cons a run ih => exact ih ((does_step s a).endsAtReturns h)

/-- There is no cursor, or it is at the end of the block at a place. -/
def AtEnd (d : Draft) (place : Nat × Nat) : Prop := d.cursor = none ∨ d.target? = some place

theorem AtEnd.modify {place : Nat × Nat} {f : Nat} {g : Function → Function} (h : s.AtEnd place)
    (hg : ∀ h label k, (h.blocks.findIdx? fun b => b.id = label) = some k →
      ((g h).blocks.findIdx? fun b => b.id = label) = some k)
    (hcursor : t.cursor = s.cursor) (hmodule : t.module = s.module.modify f g) :
    t.AtEnd place := by
  rcases h with h | h
  · exact .inl (hcursor.trans h)
  · obtain ⟨c, h, hc, hplace, hh, hk⟩ := target?_eq_some_iff.1 h
    have hget : t.module.functions[place.1]? = some (if f = place.1 then g h else h) := by
      rw [hmodule, Module.modify, List.getElem?_modify, hh]
      split_ifs <;> rfl
    refine .inr (target?_eq_some_iff.2 ⟨c, _, hcursor.trans hc, hplace, hget, ?_⟩)
    split_ifs
    · exact hg h _ _ hk
    · exact hk

/-- An action that does not move the cursor leaves it where it is or takes it away. -/
theorem AtEnd.step {place : Nat × Nat} (h : s.AtEnd place) (hstill : s.moves a = false) :
    (s.step a).2.AtEnd place := by
  have hdoes := does_step s a
  unfold moves at hstill
  generalize (s.step a).1 = r at hdoes hstill
  generalize (s.step a).2 = t at hdoes
  cases hdoes with
  | refused _ e temps labels _ _ => exact h
  | counted _ r temps labels _ _ => exact h
  | moved f label k g _ _ => cases hstill
  | cleared => exact .inl rfl
  | extended f name labels =>
    refine h.modify (fun g label k hk => ?_) rfl rfl
    rw [Function.addBlock, List.findIdx?_append, hk]
    rfl
  | built _ r i c temps _ _ _ _ _ =>
    refine h.modify (fun g label k hk => ?_) rfl rfl
    rw [Function.appendTo, findIdx?_appendToBlocks, hk]

theorem target?_of_cursor (h : s.cursor = none) : s.target? = none := by simp [target?, h]

theorem exists_blockAt? {f k : Nat} (h : s.target? = some (f, k)) :
    ∃ b, s.module.blockAt? f k = some b := by
  obtain ⟨c, g, -, -, hg, hk⟩ := target?_eq_some_iff.1 h
  obtain ⟨hlt, -⟩ := List.findIdx?_eq_some_iff_getElem.1 hk
  exact ⟨g.blocks[k], by simp [Module.blockAt?, hg, hlt]⟩

theorem Grows.trans {place : Nat × Nat} (hs : s.target? = some place) (ht : t.AtEnd place)
    (h₁ : s.Grows t new) (h₂ : t.Grows u more) : s.Grows u (new ++ more) := by
  rcases ht with hcursor | ht
  · -- Without a cursor nothing more is written.
    have htarget := target?_of_cursor hcursor
    have hmore : more = [] := by
      by_contra hne
      obtain ⟨f, k, b, hf, -⟩ := h₂.isOpen hne
      simp [htarget] at hf
    subst hmore
    rw [List.append_nil]
    refine ⟨fun f k b hb => ?_, h₁.isOpen⟩
    have h := h₂.blocks f k _ (h₁.blocks f k b hb)
    rwa [write_nil, ite_self] at h
  · refine ⟨fun f k b hb => ?_, fun hne => ?_⟩
    · have h := h₂.blocks f k _ (h₁.blocks f k b hb)
      rw [ht] at h
      rw [h, hs]
      split_ifs <;> simp
    · by_cases hnew : new = []
      · -- The block was open before nothing was written to it.
        obtain ⟨f, k, b, hplace, hb, hopen⟩ := h₂.isOpen (by simpa [hnew] using hne)
        obtain rfl : place = (f, k) := Option.some.inj (ht.symm.trans hplace)
        obtain ⟨b', hb'⟩ := exists_blockAt? hs
        have hsame := h₁.blocks f k b' hb'
        rw [hnew, write_nil, ite_self, hb, Option.some.injEq] at hsame
        exact ⟨f, k, b', hs, hb', hsame ▸ hopen⟩
      · exact h₁.isOpen hnew

/-- The temps that instructions define increase, from a number on and below another. -/
structure Rises (low high : Nat) (code : List Instr) : Prop where
  le : low ≤ high
  sorted : (code.filterMap Instr.result?).Pairwise (· < ·)
  bounds : ∀ r ∈ code.filterMap Instr.result?, low ≤ r ∧ r < high

theorem Rises.append {low middle high : Nat} (h₁ : Rises low middle new)
    (h₂ : Rises middle high more) : Rises low high (new ++ more) where
  le := h₁.le.trans h₂.le
  sorted := by
    rw [List.filterMap_append, List.pairwise_append]
    refine ⟨h₁.sorted, h₂.sorted, fun q hq r hr => ?_⟩
    exact (h₁.bounds q hq).2.trans_le (h₂.bounds r hr).1
  bounds r hr := by
    rw [List.filterMap_append, List.mem_append] at hr
    rcases hr with hr | hr
    · exact ⟨(h₁.bounds r hr).1, (h₁.bounds r hr).2.trans_le h₂.le⟩
    · exact ⟨h₁.le.trans (h₂.bounds r hr).1, (h₂.bounds r hr).2⟩

theorem Rises.nil {low high : Nat} (h : low ≤ high) : Rises low high [] :=
  ⟨h, .nil, by simp⟩

/-- What an action writes defines the next temp, if any. -/
theorem Rises.step (hstill : s.moves a = false) :
    Rises s.temps.next (s.step a).2.temps.next (s.wrote a) := by
  have hdoes := does_step s a
  unfold wrote
  unfold moves at hstill
  generalize (s.step a).1 = r at hdoes hstill
  generalize (s.step a).2 = t at hdoes
  cases hdoes with
  | refused _ e temps labels htemps _ => exact .nil htemps
  | counted _ r temps labels htemps ha => rcases ha with rfl | rfl <;> exact .nil htemps
  | moved f label k g _ _ => cases hstill
  | cleared => exact .nil le_rfl
  | extended f name labels => exact .nil le_rfl
  | built _ r i c temps hi _ _ htemps hresult =>
    simp only [hi, Option.toList_some]
    cases hr : i.result? with
    | none => exact ⟨htemps, by simp [hr], by simp [hr]⟩
    | some n =>
      obtain ⟨rfl, hlt⟩ := hresult n hr
      exact ⟨htemps, by simp [hr], by simp [hr, hlt]⟩

/-- **While the cursor is not moved, code grows behind the block where it was at first, and each
temp that is defined is above those before.** -/
theorem grows_after {place : Nat × Nat} (hs : s.target? = some place) (ht : t.AtEnd place)
    (hgrows : s.Grows t new) (hrises : Rises s.temps.next t.temps.next new) {run : List Action}
    (hstill : t.still run = true) :
    ∃ new, s.Grows (t.after run) new ∧ Rises s.temps.next (t.after run).temps.next new := by
  induction run generalizing t new with
  | nil => exact ⟨new, hgrows, hrises⟩
  | cons a run ih =>
    rw [still, Bool.and_eq_true, Bool.not_eq_true'] at hstill
    obtain ⟨hmove, hstill⟩ := hstill
    exact ih (ht.step hmove) (hgrows.trans hs ht (.step t a)) (hrises.append (.step hmove)) hstill

theorem position_ok {f label : Nat} {r : Answer} (h : (s.step (.position f label)).1 = .ok r) :
    ∃ g k, s.module.functions[f]? = some g ∧
      (s.step (.position f label)).2.target? = some (f, k) ∧
      (s.step (.position f label)).2.temps.next = g.arity := by
  have hdoes := does_step s (.position f label)
  rw [h] at hdoes
  generalize (s.step (.position f label)).2 = t at hdoes
  cases hdoes with
  | counted _ _ temps labels _ ha => simp at ha
  | moved _ _ k g hg hk => exact ⟨g, k, hg, target?_eq_some_iff.2 ⟨_, g, rfl, rfl, hg, hk⟩, rfl⟩
  | built _ _ i c temps hi _ _ _ _ => cases hi

/-- **Construction only appends, and never behind a return.** After every run of actions on any
draft, an action leaves every block with all its instructions, and puts at most the instruction that
it asks for behind those of the first block with the label of the cursor in the function of the
cursor, exactly if that block is there and has not ended. An action that fails changes no block and
does not move the cursor. If nothing stood behind a return at first, nothing ever does. And from
where the cursor is moved to a block until it is moved again, the temps that are defined increase,
beginning at the arity of the function. -/
theorem builds_by_appending (d : Draft) (history : List Action) :
    let s := d.after history
    (∀ a, s.Grows (s.step a).2 (s.wrote a) ∧
      (∀ i, a.instr? s.temps.next = some i → (s.wrote a = [i] ↔ s.IsOpen)) ∧
      ∀ e, (s.step a).1 = .error e →
        (s.step a).2.module = s.module ∧ (s.step a).2.cursor = s.cursor) ∧
    (d.module.EndsAtReturns → s.module.EndsAtReturns) ∧
    ∀ f label r, (s.step (.position f label)).1 = .ok r →
      let t := (s.step (.position f label)).2
      ∀ run, t.still run = true →
        ∃ g new, s.module.functions[f]? = some g ∧ t.Grows (t.after run) new ∧
          (new.filterMap Instr.result?).Pairwise (· < ·) ∧
          ∀ q ∈ new.filterMap Instr.result?, g.arity ≤ q := by
  intro s
  refine ⟨fun a => ⟨.step s a, fun i hi => wrote_eq_iff hi, fun e he => step_error he⟩,
    fun h => endsAtReturns_after h history, ?_⟩
  intro f label r hr t run hstill
  obtain ⟨g, k, hg, htarget, htemps⟩ := position_ok hr
  obtain ⟨new, hgrows, hrises⟩ :=
    grows_after htarget (.inr htarget) (.of_module rfl) (.nil le_rfl) hstill
  refine ⟨g, new, hg, hgrows, hrises.sorted, fun q hq => ?_⟩
  rw [← htemps]
  exact (hrises.bounds q hq).1

/-- Two blocks of a function with the same label, and a block of another that has ended. -/
def twins : Draft where
  module :=
    { name := "twins"
      functions :=
        [{ name := "f", params := [(0, "x")], blocks := [⟨4, "a", []⟩, ⟨4, "b", []⟩] },
          { name := "g", blocks := [⟨4, "c", [.ret (.float 1.0)]⟩] }] }

/-- Actions that fail take numbers, and the instructions between them come to the first of the two
blocks. -/
theorem builds_by_appending_twins :
    let double : Action := .define (.arith .add (.temp 0) (.temp 0))
    let history : List Action := [.position 1 4, double]
    let run : List Action :=
      [.position 1 5, double, .newTemp, .appendBlock 0 "d", double, .ret (.temp 3), double]
    let s := twins.after history
    let t := (s.step (.position 0 4)).2
    let code : List Instr :=
      [.arith 1 .add (.temp 0) (.temp 0), .arith 3 .add (.temp 0) (.temp 0), .ret (.temp 3)]
    twins.module.EndsAtReturns ∧ s.module.EndsAtReturns ∧
      (s.step (.position 0 4)).1 = .ok .done ∧ t.still run = true ∧
      (t.after run).module.blockAt? 0 0 = some ⟨4, "a", code⟩ ∧
      (t.after run).module.blockAt? 0 1 = some ⟨4, "b", []⟩ ∧
      ∃ new, t.Grows (t.after run) new ∧ (new.filterMap Instr.result?).Pairwise (· < ·) ∧
        ∀ q ∈ new.filterMap Instr.result?, 1 ≤ q := by
  intro double history run s t code
  have hstart : twins.module.EndsAtReturns := by
    intro f k b hb code v rest heq
    obtain ⟨g, hg, hb⟩ := Option.bind_eq_some_iff.1 hb
    have hshort : ∀ g ∈ twins.module.functions, ∀ b ∈ g.blocks, b.instrs.length ≤ 1 := by decide
    have hlength := hshort g (List.mem_of_getElem? hg) b (List.mem_of_getElem? hb)
    rw [heq, List.length_append, List.length_cons] at hlength
    exact List.eq_nil_of_length_eq_zero (by omega)
  have hok : (s.step (.position 0 4)).1 = .ok .done := by decide +kernel
  have hstill : t.still run = true := by decide +kernel
  obtain ⟨-, hends, hruns⟩ := builds_by_appending twins history
  obtain ⟨g, new, hg, hgrows, hsorted, hbound⟩ := hruns 0 4 .done hok run hstill
  have harity : g.arity = 1 := by
    have h : s.module.functions[0]?.map Function.arity = some 1 := by decide +kernel
    rwa [hg, Option.map_some, Option.some.injEq] at h
  refine ⟨hstart, hends hstart, hok, hstill, by decide +kernel, by decide +kernel, new, hgrows,
    hsorted, fun q hq => harity ▸ hbound q hq⟩

end Draft

end StraightLine
