import StraightLine.Eval
import StraightLine.Proofs.WellFormed

/-!
# Stores

A frame keeps its slots in a list and lets temps hold places in it, so the place of a slot depends
on how many were made before. A pass that removes a slot moves all the others. Here a running
function is described without places: a *store* says of every temp what it holds, and a slot is
held, with its contents, by the temp of its address.

`Store.run` executes instructions on a store. It has no answer where the function itself is at fault
(a temp without a value, an empty slot, something undefined), and else the answer of the evaluation,
be it a number or the failure of a function that is called. Every frame has a store (`Frame.store`),
and the two executions agree as long as no temp is set twice (`body_of_run`, `body_of_run_none`).
-/

namespace StraightLine

/-- What a temp holds. -/
inductive Held where
  | float (x : Float)
  | bool (b : Bool)
  /-- A slot, with its contents. -/
  | slot (contents : Option Float)

/-- What the temps hold. -/
abbrev Store := Nat → Option Held

/-- What the evaluation of a function ends with. -/
abbrev Answer := EStateM.Result Eval.Failure String Float

/-- What runs the functions that are called. -/
abbrev Callee := String → List Float → Eval.Run Float

/-- Whether an instruction neither calls nor returns. -/
def Instr.isPlain : Instr → Bool
  | call _ _ _ | ret _ => false
  | _ => true

theorem Instr.isTerminator_of_isPlain {i : Instr} (h : i.isPlain) : i.isTerminator = false := by
  cases i <;> simp_all [isPlain, isTerminator]

namespace Store

/-! ### Operands -/

/-- What an operand stands for. -/
def held (st : Store) : Operand → Option Held
  | .temp id => st id
  | .float c => some (.float c.value)
  | .bool b => some (.bool b)
  | .string _ | .function _ | .undef => none

/-- The number that an operand stands for. -/
def float (st : Store) (v : Operand) : Option Float :=
  match st.held v with
  | some (.float x) => some x
  | _ => none

/-- The comparison result that an operand stands for. -/
def flag (st : Store) (v : Operand) : Option Bool :=
  match st.held v with
  | some (.bool b) => some b
  | _ => none

/-- The temp and the contents of the slot that an operand is the address of. -/
def slot (st : Store) : Operand → Option (Nat × Option Float)
  | .temp id =>
    match st id with
    | some (.slot c) => some (id, c)
    | _ => none
  | _ => none

theorem float_eq_some {st : Store} {v : Operand} {x : Float} :
    st.float v = some x ↔ st.held v = some (.float x) := by
  unfold float
  split <;> simp_all

theorem flag_eq_some {st : Store} {v : Operand} {b : Bool} :
    st.flag v = some b ↔ st.held v = some (.bool b) := by
  unfold flag
  split <;> simp_all [-Bool.exists_bool, -Bool.forall_bool]

/-- Only the temp of its address holds a slot. -/
theorem slot_eq_some {st : Store} {v : Operand} {p : Nat} {c : Option Float} :
    st.slot v = some (p, c) ↔ v = .temp p ∧ st p = some (.slot c) := by
  unfold slot
  split
  · rename_i id
    constructor
    · intro h
      split at h
      · cases h
        exact ⟨rfl, ‹_›⟩
      · cases h
    · rintro ⟨hv, hp⟩
      cases hv
      rw [hp]
  · simp_all

/-! ### Execution -/

/-- The temp that an instruction sets and what it then holds. -/
def effect (st : Store) : Instr → Option (Nat × Held)
  | .alloca r _ _ => some (r, .slot none)
  | .load r p _ => (st.slot p).bind fun s => s.2.map fun x => (r, .float x)
  | .store v p => (st.slot p).bind fun s => (st.float v).map fun x => (s.1, .slot (some x))
  | .arith r op a b =>
    (st.float a).bind fun x => (st.float b).map fun y => (r, .float (op.eval x y))
  | .compare r p a b =>
    (st.float a).bind fun x => (st.float b).map fun y => (r, .bool (p.eval x y))
  | .widen r v => (st.flag v).map fun b => (r, .float (StraightLine.widen b))
  | .call _ _ _ | .ret _ => none

/-- The store after a temp is set. -/
def put (st : Store) (w : Nat × Held) : Store :=
  fun id => if id = w.1 then some w.2 else st id

@[simp] theorem put_self (st : Store) (w : Nat × Held) : st.put w w.1 = some w.2 :=
  if_pos rfl

theorem put_of_ne (st : Store) {w : Nat × Held} {id : Nat} (h : id ≠ w.1) : st.put w id = st id :=
  if_neg h

/-- The store that a call starts with. -/
def ofArgs (args : List Float) : Store := fun id => args[id]?.map .float

/-- Executes instructions, where `callee` runs the functions that they call. -/
def run (callee : Callee) : Store → List Instr → String → Option Answer
  | _, [], _ => none
  | st, .ret v :: _, out => (st.float v).map fun x => .ok x out
  | st, .call r f args :: rest, out =>
    match f with
    | .function g =>
      (args.mapM st.float).bind fun xs =>
        match callee g xs out with
        | .ok x out => run callee (st.put (r, .float x)) rest out
        | .error e out => some (.error e out)
    | _ => none
  | st, i :: rest, out => (st.effect i).bind fun w => run callee (st.put w) rest out

theorem run_plain {callee : Callee} {st : Store} {i : Instr} {rest : List Instr} {out : String}
    (h : i.isPlain) :
    st.run callee (i :: rest) out = (st.effect i).bind fun w => (st.put w).run callee rest out := by
  cases i <;> simp_all [run, Instr.isPlain]

theorem run_call {callee : Callee} {st : Store} {r : Nat} {g : String} {args : List Operand}
    {rest : List Instr} {out : String} :
    st.run callee (.call r (.function g) args :: rest) out =
      (args.mapM st.float).bind fun xs =>
        match callee g xs out with
        | .ok x out => (st.put (r, .float x)).run callee rest out
        | .error e out => some (.error e out) := rfl

/-- An execution that returns does so with every callee that returns what the first one does. -/
theorem run_mono {c₁ c₂ : Callee} {st : Store} {is : List Instr} {out out' : String} {x : Float}
    (hc : ∀ g xs out y out', c₁ g xs out = .ok y out' → c₂ g xs out = .ok y out')
    (h : st.run c₁ is out = some (.ok x out')) : st.run c₂ is out = some (.ok x out') := by
  induction is generalizing st out with
  | nil => cases h
  | cons i rest ih =>
    by_cases hi : i.isPlain
    · rw [run_plain hi, Option.bind_eq_some_iff] at h ⊢
      obtain ⟨w, hw, h⟩ := h
      exact ⟨w, hw, ih h⟩
    · cases i with
      | ret v => exact h
      | call r f args =>
        cases f with
        | function g =>
          rw [run_call, Option.bind_eq_some_iff] at h ⊢
          obtain ⟨xs, hxs, h⟩ := h
          refine ⟨xs, hxs, ?_⟩
          cases hg : c₁ g xs out with
          | ok y out₁ =>
            rw [hg] at h
            rw [hc g xs out y out₁ hg]
            exact ih h
          | error e out₁ =>
            rw [hg] at h
            cases h
        | _ => cases h
      | _ => simp [Instr.isPlain] at hi

end Store

/-- What a function answers when it is run on the store of its arguments. -/
def Function.answer? (callee : Callee) (f : Function) (args : List Float) (out : String) :
    Option Answer :=
  f.entry?.bind fun b => (Store.ofArgs args).run callee b.instrs out

/-! ### Frames -/

namespace Eval

/-- What a cell holds, with the contents of the slot that it is the address of. -/
def Frame.held (fr : Frame) : Cell → Held
  | .float x => .float x
  | .bool b => .bool b
  | .slot k => .slot (fr.contents? k)

/-- The store that a frame describes. -/
def Frame.toStore (fr : Frame) : Store := fun id => (fr.temps.lookup id).map fr.held

/-- A frame in which different temps are never the address of one slot. -/
structure Frame.Separate (fr : Frame) : Prop where
  bound : ∀ id k, fr.temps.lookup id = some (.slot k) → k < fr.slots.length
  inj : ∀ id id' k, fr.temps.lookup id = some (.slot k) → fr.temps.lookup id' = some (.slot k) →
    id = id'

namespace Frame

variable {fr : Frame}

/-- An operand has the cell of what it holds, and none if it holds nothing. -/
theorem held_toStore (v : Operand) :
    fr.toStore.held v = match fr.cell v with
      | .ok c => some (fr.held c)
      | .error _ => none := by
  cases v with
  | temp id =>
    simp only [Store.held, toStore, cell]
    cases fr.temps.lookup id <;> rfl
  | _ => rfl

/-- Frames and stores agree on doubles. -/
theorem float_eq_ok {v : Operand} {x : Float} :
    fr.float v = .ok x ↔ fr.toStore.float v = some x := by
  rw [Store.float, held_toStore, Frame.float]
  cases fr.cell v with
  | error e => simp [bind, Except.bind]
  | ok c =>
    cases c <;> simp [bind, Except.bind, Frame.held, pure, Except.pure, throw, throwThe,
      MonadExceptOf.throw]

theorem flag_eq_ok {v : Operand} {b : Bool} :
    fr.flag v = .ok b ↔ fr.toStore.flag v = some b := by
  rw [Store.flag, held_toStore, Frame.flag]
  cases fr.cell v with
  | error e => simp [bind, Except.bind]
  | ok c =>
    cases c <;> simp [bind, Except.bind, Frame.held, pure, Except.pure, throw, throwThe,
      MonadExceptOf.throw]

theorem slot_eq_ok {v : Operand} {k : Nat} :
    fr.slot v = .ok k ↔ ∃ p, v = .temp p ∧ fr.temps.lookup p = some (.slot k) := by
  rw [Frame.slot]
  cases v with
  | temp id =>
    simp only [cell]
    cases h : fr.temps.lookup id with
    | none => simp [bind, Except.bind, h]
    | some c =>
      cases c <;> simp [bind, Except.bind, pure, Except.pure, throw, throwThe, MonadExceptOf.throw,
        h]
  | _ => simp [cell, bind, Except.bind, throw, throwThe, MonadExceptOf.throw]

theorem toStore_set {r : Nat} {c : Cell} (hc : ∀ k, c ≠ .slot k) :
    (fr.set r c).toStore = fr.toStore.put (r, fr.held c) := by
  funext id
  by_cases hid : id = r
  · subst hid
    cases c <;> simp_all [toStore, set, Store.put, Frame.held]
  · simp only [toStore, set, Store.put, hid, if_false, lookup_cons_of_ne hid]
    rfl

/-- A new slot has a place of its own, so no other slot changes. -/
theorem toStore_allocate (hs : fr.Separate) (r : Nat) :
    (fr.allocate r).toStore = fr.toStore.put (r, .slot none) := by
  funext id
  by_cases hid : id = r
  · subst hid
    simp [toStore, allocate, Store.put, Frame.held, contents?]
  · simp only [toStore, allocate, Store.put, hid, if_false, lookup_cons_of_ne hid]
    refine Option.map_congr fun c hc => ?_
    cases c with
    | slot k => simp [Frame.held, contents?, List.getElem?_append_left (hs.bound id k hc)]
    | _ => rfl

/-- A write changes the slot of one temp, since no two temps hold the same place. -/
theorem toStore_store (hs : fr.Separate) {p k : Nat} (hp : fr.temps.lookup p = some (.slot k))
    (x : Float) : (fr.store k x).toStore = fr.toStore.put (p, .slot (some x)) := by
  funext id
  by_cases hid : id = p
  · subst hid
    simp [toStore, Frame.store, Store.put, Frame.held, contents?, hp, hs.bound id k hp]
  · simp only [toStore, Frame.store, Store.put, hid, if_false]
    refine Option.map_congr fun c hc => ?_
    cases c with
    | slot j =>
      have hjk : k ≠ j := fun h => hid (hs.inj id p k (h ▸ hc) hp)
      simp [Frame.held, contents?, List.getElem?_set_ne hjk]
    | _ => rfl

theorem Separate.set (hs : fr.Separate) {r : Nat} {c : Cell} (hc : ∀ k, c ≠ .slot k) :
    (fr.set r c).Separate := by
  have hlookup {id k : Nat} (h : (fr.set r c).temps.lookup id = some (.slot k)) :
      fr.temps.lookup id = some (.slot k) := by
    by_cases hid : id = r
    · subst hid
      rw [Frame.set, List.lookup_cons_self] at h
      exact absurd (Option.some.inj h) (hc k)
    · rwa [Frame.set, lookup_cons_of_ne hid] at h
  exact ⟨fun id k h => hs.bound id k (hlookup h),
    fun id id' k h h' => hs.inj id id' k (hlookup h) (hlookup h')⟩

theorem Separate.allocate (hs : fr.Separate) (r : Nat) : (fr.allocate r).Separate := by
  have hlookup {id k : Nat} (h : (fr.allocate r).temps.lookup id = some (.slot k)) :
      (id = r ∧ k = fr.slots.length) ∨
        (fr.temps.lookup id = some (.slot k) ∧ k < fr.slots.length) := by
    by_cases hid : id = r
    · subst hid
      rw [Frame.allocate, List.lookup_cons_self] at h
      cases h
      exact .inl ⟨rfl, rfl⟩
    · rw [Frame.allocate, lookup_cons_of_ne hid] at h
      exact .inr ⟨h, hs.bound id k h⟩
  refine ⟨fun id k h => ?_, fun id id' k h h' => ?_⟩
  · have hlen : (fr.allocate r).slots.length = fr.slots.length + 1 := by simp [Frame.allocate]
    rcases hlookup h with ⟨_, rfl⟩ | ⟨_, hk⟩ <;> omega
  · rcases hlookup h with ⟨rfl, rfl⟩ | ⟨hid, hk⟩ <;> rcases hlookup h' with ⟨rfl, hk'⟩ | ⟨hid', hk'⟩
    · rfl
    · omega
    · omega
    · exact hs.inj id id' k hid hid'

theorem Separate.store (hs : fr.Separate) (k : Nat) (x : Float) : (fr.store k x).Separate :=
  ⟨fun id j h => by simpa [Frame.store] using hs.bound id j h, hs.inj⟩

/-- The address of a slot leads to one that was made. -/
theorem Separate.checkSlot (hs : fr.Separate) {p k : Nat}
    (hp : fr.temps.lookup p = some (.slot k)) : fr.checkSlot k = .ok () :=
  if_pos (hs.bound p k hp)

theorem slot_toStore {v : Operand} {p : Nat} {c : Option Float} :
    fr.toStore.slot v = some (p, c) ↔
      v = .temp p ∧ ∃ k, fr.temps.lookup p = some (.slot k) ∧ fr.contents? k = c := by
  rw [Store.slot_eq_some]
  refine and_congr_right fun _ => ?_
  simp only [toStore, Option.map_eq_some_iff]
  constructor
  · rintro ⟨c', hc', h⟩
    cases c' <;> cases h
    exact ⟨_, hc', rfl⟩
  · rintro ⟨k, hk, rfl⟩
    exact ⟨_, hk, rfl⟩

/-- Where an instruction has an effect on the store of a frame, the frame makes the same step. -/
theorem step_of_effect (hs : fr.Separate) {i : Instr} {w : Nat × Held}
    (h : fr.toStore.effect i = some w) :
    ∃ fr', fr.step i = .ok fr' ∧ fr'.toStore = fr.toStore.put w ∧ fr'.Separate := by
  have hfloat {r : Nat} {x : Float} : (fr.set r (.float x)).toStore = fr.toStore.put (r, .float x) ∧
      (fr.set r (.float x)).Separate := ⟨toStore_set (by simp), hs.set (by simp)⟩
  have hbool {r : Nat} {b : Bool} : (fr.set r (.bool b)).toStore = fr.toStore.put (r, .bool b) ∧
      (fr.set r (.bool b)).Separate := ⟨toStore_set (by simp), hs.set (by simp)⟩
  cases i with
  | alloca r t n =>
    cases h
    exact ⟨_, rfl, toStore_allocate hs r, hs.allocate r⟩
  | load r p t =>
    simp only [Store.effect, Option.bind_eq_some_iff, Option.map_eq_some_iff] at h
    obtain ⟨⟨q, _⟩, hp, x, rfl, rfl⟩ := h
    obtain ⟨hv, k, hk, hx⟩ := slot_toStore.1 hp
    refine ⟨_, ?_, hfloat⟩
    rw [step, slot_eq_ok.2 ⟨q, hv, hk⟩]
    simp [bind, Except.bind, hs.checkSlot hk, hx, pure, Except.pure]
  | store v p =>
    simp only [Store.effect, Option.bind_eq_some_iff, Option.map_eq_some_iff] at h
    obtain ⟨⟨q, c⟩, hp, x, hx, rfl⟩ := h
    obtain ⟨hv, k, hk, _⟩ := slot_toStore.1 hp
    refine ⟨_, ?_, toStore_store hs hk x, hs.store k x⟩
    rw [step, slot_eq_ok.2 ⟨q, hv, hk⟩, float_eq_ok.2 hx]
    simp [bind, Except.bind, hs.checkSlot hk, pure, Except.pure]
  | arith r op a b =>
    simp only [Store.effect, Option.bind_eq_some_iff, Option.map_eq_some_iff] at h
    obtain ⟨x, hx, y, hy, rfl⟩ := h
    refine ⟨_, ?_, hfloat⟩
    rw [step, float_eq_ok.2 hx, float_eq_ok.2 hy]
    rfl
  | compare r p a b =>
    simp only [Store.effect, Option.bind_eq_some_iff, Option.map_eq_some_iff] at h
    obtain ⟨x, hx, y, hy, rfl⟩ := h
    refine ⟨_, ?_, hbool⟩
    rw [step, float_eq_ok.2 hx, float_eq_ok.2 hy]
    rfl
  | widen r v =>
    simp only [Store.effect, Option.map_eq_some_iff] at h
    obtain ⟨b, hb, rfl⟩ := h
    refine ⟨_, ?_, hfloat⟩
    rw [step, flag_eq_ok.2 hb]
    rfl
  | call r f args => cases h
  | ret v => cases h

/-- Where the frame makes a step, the instruction has an effect. -/
theorem effect_of_step {i : Instr} (hi : i.isPlain) {fr' : Frame} (h : fr.step i = .ok fr') :
    (fr.toStore.effect i).isSome := by
  cases i with
  | alloca r t n => rfl
  | load r p t =>
    simp only [step, bind_eq_ok] at h
    obtain ⟨k, hk, _, _, h⟩ := h
    obtain ⟨q, hq, hl⟩ := slot_eq_ok.1 hk
    split at h
    next x hx => simp [Store.effect, slot_toStore.2 ⟨hq, k, hl, hx⟩]
    next => cases h
  | store v p =>
    simp only [step, bind_eq_ok] at h
    obtain ⟨k, hk, x, hx, _⟩ := h
    obtain ⟨q, hq, hl⟩ := slot_eq_ok.1 hk
    simp [Store.effect, slot_toStore.2 ⟨hq, k, hl, rfl⟩, float_eq_ok.1 hx]
  | arith r op a b =>
    simp only [step, bind_eq_ok] at h
    obtain ⟨x, hx, y, hy, _⟩ := h
    simp [Store.effect, float_eq_ok.1 hx, float_eq_ok.1 hy]
  | compare r p a b =>
    simp only [step, bind_eq_ok] at h
    obtain ⟨x, hx, y, hy, _⟩ := h
    simp [Store.effect, float_eq_ok.1 hx, float_eq_ok.1 hy]
  | widen r v =>
    simp only [step, bind_eq_ok] at h
    obtain ⟨b, hb, _⟩ := h
    simp [Store.effect, flag_eq_ok.1 hb]
  | call r f args => cases hi
  | ret v => cases hi

theorem mapM_float_eq_ok {vs : List Operand} {xs : List Float} :
    vs.mapM fr.float = .ok xs ↔ vs.mapM fr.toStore.float = some xs := by
  induction vs generalizing xs with
  | nil => simp [pure, Except.pure]
  | cons v vs ih =>
    simp only [List.mapM_cons, bind_eq_ok, ih, float_eq_ok]
    simp [bind, Option.bind_eq_some_iff, pure, Except.pure]

end Frame

theorem Frame.separate_ofArgs (params : List (Nat × String)) (args : List Float) :
    (Frame.ofArgs params args).Separate := by
  have hlookup {id k : Nat} : (Frame.ofArgs params args).temps.lookup id ≠ some (.slot k) := by
    intro h
    obtain ⟨_, _, h, _⟩ := List.lookup_eq_some_iff.1 h
    have : (id, Cell.slot k) ∈ (Frame.ofArgs params args).temps := by rw [h]; simp
    simp [Frame.ofArgs] at this
  exact ⟨fun id k h => absurd h hlookup, fun id id' k h => absurd h hlookup⟩

/-- A call starts with the arguments in the first temps. -/
theorem Frame.toStore_ofArgs {params : List (Nat × String)} {args : List Float}
    (hn : params.map Prod.fst = List.range params.length) (hl : params.length = args.length) :
    (Frame.ofArgs params args).toStore = Store.ofArgs args := by
  induction args using List.reverseRecOn generalizing params with
  | nil =>
    obtain rfl := List.length_eq_zero_iff.1 hl
    rfl
  | append_singleton args x ih =>
    have hne : params ≠ [] := by
      rintro rfl
      simp at hl
    obtain ⟨ps, p, rfl⟩ : ∃ ps p, params = ps ++ [p] :=
      ⟨_, _, (List.dropLast_concat_getLast hne).symm⟩
    have hl' : ps.length = args.length := by simpa using hl
    simp only [List.map_append, List.length_append, List.length_singleton, List.range_succ,
      List.map_singleton] at hn
    obtain ⟨hn, hp⟩ := List.append_inj' hn rfl
    have hset : Frame.ofArgs (ps ++ [p]) (args ++ [x]) =
        (Frame.ofArgs ps args).set args.length (.float x) := by
      simp [Frame.ofArgs, Frame.set, List.zip_append hl', hl'] at hp ⊢
      exact hp
    rw [hset, Frame.toStore_set (by simp), ih hn hl']
    funext id
    by_cases hid : id = args.length
    · simp [Store.put, Store.ofArgs, hid, Frame.held]
    · rw [Store.put_of_ne _ hid]
      have hget : (args ++ [x])[id]? = args[id]? := by grind
      rw [Store.ofArgs, Store.ofArgs, hget]

/-! ### Bodies -/

variable {callee : Callee} {name : String}

theorem body_plain {fr : Frame} {i : Instr} {rest : List Instr} (hi : i.isPlain) :
    body callee name fr (i :: rest) =
      within name (fr.step i) >>= fun fr => body callee name fr rest := by
  cases i <;> simp_all [body, Instr.isPlain]

theorem body_plain_ok {fr fr' : Frame} {i : Instr} {rest : List Instr} (hi : i.isPlain)
    (h : fr.step i = .ok fr') : body callee name fr (i :: rest) = body callee name fr' rest := by
  rw [body_plain hi, h]
  rfl

theorem body_call_ok {fr : Frame} {r : Nat} {g : String} {args : List Operand} {rest : List Instr}
    {xs : List Float} (h : args.mapM fr.float = .ok xs) (out : String) :
    body callee name fr (.call r (.function g) args :: rest) out =
      match callee g xs out with
      | .ok x out => body callee name (fr.set r (.float x)) rest out
      | .error e out => .error e out := by
  rw [body, h]
  change EStateM.bind (callee g xs) _ out = _
  cases hc : callee g xs out <;> simp [EStateM.bind, hc]

/-- **A body answers what the execution on the store of its frame does.** -/
theorem body_of_run {is : List Instr} {fr : Frame} (hs : fr.Separate) {out : String} {a : Answer}
    (h : fr.toStore.run callee is out = some a) : body callee name fr is out = a := by
  induction is generalizing fr out with
  | nil => cases h
  | cons i rest ih =>
    by_cases hi : i.isPlain
    · rw [Store.run_plain hi, Option.bind_eq_some_iff] at h
      obtain ⟨w, hw, h⟩ := h
      obtain ⟨fr', hstep, hfr', hs'⟩ := Frame.step_of_effect hs hw
      rw [body_plain_ok hi hstep]
      exact ih hs' (by rw [hfr']; exact h)
    · cases i with
      | ret v =>
        simp only [Store.run, Option.map_eq_some_iff] at h
        obtain ⟨x, hx, rfl⟩ := h
        rw [body, Frame.float_eq_ok.2 hx]
        rfl
      | call r f args =>
        cases f with
        | function g =>
          rw [Store.run_call, Option.bind_eq_some_iff] at h
          obtain ⟨xs, hxs, h⟩ := h
          rw [body_call_ok (Frame.mapM_float_eq_ok.2 hxs)]
          cases hc : callee g xs out with
          | ok x out' =>
            rw [hc] at h
            exact ih (hs.set (by simp)) (by rw [Frame.toStore_set (by simp)]; exact h)
          | error e out' =>
            rw [hc] at h
            exact Option.some.inj h
        | _ => cases h
      | _ => simp [Instr.isPlain] at hi

/-- **A body fails where the execution on the store of its frame has no answer.** -/
theorem body_of_run_none {is : List Instr} {fr : Frame} (hs : fr.Separate) {out : String}
    (h : fr.toStore.run callee is out = none) :
    ∃ e out', body callee name fr is out = .error e out' := by
  induction is generalizing fr out with
  | nil => exact ⟨_, _, rfl⟩
  | cons i rest ih =>
    by_cases hi : i.isPlain
    · cases hstep : fr.step i with
      | error e => exact ⟨_, _, by rw [body_plain hi, hstep]; rfl⟩
      | ok fr' =>
        obtain ⟨w, hw⟩ := Option.isSome_iff_exists.1 (Frame.effect_of_step hi hstep)
        obtain ⟨_, hstep', hfr', hs'⟩ := Frame.step_of_effect hs hw
        obtain rfl := Except.ok.inj (hstep.symm.trans hstep')
        rw [Store.run_plain hi, hw, Option.bind_some, ← hfr'] at h
        rw [body_plain_ok hi hstep]
        exact ih hs' h
    · cases i with
      | ret v =>
        rw [Store.run, Option.map_eq_none_iff] at h
        cases hv : fr.float v with
        | ok x => simp [Frame.float_eq_ok.1 hv] at h
        | error e => exact ⟨_, _, by rw [body, hv]; rfl⟩
      | call r f args =>
        cases f with
        | function g =>
          cases hxs : args.mapM fr.float with
          | error e => exact ⟨_, _, by rw [body, hxs]; rfl⟩
          | ok xs =>
            rw [Store.run_call, Frame.mapM_float_eq_ok.1 hxs, Option.bind_some] at h
            rw [body_call_ok hxs]
            cases hc : callee g xs out with
            | ok x out' =>
              rw [hc] at h
              exact ih (hs.set (by simp)) (by rw [Frame.toStore_set (by simp)]; exact h)
            | error e out' => exact ⟨_, _, rfl⟩
        | _ => exact ⟨_, _, rfl⟩
      | _ => simp [Instr.isPlain] at hi

/-- A function is entered with the answer that its store gives. -/
theorem enter_of_answer {f : Function} {args : List Float} {out : String} {a : Answer}
    (hn : f.params.map Prod.fst = List.range f.arity) (hl : f.arity = args.length)
    (h : f.answer? callee args out = some a) : enter callee f args out = a := by
  rw [Function.answer?, Option.bind_eq_some_iff] at h
  obtain ⟨b, hb, h⟩ := h
  rw [enter, hb]
  exact body_of_run (Frame.separate_ofArgs _ _) (by rw [Frame.toStore_ofArgs hn hl]; exact h)

/-- A function without an answer fails. -/
theorem enter_of_answer_none {f : Function} {args : List Float} {out : String}
    (hn : f.params.map Prod.fst = List.range f.arity) (hl : f.arity = args.length)
    (h : f.answer? callee args out = none) : ∃ e out', enter callee f args out = .error e out' := by
  cases hb : f.entry? with
  | none => exact ⟨_, _, by rw [enter, hb]; rfl⟩
  | some b =>
    rw [Function.answer?, hb, Option.bind_some] at h
    rw [enter, hb]
    exact body_of_run_none (Frame.separate_ofArgs _ _) (by rw [Frame.toStore_ofArgs hn hl]; exact h)

theorem callAt_of_find?_none {m : Module} {d : Nat} {name : String} {args : List Float}
    (h : m.find? name = none) : callAt m d name args = throw ⟨name, .noFunction name⟩ := by
  cases d <;> simp only [callAt, h]

theorem callAt_of_find?_some {m : Module} {d : Nat} {name : String} {args : List Float}
    {f : Function}
    (h : m.find? name = some f) :
    callAt m d name args =
      if f.arity ≠ args.length then throw ⟨name, .arity f.arity args.length⟩
      else if f.isExternal then host name args
      else if f.stage ≠ .verified then throw ⟨name, .notVerified name f.stage⟩
      else match d with
        | 0 => throw ⟨name, .depthExceeded⟩
        | d + 1 => enter (callAt m d) f args := by
  cases d <;> simp only [callAt, h]

end Eval

end StraightLine
