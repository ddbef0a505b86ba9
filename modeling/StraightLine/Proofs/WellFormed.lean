import Mathlib
import StraightLine.Verify

/-!
# Well-formed functions

Verification stops at the first fault it finds. Here is what it means to have none, said without an
order of checking: `Function.WellFormed` asks for a shape of the function and a typing of its
instructions (`Typed`), and the verification of a module finds no fault exactly when all its live
functions are well formed and have different names (`Module.verify_eq_ok`).

A typing looks at the rest of the module only through the arities of its functions.
-/

namespace StraightLine

/-- The arities of the functions that can be called, by name. -/
abbrev Arities := String → Option Nat

/-- The arities of the functions of a module. -/
def Module.arities (m : Module) : Arities := fun name => (m.find? name).map Function.arity

theorem lookup_cons_of_ne {κ α : Type} [BEq κ] [LawfulBEq κ] {k k' : κ} (h : k ≠ k') (a : α)
    (l : List (κ × α)) : ((k', a) :: l).lookup k = l.lookup k := by
  rw [List.lookup, beq_false_of_ne h]

/-- What holds of the first entry and of the others, as far as it does not hide them, holds of what
is looked up. -/
theorem forall_lookup_cons {κ α : Type} [BEq κ] [LawfulBEq κ] {P : κ → α → Prop} {k : κ} {a : α}
    {l : List (κ × α)} (hk : P k a) (hl : ∀ k' a', k' ≠ k → l.lookup k' = some a' → P k' a') :
    ∀ k' a', ((k, a) :: l).lookup k' = some a' → P k' a' := by
  intro k' a' h
  by_cases hne : k' = k
  · subst hne
    rw [List.lookup_cons_self] at h
    cases h
    exact hk
  · exact hl k' a' hne ((lookup_cons_of_ne hne a l).symm.trans h)

theorem bind_eq_ok {ε α β : Type} {x : Except ε α} {f : α → Except ε β} {b : β} :
    x >>= f = .ok b ↔ ∃ a, x = .ok a ∧ f a = .ok b := by
  cases x <;> simp [bind, Except.bind]

theorem seq_eq_ok {ε β : Type} {x : Except ε Unit} {y : Except ε β} {b : β} :
    (do x; y) = .ok b ↔ x = .ok () ∧ y = .ok b := by
  cases x <;> simp [bind, Except.bind]

namespace Verify

/-! ### Operands and instructions -/

/-- An operand that may stand where a type is expected. -/
def OperandOk (Γ : Types) (t : Ty) : Operand → Prop
  | .temp id => Γ.lookup id = some t
  | .float _ => t = .double
  | .bool _ => t = .i1
  | .string bytes => t = .bytes bytes.length
  | .function _ => False
  | .undef => True

/-- The check of an operand, as a proposition. -/
theorem checkOperand_eq_ok {Γ : Types} {i : Instr} {t : Ty} {v : Operand} :
    checkOperand Γ i t v = .ok () ↔ OperandOk Γ t v := by
  cases v with
  | temp id => cases h : Γ.lookup id <;> simp [checkOperand, OperandOk, h]
  | _ => simp [checkOperand, OperandOk, eq_comm]

/-- Types that say of a temp what others do, and may know more temps. -/
def Types.Extends (Γ Δ : Types) : Prop := ∀ id t, Γ.lookup id = some t → Δ.lookup id = some t

/-- An operand stays in order when temps get types. -/
theorem OperandOk.mono {Γ Δ : Types} {t : Ty} {v : Operand} (h : OperandOk Γ t v)
    (hs : Types.Extends Γ Δ) : OperandOk Δ t v := by
  cases v with
  | temp id => exact hs id t h
  | _ => exact h

end Verify

namespace Instr

open Verify

/-- The operands of an instruction that are read as values, with the types that it asks for. -/
def wants : Instr → List (Ty × Operand)
  | alloca _ _ _ => []
  | load _ p _ => [(.slot, p)]
  | store v p => [(.double, v), (.slot, p)]
  | arith _ _ a b | compare _ _ a b => [(.double, a), (.double, b)]
  | widen _ v => [(.i1, v)]
  | call _ _ args => args.map fun a => (.double, a)
  | ret v => [(.double, v)]

/-- What an instruction must satisfy apart from its operands: slots hold doubles, and calls give
functions as many arguments as they take. -/
def Shaped (A : Arities) : Instr → Prop
  | alloca _ t _ | load _ _ t => t = .double
  | call _ f args => ∃ g, f = .function g ∧ A g = some args.length
  | _ => True

/-- The function that an instruction calls. -/
def callee? : Instr → Option String
  | call _ (.function g) _ => some g
  | _ => none

/-- Of the arities, only that of the function that an instruction calls matters to it. -/
theorem Shaped.of_callee {A B : Arities} {i : Instr} (h : i.Shaped A)
    (hcallee : ∀ g k, i.callee? = some g → A g = some k → B g = some k) : i.Shaped B := by
  cases i with
  | call r f args =>
    obtain ⟨g, rfl, hg⟩ := h
    exact ⟨g, rfl, hcallee g _ rfl hg⟩
  | _ => exact h

/-- An instruction that is in order where the temps have types `Γ`. -/
structure Ok (A : Arities) (Γ : Types) (i : Instr) : Prop where
  shaped : i.Shaped A
  operands : ∀ w ∈ i.wants, OperandOk Γ w.1 w.2
  fresh : ∀ r, i.result? = some r → Γ.lookup r = none

theorem forM_checkOperand_eq_ok {Γ : Types} {i : Instr} {t : Ty} {vs : List Operand} :
    forM vs (checkOperand Γ i t) = .ok () ↔ ∀ v ∈ vs, OperandOk Γ t v := by
  induction vs with
  | nil => simp [pure, Except.pure]
  | cons v vs ih =>
    rw [List.forM_cons, List.forall_mem_cons, ← ih, ← checkOperand_eq_ok (i := i)]
    exact seq_eq_ok

/-- The check of an instruction asks for a shape, and for operands of the types that it wants. -/
theorem checkInstr_eq_ok {m : Module} {Γ : Types} {i : Instr} :
    checkInstr m .double Γ i = .ok () ↔
      i.Shaped m.arities ∧ ∀ w ∈ i.wants, OperandOk Γ w.1 w.2 := by
  have both {t₁ t₂ : Ty} {v₁ v₂ : Operand} :
      (do checkOperand Γ i t₁ v₁; checkOperand Γ i t₂ v₂) = Except.ok () ↔
        OperandOk Γ t₁ v₁ ∧ OperandOk Γ t₂ v₂ := by
    rw [seq_eq_ok, checkOperand_eq_ok, checkOperand_eq_ok]
  cases i with
  | alloca r t n => by_cases h : t = .double <;> simp [checkInstr, Shaped, wants, h]
  | load r p t =>
    by_cases h : t = .double <;> simp [checkInstr, Shaped, wants, h, checkOperand_eq_ok]
  | store v p => simp [checkInstr, Shaped, wants, both]
  | arith r op a b => simp [checkInstr, Shaped, wants, both]
  | compare r p a b => simp [checkInstr, Shaped, wants, both]
  | widen r v => simp [checkInstr, Shaped, wants, checkOperand_eq_ok]
  | ret v => simp [checkInstr, Shaped, wants, checkOperand_eq_ok]
  | call r f args =>
    cases f with
    | function g =>
      cases hg : m.find? g with
      | none => simp [checkInstr, Shaped, Module.arities, hg]
      | some f =>
        by_cases h : f.arity = args.length <;>
          simp [checkInstr, Shaped, Module.arities, wants, hg, h, forM_checkOperand_eq_ok]
    | _ => simp [checkInstr, Shaped]

/-- The types after an instruction. -/
def typesAfter (Γ : Types) (i : Instr) : Types :=
  match i.result?, i.resultType? with
  | some r, some t => (r, t) :: Γ
  | _, _ => Γ

theorem result?_eq_none_iff {i : Instr} : i.result? = none ↔ i.resultType? = none := by
  cases i <;> simp [result?, resultType?]

/-- An instruction must define a new temp, which gets the type of the result. -/
theorem define_eq_ok {Γ Δ : Types} {i : Instr} :
    define Γ i = .ok Δ ↔ (∀ r, i.result? = some r → Γ.lookup r = none) ∧ i.typesAfter Γ = Δ := by
  unfold define typesAfter
  cases hr : i.result? with
  | none => simp
  | some r =>
    cases ht : i.resultType? with
    | none => simp [result?_eq_none_iff.2 ht] at hr
    | some t => cases h : Γ.lookup r <;> simp [h, -List.lookup_eq_none_iff]

theorem lookup_typesAfter (Γ : Types) (i : Instr) (id : Nat) :
    (i.typesAfter Γ).lookup id = if i.result? = some id then i.resultType? else Γ.lookup id := by
  unfold typesAfter
  split
  next r t hr ht =>
    by_cases hid : id = r
    · rw [hid, if_pos hr, ht, List.lookup_cons_self]
    · rw [lookup_cons_of_ne hid, if_neg (by rw [hr]; simpa using Ne.symm hid)]
  next h =>
    rw [if_neg]
    intro hr
    cases ht : i.resultType? with
    | none => simp [result?_eq_none_iff.2 ht] at hr
    | some t => exact h id t hr ht

/-- An instruction in order changes no type, since the temp that it defines is new. -/
theorem Ok.extends {A : Arities} {Γ : Types} {i : Instr} (h : i.Ok A Γ) :
    Types.Extends Γ (i.typesAfter Γ) := by
  intro id t hid
  rw [lookup_typesAfter, if_neg, hid]
  intro hr
  rw [h.fresh id hr] at hid
  cases hid

end Instr

/-! ### Instruction lists -/

namespace Code

open Verify

/-- Instructions that are all in order, one after another. -/
def Typed (A : Arities) : Types → List Instr → Prop
  | _, [] => True
  | Γ, i :: rest => i.Ok A Γ ∧ Typed A (i.typesAfter Γ) rest

/-- The types after instructions. -/
def typesAfter (Γ : Types) (is : List Instr) : Types := is.foldl (fun Γ i => i.typesAfter Γ) Γ

@[simp] theorem typesAfter_nil (Γ : Types) : typesAfter Γ [] = Γ := rfl

@[simp] theorem typesAfter_cons (Γ : Types) (i : Instr) (is : List Instr) :
    typesAfter Γ (i :: is) = typesAfter (i.typesAfter Γ) is := rfl

theorem typesAfter_append (Γ : Types) (is js : List Instr) :
    typesAfter Γ (is ++ js) = typesAfter (typesAfter Γ is) js := List.foldl_append

/-- Instructions are checked with the types that those before them leave. -/
theorem typed_append {A : Arities} {Γ : Types} {is js : List Instr} :
    Typed A Γ (is ++ js) ↔ Typed A Γ is ∧ Typed A (typesAfter Γ is) js := by
  induction is generalizing Γ with
  | nil => simp [Typed]
  | cons i is ih => simp [Typed, ih, and_assoc]

theorem Typed.extends {A : Arities} {Γ : Types} {is : List Instr} (h : Typed A Γ is) :
    Types.Extends Γ (typesAfter Γ is) := by
  induction is generalizing Γ with
  | nil => exact fun _ _ hid => hid
  | cons i is ih => exact fun id t hid => ih h.2 id t (h.1.extends id t hid)

/-- What an instruction reads has the right type also when all types are known. -/
theorem Typed.operandOk {A : Arities} {Γ : Types} {is : List Instr} (h : Typed A Γ is) {i : Instr}
    (hi : i ∈ is) {w : Ty × Operand} (hw : w ∈ i.wants) : OperandOk (typesAfter Γ is) w.1 w.2 := by
  induction is generalizing Γ with
  | nil => cases hi
  | cons j is ih =>
    rcases List.mem_cons.1 hi with rfl | hi
    · exact ((h.1.operands w hw).mono h.1.extends).mono h.2.extends
    · exact ih h.2 hi

/-- A temp keeps the type that it is defined with. -/
theorem Typed.lookup_result {A : Arities} {Γ : Types} {is : List Instr} (h : Typed A Γ is)
    {i : Instr} (hi : i ∈ is) {r : Nat} {t : Ty} (hr : i.result? = some r)
    (ht : i.resultType? = some t) : (typesAfter Γ is).lookup r = some t := by
  induction is generalizing Γ with
  | nil => cases hi
  | cons j is ih =>
    rcases List.mem_cons.1 hi with rfl | hi
    · exact h.2.extends r t (by rw [Instr.lookup_typesAfter, if_pos hr, ht])
    · exact ih h.2 hi

theorem Typed.shaped {A : Arities} {Γ : Types} {is : List Instr} (h : Typed A Γ is) {i : Instr}
    (hi : i ∈ is) : i.Shaped A := by
  induction is generalizing Γ with
  | nil => cases hi
  | cons j is ih =>
    rcases List.mem_cons.1 hi with rfl | hi
    · exact h.1.shaped
    · exact ih h.2 hi

/-- Instructions stay in order where the functions that they call keep their arities. -/
theorem Typed.of_callees {A B : Arities} {Γ : Types} {is : List Instr} (h : Typed A Γ is)
    (hcallees : ∀ i ∈ is, ∀ g k, i.callee? = some g → A g = some k → B g = some k) :
    Typed B Γ is := by
  induction is generalizing Γ with
  | nil => trivial
  | cons i is ih =>
    obtain ⟨hi, his⟩ := h
    refine ⟨⟨hi.shaped.of_callee (hcallees i List.mem_cons_self), hi.operands, hi.fresh⟩, ?_⟩
    exact ih his fun j hj => hcallees j (List.mem_cons_of_mem i hj)

/-- Instructions of which the last and only the last is a terminator. -/
def Closed : List Instr → Prop
  | [] => False
  | i :: rest => if i.isTerminator then rest = [] else Closed rest

/-- One round of the check of a block. -/
theorem checkInstrs_cons_eq_ok {m : Module} {b : String} {Γ Δ : Types} {i : Instr}
    {rest : List Instr} :
    checkInstrs m .double b Γ (i :: rest) = .ok Δ ↔
      (i.isTerminator → rest = []) ∧ i.Ok m.arities Γ ∧
        checkInstrs m .double b (i.typesAfter Γ) rest = .ok Δ := by
  have hok : i.Ok m.arities Γ ↔
      checkInstr m .double Γ i = .ok () ∧ define Γ i = .ok (i.typesAfter Γ) := by
    rw [Instr.checkInstr_eq_ok, Instr.define_eq_ok]
    exact ⟨fun h => ⟨⟨h.shaped, h.operands⟩, h.fresh, rfl⟩, fun h => ⟨h.1.1, h.1.2, h.2.1⟩⟩
  rw [hok, checkInstrs]
  split
  next hinner =>
    rw [bind_eq_ok]
    simp_all [throw, throwThe, MonadExceptOf.throw]
  next hinner =>
    rw [seq_eq_ok, bind_eq_ok]
    constructor
    · rintro ⟨hc, Δ', hd, h⟩
      rw [(Instr.define_eq_ok.1 hd).2]
      exact ⟨by simpa using hinner, ⟨hc, hd⟩, h⟩
    · rintro ⟨-, ⟨hc, hd⟩, h⟩
      exact ⟨hc, _, hd, h⟩

/-- Instructions of which the last is a terminator pass the check exactly when no other is one and
they are typed. -/
theorem checkInstrs_eq_ok {m : Module} {b : String} {Γ Δ : Types} {is : List Instr} {last : Instr}
    (hlast : is.getLast? = some last) (ht : last.isTerminator) :
    checkInstrs m .double b Γ is = .ok Δ ↔
      Closed is ∧ Typed m.arities Γ is ∧ typesAfter Γ is = Δ := by
  induction is generalizing Γ with
  | nil => cases hlast
  | cons i rest ih =>
    rw [checkInstrs_cons_eq_ok]
    cases rest with
    | nil =>
      obtain rfl : i = last := by simpa using hlast
      simp [checkInstrs, Closed, Typed, ht]
    | cons j rest =>
      rw [List.getLast?_cons_cons] at hlast
      rw [ih hlast]
      by_cases hi : i.isTerminator <;> simp [Closed, Typed, hi, and_left_comm, and_assoc]

theorem Closed.exists_getLast {is : List Instr} (h : Closed is) :
    ∃ last, is.getLast? = some last ∧ last.isTerminator := by
  induction is with
  | nil => cases h
  | cons i rest ih =>
    by_cases hi : i.isTerminator
    · obtain rfl : rest = [] := by simpa [Closed, hi] using h
      exact ⟨i, rfl, hi⟩
    · obtain ⟨last, hlast, ht⟩ := ih (by simpa [Closed, hi] using h)
      exact ⟨last, by simp [List.getLast?_cons, hlast], ht⟩

theorem checkBlock_eq_ok {m : Module} {Γ Δ : Types} {b : Block} :
    checkBlock m .double Γ b = .ok Δ ↔
      Closed b.instrs ∧ Typed m.arities Γ b.instrs ∧ typesAfter Γ b.instrs = Δ := by
  unfold checkBlock
  split
  next hnone =>
    rw [List.getLast?_eq_none_iff] at hnone
    simp [hnone, Closed]
  next last hlast =>
    by_cases ht : last.isTerminator
    · rw [if_pos ht, checkInstrs_eq_ok hlast ht]
    · rw [if_neg ht]
      refine ⟨fun h => (nomatch h), fun ⟨h, _⟩ => ?_⟩
      obtain ⟨last', hlast', ht'⟩ := h.exists_getLast
      rw [hlast] at hlast'
      cases hlast'
      exact absurd ht' ht

/-- All blocks are checked as one list of instructions. -/
theorem checkBlocks_eq_ok {m : Module} {Γ Δ : Types} {bs : List Block} :
    checkBlocks m .double Γ bs = .ok Δ ↔
      (∀ b ∈ bs, Closed b.instrs) ∧ Typed m.arities Γ (bs.flatMap Block.instrs) ∧
        typesAfter Γ (bs.flatMap Block.instrs) = Δ := by
  induction bs generalizing Γ with
  | nil => simp [checkBlocks, Typed]
  | cons b bs ih =>
    simp only [checkBlocks, bind_eq_ok, checkBlock_eq_ok, ih, List.forall_mem_cons,
      List.flatMap_cons, typed_append, typesAfter_append]
    constructor
    · rintro ⟨_, ⟨hb, htb, rfl⟩, hbs, htbs, h⟩
      exact ⟨⟨hb, hbs⟩, ⟨htb, htbs⟩, h⟩
    · rintro ⟨⟨hb, hbs⟩, ⟨htb, htbs⟩, h⟩
      exact ⟨_, ⟨hb, htb, rfl⟩, hbs, htbs, h⟩

/-- Parameters are numbered in order, from where the check starts. -/
theorem checkParams_eq_ok {n : Nat} {ps : List (Nat × String)} {Γ : Types} :
    checkParams n ps = .ok Γ ↔
      ps.map Prod.fst = List.range' n ps.length ∧ ps.map (fun p => (p.1, Ty.double)) = Γ := by
  induction ps generalizing n Γ with
  | nil => simp [checkParams]
  | cons p ps ih =>
    by_cases hp : p.1 = n
    · obtain ⟨id, x⟩ := p
      obtain rfl : id = n := hp
      have hmap : (checkParams (id + 1) ps).map ((id, Ty.double) :: ·) = .ok Γ ↔
          ∃ Δ, checkParams (id + 1) ps = .ok Δ ∧ (id, Ty.double) :: Δ = Γ := by
        cases checkParams (id + 1) ps <;> simp [Except.map]
      rw [checkParams, if_pos rfl, hmap]
      simp [ih, List.range'_succ, and_assoc]
    · simp [checkParams, hp, List.range'_succ]

end Code

/-! ### Functions and modules -/

/-- The types that a function starts with. -/
def Function.paramTypes (f : Function) : Verify.Types := f.params.map fun p => (p.1, .double)

/-- A function without a fault, where the functions that it can call have arities `A`. -/
structure Function.WellFormed (A : Arities) (f : Function) : Prop where
  returns : f.returnType = .double
  bodiless : f.isExternal ↔ f.blocks = []
  numbered : f.isExternal = false → f.params.map Prod.fst = List.range f.arity
  closed : ∀ b ∈ f.blocks, Code.Closed b.instrs
  typed : Code.Typed A f.paramTypes f.instrs

/-- Whether a function calls the one with a name. -/
def Function.calls (f : Function) (name : String) : Bool :=
  f.instrs.any fun i => i.callee? = some name

theorem Function.calls_of_mem {f : Function} {i : Instr} {name : String} (hi : i ∈ f.instrs)
    (hname : i.callee? = some name) : f.calls name :=
  List.any_eq_true.2 ⟨i, hi, decide_eq_true hname⟩

/-- Code only calls what there is. -/
theorem Code.Typed.isSome_of_callee {A : Arities} {Γ : Verify.Types} {is : List Instr}
    (h : Typed A Γ is) {i : Instr} (hi : i ∈ is) {name : String} (hname : i.callee? = some name) :
    (A name).isSome := by
  have hshaped := h.shaped hi
  cases i with
  | call r v args =>
    obtain ⟨g, rfl, hg⟩ := hshaped
    obtain rfl : g = name := by simpa [Instr.callee?] using hname
    exact Option.isSome_of_eq_some hg
  | _ => simp [Instr.callee?] at hname

/-- A function only calls what there is. -/
theorem Function.WellFormed.isSome_of_calls {A : Arities} {f : Function} (h : f.WellFormed A)
    {name : String} (hcalls : f.calls name) : (A name).isSome := by
  obtain ⟨i, hi, hname⟩ := List.any_eq_true.1 hcalls
  exact h.typed.isSome_of_callee hi (of_decide_eq_true hname)

/-- A function stays well formed where the functions that it calls keep their arities. -/
theorem Function.WellFormed.of_calls {A B : Arities} {f : Function} (h : f.WellFormed A)
    (hcalls : ∀ g k, f.calls g → A g = some k → B g = some k) : f.WellFormed B where
  returns := h.returns
  bodiless := h.bodiless
  numbered := h.numbered
  closed := h.closed
  typed := h.typed.of_callees fun _ hi g k hg => hcalls g k (calls_of_mem hi hg)

/-- **Verification accepts exactly the well-formed functions.** -/
theorem Verify.check_eq_ok {m : Module} {f : Function} :
    check m f = .ok () ↔ f.WellFormed m.arities := by
  have hbody : (do
      let Γ ← checkParams 0 f.params
      let _ ← checkBlocks m .double Γ f.blocks) = .ok () ↔
        f.params.map Prod.fst = List.range f.arity ∧ (∀ b ∈ f.blocks, Code.Closed b.instrs) ∧
          Code.Typed m.arities f.paramTypes f.instrs := by
    simp only [bind_eq_ok, Code.checkParams_eq_ok, Code.checkBlocks_eq_ok]
    constructor
    · rintro ⟨_, ⟨hn, rfl⟩, _, ⟨hc, ht, _⟩, _⟩
      exact ⟨by rw [List.range_eq_range']; exact hn, hc, ht⟩
    · rintro ⟨hn, hc, ht⟩
      rw [List.range_eq_range'] at hn
      exact ⟨_, ⟨hn, rfl⟩, _, ⟨hc, ht, rfl⟩, rfl⟩
  unfold check
  split
  next hret => exact ⟨fun h => (nomatch h), fun h => absurd h.returns hret⟩
  next hret =>
    rw [ne_eq, Decidable.not_not] at hret
    cases hext : f.isExternal with
    | true =>
      cases hb : f.blocks with
      | nil =>
        refine ⟨fun _ => ⟨hret, by simp [hext, hb], by simp [hext], by simp [hb], ?_⟩, fun _ => rfl⟩
        simp [Function.instrs, hb, Code.Typed]
      | cons b bs => exact ⟨fun h => (nomatch h), fun h => by simpa [hb] using h.bodiless.1 hext⟩
    | false =>
      cases hb : f.blocks with
      | nil => exact ⟨fun h => (nomatch h), fun h => by simpa [hext] using h.bodiless.2 hb⟩
      | cons b bs =>
        rw [hb, ← hret] at hbody
        refine hbody.trans ⟨fun ⟨hn, hc, ht⟩ => ?_, fun h => ?_⟩
        · exact ⟨hret, by simp [hext, hb], fun _ => hn, by rwa [hb], ht⟩
        · exact ⟨h.numbered hext, by rw [← hb]; exact h.closed, h.typed⟩

namespace Module

theorem isNamed_iff {name : String} {f : Function} : isNamed name f ↔ f.isLive ∧ f.name = name := by
  simp [isNamed]

theorem mem_live_of_find? {m : Module} {name : String} {f : Function} (h : m.find? name = some f) :
    f ∈ m.live ∧ f.name = name := by
  obtain ⟨hlive, hname⟩ := isNamed_iff.1 (List.find?_some h)
  exact ⟨List.mem_filter.2 ⟨List.mem_of_find?_eq_some h, hlive⟩, hname⟩

/-- A name stands for the first live function that has it. -/
theorem find?_eq_head?_live (m : Module) (name : String) :
    m.find? name = (m.live.filter fun f => f.name = name).head? := by
  rw [live, List.filter_filter, List.head?_filter, find?]
  congr 1
  funext f
  exact Bool.and_comm ..

theorem nodup_names_iff {m : Module} :
    (m.live.map Function.name).Nodup ↔
      m.functions.Pairwise fun f g => f.isLive → g.isLive → f.name ≠ g.name := by
  rw [List.Nodup, List.pairwise_map, live, List.pairwise_filter]

/-- Where live functions have different names, each is the one that its name stands for. -/
theorem find?_of_mem_live {m : Module} (hnodup : (m.live.map Function.name).Nodup) {f : Function}
    (hf : f ∈ m.live) : m.find? f.name = some f := by
  rw [find?_eq_head?_live, List.head?_filter]
  generalize m.live = fs at hf hnodup
  induction fs with
  | nil => cases hf
  | cons g fs ih =>
    rw [List.map_cons, List.nodup_cons] at hnodup
    rcases List.mem_cons.1 hf with rfl | hf
    · simp
    · have hne : g.name ≠ f.name := fun heq => hnodup.1 (heq ▸ List.mem_map_of_mem hf)
      rw [List.find?_cons_of_neg (by simpa using hne)]
      exact ih hf hnodup.2

/-- A change of a function that keeps its name, its life and its parameters changes no arity. -/
theorem arities_modify {m : Module} {place : Nat} {g : Function → Function}
    (h : ∀ f, m.functions[place]? = some f →
      (g f).name = f.name ∧ (g f).isLive = f.isLive ∧ (g f).arity = f.arity) :
    (m.modify place g).arities = m.arities := by
  funext name
  simp only [arities, find?, modify]
  generalize m.functions = fs at h
  induction fs generalizing place with
  | nil => cases place <;> rfl
  | cons f fs ih =>
    cases place with
    | zero =>
      obtain ⟨hname, hlive, harity⟩ := h f rfl
      have hnamed : isNamed name (g f) = isNamed name f := by simp only [isNamed, hname, hlive]
      rw [List.modify_zero_cons, List.find?_cons, List.find?_cons, hnamed]
      cases isNamed name f with
      | true => simp only [Option.map_some, harity]
      | false => rfl
    | succ place =>
      rw [List.modify_succ_cons, List.find?_cons, List.find?_cons]
      cases isNamed name f with
      | true => rfl
      | false => exact ih h

/-- A function more takes no name from another. -/
theorem arities_add {m : Module} {name : String} {k : Nat} (h : m.arities name = some k)
    (f : Function) : (m.add f).arities name = some k := by
  obtain ⟨g, hg, rfl⟩ := Option.map_eq_some_iff.1 h
  simp only [find?] at hg
  simp [arities, find?, add, List.find?_append, hg]

theorem arities_of_mem_live {m : Module} (hnodup : (m.live.map Function.name).Nodup) {f : Function}
    (hf : f ∈ m.live) : m.arities f.name = some f.arity := by
  rw [arities, find?_of_mem_live hnodup hf, Option.map_some]

theorem arities_eq_some_iff {m : Module} (hnodup : (m.live.map Function.name).Nodup) {name : String}
    {k : Nat} : m.arities name = some k ↔ ∃ f ∈ m.live, f.name = name ∧ f.arity = k := by
  constructor
  · intro h
    obtain ⟨f, hf, harity⟩ := Option.map_eq_some_iff.1 h
    obtain ⟨hlive, hname⟩ := isNamed_iff.1 (List.find?_some hf)
    exact ⟨f, List.mem_filter.2 ⟨List.mem_of_find?_eq_some hf, hlive⟩, hname, harity⟩
  · rintro ⟨f, hf, rfl, rfl⟩
    exact arities_of_mem_live hnodup hf

theorem verifyFunction_eq_ok {m : Module} {f : Function} :
    m.verifyFunction f = .ok () ↔ f.WellFormed m.arities := by
  rw [← Verify.check_eq_ok, verifyFunction]
  cases Verify.check m f <;> simp [Except.mapError]

theorem verifyFunctions_eq_ok {m : Module} {seen : List String} {fs : List Function} :
    m.verifyFunctions seen fs = .ok () ↔
      (∀ f ∈ fs, f.name ∉ seen) ∧ (fs.map Function.name).Nodup ∧
        ∀ f ∈ fs, f.WellFormed m.arities := by
  induction fs generalizing seen with
  | nil => simp [verifyFunctions]
  | cons f fs ih =>
    rw [verifyFunctions]
    split
    next hmem =>
      rw [bind_eq_ok]
      simp [throw, throwThe, MonadExceptOf.throw, hmem]
    next hmem =>
      rw [seq_eq_ok, verifyFunction_eq_ok, ih]
      rw [List.forall_mem_cons, List.forall_mem_cons, List.map_cons, List.nodup_cons]
      simp only [List.mem_cons, not_or, List.mem_map, not_exists, not_and]
      constructor
      · rintro ⟨h₁, h₂, h₃, h₄⟩
        exact ⟨⟨hmem, fun g hg => (h₂ g hg).2⟩, ⟨fun g hg => (h₂ g hg).1, h₃⟩, h₁, h₄⟩
      · rintro ⟨⟨_, h₂⟩, ⟨h₂', h₃⟩, h₁, h₄⟩
        exact ⟨h₁, fun g hg => ⟨h₂' g hg, h₂ g hg⟩, h₃, h₄⟩

/-- **Verification finds no fault exactly in a module whose live functions are well formed and have
different names.** -/
theorem verify_eq_ok {m : Module} :
    m.verify = .ok () ↔
      (m.live.map Function.name).Nodup ∧ ∀ f ∈ m.live, f.WellFormed m.arities := by
  simp [verify, verifyFunctions_eq_ok]

end Module

end StraightLine
