import StraightLine.Proofs.WellFormed

/-!
# What verification accepts, position by position

Verification goes through a function once and keeps a table of the temps that it has seen. What it
accepts is said here without a table and without an order: of every position among the instructions
of a function, the blocks one after another, what may stand there (`Module.Allows`); of every two
positions, that they define different temps; and of every block, that it returns at its last
position and at no other. A function is legal if it satisfies this (`Function.Legal`), and
verification accepts exactly the legal functions.
-/

namespace StraightLine

/-! ### Legal functions -/

namespace Function

/-- A temp has a type at a position: it is a parameter, or an instruction at an earlier position
defines it. -/
def HasAt (f : Function) (k id : Nat) (t : Ty) : Prop :=
  (∃ p ∈ f.params, p.1 = id ∧ t = .double) ∨
    ∃ j < k, ∃ i, f.instrs[j]? = some i ∧ i.result? = some id ∧ i.resultType? = some t

/-- An operand can be read at a position as something of a type. -/
def FitsAt (f : Function) (k : Nat) (t : Ty) : Operand → Prop
  | .temp id => f.HasAt k id t
  | .float _ => t = .double
  | .bool _ => t = .i1
  | .string bytes => t = .bytes bytes.length
  | .function _ => False
  | .undef => True

end Function

/-- An instruction may stand at a position of a function of a module. -/
def Module.Allows (m : Module) (f : Function) (k : Nat) : Instr → Prop
  | .alloca _ t _ => t = .double
  | .load _ p t => t = .double ∧ f.FitsAt k .slot p
  | .store v p => f.FitsAt k .double v ∧ f.FitsAt k .slot p
  | .arith _ _ a b | .compare _ _ a b => f.FitsAt k .double a ∧ f.FitsAt k .double b
  | .widen _ v => f.FitsAt k .i1 v
  | .call _ callee args =>
    (∃ name g, callee = .function name ∧ m.find? name = some g ∧ g.arity = args.length) ∧
      ∀ a ∈ args, f.FitsAt k .double a
  | .ret v => f.FitsAt k .double v

/-- A block returns at its last position and at no other. -/
def Block.ReturnsLast (b : Block) : Prop :=
  b.instrs ≠ [] ∧ ∀ k i, b.instrs[k]? = some i → ((∃ v, i = .ret v) ↔ k + 1 = b.instrs.length)

namespace Function

/-- A body that is legal in a module. -/
structure LegalBody (m : Module) (f : Function) : Prop where
  numbered : ∀ (k : Nat) (p : Nat × String), f.params[k]? = some p → p.1 = k
  returnsLast : ∀ b ∈ f.blocks, b.ReturnsLast
  /-- No two instructions define the same temp. -/
  once : ∀ (j k : Nat) (i i' : Instr) (r : Nat), f.instrs[j]? = some i → f.instrs[k]? = some i' →
    i.result? = some r → i'.result? = some r → j = k
  /-- No instruction defines a parameter. -/
  new : ∀ i ∈ f.instrs, ∀ p ∈ f.params, i.result? ≠ some p.1
  allowed : ∀ k i, f.instrs[k]? = some i → m.Allows f k i

/-- A function that is legal in a module: it returns a double, and it is external and has no body
or has a legal one. -/
def Legal (m : Module) (f : Function) : Prop :=
  f.returnType = .double ∧
    (f.isExternal ∧ f.blocks = [] ∨ f.isExternal = false ∧ f.blocks ≠ [] ∧ f.LegalBody m)

end Function

/-! ### Blocks -/

theorem Instr.isTerminator_iff {i : Instr} : i.isTerminator ↔ ∃ v, i = .ret v := by
  cases i <;> simp [isTerminator]

/-- The last and only the last instruction is a return. -/
theorem Block.returnsLast_iff {b : Block} : b.ReturnsLast ↔ Code.Closed b.instrs := by
  unfold ReturnsLast
  generalize b.instrs = is
  induction is with
  | nil => simp [Code.Closed]
  | cons i is ih =>
    have hpositions : (∀ k j, (i :: is)[k]? = some j →
        ((∃ v, j = .ret v) ↔ k + 1 = (i :: is).length)) ↔
        (i.isTerminator ↔ is = []) ∧
          ∀ k j, is[k]? = some j → ((∃ v, j = .ret v) ↔ k + 1 = is.length) := by
      constructor
      · intro h
        refine ⟨?_, fun k j hj => by simpa using h (k + 1) j (by simpa using hj)⟩
        rw [Instr.isTerminator_iff, h 0 i rfl]
        simp
      · rintro ⟨hfirst, hrest⟩ k j hj
        cases k with
        | zero =>
          obtain rfl : i = j := by simpa using hj
          rw [← Instr.isTerminator_iff, hfirst]
          simp
        | succ k => simpa using hrest k j (by simpa using hj)
    rw [Code.Closed, ← ih, hpositions]
    by_cases hi : i.isTerminator
    · rw [if_pos hi]
      refine ⟨fun h => h.2.1.1 hi, ?_⟩
      rintro rfl
      simp [hi]
    · rw [if_neg hi]
      refine ⟨fun h => ⟨fun his => hi (h.2.1.2 his), h.2.2⟩, fun h => ?_⟩
      exact ⟨by simp, by simp [hi, h.1], h.2⟩

/-! ### Temps -/

namespace Code

open Verify

variable {A : Arities} {Γ : Types} {is : List Instr}

/-- After instructions a temp is new if it was before and none of them defines it. -/
theorem lookup_typesAfter_eq_none {r : Nat} :
    (typesAfter Γ is).lookup r = none ↔ Γ.lookup r = none ∧ ∀ i ∈ is, i.result? ≠ some r := by
  induction is generalizing Γ with
  | nil => simp
  | cons i is ih =>
    rw [typesAfter_cons, ih, Instr.lookup_typesAfter, List.forall_mem_cons]
    by_cases hr : i.result? = some r
    · cases ht : i.resultType? with
      | none => simp [Instr.result?_eq_none_iff.2 ht] at hr
      | some t => simp [hr]
    · simp [hr]

/-- After instructions in order a temp has the type that it had before, or that one of them gives
it. -/
theorem Typed.lookup_eq_some_iff (h : Typed A Γ is) {id : Nat} {t : Ty} :
    (typesAfter Γ is).lookup id = some t ↔
      Γ.lookup id = some t ∨ ∃ i ∈ is, i.result? = some id ∧ i.resultType? = some t := by
  constructor
  · intro hid
    induction is generalizing Γ with
    | nil => exact .inl hid
    | cons i is ih =>
      rcases ih h.2 hid with hid | ⟨j, hj, hdefines⟩
      · rw [Instr.lookup_typesAfter] at hid
        split at hid
        next hr => exact .inr ⟨i, List.mem_cons_self, hr, hid⟩
        next => exact .inl hid
      · exact .inr ⟨j, List.mem_cons_of_mem i hj, hdefines⟩
  · rintro (hid | ⟨i, hi, hr, ht⟩)
    · exact h.extends id t hid
    · exact h.lookup_result hi hr ht

theorem mem_take_iff {k : Nat} {i : Instr} : i ∈ is.take k ↔ ∃ j < k, is[j]? = some i := by
  simp only [List.mem_iff_getElem?, List.getElem?_take]
  constructor
  · rintro ⟨j, hj⟩
    split at hj
    next hlt => exact ⟨j, hlt, hj⟩
    next => cases hj
  · rintro ⟨j, hlt, hj⟩
    exact ⟨j, by rwa [if_pos hlt]⟩

/-- Instructions are in order if each is where those before it are. -/
theorem typed_take_succ {k : Nat} {i : Instr} (hi : is[k]? = some i) :
    Typed A Γ (is.take (k + 1)) ↔
      Typed A Γ (is.take k) ∧ i.Ok A (typesAfter Γ (is.take k)) := by
  rw [List.take_add_one, hi, Option.toList_some, typed_append]
  simp [Typed]

end Code

namespace Function

open Verify Code

variable {A : Arities} {m : Module} {f : Function} {k : Nat}

theorem lookup_paramTypes_eq_some_iff {id : Nat} {t : Ty} :
    f.paramTypes.lookup id = some t ↔ ∃ p ∈ f.params, p.1 = id ∧ t = .double := by
  unfold paramTypes
  generalize f.params = ps
  induction ps with
  | nil => simp
  | cons p ps ih =>
    by_cases hid : id = p.1
    · subst hid
      simp [eq_comm]
    · rw [List.map_cons, lookup_cons_of_ne hid, ih]
      simp [Ne.symm hid]

theorem lookup_paramTypes_eq_none {id : Nat} :
    f.paramTypes.lookup id = none ↔ ∀ p ∈ f.params, p.1 ≠ id := by
  simp only [Option.eq_none_iff_forall_ne_some, ne_eq, lookup_paramTypes_eq_some_iff]
  constructor
  · intro h p hp hid
    exact h .double ⟨p, hp, hid, rfl⟩
  · rintro h t ⟨p, hp, hid, -⟩
    exact h p hp hid

/-- The table of types says of a position what the instructions before it do. -/
theorem hasAt_iff (h : Typed A f.paramTypes (f.instrs.take k)) {id : Nat} {t : Ty} :
    f.HasAt k id t ↔ (typesAfter f.paramTypes (f.instrs.take k)).lookup id = some t := by
  rw [h.lookup_eq_some_iff, lookup_paramTypes_eq_some_iff, HasAt]
  refine or_congr_right ?_
  simp only [mem_take_iff]
  constructor
  · rintro ⟨j, hj, i, hi, hdefines⟩
    exact ⟨i, ⟨j, hj, hi⟩, hdefines⟩
  · rintro ⟨i, ⟨j, hj, hi⟩, hdefines⟩
    exact ⟨j, hj, i, hi, hdefines⟩

theorem fitsAt_iff (h : Typed A f.paramTypes (f.instrs.take k)) {t : Ty} {v : Operand} :
    f.FitsAt k t v ↔ OperandOk (typesAfter f.paramTypes (f.instrs.take k)) t v := by
  cases v with
  | temp id => exact hasAt_iff h
  | _ => exact Iff.rfl

/-- What may stand at a position is what is in order there, but for the temp that it defines. -/
theorem allows_iff (h : Typed m.arities f.paramTypes (f.instrs.take k)) {i : Instr} :
    m.Allows f k i ↔ i.Shaped m.arities ∧
      ∀ w ∈ i.wants, OperandOk (typesAfter f.paramTypes (f.instrs.take k)) w.1 w.2 := by
  cases i with
  | call r callee args =>
    simp [Module.Allows, Instr.Shaped, Instr.wants, Module.arities, fitsAt_iff h,
      Option.map_eq_some_iff]
  | _ => simp [Module.Allows, Instr.Shaped, Instr.wants, fitsAt_iff h]

/-- A temp is new at a position if it is no parameter and no instruction before defines it. -/
theorem lookup_take_eq_none {r : Nat} :
    (typesAfter f.paramTypes (f.instrs.take k)).lookup r = none ↔
      (∀ p ∈ f.params, p.1 ≠ r) ∧ ∀ j < k, ∀ i, f.instrs[j]? = some i → i.result? ≠ some r := by
  rw [lookup_typesAfter_eq_none, lookup_paramTypes_eq_none]
  refine and_congr_right fun _ => ?_
  simp only [mem_take_iff]
  exact ⟨fun h j hj i hi => h i ⟨j, hj, hi⟩, by rintro h i ⟨j, hj, hi⟩; exact h j hj i hi⟩

/-! ### Functions and modules -/

/-- The instructions up to a position are in order if what stands at each is allowed there and
defines a temp that is new there. -/
theorem typed_take_iff (hk : k ≤ f.instrs.length) :
    Typed m.arities f.paramTypes (f.instrs.take k) ↔
      ∀ j < k, ∀ i, f.instrs[j]? = some i → m.Allows f j i ∧ ∀ r, i.result? = some r →
        (typesAfter f.paramTypes (f.instrs.take j)).lookup r = none := by
  induction k with
  | zero => simp [Typed]
  | succ k ih =>
    obtain ⟨i, hi⟩ : ∃ i, f.instrs[k]? = some i := ⟨_, List.getElem?_eq_getElem hk⟩
    rw [typed_take_succ hi]
    constructor
    · rintro ⟨htyped, hok⟩ j hj i' hi'
      rcases Nat.lt_succ_iff_lt_or_eq.1 hj with hj | rfl
      · exact (ih (by omega)).1 htyped j hj i' hi'
      · obtain rfl := Option.some.inj (hi.symm.trans hi')
        exact ⟨(allows_iff htyped).2 ⟨hok.shaped, hok.operands⟩, hok.fresh⟩
    · intro h
      have htyped := (ih (by omega)).2 fun j hj => h j (by omega)
      obtain ⟨hallows, hfresh⟩ := h k (by omega) i hi
      obtain ⟨hshaped, hoperands⟩ := (allows_iff htyped).1 hallows
      exact ⟨htyped, hshaped, hoperands, hfresh⟩

/-- The instructions of a function are in order exactly when each is allowed where it stands, and no
temp is defined twice. -/
theorem typed_iff :
    Typed m.arities f.paramTypes f.instrs ↔
      (∀ k i, f.instrs[k]? = some i → m.Allows f k i) ∧
      (∀ (j k : Nat) (i i' : Instr) (r : Nat), f.instrs[j]? = some i → f.instrs[k]? = some i' →
        i.result? = some r → i'.result? = some r → j = k) ∧
      ∀ i ∈ f.instrs, ∀ p ∈ f.params, i.result? ≠ some p.1 := by
  have hall := typed_take_iff (m := m) (f := f) (k := f.instrs.length) le_rfl
  rw [List.take_length] at hall
  simp only [lookup_take_eq_none] at hall
  rw [hall]
  constructor
  · intro h
    have hat {k : Nat} {i : Instr} (hi : f.instrs[k]? = some i) :=
      h k (List.getElem?_eq_some_iff.1 hi).1 i hi
    -- Of two positions that define the same temp, the later one would find it defined.
    have hlt {j k : Nat} {i i' : Instr} {r : Nat} (hi : f.instrs[j]? = some i)
        (hi' : f.instrs[k]? = some i') (hr : i.result? = some r) (hr' : i'.result? = some r) :
        ¬ j < k := fun hj => ((hat hi').2 r hr').2 j hj i hi hr
    refine ⟨fun k i hi => (hat hi).1, fun j k i i' r hi hi' hr hr' => ?_, fun i hi p hp hr => ?_⟩
    · have hjk := hlt hi hi' hr hr'
      have hkj := hlt hi' hi hr' hr
      omega
    · obtain ⟨k, hk⟩ := List.mem_iff_getElem?.1 hi
      exact ((hat hk).2 p.1 hr).1 p hp rfl
  · rintro ⟨hallowed, honce, hnew⟩ k _ i hi
    refine ⟨hallowed k i hi, fun r hr => ⟨fun p hp heq => ?_, fun j hj i' hi' hr' => ?_⟩⟩
    · exact hnew i (List.mem_of_getElem? hi) p hp (heq ▸ hr)
    · exact absurd (honce j k i' i r hi' hi hr' hr) (Nat.ne_of_lt hj)

theorem numbered_iff :
    (∀ (k : Nat) (p : Nat × String), f.params[k]? = some p → p.1 = k) ↔
      f.params.map Prod.fst = List.range f.arity := by
  constructor
  · intro h
    refine List.ext_getElem (by simp [arity]) fun k hk _ => ?_
    rw [List.getElem_map, List.getElem_range]
    exact h k _ (List.getElem?_eq_getElem (by simpa using hk))
  · intro h k p hp
    have hlt : k < f.arity := (List.getElem?_eq_some_iff.1 hp).1
    have hk := congrArg (·[k]?) h
    rw [List.getElem?_map, hp, List.getElem?_range hlt] at hk
    exact Option.some.inj hk

/-- The legal functions are the well-formed ones. -/
theorem legal_iff : f.Legal m ↔ f.WellFormed m.arities := by
  constructor
  · rintro ⟨hreturns, ⟨hexternal, hblocks⟩ | ⟨hexternal, hblocks, hbody⟩⟩
    · refine ⟨hreturns, by simp [hexternal, hblocks], by simp [hexternal], by simp [hblocks], ?_⟩
      simp [instrs, hblocks, Typed]
    · exact ⟨hreturns, by simp [hexternal, hblocks], fun _ => numbered_iff.1 hbody.numbered,
        fun b hb => Block.returnsLast_iff.1 (hbody.returnsLast b hb),
        typed_iff.2 ⟨hbody.allowed, hbody.once, hbody.new⟩⟩
  · intro h
    refine ⟨h.returns, ?_⟩
    cases hexternal : f.isExternal with
    | true => exact .inl ⟨rfl, h.bodiless.1 hexternal⟩
    | false =>
      obtain ⟨hallowed, honce, hnew⟩ := typed_iff.1 h.typed
      refine .inr ⟨rfl, ?_, numbered_iff.2 (h.numbered hexternal),
        fun b hb => Block.returnsLast_iff.2 (h.closed b hb), honce, hnew, hallowed⟩
      intro hblocks
      simpa [hexternal] using h.bodiless.2 hblocks

end Function

/-- **Verification accepts exactly what is legal.** A function is accepted in a module if and only
if it is legal there, and a module if and only if its live functions have different names and are
legal in it. -/
theorem Module.verify_iff_legal (m : Module) :
    (∀ f, m.verifyFunction f = .ok () ↔ f.Legal m) ∧
      (m.verify = .ok () ↔ (m.live.map Function.name).Nodup ∧ ∀ f ∈ m.live, f.Legal m) := by
  simp only [verifyFunction_eq_ok, verify_eq_ok, Function.legal_iff, implies_true, and_self]

end StraightLine
