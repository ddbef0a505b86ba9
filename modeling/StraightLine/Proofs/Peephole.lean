import StraightLine.Pass.OperandOrder
import StraightLine.Proofs.Doubles
import StraightLine.Proofs.Refinement

/-!
# The passes that change one instruction at a time

A rule that turns an operation into one with the same typing and the same effect can be used
anywhere. Exchanging the operands of a sum or a product is such a rule, and so are the cheaper
operations, by the laws of doubles.
-/

namespace StraightLine

open Verify (Types OperandOk)

/-- The instruction `j` does what `i` does: both are plain, define the same temp, are in order in
the same places and have the same effect. -/
structure Exchange (i j : Instr) : Prop where
  plain : i.isPlain ∧ j.isPlain
  ok : ∀ A Γ, i.Ok A Γ → j.Ok A Γ
  typesAfter : ∀ Γ, j.typesAfter Γ = i.typesAfter Γ
  effect : ∀ st : Store, st.effect j = st.effect i

/-- Arithmetic can be exchanged for arithmetic on the same temp that has the same effect. -/
theorem Exchange.arith {r : Nat} {op op' : Arith} {a b a' b' : Operand}
    (hok : ∀ Γ, OperandOk Γ .double a → OperandOk Γ .double b →
      OperandOk Γ .double a' ∧ OperandOk Γ .double b')
    (heffect : ∀ st : Store, st.effect (.arith r op' a' b') = st.effect (.arith r op a b)) :
    Exchange (.arith r op a b) (.arith r op' a' b') where
  plain := ⟨rfl, rfl⟩
  ok A Γ h := by
    have ⟨ha, hb⟩ := hok Γ (h.operands (.double, a) (by simp [Instr.wants]))
      (h.operands (.double, b) (by simp [Instr.wants]))
    exact ⟨h.shaped, by simp [Instr.wants, ha, hb], h.fresh⟩
  typesAfter _ := rfl
  effect := heffect

namespace Function

variable {rule : Instr → Option Instr} (hrule : ∀ i j, rule i = some j → Exchange i j)
include hrule

theorem closed_map_rule {is : List Instr} (h : Code.Closed is) :
    Code.Closed (is.map fun i => (rule i).getD i) := by
  induction is with
  | nil => exact h
  | cons i is ih =>
    have ht : ((rule i).getD i).isTerminator = i.isTerminator := by
      cases hi : rule i with
      | none => rfl
      | some j =>
        have ⟨hpi, hpj⟩ := (hrule i j hi).plain
        exact (Instr.isTerminator_of_isPlain hpj).trans (Instr.isTerminator_of_isPlain hpi).symm
    by_cases hi : i.isTerminator
    · simpa [Code.Closed, ht, hi] using h
    · simpa [Code.Closed, ht, hi] using ih (by simpa [Code.Closed, hi] using h)

theorem typed_map_rule {A : Arities} {Γ : Types} {is : List Instr} (h : Code.Typed A Γ is) :
    Code.Typed A Γ (is.map fun i => (rule i).getD i) := by
  induction is generalizing Γ with
  | nil => trivial
  | cons i is ih =>
    cases hi : rule i with
    | none => simpa [Code.Typed, hi] using ⟨h.1, ih h.2⟩
    | some j =>
      have hx := hrule i j hi
      simpa [Code.Typed, hi, hx.typesAfter] using ⟨hx.ok A Γ h.1, ih h.2⟩

/-- Exchanges do not change how instructions run. -/
theorem run_map_rule {callee : Callee} {st : Store} {is : List Instr} {out : String} :
    st.run callee (is.map fun i => (rule i).getD i) out = st.run callee is out := by
  induction is generalizing st out with
  | nil => rfl
  | cons i is ih =>
    cases hi : rule i with
    | some j =>
      have hx := hrule i j hi
      simp only [List.map_cons, hi, Option.getD_some, Store.run_plain hx.plain.1,
        Store.run_plain hx.plain.2, hx.effect, ih]
    | none =>
      simp only [List.map_cons, hi, Option.getD_none]
      cases i with
      | call r f args => cases f <;> simp only [Store.run, ih]
      | _ => simp only [Store.run, ih]

/-- **Changing instructions by a rule that exchanges them is a refinement.** -/
theorem peephole_refines {A : Arities} {f : Function} (hf : f.WellFormed A) :
    (f.peephole rule).1.Refines A f := by
  refine hf.refines_mapBodies (fun b hb => closed_map_rule hrule (hf.closed b hb)) ?_
    fun b _ callee args out a h => (run_map_rule hrule).trans h
  rw [instrs_mapBodies rfl fun is js => List.map_append ..]
  exact typed_map_rule hrule hf.typed

end Function

/-! ### Order of operands -/

theorem Arith.eval_comm {op : Arith} (h : op.commutes) (x y : Float) :
    op.eval x y = op.eval y x := by
  cases op with
  | add => exact Double.add_comm x y
  | mul => exact Double.mul_comm x y
  | sub | div => cases h

/-- To swap the sides of an operator that commutes is an exchange. -/
theorem OperandOrder.exchange {i j : Instr} (h : rule i = some j) : Exchange i j := by
  cases i with
  | arith r op a b =>
    rw [rule] at h
    split at h
    next hc =>
      cases h
      refine .arith (fun _ ha hb => ⟨hb, ha⟩) fun st => ?_
      have hop : op.commutes := (Bool.and_eq_true_iff.1 hc).1
      simp only [Store.effect]
      cases st.float a <;> cases st.float b <;> simp [Arith.eval_comm hop]
    next => cases h
  | _ => cases h

theorem OperandOrder.run_refines {A : Arities} {f : Function} (hf : f.WellFormed A) :
    (run f).1.Refines A f :=
  Function.peephole_refines (fun _ _ => exchange) hf

/-! ### Cheaper operations -/

/-- To add the opposite, or to multiply by an exact reciprocal, is an exchange. -/
theorem Strength.exchange {i j : Instr} (h : rule i = some j) : Exchange i j := by
  unfold rule at h
  split at h
  next r a c =>
    split at h
    · cases h
    · cases h
      refine .arith (fun _ ha _ => ⟨ha, rfl⟩) fun st => ?_
      simp [Store.effect, Store.float, Store.held, Arith.eval, Double.sub_eq_add_neg]
  next r a c =>
    obtain ⟨d, hd, rfl⟩ := Option.map_eq_some_iff.1 h
    refine .arith (fun _ ha _ => ⟨ha, rfl⟩) fun st => ?_
    simp [Store.effect, Store.float, Store.held, Arith.eval,
      Double.div_eq_mul_of_exactReciprocal hd]
  next => cases h

theorem Strength.run_refines {A : Arities} {f : Function} (hf : f.WellFormed A) :
    (run f).1.Refines A f :=
  Function.peephole_refines (fun _ _ => exchange) hf

end StraightLine
