import StraightLine.Pass.Scan

/-!
# Common expressions

Within a block, an expression that has been computed before is not computed again, and a load from
a slot whose contents are known, from a store or an earlier load, is not made: the earlier value
stands for the later one.
-/

namespace StraightLine.CommonExpressions

/-- What an instruction computes from its operands alone. -/
inductive Expression where
  | arith (op : Arith) (lhs rhs : Operand)
  | compare (pred : Predicate) (lhs rhs : Operand)
  | widen (value : Operand)
  deriving DecidableEq, Repr

/-- The expression that an instruction computes, and the temp it defines. -/
def expression? : Instr → Option (Expression × Nat)
  | .arith r op a b => some (.arith op a b, r)
  | .compare r p a b => some (.compare p a b, r)
  | .widen r v => some (.widen v, r)
  | _ => none

/-- What is known inside a block. -/
structure Known where
  /-- The temps that hold expressions. -/
  expressions : List (Expression × Nat) := []
  /-- The contents of slots. -/
  contents : List (Nat × Operand) := []

/-- What is done with an instruction, given what is known before it. -/
def fate (k : Known) (i : Instr) : Fate Known :=
  match i with
  | .store v (.temp p) => .keep { k with contents := (p, v) :: k.contents }
  | .load r (.temp p) _ =>
    match k.contents.lookup p with
    | some v => .replace r v k
    | none => .keep { k with contents := (p, .temp r) :: k.contents }
  | _ =>
    match expression? i with
    | some (e, r) =>
      match k.expressions.lookup e with
      | some earlier => .replace r (.temp earlier) k
      | none => .keep { k with expressions := (e, r) :: k.expressions }
    | none => .keep k

/-- Removes repeated expressions and loads; also says whether there were any. -/
def run (f : Function) : Function × Bool :=
  let (f, s) := Scan.function fate (fun _ => {}) {} f
  (f, !s.isEmpty)

end StraightLine.CommonExpressions
