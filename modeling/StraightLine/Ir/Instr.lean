import StraightLine.Ir.Operand
import StraightLine.Ir.Operator
import StraightLine.Ir.Ty

/-!
# Instructions

An instruction reads operands and may define one temp. There are no branches: the only terminator
is the return.
-/

namespace StraightLine

/-- A step of a function body. -/
inductive Instr where
  /-- Makes a slot for a variable; the name is kept for the text. -/
  | alloca (result : Nat) (type : Ty) (name : String)
  /-- Reads a slot. -/
  | load (result : Nat) (ptr : Operand) (type : Ty)
  /-- Writes a slot. -/
  | store (value ptr : Operand)
  /-- An operation on two doubles. -/
  | arith (result : Nat) (op : Arith) (lhs rhs : Operand)
  /-- A comparison of two doubles. -/
  | compare (result : Nat) (pred : Predicate) (lhs rhs : Operand)
  /-- Makes a double of a comparison result. -/
  | widen (result : Nat) (value : Operand)
  /-- Calls a function. -/
  | call (result : Nat) (callee : Operand) (args : List Operand)
  /-- Ends the function with a value. -/
  | ret (value : Operand)
  deriving DecidableEq, Repr

namespace Instr

/-- The temp that an instruction defines. -/
def result? : Instr → Option Nat
  | alloca r _ _ | load r _ _ | arith r _ _ _ | compare r _ _ _ | widen r _ | call r _ _ => some r
  | store _ _ | ret _ => none

/-- The type of the temp that an instruction defines. -/
def resultType? : Instr → Option Ty
  | alloca _ t _ => some (.ptr t)
  | load _ _ t => some t
  | arith _ _ _ _ | widen _ _ | call _ _ _ => some .double
  | compare _ _ _ _ => some .i1
  | store _ _ | ret _ => none

/-- The slot that an instruction makes. -/
def made? : Instr → Option Nat
  | alloca r _ _ => some r
  | _ => none

/-- What an instruction reads, in the order in which it is written. -/
def operands : Instr → List Operand
  | alloca _ _ _ => []
  | load _ p _ => [p]
  | store v p => [v, p]
  | arith _ _ a b | compare _ _ a b => [a, b]
  | widen _ v => [v]
  | call _ f args => f :: args
  | ret v => [v]

/-- The instruction with every operand changed. -/
def mapOperands (f : Operand → Operand) : Instr → Instr
  | alloca r t n => alloca r t n
  | load r p t => load r (f p) t
  | store v p => store (f v) (f p)
  | arith r op a b => arith r op (f a) (f b)
  | compare r p a b => compare r p (f a) (f b)
  | widen r v => widen r (f v)
  | call r c args => call r (f c) (args.map f)
  | ret v => ret (f v)

/-- The temps that an instruction reads. -/
def uses (i : Instr) : List Nat := i.operands.filterMap Operand.temp?

/-- Whether an instruction ends a block. -/
def isTerminator : Instr → Bool
  | ret _ => true
  | _ => false

/-- Whether an instruction does nothing but define its temp. -/
def isPure : Instr → Bool
  | alloca _ _ _ | load _ _ _ | arith _ _ _ _ | compare _ _ _ _ | widen _ _ => true
  | store _ _ | call _ _ _ | ret _ => false

/-- The text of an instruction. -/
def text : Instr → String
  | alloca r t n => "%" ++ toString r ++ " = alloca " ++ t.text ++ " ; " ++ n
  | load r p t => "%" ++ toString r ++ " = load " ++ t.text ++ ", " ++ t.text ++ "* " ++ p.text
  | store v p => "store double " ++ v.text ++ ", double* " ++ p.text
  | arith r op a b =>
    "%" ++ toString r ++ " = " ++ op.text ++ " double " ++ a.text ++ ", " ++ b.text
  | compare r p a b =>
    "%" ++ toString r ++ " = fcmp " ++ p.text ++ " double " ++ a.text ++ ", " ++ b.text
  | widen r v => "%" ++ toString r ++ " = uitofp i1 " ++ v.text ++ " to double"
  | call r f args =>
    "%" ++ toString r ++ " = call double " ++ f.text ++ "(" ++
      ", ".intercalate (args.map fun a => "double " ++ a.text) ++ ")"
  | ret v => "ret double " ++ v.text

end Instr

end StraightLine
