import StraightLine.Ir.Operator
import StraightLine.Numeral

/-!
# Programs

A program is a list of items: functions, declarations of functions that the host provides, and
expressions to be evaluated at once. The body of a function is a list of statements.
-/

namespace StraightLine

/-- The operators of expressions. -/
inductive BinaryOp where
  | add
  | sub
  | mul
  | div
  | equal
  | notEqual
  | less
  | lessEqual
  | greater
  | greaterEqual
  deriving DecidableEq, Repr

/-- What an operator computes. -/
inductive Meaning where
  | arithmetic (op : Arith)
  | comparison (pred : Predicate)
  deriving DecidableEq, Repr

namespace BinaryOp

/-- The operation or the comparison that an operator stands for. -/
def meaning : BinaryOp → Meaning
  | add => .arithmetic .add
  | sub => .arithmetic .sub
  | mul => .arithmetic .mul
  | div => .arithmetic .div
  | equal => .comparison .oeq
  | notEqual => .comparison .one
  | less => .comparison .olt
  | lessEqual => .comparison .ole
  | greater => .comparison .ogt
  | greaterEqual => .comparison .oge

/-- An operator as it is written between its sides. -/
def text : BinaryOp → String
  | add => "+"
  | sub => "-"
  | mul => "*"
  | div => "/"
  | equal => "=="
  | notEqual => "!="
  | less => "<"
  | lessEqual => "<="
  | greater => ">"
  | greaterEqual => ">="

end BinaryOp

/-- An expression. -/
inductive Expr where
  | number (c : Numeral)
  | string (s : String)
  /-- A parameter or a variable. -/
  | var (name : String)
  | binary (op : BinaryOp) (left right : Expr)
  | call (callee : String) (args : List Expr)

/-- A statement of a function body. -/
inductive Stmt where
  /-- Makes a new variable. -/
  | bind (name : String) (value : Expr)
  /-- Changes a variable. -/
  | assign (name : String) (value : Expr)
  /-- Evaluates an expression for what it writes. -/
  | eval (value : Expr)
  /-- Ends the function. -/
  | ret (value : Expr)

/-- Whether a statement ends the function. -/
def Stmt.isReturn : Stmt → Bool
  | ret _ => true
  | _ => false

/-- The name of a function and of its parameters. -/
structure Prototype where
  name : String
  params : List String

/-- A part of a program. -/
inductive Item where
  | function (proto : Prototype) (body : List Stmt)
  /-- A function that the host provides. -/
  | external (proto : Prototype)
  /-- An expression to be evaluated at once. -/
  | topLevel (value : Expr)

/-- A list of items. -/
structure Program where
  items : List Item

end StraightLine
