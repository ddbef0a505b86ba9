import Mathlib
import StraightLine.Ast.Basic
import StraightLine.Eval

/-!
# Interpreting programs

The meaning of programs, said without code: expressions are evaluated from left to right, a `let`
makes a new variable in front of whatever had its name, `=` changes the latest variable with its
name, and parameters never change. Calls go by name to the definitions of a program, and nest as
deep as in the evaluation of code; a function without a body is one of the host.

A string is a value that nothing can be done with but to drop it.
-/

namespace StraightLine.Interpreter

open Eval (Run Failure)

/-! ### Values -/

/-- What an expression can evaluate to. -/
inductive Value where
  | number (x : Float)
  | text (s : String)

/-- What a name stands for while a function runs. -/
inductive Local where
  | param (x : Float)
  | var (x : Float)

/-- The number behind a name. -/
def Local.value : Local → Float
  | param x | var x => x

/-- The names of a running function, the latest first. -/
abbrev Locals := List (String × Local)

/-- Gives the latest binding of a name a new value. There is none if the name is not bound, or is a
parameter. -/
def assign (name : String) (x : Float) : Locals → Option Locals
  | [] => none
  | (n, l) :: rest =>
    if n = name then
      match l with
      | .param _ => none
      | .var _ => some ((n, .var x) :: rest)
    else (assign name x rest).map ((n, l) :: ·)

/-- The value of an operator. A comparison is one or zero, and zero if a side is not a number. -/
def apply (op : BinaryOp) (x y : Float) : Float :=
  let truth (b : Bool) : Float := if x.isNaN || y.isNaN then 0.0 else if b then 1.0 else 0.0
  match op with
  | .add => x + y
  | .sub => x - y
  | .mul => x * y
  | .div => x / y
  | .equal => truth (x == y)
  | .notEqual => truth (x != y)
  | .less => truth (x < y)
  | .lessEqual => truth (x ≤ y)
  | .greater => truth (x > y)
  | .greaterEqual => truth (x ≥ y)

/-- The number that a value must be. -/
def number (function : String) : Value → Run Float
  | .number x => pure x
  | .text s => throw ⟨function, .noMeaning (.string s.toUTF8.toList)⟩

/-! ### Expressions and statements -/

section Function

variable (callee : String → List Float → Run Float) (function : String)

mutual

/-- Evaluates an expression of a function, where `callee` runs the functions that it calls. -/
def expr (locals : Locals) : Expr → Run Value
  | .number c => pure (.number c.value)
  | .string s => pure (.text s)
  | .var name =>
    match locals.lookup name with
    | some l => pure (.number l.value)
    | none => throw ⟨function, .noMeaning .undef⟩
  | .binary op l r => do
    let x ← number function (← expr locals l)
    let y ← number function (← expr locals r)
    pure (.number (apply op x y))
  | .call name args => do
    let xs ← exprs locals args
    let x ← callee name xs
    pure (.number x)

/-- Evaluates arguments from left to right. -/
def exprs (locals : Locals) : List Expr → Run (List Float)
  | [] => pure []
  | e :: es => do
    let x ← number function (← expr locals e)
    let xs ← exprs locals es
    pure (x :: xs)

end

/-- Executes a statement that does not end the function, and gives the names after it. -/
def stmt (locals : Locals) : Stmt → Run Locals
  | .bind name e => do
    let x ← number function (← expr callee function locals e)
    pure ((name, .var x) :: locals)
  | .assign name e => do
    let x ← number function (← expr callee function locals e)
    match assign name x locals with
    | some locals => pure locals
    | none => throw ⟨function, .noMeaning .undef⟩
  | .eval e => do
    let _ ← expr callee function locals e
    pure locals
  | .ret _ => pure locals

/-- Executes statements up to the first that ends the function, and gives what it returns. -/
def stmts (locals : Locals) : List Stmt → Run Float
  | [] => throw ⟨function, .noReturn⟩
  | .ret e :: _ => do number function (← expr callee function locals e)
  | s :: rest => do
    let locals ← stmt callee function locals s
    stmts locals rest

end Function

/-! ### Programs -/

/-- What a name stands for in a program. -/
inductive Definition where
  /-- A function of the host. -/
  | external (arity : Nat)
  | function (params : List String) (body : List Stmt)

/-- The number of parameters. -/
def Definition.arity : Definition → Nat
  | external n => n
  | function params _ => params.length

/-- The names that a function starts with. -/
def start (params : List String) (args : List Float) : Locals := params.zip (args.map .param)

/-- Calls a function by name, where calls may still nest `depth` deep. -/
def callAt (defs : List (String × Definition)) (depth : Nat) (name : String) (args : List Float) :
    Run Float :=
  match defs.lookup name with
  | none => throw ⟨name, .noFunction name⟩
  | some d =>
    if d.arity ≠ args.length then throw ⟨name, .arity d.arity args.length⟩
    else match d, depth with
      | .external _, _ => Eval.host name args
      | .function _ _, 0 => throw ⟨name, .depthExceeded⟩
      | .function params body, d + 1 => stmts (callAt defs d) name (start params args) body

/-- What a call gives and the text that it writes. -/
def call (defs : List (String × Definition)) (name : String) (args : List Float) :
    Except Failure Float × String :=
  match callAt defs Eval.maxDepth name args "" with
  | .ok x out => (.ok x, out)
  | .error e out => (.error e, out)

/-! ### Names -/

/-- An assignment to a variable changes what its name stands for, and no other name. -/
theorem assign_of_lookup {name : String} {locals : Locals} {y : Float}
    (h : locals.lookup name = some (.var y)) (x : Float) :
    ∃ locals', assign name x locals = some locals' ∧
      locals'.lookup name = some (.var x) ∧
      ∀ n, n ≠ name → locals'.lookup n = locals.lookup n := by
  induction locals with
  | nil => cases h
  | cons b rest ih =>
    obtain ⟨n, l⟩ := b
    by_cases hn : n = name
    · subst hn
      rw [List.lookup_cons_self] at h
      cases h
      refine ⟨(n, .var x) :: rest, by simp [assign], List.lookup_cons_self, fun n' hn' => ?_⟩
      simp [List.lookup_cons, beq_false_of_ne hn']
    · have hne := beq_false_of_ne (Ne.symm hn)
      rw [List.lookup_cons, hne] at h
      obtain ⟨rest', hrest, hself, hothers⟩ := ih h
      refine ⟨(n, l) :: rest', by simp [assign, hn, hrest], ?_, fun n' hn' => ?_⟩
      · rw [List.lookup_cons, hne]
        exact hself
      · rw [List.lookup_cons, List.lookup_cons, hothers n' hn']

/-- An operator computes what its arithmetic or its comparison does. -/
theorem apply_eq (op : BinaryOp) (x y : Float) :
    apply op x y = match op.meaning with
      | .arithmetic a => a.eval x y
      | .comparison p => widen (p.eval x y) := by
  cases op <;> simp only [apply, BinaryOp.meaning, Arith.eval, Predicate.eval, widen] <;> split <;>
    simp

end StraightLine.Interpreter
