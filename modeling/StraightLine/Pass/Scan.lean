import StraightLine.Pass.Subst

/-!
# Scanning a function forward

Three passes have one form. They go through the instructions in order, with a substitution and a
state of their own. An instruction first has its operands replaced; then it is kept, dropped, or
dropped with an operand that stands for its result from there on. In the end the substitution is
applied to all that was kept, since an earlier block may use a temp that a later one defines.
-/

namespace StraightLine

/-- What a scan does with an instruction, and the state it goes on with. -/
inductive Fate (σ : Type) where
  | keep (state : σ)
  | drop (state : σ)
  /-- Drops the instruction and puts an operand in the place of its result. -/
  | replace (result : Nat) (operand : Operand) (state : σ)

/-- What a scan of some instructions gives. -/
structure Scan (σ α : Type) where
  /-- What was kept. -/
  kept : List α
  subst : Subst
  state : σ

namespace Scan

variable {σ : Type}

/-- Scans instructions. -/
def instrs (fate : σ → Instr → Fate σ) : Subst → σ → List Instr → Scan σ Instr
  | s, st, [] => ⟨[], s, st⟩
  | s, st, i :: rest =>
    let i := s.instr i
    match fate st i with
    | .keep st =>
      let r := instrs fate s st rest
      { r with kept := i :: r.kept }
    | .drop st => instrs fate s st rest
    | .replace t v st => instrs fate ((t, v) :: s) st rest

/-- Scans blocks, where `enter` makes the state that a block starts with out of the one that the
block before it ended with. -/
def blocks (fate : σ → Instr → Fate σ) (enter : σ → σ) : Subst → σ → List Block → Scan σ Block
  | s, st, [] => ⟨[], s, st⟩
  | s, st, b :: rest =>
    let r := instrs fate s (enter st) b.instrs
    let t := blocks fate enter r.subst r.state rest
    { t with kept := { b with instrs := r.kept } :: t.kept }

/-- Scans a function and applies the substitution to what is left of it. Gives the substitution as
well. -/
def function (fate : σ → Instr → Fate σ) (enter : σ → σ) (st : σ) (f : Function) :
    Function × Subst :=
  let r := blocks fate enter [] st f.blocks
  (r.subst.function { f with blocks := r.kept }, r.subst)

end Scan

end StraightLine
