import StraightLine.Error
import StraightLine.Ir.Module
import StraightLine.Pass.CommonExpressions
import StraightLine.Pass.DeadCode
import StraightLine.Pass.Folding
import StraightLine.Pass.OperandOrder
import StraightLine.Pass.Reachable
import StraightLine.Pass.SlotPromotion
import StraightLine.Pass.Strength
import StraightLine.Pass.UnreadSlots

/-!
# Passes

The eight transformations of functions, by name. None of them touches an external function.
-/

namespace StraightLine

/-- A transformation of functions. -/
inductive Pass where
  /-- Drops slots that are never read. -/
  | sroa
  /-- Reuses expressions and known contents of slots. -/
  | earlyCse
  /-- Drops what cannot be reached. -/
  | simplifyCfg
  /-- Orders the operands of operations that commute. -/
  | reassociate
  /-- Turns slots into temps. -/
  | mem2reg
  /-- Folds constants and identities. -/
  | instSimplify
  /-- Puts cheaper operations in the place of others. -/
  | instCombine
  /-- Drops what is computed and never read. -/
  | dce
  deriving DecidableEq, Repr

namespace Pass

/-- All passes, in the order of the standard pipeline. -/
def all : List Pass :=
  [sroa, earlyCse, simplifyCfg, reassociate, mem2reg, instSimplify, instCombine, dce]

/-- The name of a pass. -/
def name : Pass → String
  | sroa => "sroa"
  | earlyCse => "early-cse"
  | simplifyCfg => "simplifycfg"
  | reassociate => "reassociate"
  | mem2reg => "mem2reg"
  | instSimplify => "instsimplify"
  | instCombine => "instcombine"
  | dce => "dce"

/-- The pass with a name. -/
def ofName (s : String) : Except Error Pass :=
  match all.find? fun p => p.name = s with
  | some p => .ok p
  | none => .error (.toolchain ("Unknown pass '" ++ s ++ "'"))

/-- Transforms the body of a function; also says whether it changed. -/
def transform : Pass → Function → Function × Bool
  | sroa => UnreadSlots.run
  | earlyCse => CommonExpressions.run
  | simplifyCfg => Reachable.run
  | reassociate => OperandOrder.run
  | mem2reg => SlotPromotion.run
  | instSimplify => Folding.run
  | instCombine => Strength.run
  | dce => DeadCode.run

/-- Runs a pass on a function; also says whether the function changed. -/
def run (p : Pass) (f : Function) : Function × Bool :=
  if f.isExternal then (f, false) else p.transform f

/-- Runs a pass on every live function of a module. -/
def runOnModule (p : Pass) (m : Module) : Module :=
  { m with functions := m.functions.map fun f => if f.isLive then (p.run f).1 else f }

end Pass

end StraightLine
