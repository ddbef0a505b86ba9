import StraightLine.Pass
import StraightLine.Text.Blank
import StraightLine.Text.Split
import StraightLine.Verify

/-!
# Pipelines

A pipeline is a list of passes, written as their names with commas between them. It runs only on a
module that verifies, and checks that the passes have left the module in order.
-/

namespace StraightLine

/-- Passes to run in order. -/
structure Pipeline where
  passes : List Pass
  /-- Whether the module is verified after every pass and not only in the end. -/
  verifyEach : Bool := true
  deriving DecidableEq, Repr

namespace Pipeline

/-- Every pass once. -/
def standard : Pipeline := { passes := Pass.all }

/-- No pass at all. -/
def empty : Pipeline := { passes := [] }

/-- The names that a text lists: its parts between commas, without blanks at their ends and without
those that are empty. -/
def names (s : String) : List String :=
  ((Text.splitAt ',' s).map Text.trim).filter fun n => !n.isEmpty

/-- The pipeline that a text lists. -/
def parse (s : String) : Except Error Pipeline := do
  let passes ← (names s).mapM Pass.ofName
  pure { passes := passes }

/-- The names of the passes with commas between them. -/
def text (p : Pipeline) : String := ",".intercalate (p.passes.map Pass.name)

/-- Says of a verification error after which pass it was found. -/
def afterPass (p : Pass) : Error → Error
  | .verification f m => .verification f ("after pass " ++ p.name ++ ": " ++ m)
  | e => e

/-- Runs passes in order up to the first error, and gives the module that is reached. -/
def runPasses (verifyEach : Bool) : List Pass → Module → Except Error Unit × Module
  | [], m => (if verifyEach then .ok () else m.verify, m)
  | p :: rest, m =>
    let m := p.runOnModule m
    if verifyEach then
      match m.verify with
      | .ok () => runPasses verifyEach rest m
      | .error e => (.error (afterPass p e), m)
    else runPasses verifyEach rest m

/-- Runs a pipeline on a module that verifies, and gives the module that is reached. -/
def run (p : Pipeline) (m : Module) : Except Error Unit × Module :=
  match m.verify with
  | .ok () => runPasses p.verifyEach p.passes m
  | .error e => (.error e, m)

end Pipeline

end StraightLine
