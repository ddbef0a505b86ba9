import StraightLine.Command.Outcome

/-!
# The command line

Reads the input file, works out the plan and carries it out on the disk.
-/

namespace StraightLine.Command

/-- What the system says about a file that it cannot reach. -/
def reason : IO.Error → String
  | .noFileOrDirectory _ _ _ => Fault.notFound.text
  | e => toString e

/-- The text of the input file, or the reason why it cannot be read. -/
def readInput : Option String → IO (Except String String)
  | none => pure (.ok "")
  | some path => do
    try
      let text ← IO.FS.readFile path
      pure (.ok text)
    catch e => pure (.error (reason e))

/-- Carries out steps; if a file cannot be saved, gives the status to end with. -/
def perform : List Action → IO (Option UInt8)
  | [] => pure none
  | .print text :: rest => do
    IO.print text
    perform rest
  | .complain text :: rest => do
    IO.eprint text
    perform rest
  | .save path text notice :: rest => do
    try
      IO.FS.writeFile path text
    catch e =>
      IO.eprint (Plan.unsaved path (reason e))
      return some Plan.failed
    IO.print notice
    perform rest

end StraightLine.Command

open StraightLine.Command in
/-- Does what the command line asks for and ends with its exit status. -/
def main (args : List String) : IO UInt32 := do
  let invocation := Invocation.ofArguments args
  let plan := invocation.plan (← readInput invocation.input?)
  let status := (← perform plan.actions).getD plan.status
  pure status.toUInt32
