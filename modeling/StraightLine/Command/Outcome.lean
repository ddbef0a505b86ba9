import StraightLine.Command.Build
import StraightLine.Command.Directory

/-!
# Outcomes

What a command leaves behind when its plan is replayed on a directory: the files, the text on the
two outputs and the exit status.
-/

namespace StraightLine.Command

/-- What a command leaves behind. -/
structure Outcome where
  directory : Directory
  stdout : String := ""
  stderr : String := ""
  status : UInt8 := 0
  deriving DecidableEq, Repr

/-- Carries out steps on a directory, with what has been written before. -/
def Outcome.replay (o : Outcome) : List Action → Outcome
  | [] => o
  | .print text :: rest => { o with stdout := o.stdout ++ text }.replay rest
  | .complain text :: rest => { o with stderr := o.stderr ++ text }.replay rest
  | .save path text notice :: rest =>
    match o.directory.write path text with
    | .ok d => { o with directory := d, stdout := o.stdout ++ notice }.replay rest
    | .error fault =>
      { o with stderr := o.stderr ++ Plan.unsaved path fault.text, status := Plan.failed }

/-- Carries out a plan on a directory. -/
def Plan.replay (p : Plan) (d : Directory) : Outcome :=
  Outcome.replay { directory := d, status := p.status } p.actions

namespace Invocation

/-- The line that names the program and its version. -/
def versionText : String := "pitusya 0.1.0\n"

/-- How the program is called. -/
def helpText : String :=
  "Usage: pitusya [-v] <run|ir> [OPTIONS] <INPUT>\n\n" ++
  "Options:\n" ++
  "  --print-ir            print the code\n" ++
  "  --save-ir             save the code to a file\n" ++
  "  --ir-output <PATH>    the file that --save-ir writes\n" ++
  "  --no-opt              skip the optimisation passes\n" ++
  "  --no-verify-each      verify only after all passes\n" ++
  "  --module-name <NAME>  the name of the module\n" ++
  "  --target <TRIPLE>     the target, by default this machine\n" ++
  "  --dump-json <PATH>    write the module as JSON (ir only)\n"

/-- The file that an invocation reads. -/
def input? : Invocation → Option String
  | build _ o => some o.input
  | _ => none

/-- The plan of an invocation, given its input file or the reason why it could not be read. -/
def plan (i : Invocation) (source : Except String String) : Plan :=
  match i with
  | build verb o => Plan.ofInput verb o source
  | version => { actions := [.print versionText] }
  | help => { actions := [.print helpText] }
  | refused reason =>
    { actions := [.complain ("error: " ++ reason.text ++ "\n")], status := Plan.misused }

/-- What an invocation leaves behind when it works on a directory. -/
def outcome (i : Invocation) (d : Directory) : Outcome :=
  let source := (d.read (i.input?.getD "")).mapError Fault.text
  (i.plan source).replay d

end Invocation

end StraightLine.Command
