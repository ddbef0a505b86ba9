import StraightLine.Error

/-!
# Diagnostics

Errors and warnings are shown to the user as diagnostics: a severity, a message and notes. A
report collects them in order and counts them by severity.
-/

namespace StraightLine

/-- How bad a diagnostic is. -/
inductive Severity where
  | error
  | warning
  deriving DecidableEq, Repr

/-- The word that a diagnostic starts with. -/
def Severity.text : Severity → String
  | error => "error"
  | warning => "warning"

/-- A message to the user. -/
structure Diagnostic where
  severity : Severity
  message : String
  /-- Further lines, in order. -/
  notes : List String := []
  deriving DecidableEq, Repr

namespace Diagnostic

/-- The diagnostic for an error; a fatal one says that the work stops. -/
def ofError (e : Error) : Diagnostic where
  severity := .error
  message := e.text
  notes := if e.isFatal then ["compilation session aborted"] else []

/-- A warning. -/
def warning (message : String) : Diagnostic where
  severity := .warning
  message := message

/-- Adds a note after those that are there. -/
def withNote (d : Diagnostic) (note : String) : Diagnostic :=
  { d with notes := d.notes ++ [note] }

/-- The message line, then a line for each note. -/
def text (d : Diagnostic) : String :=
  d.severity.text ++ ": " ++ d.message ++ String.join (d.notes.map fun n => "\n  note: " ++ n)

end Diagnostic

/-- The diagnostics of a piece of work, the first one first. -/
structure Report where
  diagnostics : List Diagnostic := []
  deriving DecidableEq, Repr

namespace Report

/-- Adds a diagnostic. -/
def add (r : Report) (d : Diagnostic) : Report :=
  { r with diagnostics := r.diagnostics ++ [d] }

/-- How many diagnostics have a severity. -/
def count (r : Report) (s : Severity) : Nat :=
  r.diagnostics.countP fun d => d.severity = s

/-- Whether there is an error among the diagnostics. -/
def hasErrors (r : Report) : Bool := 0 < r.count .error

/-- A number of things, the word in the plural unless there is one. -/
def counted (n : Nat) (word : String) : String :=
  toString n ++ " " ++ word ++ if n = 1 then "" else "s"

/-- How many errors and warnings there are, in words. -/
def summary (r : Report) : String :=
  match r.count .error, r.count .warning with
  | 0, 0 => "No errors or warnings"
  | 0, w => counted w "warning"
  | e, 0 => counted e "error"
  | e, w => counted e "error" ++ " and " ++ counted w "warning"

/-- Every diagnostic on lines of its own. -/
def text (r : Report) : String :=
  String.join (r.diagnostics.map fun d => d.text ++ "\n")

end Report

end StraightLine
