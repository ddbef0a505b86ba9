/-!
# Plans

A command is worked out as a plan: what it prints, what it complains about, which files it saves,
and the status that it ends with. A plan is replayed on a directory, or carried out on the disk.
-/

namespace StraightLine.Command

/-- A step of a plan. -/
inductive Action where
  /-- Writes to the standard output. -/
  | print (text : String)
  /-- Writes to the standard error. -/
  | complain (text : String)
  /-- Writes a file, then prints a notice. If that fails the plan ends. -/
  | save (path text notice : String)
  deriving DecidableEq, Repr

/-- Steps, and the exit status after them. -/
structure Plan where
  actions : List Action := []
  status : UInt8 := 0
  deriving DecidableEq, Repr

namespace Plan

/-- The exit status when a file cannot be read or written, or when code has errors. -/
def failed : UInt8 := 1

/-- The exit status when the command line asks for nothing. -/
def misused : UInt8 := 2

/-- The exit status when a program cannot be built or run. -/
def fatal : UInt8 := 18

/-- What went wrong, and the reason below it. -/
def failure (doing reason : String) : String :=
  "Error: " ++ doing ++ "\n\nCaused by:\n    " ++ reason ++ "\n"

/-- The complaint about a file that cannot be written. -/
def unsaved (path reason : String) : String := failure ("writing " ++ path) reason

end Plan

end StraightLine.Command
