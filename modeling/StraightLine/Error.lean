/-!
# Errors

Every operation of the library that can be refused answers with an `Error`: its kind, the function
it arose in where there is one, and a message. The parts of the library describe their own causes
as inductive types and give the messages there.
-/

namespace StraightLine

/-- What can go wrong, by kind. -/
inductive Error where
  /-- The target or a pass list could not be understood. -/
  | toolchain (message : String)
  /-- A request that would build something ill-formed. -/
  | construction (function message : String)
  /-- A function or a module is not well formed. -/
  | verification (function message : String)
  /-- A request to a session in which a function has failed verification. -/
  | poisoned (function : String)
  /-- A handle that does not belong to the session it is used with. -/
  | staleHandle (message : String)
  /-- A function could not be executed. -/
  | execution (function message : String)
  /-- Reading or writing failed. -/
  | inputOutput (message : String)
  /-- A request that the library itself must never make. -/
  | internal (message : String)
  deriving DecidableEq, Repr

namespace Error

/-- The text of an error. -/
def text : Error → String
  | toolchain m => "Toolchain error: " ++ m
  | construction f m => "Construction error in " ++ f ++ ": " ++ m
  | verification f m => "Verification failed for " ++ f ++ ": " ++ m
  | poisoned f => "Session is unusable after verification of " ++ f ++ " failed"
  | staleHandle m => "Stale handle: " ++ m
  | execution f m => "Execution error in " ++ f ++ ": " ++ m
  | inputOutput m => "IO error: " ++ m
  | internal m => "Internal compiler error: " ++ m

/-- Whether the work that met the error has to stop. -/
def isFatal : Error → Bool
  | toolchain _ | verification _ _ | poisoned _ | internal _ => true
  | construction _ _ | staleHandle _ | execution _ _ | inputOutput _ => false

end Error

end StraightLine
