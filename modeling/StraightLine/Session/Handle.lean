import StraightLine.Error

/-!
# Handles

A session gives out handles to its values, slots and functions. A handle knows the session that it
belongs to, and can be resolved there only.

What is *not* modelled: that the index in a handle is a word of 32 bits. It is a natural number, so
that an arena never has more entries than there are handles.
-/

namespace StraightLine

/-- What a handle stands for. -/
inductive HandleKind where
  | value
  | slot
  | function
  deriving DecidableEq, Repr

namespace HandleKind

/-- The word in front of the number in the text of a handle. -/
def label : HandleKind → String
  | value => "ValueId"
  | slot => "SlotId"
  | function => "FunctionId"

/-- What a handle stands for, in words. -/
def noun : HandleKind → String
  | value => "value"
  | slot => "slot"
  | function => "function"

end HandleKind

/-- The name of a session, by its number. -/
def sessionText (id : Nat) : String := "session#" ++ toString id

/-- The place of something in a session. -/
structure Handle (k : HandleKind) where
  /-- The number of the session. -/
  session : Nat
  index : Nat
  deriving DecidableEq, Repr

/-- A handle to an operand. -/
abbrev ValueId := Handle .value

/-- A handle to a slot. -/
abbrev SlotId := Handle .slot

/-- A handle to a function. -/
abbrev FunctionId := Handle .function

namespace Handle

variable {k : HandleKind} {α : Type}

/-- The text of a handle. -/
def text (h : Handle k) : String := k.label ++ "(" ++ toString h.index ++ ")"

/-- A handle of one session used in another. -/
def foreign (h : Handle k) (session : Nat) : Error :=
  .staleHandle (h.text ++ " from " ++ sessionText h.session ++ " used with " ++ sessionText session)

/-- A handle to something that the session does not have. -/
def unknown (h : Handle k) : Error :=
  .staleHandle (h.text ++ " is not a " ++ k.noun ++ " of " ++ sessionText h.session)

/-- What a handle stands for in a session that keeps such things in an arena. -/
def resolve (h : Handle k) (session : Nat) (arena : Array α) : Except Error α :=
  if h.session = session then
    match arena[h.index]? with
    | some a => .ok a
    | none => .error h.unknown
  else .error (h.foreign session)

end Handle

end StraightLine
