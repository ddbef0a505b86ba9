/-!
# JSON values

A document as it is written. Two things that are written correctly may still stand for no value: a
number beyond the doubles, and a string in which one half of a surrogate pair is escaped alone.
They are kept as such, because a member that nobody asks for is not looked at.
-/

namespace StraightLine

/-- A JSON value. -/
inductive Json where
  | null
  | bool (b : Bool)
  /-- A number without sign, fraction and exponent that fits 64 bits. -/
  | natural (n : Nat)
  /-- Any other number, unless it is too large. -/
  | real (x : Option Float)
  /-- A string, unless an escape in it stands for no character. -/
  | text (s : Option String)
  | array (items : List Json)
  /-- The members in order; a name can occur more than once. -/
  | object (members : List (Option String × Json))

namespace Json

/-- A string that has a meaning. -/
def ofString (s : String) : Json := text (some s)

/-- A double, as a number with a fraction or an exponent. -/
def ofFloat (x : Float) : Json := real (some x)

/-- An object with these members. -/
def ofMembers (ms : List (String × Json)) : Json := object (ms.map fun m => (some m.1, m.2))

/-- A choice with a payload: an object whose only member is named for the choice. -/
def tagged (name : String) (payload : Json) : Json := ofMembers [(name, payload)]

end Json

end StraightLine
