/-!
# Splitting a text at a character

The pieces between the separators, empty ones included: a text with `n` separators has `n + 1`
pieces, and joining the pieces with the separator gives the text back.
-/

namespace StraightLine.Text

/-- The pieces of a list of characters between the occurrences of `sep`. -/
def splitChars (sep : Char) : List Char → List (List Char)
  | [] => [[]]
  | c :: rest =>
    if c = sep then [] :: splitChars sep rest
    else
      match splitChars sep rest with
      | [] => [[c]]
      | piece :: pieces => (c :: piece) :: pieces

/-- The pieces of a text between the occurrences of `sep`. -/
def splitAt (sep : Char) (s : String) : List String :=
  (splitChars sep s.toList).map String.ofList

end StraightLine.Text
