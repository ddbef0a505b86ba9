import StraightLine.Decimal.Layout
import StraightLine.Json.Basic

/-!
# Writing a document

A value is written over several lines: each item of an array and each member of an object has a
line of its own, two blanks further in than its bracket.
-/

namespace StraightLine.Json

/-- Doubles in a document: positional from `0.00001` to below `10 ^ 16`, and `null` for what is not
a finite number. -/
def numberLayout : Decimal.Layout where
  tie := .even
  plainFrom := -5
  plainBelow := 16
  mark := "e+"
  nan := "null"
  infinity := "null"
  negInfinity := "null"

/-- A hexadecimal digit, in lower case. -/
def hexDigit (n : Nat) : Char := if n < 10 then Char.ofNat (48 + n) else Char.ofNat (87 + n)

/-- A character inside a string. -/
def escapeChar (c : Char) : List Char :=
  if c = '"' then ['\\', '"']
  else if c = '\\' then ['\\', '\\']
  else if c = '\x08' then ['\\', 'b']
  else if c = '\x0c' then ['\\', 'f']
  else if c = '\n' then ['\\', 'n']
  else if c = '\r' then ['\\', 'r']
  else if c = '\t' then ['\\', 't']
  else if c.toNat < 0x20 then
    ['\\', 'u', '0', '0', hexDigit (c.toNat / 16), hexDigit (c.toNat % 16)]
  else [c]

/-- A string in quotes. -/
def quoted (s : String) : String := "\"" ++ String.ofList (s.toList.flatMap escapeChar) ++ "\""

/-- A line break and the blanks at the start of the next line, `depth` brackets deep. -/
def newline (depth : Nat) : String := "\n" ++ String.ofList (List.replicate (2 * depth) ' ')

mutual

/-- The text of a value whose brackets stand `depth` deep. -/
def renderAt (depth : Nat) : Json → String
  | null => "null"
  | bool b => if b then "true" else "false"
  | natural n => toString n
  | real (some x) => numberLayout.render x
  | real none => "null"
  | text (some s) => quoted s
  | text none => "null"
  | array [] => "[]"
  | array (j :: js) => "[" ++ renderItems (depth + 1) (j :: js) ++ newline depth ++ "]"
  | object [] => "\x7b\x7d"
  | object (m :: ms) => "\x7b" ++ renderMembers (depth + 1) (m :: ms) ++ newline depth ++ "\x7d"

/-- Items, each on a line of its own. -/
def renderItems (depth : Nat) : List Json → String
  | [] => ""
  | [j] => newline depth ++ renderAt depth j
  | j :: js => newline depth ++ renderAt depth j ++ "," ++ renderItems depth js

/-- Members, each on a line of its own. -/
def renderMembers (depth : Nat) : List (Option String × Json) → String
  | [] => ""
  | [(k, j)] => newline depth ++ quoted (k.getD "") ++ ": " ++ renderAt depth j
  | (k, j) :: ms =>
    newline depth ++ quoted (k.getD "") ++ ": " ++ renderAt depth j ++ "," ++
      renderMembers depth ms

end

/-- The text of a document. -/
def render (j : Json) : String := renderAt 0 j

end StraightLine.Json
