import StraightLine.Decimal.Scale
import StraightLine.Json.Basic

/-!
# Tokens of JSON

The text of a document is cut into brackets, separators and scalars, with blanks between them. No
two scalars stand next to each other in a document, so a cut that would need to be longer, as in
`01`, is found out when the tokens are put together.
-/

namespace StraightLine.Json

/-- A smallest piece of a document. -/
inductive Token where
  | leftBrace
  | rightBrace
  | leftBracket
  | rightBracket
  | comma
  | colon
  | scalar (value : Json)

/-! ### Numbers -/

/-- A number as it is written. -/
structure Literal where
  isNegative : Bool
  /-- The digits before the point. -/
  whole : List Char
  /-- The digits after the point, none if there is no point. -/
  fraction : List Char
  /-- The exponent, if there is one. -/
  exponent : Option Int

/-- The double that a number stands for, unless it is too large. -/
def Literal.real (l : Literal) : Option Float :=
  let s := ((⟨0, 0⟩ : Decimal.Significand).whole l.whole).fraction l.fraction
  (Decimal.scale s.value (s.exponent + l.exponent.getD 0)).map fun x =>
    if l.isNegative then -x else x

/-- The value of a number. -/
def Literal.value (l : Literal) : Json :=
  let n := Decimal.readDigits l.whole
  if !l.isNegative && l.fraction.isEmpty && l.exponent.isNone && n ≤ Decimal.maxSignificand then
    natural n
  else Json.real l.real

/-- The digits at the start of a text, and the rest. -/
def spanDigits (cs : List Char) : List Char × List Char := cs.span Char.isDigit

/-- The digits before the point: a zero alone, or digits that do not start with zero. -/
def scanWhole : List Char → Option (List Char × List Char)
  | [] => none
  | c :: rest =>
    if c = '0' then some (['0'], rest)
    else if c.isDigit then
      let (ds, rest) := spanDigits rest
      some (c :: ds, rest)
    else none

/-- The digits after a point, at least one if there is a point. -/
def scanFraction : List Char → Option (List Char × List Char)
  | '.' :: rest =>
    let (ds, rest) := spanDigits rest
    if ds.isEmpty then none else some (ds, rest)
  | rest => some ([], rest)

/-- The digits of an exponent, at least one. -/
def scanPower (rest : List Char) : Option (Nat × List Char) :=
  let (ds, rest) := spanDigits rest
  if ds.isEmpty then none else some (Decimal.readDigits ds, rest)

/-- An exponent, if there is one. -/
def scanExponent : List Char → Option (Option Int × List Char)
  | c :: rest =>
    if c = 'e' ∨ c = 'E' then
      match rest with
      | '-' :: rest => (scanPower rest).map fun (n, rest) => (some (-(n : Int)), rest)
      | '+' :: rest => (scanPower rest).map fun (n, rest) => (some (n : Int), rest)
      | rest => (scanPower rest).map fun (n, rest) => (some (n : Int), rest)
    else some (none, c :: rest)
  | [] => some (none, [])

/-- A number without its sign. -/
def scanMagnitude (isNegative : Bool) (cs : List Char) : Option (Json × List Char) := do
  let (whole, cs) ← scanWhole cs
  let (fraction, cs) ← scanFraction cs
  let (exponent, cs) ← scanExponent cs
  pure ((⟨isNegative, whole, fraction, exponent⟩ : Literal).value, cs)

/-- A number. -/
def scanNumber : List Char → Option (Json × List Char)
  | '-' :: rest => scanMagnitude true rest
  | cs => scanMagnitude false cs

/-! ### Strings -/

/-- A piece of a string: a character, or sixteen bits that are escaped as hexadecimal digits. -/
inductive Piece where
  | char (c : Char)
  | unit (n : Nat)

/-- The value of a hexadecimal digit. -/
def hexValue? (c : Char) : Option Nat :=
  if c.isDigit then some (c.toNat - 48)
  else if 'a' ≤ c ∧ c ≤ 'f' then some (c.toNat - 87)
  else if 'A' ≤ c ∧ c ≤ 'F' then some (c.toNat - 55)
  else none

/-- The value of four hexadecimal digits. -/
def hexUnit? (a b c d : Char) : Option Nat := do
  pure ((((← hexValue? a) * 16 + (← hexValue? b)) * 16 + (← hexValue? c)) * 16 + (← hexValue? d))

/-- The character that a letter after a backslash stands for. -/
def escape? : Char → Option Char
  | '"' => some '"'
  | '\\' => some '\\'
  | '/' => some '/'
  | 'b' => some '\x08'
  | 'f' => some '\x0c'
  | 'n' => some '\n'
  | 'r' => some '\r'
  | 't' => some '\t'
  | _ => none

/-- The pieces of a string up to its closing quote, and what follows it. -/
def scanPieces : List Char → Option (List Piece × List Char)
  | [] => none
  | '"' :: rest => some ([], rest)
  | '\\' :: 'u' :: a :: b :: c :: d :: rest => do
    let n ← hexUnit? a b c d
    let (ps, rest) ← scanPieces rest
    pure (.unit n :: ps, rest)
  | '\\' :: c :: rest => do
    let e ← escape? c
    let (ps, rest) ← scanPieces rest
    pure (.char e :: ps, rest)
  | c :: rest =>
    if c.toNat < 0x20 ∨ c = '\\' then none
    else do
      let (ps, rest) ← scanPieces rest
      pure (.char c :: ps, rest)

/-- Whether sixteen bits are the first half of a surrogate pair. -/
def isLeading (n : Nat) : Bool := 0xD800 ≤ n && n ≤ 0xDBFF

/-- Whether sixteen bits are the second half of a surrogate pair. -/
def isTrailing (n : Nat) : Bool := 0xDC00 ≤ n && n ≤ 0xDFFF

/-- The characters of the pieces, where two halves of a pair make one character. -/
def joinPieces : List Piece → Option (List Char)
  | [] => some []
  | .char c :: rest => (joinPieces rest).map (c :: ·)
  | .unit n :: .unit m :: rest =>
    if isLeading n then
      if isTrailing m then
        (joinPieces rest).map (Char.ofNat ((n - 0xD800) * 0x400 + (m - 0xDC00) + 0x10000) :: ·)
      else none
    else if isTrailing n then none
    else (joinPieces (.unit m :: rest)).map (Char.ofNat n :: ·)
  | .unit n :: rest =>
    if isLeading n || isTrailing n then none else (joinPieces rest).map (Char.ofNat n :: ·)

/-- A string after its opening quote. -/
def scanString (cs : List Char) : Option (Json × List Char) :=
  (scanPieces cs).map fun (ps, rest) => (text ((joinPieces ps).map String.ofList), rest)

/-! ### Tokens -/

/-- Whether a character may stand between tokens. -/
def isGap (c : Char) : Bool := c = ' ' || c = '\n' || c = '\t' || c = '\r'

/-- The first token of a text that starts with one. -/
def scanToken : List Char → Option (Token × List Char)
  | '\x7b' :: rest => some (.leftBrace, rest)
  | '\x7d' :: rest => some (.rightBrace, rest)
  | '[' :: rest => some (.leftBracket, rest)
  | ']' :: rest => some (.rightBracket, rest)
  | ',' :: rest => some (.comma, rest)
  | ':' :: rest => some (.colon, rest)
  | '"' :: rest => (scanString rest).map fun (j, rest) => (.scalar j, rest)
  | 'n' :: 'u' :: 'l' :: 'l' :: rest => some (.scalar null, rest)
  | 't' :: 'r' :: 'u' :: 'e' :: rest => some (.scalar (bool true), rest)
  | 'f' :: 'a' :: 'l' :: 's' :: 'e' :: rest => some (.scalar (bool false), rest)
  | cs => (scanNumber cs).map fun (j, rest) => (.scalar j, rest)

/-- The tokens of a text, found in at most `fuel` steps. A step takes a character at least. -/
def tokensIn : Nat → List Char → Option (List Token)
  | _, [] => some []
  | 0, _ :: _ => none
  | fuel + 1, c :: rest =>
    if isGap c then tokensIn fuel rest
    else do
      let (t, rest) ← scanToken (c :: rest)
      let ts ← tokensIn fuel rest
      pure (t :: ts)

/-- The tokens of a text. -/
def tokens (s : String) : Option (List Token) :=
  let cs := s.toList
  tokensIn cs.length cs

end StraightLine.Json
