import StraightLine.Decimal.Layout
import StraightLine.Numeral

/-!
# Operands

What an instruction reads: a temp, a constant, a function or nothing in particular. A constant
double is a numeral, so that two of them are the same operand when they have the same bits.
-/

namespace StraightLine

/-- Something that an instruction reads. -/
inductive Operand where
  /-- A parameter or the result of an instruction. -/
  | temp (id : Nat)
  /-- A constant double. -/
  | float (c : Numeral)
  /-- A constant comparison result. -/
  | bool (b : Bool)
  /-- A constant string of bytes. -/
  | string (bytes : List UInt8)
  /-- A function, by name. -/
  | function (name : String)
  /-- Any value at all. -/
  | undef
  deriving DecidableEq, Repr

/-- Doubles in the text of a module: positional from `0.0001` to below `10 ^ 16`. -/
def floatLayout : Decimal.Layout where
  tie := .up
  plainFrom := -4
  plainBelow := 16
  mark := "e"
  nan := "NaN"
  infinity := "inf"
  negInfinity := "-inf"

/-- The text of a double in a module. -/
def floatText (x : Float) : String := floatLayout.render x

/-- A digit of base sixteen, in upper case. -/
def hexDigit (n : Nat) : Char := if n < 10 then Char.ofNat (48 + n) else Char.ofNat (55 + n)

/-- A byte in the text of a string constant: itself if it is printable and neither a quote nor a
backslash, else a backslash and its two hexadecimal digits. -/
def byteText (b : UInt8) : List Char :=
  let n := b.toNat
  if 0x20 ≤ n ∧ n ≤ 0x7E ∧ n ≠ 0x22 ∧ n ≠ 0x5C then [Char.ofNat n]
  else ['\\', hexDigit (n / 16), hexDigit (n % 16)]

namespace Operand

/-- The constant that stands for a double. -/
abbrev constant (x : Float) : Operand := .float (.ofFloat x)

/-- The number of a temp. -/
def temp? : Operand → Option Nat
  | temp id => some id
  | _ => none

/-- The numeral of a constant double. -/
def float? : Operand → Option Numeral
  | float c => some c
  | _ => none

/-- The text of an operand. -/
def text : Operand → String
  | temp id => "%" ++ toString id
  | float c => floatText c.value
  | bool b => if b then "true" else "false"
  | string bytes => "c\"" ++ String.ofList (bytes.flatMap byteText) ++ "\""
  | function name => "@" ++ name
  | undef => "undef"

end Operand

end StraightLine
