import StraightLine.Json.Basic
import StraightLine.Numeral

/-!
# Asking a document for values

A reader asks for a value of a type and is told how many more brackets may be opened on the way
down. A record is an object with a member for each field, or an array of the fields in order; other
members are not looked at, and a field without a member is read from `null`. A choice is an object
whose only member is named for it, or its name alone, which stands for the payload `null`.
-/

namespace StraightLine.Json

/-- Reads a value from a document in which brackets may nest so deep. -/
abbrev Reader (α : Type) := Nat → Json → Option α

/-- How deep brackets may nest in a document. -/
def maxDepth : Nat := 127

namespace Reader

variable {α β : Type}

/-- Reads a string. -/
def string : Reader String
  | _, .text s => s
  | _, _ => none

/-- Reads a truth value. -/
def bool : Reader Bool
  | _, .bool b => some b
  | _, _ => none

/-- Reads a double from any number that is not too large. -/
def float : Reader Float
  | _, .natural n => some (Float.ofScientific n false 0)
  | _, .real x => x
  | _, _ => none

/-- Reads a numeral from any number that is not too large. -/
def numeral : Reader Numeral := fun d j => (float d j).map Numeral.ofFloat

/-- Reads a natural number below a bound. -/
def below (bound : Nat) : Reader Nat
  | _, .natural n => if n < bound then some n else none
  | _, _ => none

/-- Reads a byte. -/
def byte : Reader UInt8 := fun d j => (below UInt8.size d j).map UInt8.ofNat

/-- Reads a number of 32 bits. -/
def word : Reader Nat := below UInt32.size

/-- Reads a number of 64 bits. -/
def size : Reader UInt64 := fun d j => (below UInt64.size d j).map UInt64.ofNat

/-- Reads an array. -/
def list (r : Reader α) : Reader (List α)
  | d + 1, .array js => js.mapM (r d)
  | _, _ => none

/-- Reads `null` as nothing. -/
def option (r : Reader α) : Reader (Option α)
  | _, .null => some none
  | d, j => (r d j).map some

/-- Reads an array of two. -/
def pair (r : Reader α) (s : Reader β) : Reader (α × β)
  | d + 1, .array [a, b] => do pure (← r d a, ← s d b)
  | _, _ => none

/-- The fields of a record, in the order of their names. -/
def fields (names : List String) : Json → Option (List Json)
  | .array js => if js.length = names.length then some js else none
  | .object ms =>
    if ms.all (fun m => m.1.isSome) &&
        names.all (fun n => ms.countP (fun m => m.1 = some n) ≤ 1) then
      some (names.map fun n => (ms.lookup (some n)).getD .null)
    else none
  | _ => none

/-- Reads a record from its fields. -/
def record (names : List String) (k : Nat → List Json → Option α) : Reader α
  | d + 1, j => (fields names j).bind (k d)
  | 0, _ => none

/-- The name of a choice and its payload, which is one bracket deeper. -/
def choice : Nat → Json → Option (String × Json)
  | _, .text (some s) => some (s, .null)
  | _ + 1, .object [(some s, j)] => some (s, j)
  | _, _ => none

/-- Reads a choice that has no payload, given all that can be chosen. -/
def oneOf (all : List α) (name : α → String) : Reader α := fun d j =>
  match choice d j with
  | some (s, .null) => all.find? fun a => name a = s
  | _ => none

end Reader

end StraightLine.Json
