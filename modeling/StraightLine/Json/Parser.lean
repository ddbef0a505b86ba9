import StraightLine.Json.Token

/-!
# Reading a document

Tokens are put together to a value. The brackets that are open are kept on a stack with what they
hold so far, so that one pass over the tokens is enough and any depth can be read.
-/

namespace StraightLine.Json

/-- An open bracket with what it holds so far, the latest first. -/
inductive Open where
  | array (items : List Json)
  /-- With the name of the member whose value is being read. -/
  | object (members : List (Option String × Json)) (name : Option String)

/-- What may come next. -/
inductive Expect where
  | value
  /-- A value or the end of the array that has just been opened. -/
  | valueOrEnd
  | name
  /-- A name or the end of the object that has just been opened. -/
  | nameOrEnd
  | colon (name : Option String)
  /-- A comma or a closing bracket, or the end of the document. -/
  | after (value : Json)

/-- The state of a reader: what may come next, and the brackets that are open, the innermost
first. -/
structure Reading where
  expect : Expect
  stack : List Open

/-- The next state, unless the token does not belong there. An object is on the stack only while
the value of one of its members is read, so one that waits for a name is there with the members
read before and no name. -/
def Reading.step (r : Reading) (t : Token) : Option Reading :=
  match r.expect, t, r.stack with
  | .value, .scalar j, st | .valueOrEnd, .scalar j, st => some ⟨.after j, st⟩
  | .value, .leftBracket, st | .valueOrEnd, .leftBracket, st => some ⟨.valueOrEnd, .array [] :: st⟩
  | .value, .leftBrace, st | .valueOrEnd, .leftBrace, st =>
    some ⟨.nameOrEnd, .object [] none :: st⟩
  | .valueOrEnd, .rightBracket, .array items :: st => some ⟨.after (array items.reverse), st⟩
  | .nameOrEnd, .rightBrace, .object ms _ :: st => some ⟨.after (object ms.reverse), st⟩
  | .name, .scalar (text k), st | .nameOrEnd, .scalar (text k), st => some ⟨.colon k, st⟩
  | .colon k, .colon, .object ms _ :: st => some ⟨.value, .object ms k :: st⟩
  | .after j, .comma, .array items :: st => some ⟨.value, .array (j :: items) :: st⟩
  | .after j, .comma, .object ms k :: st => some ⟨.name, .object ((k, j) :: ms) none :: st⟩
  | .after j, .rightBracket, .array items :: st => some ⟨.after (array (j :: items).reverse), st⟩
  | .after j, .rightBrace, .object ms k :: st =>
    some ⟨.after (object ((k, j) :: ms).reverse), st⟩
  | _, _, _ => none

/-- The state after some tokens. -/
def Reading.steps (r : Reading) : List Token → Option Reading
  | [] => some r
  | t :: ts => (r.step t).bind fun r => r.steps ts

/-- The value that tokens make up. -/
def ofTokens (ts : List Token) : Option Json :=
  match Reading.steps ⟨.value, []⟩ ts with
  | some ⟨.after j, []⟩ => some j
  | _ => none

/-- The value that a text writes. -/
def parse (s : String) : Option Json := (tokens s).bind ofTokens

end StraightLine.Json
