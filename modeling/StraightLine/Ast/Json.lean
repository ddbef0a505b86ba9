import StraightLine.Ast.Basic
import StraightLine.Json.Parser
import StraightLine.Json.Printer
import StraightLine.Json.Reader

/-!
# Programs in JSON

Every part of a program has a form in JSON, and a reader that takes this form back.
-/

namespace StraightLine

open Json (ofString ofFloat ofMembers tagged Reader)

/-! ### Expressions -/

namespace BinaryOp

/-- The name of an operator in JSON. -/
def tag : BinaryOp → String
  | add => "Add"
  | sub => "Sub"
  | mul => "Mul"
  | div => "Div"
  | equal => "Equal"
  | notEqual => "NotEqual"
  | less => "Less"
  | lessEqual => "LessEqual"
  | greater => "Greater"
  | greaterEqual => "GreaterEqual"

/-- Every operator. -/
def all : List BinaryOp :=
  [add, sub, mul, div, equal, notEqual, less, lessEqual, greater, greaterEqual]

/-- Reads an operator. -/
def read : Reader BinaryOp := Reader.oneOf all tag

end BinaryOp

namespace Expr

mutual

/-- The form of an expression. -/
def toJson : Expr → Json
  | number c => tagged "Number" (ofFloat c.value)
  | string s => tagged "Str" (ofString s)
  | var n => tagged "Variable" (ofString n)
  | binary op l r =>
    tagged "Binary" (ofMembers [("op", ofString op.tag), ("left", l.toJson), ("right", r.toJson)])
  | call f args =>
    tagged "Call" (ofMembers [("callee", ofString f), ("args", .array (toJsons args))])

/-- The forms of expressions. -/
def toJsons : List Expr → List Json
  | [] => []
  | e :: es => e.toJson :: toJsons es

end

/-- Reads an expression. -/
def read (d : Nat) (j : Json) : Option Expr :=
  match Reader.choice d j with
  | some ("Number", p) => (Reader.numeral (d - 1) p).map number
  | some ("Str", p) => (Reader.string (d - 1) p).map string
  | some ("Variable", p) => (Reader.string (d - 1) p).map var
  | some ("Binary", p) =>
    match d with
    | d + 2 =>
      match Reader.fields ["op", "left", "right"] p with
      | some [op, l, r] => do pure (binary (← BinaryOp.read d op) (← read d l) (← read d r))
      | _ => none
    | _ => none
  | some ("Call", p) =>
    match d with
    | d + 3 =>
      match Reader.fields ["callee", "args"] p with
      | some [f, .array args] => do pure (call (← Reader.string (d + 1) f) (← args.mapM (read d)))
      | _ => none
    | _ => none
  | _ => none

end Expr

/-! ### Statements, items and programs -/

/-- The form of a statement. -/
def Stmt.toJson : Stmt → Json
  | .bind n e => tagged "Let" (ofMembers [("name", ofString n), ("value", e.toJson)])
  | .assign n e => tagged "Assign" (ofMembers [("name", ofString n), ("value", e.toJson)])
  | .eval e => tagged "Expr" e.toJson
  | .ret e => tagged "Return" e.toJson

/-- Reads a name and an expression. -/
def Stmt.readNamed : Reader (String × Expr) :=
  Reader.record ["name", "value"] fun d js =>
    match js with
    | [n, e] => do pure (← Reader.string d n, ← Expr.read d e)
    | _ => none

/-- Reads a statement. -/
def Stmt.read : Reader Stmt := fun d j =>
  match Reader.choice d j with
  | some ("Let", p) => (Stmt.readNamed (d - 1) p).map fun (n, e) => .bind n e
  | some ("Assign", p) => (Stmt.readNamed (d - 1) p).map fun (n, e) => .assign n e
  | some ("Expr", p) => (Expr.read (d - 1) p).map .eval
  | some ("Return", p) => (Expr.read (d - 1) p).map .ret
  | _ => none

/-- The form of a prototype. -/
def Prototype.toJson (p : Prototype) : Json :=
  ofMembers [("name", ofString p.name), ("params", .array (p.params.map ofString))]

/-- Reads a prototype. -/
def Prototype.read : Reader Prototype :=
  Reader.record ["name", "params"] fun d js =>
    match js with
    | [n, ps] => do pure { name := ← Reader.string d n, params := ← Reader.list Reader.string d ps }
    | _ => none

/-- The form of an item. -/
def Item.toJson : Item → Json
  | .function p body =>
    tagged "Function" (ofMembers [("proto", p.toJson), ("body", .array (body.map Stmt.toJson))])
  | .external p => tagged "Extern" p.toJson
  | .topLevel e => tagged "Expr" e.toJson

/-- Reads a prototype and a body. -/
def Item.readFunction : Reader Item :=
  Reader.record ["proto", "body"] fun d js =>
    match js with
    | [p, b] => do pure (.function (← Prototype.read d p) (← Reader.list Stmt.read d b))
    | _ => none

/-- Reads an item. -/
def Item.read : Reader Item := fun d j =>
  match Reader.choice d j with
  | some ("Function", p) => Item.readFunction (d - 1) p
  | some ("Extern", p) => (Prototype.read (d - 1) p).map .external
  | some ("Expr", p) => (Expr.read (d - 1) p).map .topLevel
  | _ => none

/-- The form of a program. -/
def Program.toJson (p : Program) : Json := ofMembers [("items", .array (p.items.map Item.toJson))]

/-- Reads a program. -/
def Program.read : Reader Program :=
  Reader.record ["items"] fun d js =>
    match js with
    | [is] => do pure { items := ← Reader.list Item.read d is }
    | _ => none

/-- The text of a program in JSON. -/
def Program.jsonText (p : Program) : String := p.toJson.render

/-- The program that a text in JSON writes. -/
def Program.ofJsonText (s : String) : Option Program :=
  (Json.parse s).bind (Program.read Json.maxDepth)

end StraightLine
