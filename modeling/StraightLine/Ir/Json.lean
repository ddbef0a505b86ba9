import StraightLine.Ir.Module
import StraightLine.Json.Parser
import StraightLine.Json.Printer
import StraightLine.Json.Reader

/-!
# Modules in JSON

Every part of a module has a form in JSON, and a reader that takes this form back.
-/

namespace StraightLine

open Json (ofString ofFloat ofMembers tagged Reader)

/-! ### Types -/

/-- The form of a type. -/
def Ty.toJson : Ty → Json
  | .double => ofString "Double"
  | .i1 => ofString "I1"
  | .i8 => ofString "I8"
  | .ptr t => tagged "Ptr" t.toJson
  | .array n t =>
    tagged "Array" (ofMembers [("size", .natural n.toNat), ("element_type", t.toJson)])

/-- Reads a type. -/
def Ty.read (d : Nat) (j : Json) : Option Ty :=
  match Reader.choice d j with
  | some ("Double", .null) => some .double
  | some ("I1", .null) => some .i1
  | some ("I8", .null) => some .i8
  | some ("Ptr", p) =>
    match d with
    | d + 1 => (Ty.read d p).map .ptr
    | 0 => none
  | some ("Array", p) =>
    match d with
    | d + 2 =>
      match Reader.fields ["size", "element_type"] p with
      | some [n, t] => do pure (.array (← Reader.size d n) (← Ty.read d t))
      | _ => none
    | _ => none
  | _ => none

/-! ### Operands and instructions -/

/-- The form of an operand. -/
def Operand.toJson : Operand → Json
  | .temp id => tagged "Temp" (.natural id)
  | .float c => tagged "ConstFloat" (ofFloat c.value)
  | .bool b => tagged "ConstBool" (.bool b)
  | .string bytes => tagged "ConstString" (.array (bytes.map fun b => .natural b.toNat))
  | .function name => tagged "Function" (ofString name)
  | .undef => ofString "Undef"

/-- Reads an operand. -/
def Operand.read : Reader Operand := fun d j =>
  match Reader.choice d j with
  | some ("Temp", p) => (Reader.word (d - 1) p).map .temp
  | some ("ConstFloat", p) => (Reader.numeral (d - 1) p).map .float
  | some ("ConstBool", p) => (Reader.bool (d - 1) p).map .bool
  | some ("ConstString", p) => (Reader.list Reader.byte (d - 1) p).map .string
  | some ("Function", p) => (Reader.string (d - 1) p).map .function
  | some ("Undef", .null) => some .undef
  | _ => none

/-- The name of an operation in JSON. -/
def Arith.tag : Arith → String
  | .add => "Add"
  | .sub => "Sub"
  | .mul => "Mul"
  | .div => "Div"

/-- Reads an operation. -/
def Arith.read : Reader Arith := Reader.oneOf [.add, .sub, .mul, .div] tag

/-- The name of a comparison in JSON. -/
def Predicate.tag : Predicate → String
  | .oeq => "Oeq"
  | .one => "One"
  | .olt => "Olt"
  | .ole => "Ole"
  | .ogt => "Ogt"
  | .oge => "Oge"

/-- Reads a comparison. -/
def Predicate.read : Reader Predicate :=
  Reader.oneOf [.oeq, .one, .olt, .ole, .ogt, .oge] tag

/-- The form of an instruction. -/
def Instr.toJson : Instr → Json
  | .alloca r t n =>
    tagged "Alloca"
      (ofMembers [("result", .natural r), ("alloc_type", t.toJson), ("name", ofString n)])
  | .load r p t =>
    tagged "Load" (ofMembers [("result", .natural r), ("ptr", p.toJson), ("result_type", t.toJson)])
  | .store v p => tagged "Store" (ofMembers [("value", v.toJson), ("ptr", p.toJson)])
  | .arith r op a b =>
    tagged "Binary" (ofMembers
      [("result", .natural r), ("op", ofString op.tag), ("lhs", a.toJson), ("rhs", b.toJson)])
  | .compare r p a b =>
    tagged "FCmp" (ofMembers
      [("result", .natural r), ("predicate", ofString p.tag), ("lhs", a.toJson), ("rhs", b.toJson)])
  | .widen r v => tagged "UIToFP" (ofMembers [("result", .natural r), ("value", v.toJson)])
  | .call r f args =>
    tagged "Call" (ofMembers
      [("result", .natural r), ("function", f.toJson), ("args", .array (args.map Operand.toJson))])
  | .ret v => tagged "Return" v.toJson

/-- Reads the payload of an instruction that defines a temp or stores. -/
def Instr.readFields (name : String) : Reader Instr :=
  match name with
  | "Alloca" => Reader.record ["result", "alloc_type", "name"] fun d js =>
    match js with
    | [r, t, n] => do pure (.alloca (← Reader.word d r) (← Ty.read d t) (← Reader.string d n))
    | _ => none
  | "Load" => Reader.record ["result", "ptr", "result_type"] fun d js =>
    match js with
    | [r, p, t] => do pure (.load (← Reader.word d r) (← Operand.read d p) (← Ty.read d t))
    | _ => none
  | "Store" => Reader.record ["value", "ptr"] fun d js =>
    match js with
    | [v, p] => do pure (.store (← Operand.read d v) (← Operand.read d p))
    | _ => none
  | "Binary" => Reader.record ["result", "op", "lhs", "rhs"] fun d js =>
    match js with
    | [r, op, a, b] => do
      pure (.arith (← Reader.word d r) (← Arith.read d op) (← Operand.read d a)
        (← Operand.read d b))
    | _ => none
  | "FCmp" => Reader.record ["result", "predicate", "lhs", "rhs"] fun d js =>
    match js with
    | [r, p, a, b] => do
      pure (.compare (← Reader.word d r) (← Predicate.read d p) (← Operand.read d a)
        (← Operand.read d b))
    | _ => none
  | "UIToFP" => Reader.record ["result", "value"] fun d js =>
    match js with
    | [r, v] => do pure (.widen (← Reader.word d r) (← Operand.read d v))
    | _ => none
  | "Call" => Reader.record ["result", "function", "args"] fun d js =>
    match js with
    | [r, f, args] => do
      pure (.call (← Reader.word d r) (← Operand.read d f) (← Reader.list Operand.read d args))
    | _ => none
  | _ => fun _ _ => none

/-- Reads an instruction. -/
def Instr.read : Reader Instr := fun d j =>
  match Reader.choice d j with
  | some ("Return", p) => (Operand.read (d - 1) p).map .ret
  | some (name, p) => Instr.readFields name (d - 1) p
  | none => none

/-! ### Blocks, functions and modules -/

/-- The form of a block. -/
def Block.toJson (b : Block) : Json :=
  ofMembers [("id", .natural b.id), ("name", ofString b.name),
    ("instructions", .array (b.instrs.map Instr.toJson))]

/-- Reads a block. -/
def Block.read : Reader Block :=
  Reader.record ["id", "name", "instructions"] fun d js =>
    match js with
    | [i, n, is] => do
      pure {
        id := ← Reader.word d i, name := ← Reader.string d n,
        instrs := ← Reader.list Instr.read d is }
    | _ => none

/-- The name of a stage in JSON. -/
def Stage.tag : Stage → String
  | .declared => "Declared"
  | .building => "Building"
  | .terminated => "Terminated"
  | .verified => "Verified"
  | .abandoned => "Abandoned"

/-- Reads a stage. -/
def Stage.read : Reader Stage :=
  Reader.oneOf [.declared, .building, .terminated, .verified, .abandoned] tag

/-- The form of a function. -/
def Function.toJson (f : Function) : Json :=
  ofMembers [("name", ofString f.name), ("return_type", f.returnType.toJson),
    ("parameters", .array (f.params.map fun p => .array [.natural p.1, ofString p.2])),
    ("blocks", .array (f.blocks.map Block.toJson)), ("is_external", .bool f.isExternal),
    ("state", ofString f.stage.tag)]

/-- Reads a function. -/
def Function.read : Reader Function :=
  Reader.record ["name", "return_type", "parameters", "blocks", "is_external", "state"] fun d js =>
    match js with
    | [n, t, ps, bs, e, s] => do
      pure {
        name := ← Reader.string d n
        returnType := ← Ty.read d t
        params := ← Reader.list (Reader.pair Reader.word Reader.string) d ps
        blocks := ← Reader.list Block.read d bs
        isExternal := ← Reader.bool d e
        stage := ← Stage.read d s }
    | _ => none

/-- The form of a module. -/
def Module.toJson (m : Module) : Json :=
  ofMembers [("name", ofString m.name),
    ("target_triple", match m.triple with
      | some t => ofString t
      | none => .null),
    ("functions", .array (m.functions.map Function.toJson))]

/-- Reads a module. -/
def Module.read : Reader Module :=
  Reader.record ["name", "target_triple", "functions"] fun d js =>
    match js with
    | [n, t, fs] => do
      pure {
        name := ← Reader.string d n
        triple := ← Reader.option Reader.string d t
        functions := ← Reader.list Function.read d fs }
    | _ => none

/-- The text of a module in JSON. -/
def Module.jsonText (m : Module) : String := m.toJson.render

/-- The module that a text in JSON writes. -/
def Module.ofJsonText (s : String) : Option Module :=
  (Json.parse s).bind (Module.read Json.maxDepth)

end StraightLine
