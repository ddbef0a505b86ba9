import StraightLine.Error
import StraightLine.Ir.Module

/-!
# Verification

A function is well formed when it returns a double, every block ends in its only terminator, every
temp is defined once and before it is used, operands have the types that their instructions ask
for, and calls agree with the functions of the module. The check goes through a function in order
and reports the first fault; a module is checked function by function.
-/

namespace StraightLine.Verify

/-- What can be wrong with a function. -/
inductive Fault where
  | returnType (found : Ty)
  | externalBody
  | noEntry
  | paramNumber (index id : Nat)
  | emptyBlock (block : String)
  | openBlock (block : String)
  | innerTerminator (instr : Instr) (block : String)
  | slotType (found : Ty)
  | loadType (instr : Instr)
  | functionOperand (name : String) (instr : Instr)
  | undefinedTemp (id : Nat)
  | operandType (operand : Operand) (instr : Instr) (found expected : Ty)
  | calleeOperand (instr : Instr)
  | undeclaredCallee (name : String)
  | calleeArity (name : String) (given expected : Nat)
  | redefinedTemp (id : Nat)
  | repeatedName
  deriving DecidableEq, Repr

/-- A fault in words. -/
def Fault.text : Fault → String
  | returnType t => "return type must be double, found " ++ t.text
  | externalBody => "external declaration has a body"
  | noEntry => "function has no entry block"
  | paramNumber i id => "parameter " ++ toString i ++ " is numbered %" ++ toString id
  | emptyBlock b => "block '" ++ b ++ "' is empty"
  | openBlock b => "block '" ++ b ++ "' does not end with a terminator"
  | innerTerminator i b =>
    "terminator `" ++ i.text ++ "` in the middle of block '" ++ b ++ "'"
  | slotType t => "slots must hold double, found " ++ t.text
  | loadType i => "`" ++ i.text ++ "` must load a double"
  | functionOperand n i => "function @" ++ n ++ " used as a value in `" ++ i.text ++ "`"
  | undefinedTemp id => "%" ++ toString id ++ " is used before it is defined"
  | operandType v i found expected =>
    "operand " ++ v.text ++ " of `" ++ i.text ++ "` has type " ++ found.text ++ ", expected " ++
      expected.text
  | calleeOperand i => "`" ++ i.text ++ "` does not call a function"
  | undeclaredCallee n => "call to undeclared function @" ++ n
  | calleeArity n given expected =>
    "call to @" ++ n ++ " passes " ++ toString given ++ " argument(s), expected " ++
      toString expected
  | redefinedTemp id => "%" ++ toString id ++ " is defined more than once"
  | repeatedName => "function is defined more than once"

/-- The types of the temps defined so far. -/
abbrev Types := List (Nat × Ty)

/-- Checks that an operand may stand where a type is expected. -/
def checkOperand (types : Types) (i : Instr) (expected : Ty) (v : Operand) : Except Fault Unit :=
  let agree (found : Ty) : Except Fault Unit :=
    if found = expected then .ok () else .error (.operandType v i found expected)
  match v with
  | .temp id =>
    match types.lookup id with
    | some found => agree found
    | none => .error (.undefinedTemp id)
  | .float _ => agree .double
  | .bool _ => agree .i1
  | .string bytes => agree (.bytes bytes.length)
  | .function name => .error (.functionOperand name i)
  | .undef => .ok ()

/-- Checks the operands of an instruction of a function that returns `ret`. -/
def checkInstr (m : Module) (ret : Ty) (types : Types) (i : Instr) : Except Fault Unit :=
  match i with
  | .alloca _ t _ => if t = .double then .ok () else .error (.slotType t)
  | .load _ p t =>
    if t = .double then checkOperand types i .slot p else .error (.loadType i)
  | .store v p => do
    checkOperand types i .double v
    checkOperand types i .slot p
  | .arith _ _ a b | .compare _ _ a b => do
    checkOperand types i .double a
    checkOperand types i .double b
  | .widen _ v => checkOperand types i .i1 v
  | .call _ callee args =>
    match callee with
    | .function name =>
      match m.find? name with
      | none => .error (.undeclaredCallee name)
      | some f =>
        if f.arity = args.length then args.forM (checkOperand types i .double)
        else .error (.calleeArity name args.length f.arity)
    | _ => .error (.calleeOperand i)
  | .ret v => checkOperand types i ret v

/-- Adds the temp that an instruction defines. -/
def define (types : Types) (i : Instr) : Except Fault Types :=
  match i.result?, i.resultType? with
  | some r, some t =>
    if (types.lookup r).isSome then .error (.redefinedTemp r) else .ok ((r, t) :: types)
  | _, _ => .ok types

/-- Checks the instructions of a block in order. -/
def checkInstrs (m : Module) (ret : Ty) (block : String) : Types → List Instr → Except Fault Types
  | types, [] => .ok types
  | types, i :: rest => do
    if i.isTerminator && !rest.isEmpty then throw (.innerTerminator i block)
    checkInstr m ret types i
    let types ← define types i
    checkInstrs m ret block types rest

/-- Checks a block: it has a last instruction, that one ends it, and all are in order. -/
def checkBlock (m : Module) (ret : Ty) (types : Types) (b : Block) : Except Fault Types :=
  match b.instrs.getLast? with
  | none => .error (.emptyBlock b.name)
  | some last =>
    if last.isTerminator then checkInstrs m ret b.name types b.instrs
    else .error (.openBlock b.name)

/-- Checks the blocks of a function in order. -/
def checkBlocks (m : Module) (ret : Ty) : Types → List Block → Except Fault Types
  | types, [] => .ok types
  | types, b :: rest => do
    let types ← checkBlock m ret types b
    checkBlocks m ret types rest

/-- Checks that parameters are numbered in order, and gives them the type double. -/
def checkParams : Nat → List (Nat × String) → Except Fault Types
  | _, [] => .ok []
  | i, (id, _) :: rest =>
    if id = i then (checkParams (i + 1) rest).map ((id, .double) :: ·)
    else .error (.paramNumber i id)

/-- The first fault of a function in a module, if it has one. -/
def check (m : Module) (f : Function) : Except Fault Unit :=
  if f.returnType ≠ .double then .error (.returnType f.returnType)
  else if f.isExternal then
    if f.blocks.isEmpty then .ok () else .error .externalBody
  else if f.blocks.isEmpty then .error .noEntry
  else do
    let types ← checkParams 0 f.params
    let _ ← checkBlocks m f.returnType types f.blocks

/-- A fault as an error of the function that has it. -/
def Fault.error (f : Function) (e : Fault) : Error := .verification f.name e.text

end StraightLine.Verify

namespace StraightLine.Module

/-- Verifies a function against the functions of a module. -/
def verifyFunction (m : Module) (f : Function) : Except Error Unit :=
  (Verify.check m f).mapError (·.error f)

/-- Verifies functions in order, given the names of those before them. -/
def verifyFunctions (m : Module) : List String → List Function → Except Error Unit
  | _, [] => .ok ()
  | seen, f :: rest => do
    if f.name ∈ seen then throw (Verify.Fault.repeatedName.error f)
    m.verifyFunction f
    m.verifyFunctions (f.name :: seen) rest

/-- Verifies the live functions of a module, whose names must differ. -/
def verify (m : Module) : Except Error Unit := m.verifyFunctions [] m.live

end StraightLine.Module
