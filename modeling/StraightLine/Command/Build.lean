import StraightLine.Ast.Json
import StraightLine.Command.FileName
import StraightLine.Command.Invocation
import StraightLine.Command.Plan
import StraightLine.Diagnostic
import StraightLine.Ir.Json
import StraightLine.Lower

/-!
# Building programs

A program is read, its items are lowered one after the other, and the module is finished. An item
that is refused is reported, and the work goes on with the next one. Then the module is run or
shown.
-/

namespace StraightLine.Command.Plan

/-! ### The module of a program -/

/-- Every diagnostic, then how many there are. -/
def complaints (r : Report) : String := r.text ++ r.summary ++ "\n"

/-- A program that is being built. -/
structure Progress where
  session : Session
  report : Report := {}
  /-- What the top-level expressions have written. -/
  output : String := ""

/-- The plan when an error ends the work. -/
def abort (output : String) (report : Report) (e : Error) : Plan where
  actions := [.print output, .complain (complaints (report.add (.ofError e)))]
  status := fatal

/-- Reports an error that does not end the work. -/
def Progress.note (p : Progress) (e : Error) : Progress :=
  { p with report := p.report.add (.ofError e) }

/-- Evaluates a top-level expression. -/
def Progress.evaluate (p : Progress) (f : FunctionId) : Progress :=
  let (result, output) := Lower.evaluate p.session f
  let p := { p with output := p.output ++ output }
  match result with
  | .ok _ => p
  | .error e => p.note e

/-- Adds an item to the program; to run it, top-level expressions are evaluated at once. -/
def Progress.add (verb : Verb) (p : Progress) (i : Item) : Except Plan Progress :=
  match Lower.item i p.session, verb with
  | .ok (.topLevel f) s, .run => .ok (Progress.evaluate { p with session := s } f)
  | .ok _ s, _ => .ok { p with session := s }
  | .error e s, _ =>
    if e.isFatal then .error (abort p.output p.report e)
    else .ok (Progress.note { p with session := s } e)

/-- The session that a program is built in, with the host library declared. -/
def openSession (o : Options) : Except Error Session := do
  let target ← Target.ofTriple (o.target.getD Target.host)
  match Lower.declareHostLibrary (Session.start 1 o.session target) with
  | .ok () s => pure s
  | .error e _ => throw e

/-- Builds a program: the module, and what there is to report about it. -/
def build (verb : Verb) (o : Options) (program : Program) : Except Plan (Module × Progress) := do
  let s ← (openSession o).mapError (abort "" {})
  let p ← program.items.foldlM (Progress.add verb) { session := s }
  let m ← p.session.close.mapError (abort p.output p.report)
  pure (m, p)

/-! ### After building -/

/-- Shows what the program has written and what there is to report about it. -/
def announce (p : Progress) : List Action :=
  .print p.output ::
    if p.report.hasErrors then [.complain (complaints p.report)] else []

/-- The file that code is saved to. -/
def irFile (o : Options) : String :=
  o.irOutput.getD (String.ofList (FileName.withExtension ['l', 'l'] o.input.toList))

/-- Prints and saves the code as the options say. -/
def emit (o : Options) (m : Module) : List Action :=
  (if o.printIr then
      [.print ("\n=== IR Output ===\n" ++ m.text ++ "=== End IR ===\n\n")]
    else []) ++
    if o.saveIr then [.save (irFile o) m.text ("IR saved to: " ++ irFile o ++ "\n")] else []

/-- The exit status for the value of `main`: towards zero, at most 32 bits wide, and of these the
last eight. -/
def statusOf (x : Float) : UInt8 := x.toInt32.toUInt32.toUInt8

/-- Calls `main`. -/
def callMain (m : Module) : Plan :=
  match m.find? Lower.mainName with
  | none => { actions := [.complain "No main function. Consider creating it.\n"], status := fatal }
  | some _ =>
    match Eval.call m Lower.mainName [] with
    | (.ok x, output) => { actions := [.print output], status := statusOf x }
    | (.error e, output) =>
      { actions := [.print output, .complain (Report.text ⟨[.ofError e.error]⟩)], status := fatal }

/-- Shows the code, unless it has been printed or saved, and writes it as JSON if asked. -/
def showCode (o : Options) (m : Module) : List Action :=
  (if o.printIr || o.saveIr then [] else [.print m.text]) ++
    match o.dumpJson with
    | some path => [.save path m.jsonText ("Module JSON saved to: " ++ path ++ "\n")]
    | none => []

/-- The plan for a program that could be read. -/
def ofProgram (verb : Verb) (o : Options) (program : Program) : Plan :=
  match build verb o program with
  | .error plan => plan
  | .ok (m, p) =>
    match verb with
    | .run =>
      let call := callMain m
      { call with actions := announce p ++ emit o m ++ call.actions }
    | .ir =>
      { actions := announce p ++ emit o m ++ showCode o m,
        status := if p.report.hasErrors then failed else 0 }

/-- The plan for an input file, or for the reason why it could not be read. -/
def ofInput (verb : Verb) (o : Options) : Except String String → Plan
  | .error reason =>
    { actions := [.complain (failure ("reading " ++ o.input) reason)], status := failed }
  | .ok source =>
    match Program.ofJsonText source with
    | some program => ofProgram verb o program
    | none =>
      { actions := [.complain (failure ("parsing " ++ o.input) "not a program")], status := failed }

end StraightLine.Command.Plan
