import StraightLine.Ir.Module
import StraightLine.Session.Basic

/-!
# Invocations

What the words of a command line ask for. Two commands build a program: `run` evaluates it and `ir`
shows its code. Options may stand before and after the input file, a lone `--` ends them, and a
value is either the next word or follows an equals sign. Nothing may be given twice.
-/

namespace StraightLine.Command

/-! ### Words -/

/-- A word of a command line by its shape. -/
inductive Word where
  /-- A lone `--`, after which every word is plain. -/
  | endOfOptions
  /-- A word that begins with `--`, and what follows its equals sign. -/
  | long (name : String) (value : Option String)
  /-- Letters after a single `-`. -/
  | short (letters : List Char)
  | plain (text : String)
  deriving DecidableEq, Repr

/-- A long option, with the value that may stand behind an equals sign. -/
def Word.longOf (cs : List Char) : Word :=
  .long (String.ofList (cs.takeWhile (· ≠ '=')))
    (match cs.dropWhile (· ≠ '=') with
      | [] => none
      | _ :: value => some (String.ofList value))

/-- The shape of a word. A single `-` is plain. -/
def Word.ofText (text : String) : Word :=
  match text.toList with
  | ['-', '-'] => .endOfOptions
  | '-' :: '-' :: cs => longOf cs
  | '-' :: c :: cs => .short (c :: cs)
  | _ => .plain text

/-- Whether a word can be the value of the option before it. -/
def Word.isPlain : Word → Bool
  | .plain _ => true
  | _ => false

/-! ### What can be asked for -/

/-- What is done with a program. -/
inductive Verb where
  /-- Its top-level expressions are evaluated, then `main` is called. -/
  | run
  /-- Its code is shown. -/
  | ir
  deriving DecidableEq, Repr

/-- An option without a value. -/
inductive Flag where
  | printIr
  | saveIr
  | noOpt
  | noVerifyEach
  | verbose
  deriving DecidableEq, Repr

/-- An option with a value. -/
inductive Setting where
  | irOutput
  | moduleName
  | target
  | dumpJson
  deriving DecidableEq, Repr

/-- The flag of a long name. -/
def Flag.ofName? : String → Option Flag
  | "print-ir" => some printIr
  | "save-ir" => some saveIr
  | "no-opt" => some noOpt
  | "no-verify-each" => some noVerifyEach
  | "verbose" => some verbose
  | _ => none

/-- The setting of a long name; only `ir` can write the module as JSON. -/
def Setting.ofName? (verb : Verb) : String → Option Setting
  | "ir-output" => some irOutput
  | "module-name" => some moduleName
  | "target" => some target
  | "dump-json" => if verb = .ir then some dumpJson else none
  | _ => none

/-- Whether the value of a setting names a file, and so cannot be empty. -/
def Setting.isPath : Setting → Bool
  | irOutput | dumpJson => true
  | moduleName | target => false

/-- The long name of a setting. -/
def Setting.text : Setting → String
  | irOutput => "--ir-output"
  | moduleName => "--module-name"
  | target => "--target"
  | dumpJson => "--dump-json"

/-- How a program is built. -/
structure Options where
  /-- The file that holds the program. -/
  input : String
  printIr : Bool := false
  saveIr : Bool := false
  /-- Where code is saved, if not beside the input. -/
  irOutput : Option String := none
  optimize : Bool := true
  verifyEach : Bool := true
  moduleName : String := Module.defaultName
  /-- The triple of the target, if not the machine that the program runs on. -/
  target : Option String := none
  /-- Where the module is written as JSON. -/
  dumpJson : Option String := none
  deriving DecidableEq, Repr

/-- The part of the options that a session takes. -/
def Options.session (o : Options) : SessionOptions where
  moduleName := o.moduleName
  verifyEach := o.verifyEach
  optimize := o.optimize

/-- Why a command line asks for nothing. -/
inductive UsageError where
  | noCommand
  | unknownCommand (text : String)
  | unexpected (word : String)
  | repeated (word : String)
  | noValue (option : String)
  | noInput
  deriving DecidableEq, Repr

/-- A usage error in words. -/
def UsageError.text : UsageError → String
  | noCommand => "a command is required: run or ir"
  | unknownCommand c => "unrecognized command '" ++ c ++ "'"
  | unexpected w => "unexpected argument '" ++ w ++ "'"
  | repeated w => "the argument '" ++ w ++ "' cannot be used multiple times"
  | noValue o => "a value is required for '" ++ o ++ "'"
  | noInput => "an input file is required"

/-- What a command line asks for. -/
inductive Invocation where
  | build (verb : Verb) (options : Options)
  | version
  | help
  | refused (reason : UsageError)
  deriving DecidableEq, Repr

/-! ### Reading the words after a command -/

/-- Reading words, which can end early with an invocation. -/
abbrev Reading := Except Invocation

/-- Refuses the command line. -/
def refuse {α : Type} (reason : UsageError) : Reading α := .error (.refused reason)

/-- What the words after a command have given so far. -/
structure Given where
  flags : List Flag := []
  settings : List (Setting × String) := []
  input : Option String := none
  deriving DecidableEq, Repr

namespace Given

/-- Adds a flag. -/
def addFlag (g : Given) (word : String) (f : Flag) : Reading Given :=
  if f ∈ g.flags then refuse (.repeated word) else .ok { g with flags := f :: g.flags }

/-- Adds the value of a setting. -/
def addSetting (g : Given) (s : Setting) (value : String) : Reading Given :=
  if (g.settings.lookup s).isSome then refuse (.repeated s.text)
  else if s.isPath && value.isEmpty then refuse (.noValue s.text)
  else .ok { g with settings := (s, value) :: g.settings }

/-- Adds the input file. -/
def addInput (g : Given) (text : String) : Reading Given :=
  if g.input.isSome then refuse (.unexpected text)
  else if text.isEmpty then refuse .noInput
  else .ok { g with input := some text }

/-- Adds the flags that letters stand for. -/
def addLetters (g : Given) (word : String) : List Char → Reading Given
  | [] => .ok g
  | 'v' :: cs => do (← g.addFlag word .verbose).addLetters word cs
  | 'h' :: _ => .error .help
  | _ :: _ => refuse (.unexpected word)

/-- Adds a long option that takes no value from the next word. -/
def addLong (g : Given) (verb : Verb) (word name : String) (value : Option String) :
    Reading Given :=
  match Flag.ofName? name, Setting.ofName? verb name, value with
  | some f, _, none => g.addFlag word f
  | none, some s, some v => g.addSetting s v
  | none, some s, none => refuse (.noValue s.text)
  | _, _, _ => if name = "help" ∧ value = none then .error .help else refuse (.unexpected word)

/-- Adds the words that follow a command. -/
def addWords (verb : Verb) : Given → List String → Reading Given
  | g, [] => .ok g
  | g, word :: rest =>
    match Word.ofText word with
    | .endOfOptions => rest.foldlM addInput g
    | .plain text => do addWords verb (← g.addInput text) rest
    | .short letters => do addWords verb (← g.addLetters word letters) rest
    | .long name value =>
      match Setting.ofName? verb name, value, rest with
      | some s, none, next :: rest =>
        if (Word.ofText next).isPlain then do addWords verb (← g.addSetting s next) rest
        else refuse (.noValue s.text)
      | _, _, rest => do addWords verb (← g.addLong verb word name value) rest

/-- The options that are given. -/
def options (g : Given) (input : String) : Options where
  input := input
  printIr := g.flags.contains .printIr
  saveIr := g.flags.contains .saveIr
  irOutput := g.settings.lookup .irOutput
  optimize := !g.flags.contains .noOpt
  verifyEach := !g.flags.contains .noVerifyEach
  moduleName := (g.settings.lookup .moduleName).getD Module.defaultName
  target := g.settings.lookup .target
  dumpJson := g.settings.lookup .dumpJson

end Given

/-! ### Reading a command line -/

namespace Invocation

/-- What the words after a command ask for. -/
def ofWords (verb : Verb) (words : List String) : Invocation :=
  match Given.addWords verb {} words with
  | .error i => i
  | .ok g =>
    match g.input with
    | some input => build verb (g.options input)
    | none => refused .noInput

/-- Reads letters before the command; `seen` says whether `-v` has been given, and so does the
result. -/
def readLetters (word : String) : Bool → List Char → Reading Bool
  | seen, [] => .ok seen
  | seen, 'v' :: cs => if seen then refuse (.repeated word) else readLetters word true cs
  | _, 'V' :: _ => .error version
  | _, 'h' :: _ => .error help
  | _, _ :: _ => refuse (.unexpected word)

/-- What the words after `help` ask for: help about commands that there are. -/
def ofHelp : List String → Invocation
  | [] | ["run"] | ["ir"] | ["help"] => help
  | word :: _ => refused (.unknownCommand word)

/-- Reads a command line; `seen` says whether `-v` has been given. -/
def read : Bool → List String → Invocation
  | _, [] => refused .noCommand
  | seen, word :: rest =>
    match Word.ofText word with
    | .plain "run" => ofWords .run rest
    | .plain "ir" => ofWords .ir rest
    | .plain "help" => ofHelp rest
    | .plain text => refused (.unknownCommand text)
    | .long "version" none => version
    | .long "help" none => help
    | .long "verbose" none => if seen then refused (.repeated word) else read true rest
    | .long _ _ => refused (.unexpected word)
    | .short letters =>
      match readLetters word seen letters with
      | .ok seen => read seen rest
      | .error i => i
    | .endOfOptions => refused .noCommand

/-- What a command line asks for. -/
def ofArguments (words : List String) : Invocation := read false words

end Invocation

end StraightLine.Command
