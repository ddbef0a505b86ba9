import StraightLine.Error
import StraightLine.Text.Split

/-!
# Targets

The machine that code is meant for, named by a triple `arch-vendor-os` with any further parts.
-/

namespace StraightLine

/-- How much work finishing a module takes. -/
inductive Effort where
  /-- The module is only verified. -/
  | none
  /-- The standard passes run. -/
  | aggressive
  deriving DecidableEq, Repr

/-- The word that a target shows for its effort. -/
def Effort.text : Effort → String
  | none => "None"
  | aggressive => "Aggressive"

/-- A machine, as named by its triple. -/
structure Target where
  triple : String
  arch : String
  os : String
  effort : Effort := .aggressive
  deriving DecidableEq, Repr

/-- A text that is no triple. -/
def Target.invalid (triple : String) : Error :=
  .toolchain ("Invalid target triple '" ++ triple ++ "'")

/-- Reads a triple: at least three parts, none of them empty. -/
def Target.ofTriple (triple : String) : Except Error Target :=
  let parts := Text.splitAt '-' triple
  if parts.any (·.isEmpty) then .error (invalid triple)
  else match parts with
    | arch :: _ :: os :: _ => .ok { triple := triple, arch := arch, os := os }
    | _ => .error (invalid triple)

/-- The triple with the effort behind it. -/
def Target.text (t : Target) : String := t.triple ++ " (" ++ t.effort.text ++ ")"

/-- The triple of the machine that the program runs on. -/
def Target.host : String := "x86_64-unknown-linux-gnu"

end StraightLine
