import Scribe.Toml.Document

/-!
# Configuration

A configuration file has a section for messages, one for lowering and one for runs. Everything in it
may be left out, and what nobody knows is passed over. A section is a table; an array gives its
settings in their order, and a date stands for a section without settings.
-/

namespace Scribe

/-- The settings of the command line. -/
structure Config where
  /-- Which messages are shown. -/
  level : String := "warn"
  /-- How much deferred work lowering may do. -/
  maxDeferred : Option Nat := none
  /-- The function to run. -/
  entry : Option String := none
  deriving DecidableEq, Repr

namespace Config

open Scribe.Toml (Value)

/-- The file that is looked for beside the input. -/
def fileName : String := "quill.toml"

/-- The function that is run if nothing names another. -/
def defaultEntry : String := "main"

/-- The settings of a section whose settings are declared in this order. -/
def settings? (declared : List String) : Value → Option (List (String × Value))
  | .table entries => some entries
  | .array items => some (declared.zip items)
  | .dateTime => some []
  | _ => none

/-- A setting of a section. Both may be missing; neither may be malformed. -/
def setting? {α : Type} (sections : List (String × Value)) (name : String) (setting : String)
    (read : Value → Option α) : Option (Option α) :=
  match sections.lookup name with
  | none => some none
  | some v => do
    match (← settings? [setting] v).lookup setting with
    | none => some none
    | some v => some <$> read v

def readString : Value → Option String
  | .string s => some s
  | _ => none

/-- A number that is not negative. -/
def readCount : Value → Option Nat
  | .int n => if 0 ≤ n then some n.toNat else none
  | _ => none

/-- Reads a configuration; `none` if it is malformed. -/
def parse? (text : String) : Option Config := do
  let sections ← Toml.parse? text
  let level ← setting? sections "log" "level" readString
  let maxDeferred ← setting? sections "lower" "max_deferred" readCount
  let entry ← setting? sections "run" "entry" readString
  return { level := level.getD "warn", maxDeferred, entry }

/-- The function to run: the one asked for, the configured one, or the default. -/
def effectiveEntry (c : Config) (asked : Option String) : String :=
  (asked.or c.entry).getD defaultEntry

end Config

end Scribe
