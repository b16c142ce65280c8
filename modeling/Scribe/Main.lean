import Scribe.Command.Basic

/-!
# The command line

Reads the files that a command needs, carries it out and prints what it leaves behind.
-/

namespace Scribe.Command

/-- Whether a code stands for an error number, which some calls give negated. -/
def isNumber (number code : UInt32) : Bool :=
  code == number || code == -number

/-- An error of the file system. -/
def fileError (e : IO.Error) : FileError :=
  match e with
  | .noFileOrDirectory .. => .missing
  | .inappropriateType _ code _ => if isNumber 21 code then .isDirectory else .notDirectory
  | .invalidArgument _ code _ =>
    if isNumber 36 code then .nameTooLong else .unreadable (toString e)
  | _ => .unreadable (toString e)

/-- Reads a file of the file system. -/
def readPath (path : String) : IO (Except FileError String) := do
  try
    match String.fromUTF8? (← IO.FS.readBinFile path) with
    | some text => return .ok text
    | none => return .error (.unreadable "stream did not contain valid UTF-8")
  catch e =>
    return .error (fileError e)

/-- Carries out a command on the file system. -/
def execute (command : Command) : IO Outcome := do
  let contents ← command.paths.mapM fun path => do return (path, ← readPath path)
  return command.perform fun path => (contents.lookup path).getD (.error .missing)

end Scribe.Command

open Scribe

def main (words : List String) : IO UInt32 := do
  let outcome ← match Command.parse words with
    | .error e => pure e.outcome
    | .ok command => command.execute
  IO.print outcome.output
  IO.eprint outcome.errors
  return outcome.exit.toUInt32
