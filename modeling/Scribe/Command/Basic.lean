import Scribe.Argument.Convert
import Scribe.Command.Files
import Scribe.Command.Report
import Scribe.Config
import Scribe.Core.Dump
import Scribe.Lowering.Module
import Scribe.Machine.Run
import Scribe.Syntax.Text

/-!
# Commands

`check` lowers a module and says whether that works; `run` also runs one of its functions. What a
command does is a function of the files: its output, its error output and its exit code.
-/

namespace Scribe

open Scribe.Core (Program Parameter)
open Scribe.Machine (Heap Value)

/-- A command. -/
inductive Command where
  | check (input : String) (config : Option String) (dump : Bool)
  | run (input : String) (config : Option String) (entry : Option String)
    (arguments : List String)
  deriving DecidableEq, Repr

/-- What a command leaves behind. -/
structure Outcome where
  exit : Nat
  output : String
  errors : String
  deriving DecidableEq, Repr

/-- Why a command line is refused. -/
inductive UsageError where
  /-- A path is empty. -/
  | noValue (argument : String)
  | malformed
  deriving DecidableEq, Repr

namespace UsageError

def message : UsageError → String
  | .noValue argument =>
    "error: a value is required for '" ++ argument ++ "' but none was supplied\n\n" ++
      "For more information, try '--help'.\n"
  | .malformed =>
    "usage: check INPUT [--dump-ir] [--config FILE]\n" ++
      "       run INPUT [--entry NAME] [--arg JSON]... [--config FILE]\n"

/-- What a refused command line leaves behind. -/
def outcome (e : UsageError) : Outcome :=
  { exit := 2, output := "", errors := e.message }

end UsageError

namespace Command

/-! ## Arguments of the command line -/

/-- The options of a command line, before they are taken as a command. -/
structure Options where
  input : Option String := none
  config : Option String := none
  entry : Option String := none
  arguments : List String := []
  dump : Bool := false

/-- An option, with its value if that is attached by an equals sign. -/
def splitOption (word : String) : String × Option String :=
  match word.splitOn "=" with
  | name :: first :: rest => (name, some ("=".intercalate (first :: rest)))
  | _ => (word, none)

/-- Sets something that may be set once. -/
def setOnce (old : Option String) (new : String) : Except UsageError (Option String) :=
  if old.isNone then .ok (some new) else .error .malformed

/-- Sets a path, which may not be empty. -/
def setPath (argument : String) (old : Option String) (new : String) :
    Except UsageError (Option String) :=
  if new = "" then .error (.noValue argument) else setOnce old new

/-- Sets an option that has a value. -/
def Options.set (o : Options) (running : Bool) (name value : String) :
    Except UsageError Options :=
  match name, running with
  | "--config", _ => do return { o with config := ← setPath "--config <CONFIG>" o.config value }
  | "--entry", true => do return { o with entry := ← setOnce o.entry value }
  | "--arg", true => .ok { o with arguments := o.arguments ++ [value] }
  | _, _ => .error .malformed

/-- Whether a word is an option. A dash alone is a plain word. -/
def isOption (word : String) : Bool :=
  word.startsWith "-" && word != "-"

/-- Reads the words after the name of the command. -/
def readOptions (running : Bool) (o : Options) : List String → Except UsageError Options
  | [] => .ok o
  | word :: rest =>
    if !isOption word then do
      readOptions running { o with input := ← setPath "<INPUT>" o.input word } rest
    else
      match splitOption word, rest with
      | ("--dump-ir", none), rest =>
        if running || o.dump then .error .malformed
        else readOptions running { o with dump := true } rest
      | (name, some value), rest => do readOptions running (← o.set running name value) rest
      | (name, none), value :: rest =>
        if isOption value then .error .malformed
        else do readOptions running (← o.set running name value) rest
      | (_, none), [] => .error .malformed

/-- The input of a command, which may not be left out. -/
def Options.requireInput (o : Options) : Except UsageError String :=
  match o.input with
  | some input => .ok input
  | none => .error .malformed

/-- Reads a command line. -/
def parse : List String → Except UsageError Command
  | "check" :: words => do
    let o ← readOptions false {} words
    return .check (← o.requireInput) o.config o.dump
  | "run" :: words => do
    let o ← readOptions true {} words
    return .run (← o.requireInput) o.config o.entry o.arguments
  | _ => .error .malformed

/-! ## Parts -/

/-- The configuration of a command: the given file, or the one beside the input if there is one. -/
def loadConfig (files : Files) (input : String) (config : Option String) :
    Except Report Config := do
  match config.or (some (sibling input Config.fileName) |>.filter files.isFile) with
  | none => return {}
  | some path =>
    match files path with
    | .error e => throw ⟨"Failed to read config " ++ path, [e.message]⟩
    | .ok text =>
      match Config.parse? text with
      | some c => return c
      | none => throw ⟨"Invalid config " ++ path, ["malformed configuration"]⟩

/-- The program in a file. -/
def compile (files : Files) (input : String) (config : Config) : Except Report Program := do
  match files input with
  | .error e => throw ⟨"Failed to read file " ++ input, [e.message]⟩
  | .ok text =>
    match Syntax.Module.ofText? text with
    | none => throw ⟨input ++ " is not a valid syntax tree", ["malformed tree"]⟩
    | some m =>
      match Lowering.lower m config.maxDeferred with
      | .error e => throw ⟨"Failed to lower " ++ input, [e.message]⟩
      | .ok p => return p

/-- The arguments of a run, in new storage. -/
def readArguments (p : Program) (h : Heap) :
    List (Parameter × String) → Except Report (List Value × Heap)
  | [] => .ok ([], h)
  | (parameter, raw) :: rest =>
    match Json.parse? raw with
    | none =>
      .error ⟨"Argument `" ++ parameter.name ++ "` is not valid JSON: " ++ raw, ["malformed value"]⟩
    | some j =>
      match Datum.ofJson p j parameter.type with
      | .error e => .error ⟨"Invalid value for argument `" ++ parameter.name ++ "`", e.messages⟩
      | .ok d => do
        let (v, h) := d.store h
        let (vs, h) ← readArguments p h rest
        return (v :: vs, h)

/-- How long a run may go on. -/
def ampleFuel : Nat := 1 <<< 62

/-- The text that a run prints: that of its value, unless it gives none. -/
def resultText (h : Heap) : Value → String
  | .void => ""
  | v => (Machine.text? h v).getD "" ++ "\n"

/-- Runs a function of a program and gives what it prints. -/
def runEntry (p : Program) (input entry : String) (arguments : List String) :
    Except Report String := do
  match (p.function? entry).bind p.getFunction? with
  | none => throw ⟨"No function named `" ++ entry ++ "` in " ++ input, []⟩
  | some f => do
    if f.parameters.length ≠ arguments.length then
      throw ⟨"`" ++ entry ++ "` takes " ++ toString f.parameters.length ++ " argument(s), " ++
        toString arguments.length ++ " given", []⟩
    let (values, heap) ← readArguments p {} (f.parameters.zip arguments)
    match Machine.run p ampleFuel entry values { heap } with
    | .ok v s => return resultText s.heap v
    | .error (.fault f) _ => throw ⟨"`" ++ entry ++ "` failed", [f.message]⟩
    | .error .exhausted _ | .error (.endless ..) _ =>
      throw ⟨"`" ++ entry ++ "` failed", ["no end in sight"]⟩
    | .error .dangling _ => throw ⟨"`" ++ entry ++ "` failed", ["dangling reference"]⟩

/-! ## Outcomes -/

/-- A failure after some output. -/
def failed (output errors : String) (r : Report) : Outcome :=
  { exit := 1, output, errors := errors ++ r.render }

/-- Checks a module. -/
def performCheck (files : Files) (input : String) (config : Config) (dump : Bool) : Outcome :=
  let started := "Checking " ++ input ++ "\n"
  match compile files input config with
  | .error r =>
    failed started ("  ✗ " ++ r.inline ++ "\n") ⟨"Check failed for " ++ input, []⟩
  | .ok p =>
    let counts := "  ✓ " ++ toString p.functions.size ++ " functions, " ++
      toString p.models.size ++ " models, " ++ toString p.constants.size ++ " constants\n"
    let listing := if dump then "\n" ++ p.dump else ""
    let output := started ++ counts ++ listing ++ "Success: No errors found\n"
    { exit := 0, output, errors := "" }

/-- Runs a function of a module. -/
def performRun (files : Files) (input : String) (config : Config) (entry : String)
    (arguments : List String) : Outcome :=
  let started := "Running " ++ entry ++ " in " ++ input ++ "\n"
  let result := do
    let p ← compile files input config
    runEntry p input entry arguments
  match result with
  | .error r => failed started "" r
  | .ok text =>
    { exit := 0, output := started ++ text ++ "Finished " ++ entry ++ "\n", errors := "" }

/-- Carries out a command. -/
def perform (files : Files) : Command → Outcome
  | .check input config dump =>
    match loadConfig files input config with
    | .error r => failed "" "" r
    | .ok c => performCheck files input c dump
  | .run input config entry arguments =>
    match loadConfig files input config with
    | .error r => failed "" "" r
    | .ok c => performRun files input c (c.effectiveEntry entry) arguments

/-- The files that a command may read. -/
def paths : Command → List String
  | .check input config _ => [input, config.getD (sibling input Config.fileName)]
  | .run input config _ _ => [input, config.getD (sibling input Config.fileName)]

end Command

end Scribe
