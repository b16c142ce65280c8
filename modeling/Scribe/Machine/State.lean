import Scribe.Core.Program
import Scribe.Machine.Operator

/-!
# States and computations of the machine

A state holds the storage, the constants and a stack of frames, one for each call that is going on,
the innermost first. A computation changes the state and may stop; what it did up to there stays.
-/

namespace Scribe.Machine

open Scribe.Core

/-- What a call knows: its receiver, its arguments and its locals so far. -/
structure Frame where
  receiver : Option Value := none
  arguments : List Value := []
  locals : List (LocalId × Value) := []

/-- The state of the machine. -/
structure State where
  heap : Heap := {}
  constants : List (ConstantId × Value) := []
  frames : List Frame := []

/-- Computations of the machine. -/
abbrev Exec := EStateM Stop State

namespace Exec

/-- Stops with a fault. -/
def fault {α : Type} (f : Fault) : Exec α :=
  throw (.fault f)

/-- An operation that makes no sense. -/
def invalid {α : Type} (cause : OperationCause) : Exec α :=
  fault (.invalidOperation cause)

/-- A result or a fault. -/
def ofExcept {α : Type} : Except Fault α → Exec α
  | .ok a => pure a
  | .error f => fault f

/-- A definition of the program. -/
def ofOption {α : Type} : Option α → Exec α
  | some a => pure a
  | none => throw .dangling

/-! ## Storage -/

/-- Looks into storage. -/
def look {α : Type} (f : Heap → α) : Exec α := fun s =>
  .ok (f s.heap) s

/-- Changes storage. -/
def change (f : Heap → Heap) : Exec Unit := fun s =>
  .ok () { s with heap := f s.heap }

/-- Takes new storage. -/
def alloc (f : Heap → Address × Heap) : Exec Address := fun s =>
  let (a, heap) := f s.heap
  .ok a { s with heap }

/-! ## Frames -/

/-- The innermost frame. -/
def frame : Exec Frame := do
  match (← get).frames with
  | f :: _ => return f
  | [] => invalid .noActiveFrame

/-- Changes the innermost frame. -/
def setFrame (f : Frame → Frame) : Exec Unit := fun s =>
  match s.frames with
  | top :: rest => .ok () { s with frames := f top :: rest }
  | [] => .error (.fault (.invalidOperation .noActiveFrame)) s

/-- Runs a computation inside a new frame, which goes away however it ends. -/
def withFrame {α : Type} (f : Frame) (act : Exec α) : Exec α := fun s =>
  match act { s with frames := f :: s.frames } with
  | .ok a s' => .ok a { s' with frames := s'.frames.tail }
  | .error e s' => .error e { s' with frames := s'.frames.tail }

/-- Binds a local. -/
def setLocal (id : LocalId) (v : Value) : Exec Unit :=
  setFrame fun f => { f with locals := assocInsert id v f.locals }

/-- The model and the address of the receiver. -/
def receiver : Exec (ModelId × Address) := do
  match (← frame).receiver with
  | some (.object model a) => return (model, a)
  | some _ => invalid .receiverNotInstance
  | none => invalid .selfOutsideModel

/-- Reads a field of an object. -/
def getField (a : Address) (index : Nat) : Exec Value := do
  match (← look (·.fields a))[index]? with
  | some v => return v
  | none => invalid .fieldOutOfRange

/-- Writes a field of an object. -/
def setField (a : Address) (index : Nat) (v : Value) : Exec Unit := do
  if index < (← look (·.fields a)).size then
    change (·.setField a index v)
  else
    invalid .fieldOutOfRange

/-- Takes the last item off a list. -/
def popList : Value → Exec Value
  | .list a => do
    match ← look fun h => (h.list a).back? with
    | some v => do
      change (·.popItem a)
      return v
    | none => fault .popFromEmptyList
  | .null => fault .nullDereference
  | other => fault (notA "list" other)

end Exec

end Scribe.Machine
