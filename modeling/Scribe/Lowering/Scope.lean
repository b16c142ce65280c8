import Scribe.Lowering.Error

/-!
# Scopes

A scope is the chain of constructs around the place that is being lowered, the innermost first.
Names are looked up from the inside outwards, then among the constants of the program.
-/

namespace Scribe.Lowering

open Scribe.Core

/-- A name that stands for a local. -/
structure Binding where
  name : String
  id : LocalId
  deriving DecidableEq, Repr

/-- One level of nesting. -/
inductive Frame where
  | program
  | model (id : ModelId)
  | function (id : FunctionId)
  | equality (model : ModelId) (other : Binding)
  | hashing (model : ModelId)
  /-- A block, with its bindings so far. -/
  | block (bindings : List Binding)
  /-- A loop with a condition, and what its first part declares. -/
  | forLoop (binding : Option Binding)
  | forEach (item : Binding)
  deriving DecidableEq, Repr

/-- The frames around a place, innermost first. -/
abbrev Scope := List Frame

namespace Frame

/-- The definition that a frame gives to a name. -/
def find? (p : Program) (name : String) : Frame → Checked (Option Definition)
  | .block bindings => .ok ((bindings.find? (·.name == name)).map (.binding ·.id))
  | .forLoop (some b) => .ok (if b.name = name then some (.binding b.id) else none)
  | .forEach b => .ok (if b.name = name then some (.binding b.id) else none)
  | .equality _ b => .ok (if b.name = name then some (.binding b.id) else none)
  | .function id => do
    let f ← .ofOption (p.getFunction? id)
    return (f.parameters.findIdx? (·.name == name)).map (.argument id)
  | .model id => do
    let m ← .ofOption (p.getModel? id)
    return (m.field? name).map (.field id)
  | .program | .hashing _ | .forLoop none => .ok none

end Frame

namespace Scope

/-- The definition of a name. -/
def resolve (p : Program) (name : String) : Scope → Checked Definition
  | [] =>
    match p.constant? name with
    | some id => .ok (.constant id)
    | none => .error (.nameNotFound name)
  | frame :: outer => do
    match ← frame.find? p name with
    | some definition => return definition
    | none => resolve p name outer

/-- The innermost model. -/
def enclosingModel? : Scope → Option ModelId :=
  List.findSome? fun
    | .model id => some id
    | _ => none

/-- The callable that a return leaves. -/
def enclosingCallable? : Scope → Option Callable :=
  List.findSome? fun
    | .function id => some (.function id)
    | .equality model _ => some (.equality model)
    | .hashing model => some (.hashing model)
    | _ => none

/-- Whether there is a loop around a place within its callable. -/
def inLoop : Scope → Bool
  | [] => false
  | .forLoop _ :: _ | .forEach _ :: _ => true
  | .function _ :: _ | .equality _ _ :: _ | .hashing _ :: _ => false
  | _ :: outer => inLoop outer

/-- Binds a name in the innermost frame: in a block that does not bind it yet, or as the only
binding of a loop. -/
def bind (b : Binding) : Scope → Checked Scope
  | .block bindings :: outer =>
    if bindings.any (·.name == b.name) then .error (.duplicateDefinition b.name)
    else .ok (.block (b :: bindings) :: outer)
  | .forLoop none :: outer => .ok (.forLoop (some b) :: outer)
  | _ => .error (.structural (.declarationOutsideBlock b.name))

end Scope

end Scribe.Lowering
