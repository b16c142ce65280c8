import Scribe.Lowering.Scope

/-!
# Lowering computations

A lowering computation changes the program and the scope and may stop at an error. Frames are
taken off again however the computation inside them ends.
-/

namespace Scribe.Lowering

open Scribe.Core

/-- The program so far and the place where lowering stands. -/
structure Context where
  program : Program
  scope : Scope

/-- Lowering computations. -/
abbrev Lower := EStateM LowerError Context

namespace Lower

/-- A check of the program so far. -/
def check {α : Type} (f : Program → Checked α) : Lower α := fun c =>
  match f c.program with
  | .ok a => .ok a c
  | .error e => .error e c

/-- A declaration. -/
def build {α : Type} (act : Build α) : Lower α := fun c =>
  match act c.program with
  | .ok a program => .ok a { c with program }
  | .error e program => .error (.ofBuild e) { c with program }

/-- A question about the scope. -/
def inspect {α : Type} (f : Program → Scope → Checked α) : Lower α := fun c =>
  match f c.program c.scope with
  | .ok a => .ok a c
  | .error e => .error e c

/-- Binds a local in the innermost frame. -/
def bind (b : Binding) : Lower Unit := fun c =>
  match c.scope.bind b with
  | .ok scope => .ok () { c with scope }
  | .error e => .error e c

/-- Runs a computation inside a frame. -/
def withFrame {α : Type} (frame : Frame) (act : Lower α) : Lower α := fun c =>
  match act { c with scope := frame :: c.scope } with
  | .ok a c' => .ok a { c' with scope := c'.scope.tail }
  | .error e c' => .error e { c' with scope := c'.scope.tail }

/-- Runs a computation in another scope. -/
def inScope {α : Type} (scope : Scope) (act : Lower α) : Lower α := fun c =>
  match act { c with scope } with
  | .ok a c' => .ok a { c' with scope := c.scope }
  | .error e c' => .error e { c' with scope := c.scope }

end Lower

end Scribe.Lowering
