import Scribe.Machine.Run
import Scribe.Proofs.Occurrence

/-!
# The steps of the machine

The machine builds its computations from a few steps: it looks into storage and changes it, reads
constants, reads and changes the innermost frame, stops, and goes on after another computation. A
property of computations that all these steps have and that sequences inherit (`Closed`) holds of
all that the machine does. Comparisons and hashes touch no frame, so for them a part of the steps is
enough (`Searching`), and most expressions change nothing that is there (`Observing`). The
operations on fields, containers and definitions need no fuel, so for them it does not matter
whether running out of it has the property (`Looking`, `Reading`, `FuelFree`). Only a look at a
local stops because that local is unset.
-/

namespace Scribe.Machine

open Scribe.Core

/-! ## Steps -/

/-- The changes that the machine makes to storage that is there, and the cell each is made to. -/
inductive Write : Cell → (Heap → Heap) → Prop where
  | pushItem (a : Address) (v : Value) : Write (.list a) (·.pushItem a v)
  | popItem (a : Address) : Write (.list a) (·.popItem a)
  | setItem (a : Address) (index : Nat) (v : Value) : Write (.list a) (·.setItem a index v)
  | pushElement (a : Address) (v : Value) : Write (.set a) (·.pushElement a v)
  | pushEntry (a : Address) (key v : Value) : Write (.map a) (·.pushEntry a key v)
  | setEntry (a : Address) (index : Nat) (v : Value) : Write (.map a) (·.setEntry a index v)
  | setField (a : Address) (index : Nat) (v : Value) : Write (.object a) (·.setField a index v)

/-- The ways in which the machine takes new storage. -/
inductive Allocation : (Heap → Address × Heap) → Prop where
  | list (items : Array Value) : Allocation (·.newList items)
  | set : Allocation (·.newSet #[])
  | map : Allocation (·.newMap #[])
  | object (m : Model) : Allocation (instantiate m)

/-- The name of the unset local that was the reason to stop. -/
def Stop.unset? : Stop → Option String
  | .fault (.invalidOperation (.localUnset name)) => some name
  | _ => none

/-- A result, or a fault that is not about an unset local. -/
def Plain {α : Type} : Except Fault α → Prop
  | .ok _ => True
  | .error f => (Stop.fault f).unset? = none

variable (P : (α : Type) → Exec α → Prop)

/-- A property of computations that look into storage, stop or go on. -/
structure Looking : Prop where
  pure {α : Type} (a : α) : P α (pure a)
  stop {α : Type} {stop : Stop} (hset : stop.unset? = none) (hfuel : stop ≠ .exhausted) :
    P α (throw stop)
  bind {α β : Type} {act : Exec α} {f : α → Exec β} (hact : P α act) (hf : ∀ a, P β (f a)) :
    P β (act >>= f)
  look {α : Type} (f : Heap → α) : P α (Exec.look f)

/-- A property of comparisons and hashes, which may run out of fuel. -/
structure Searching : Prop extends Looking P where
  exhausted {α : Type} : P α (throw .exhausted)

/-- A property of computations that do not change what is there, but may take new storage. -/
structure Observing : Prop extends Searching P where
  alloc {f : Heap → Address × Heap} (hf : Allocation f) : P Address (Exec.alloc f)
  frame : P Frame Exec.frame

/-- A property of all that the machine does inside one call. -/
structure Closed : Prop extends Observing P where
  change {c : Cell} {f : Heap → Heap} (hf : Write c f) : P Unit (Exec.change f)
  setFrame (f : Frame → Frame) : P Unit (Exec.setFrame f)
  constant (p : Program) (id : ConstantId) : P Value (readDefinition p (.constant id))
  unset {α : Type} (name : String) : P α (Exec.invalid (.localUnset name))

/-- A property of all that the machine reads without fuel. -/
structure Reading : Prop extends Looking P where
  frame : P Frame Exec.frame
  constant (p : Program) (id : ConstantId) : P Value (readDefinition p (.constant id))
  unset {α : Type} (name : String) : P α (Exec.invalid (.localUnset name))

/-- A property of all that the machine does without fuel. -/
structure FuelFree : Prop extends Reading P where
  change {c : Cell} {f : Heap → Heap} (hf : Write c f) : P Unit (Exec.change f)
  alloc {f : Heap → Address × Heap} (hf : Allocation f) : P Address (Exec.alloc f)
  setFrame (f : Frame → Frame) : P Unit (Exec.setFrame f)

theorem Closed.fuelFree {P : (α : Type) → Exec α → Prop} (h : Closed P) : FuelFree P where
  toLooking := h.toLooking
  frame := h.frame
  constant := h.constant
  unset := h.unset
  change := h.change
  alloc := h.alloc
  setFrame := h.setFrame

/-- A property of the calls that an environment makes. -/
def Env.Calls (env : Env) : Prop :=
  ∀ name body frame, P Value (env.invoke name body frame)

/-! ## Operators -/

theorem asInt_plain (v : Value) : Plain (asInt v) := by
  cases v with
  | int n => exact trivial
  | _ => rfl

theorem asBool_plain (v : Value) : Plain (asBool v) := by
  cases v with
  | bool b => exact trivial
  | _ => rfl

theorem Plain.bind {α β : Type} {x : Except Fault α} {f : α → Except Fault β} (hx : Plain x)
    (hf : ∀ a, Plain (f a)) : Plain (x.bind f) := by
  cases x with
  | ok a => exact hf a
  | error e => exact hx

theorem Plain.ite {α : Type} {c : Prop} [Decidable c] {x y : Except Fault α} (hx : Plain x)
    (hy : Plain y) : Plain (if c then x else y) := by
  by_cases hc : c
  · rw [if_pos hc]
    exact hx
  · rw [if_neg hc]
    exact hy

theorem toRune_plain (code : Int64) : Plain (toRune code) :=
  Plain.ite trivial rfl

theorem checkedIndex_plain (index : Int64) (length : Nat) : Plain (checkedIndex index length) :=
  Plain.ite trivial rfl

theorem lengthValue_plain (length : Nat) : Plain (lengthValue length) :=
  Plain.ite trivial rfl

theorem arithmetic?_plain {op : BinaryOp} {l r : Int64} {x : Except Fault Int64}
    (h : arithmetic? op l r = some x) : Plain x := by
  cases op with
  | add | subtract | multiply =>
    cases h
    exact trivial
  | divide | modulo =>
    cases h
    exact Plain.ite rfl trivial
  | _ => cases h

theorem numeric_plain {op : BinaryOp} {kind : String} {wrap : Int64 → Except Fault Value}
    (hwrap : ∀ n, Plain (wrap n)) (l r : Int64) : Plain (numeric op kind wrap l r) := by
  unfold numeric
  split
  · rename_i x _ hx
    exact (arithmetic?_plain hx).bind hwrap
  · exact trivial
  · exact rfl

theorem applyBinary_plain (op : BinaryOp) (left right : Value) :
    Plain (applyBinary op left right) := by
  unfold applyBinary
  split
  · exact numeric_plain (fun n => show Plain (.ok (.int n)) from trivial) _ _
  · exact numeric_plain toRune_plain _ _
  · split
    · exact trivial
    · exact rfl
  · split
    · exact trivial
    · exact trivial
    · exact rfl
  · exact rfl

theorem applyUnary_plain (op : UnaryOp) (v : Value) : Plain (applyUnary op v) := by
  unfold applyUnary
  split
  · exact trivial
  · exact trivial
  · exact trivial
  · exact trivial
  · exact rfl

theorem checkArguments_plain (p : Program) (h : Heap) (parameters : List Parameter)
    (arguments : List Value) : Plain (checkArguments p h parameters arguments) := by
  induction parameters generalizing arguments with
  | nil => exact trivial
  | cons q parameters ih =>
    cases arguments with
    | nil => exact trivial
    | cons v arguments => exact .ite (ih arguments) rfl

/-! ## What the steps add up to -/

namespace Looking

variable {P} (h : Looking P)
include h

theorem fault {α : Type} {f : Fault} (hf : (Stop.fault f).unset? = none) : P α (Exec.fault f) :=
  h.stop hf (by rintro ⟨⟩)

theorem invalid {α : Type} {cause : OperationCause}
    (hcause : (Stop.fault (.invalidOperation cause)).unset? = none) : P α (Exec.invalid cause) :=
  h.fault hcause

theorem ofExcept {α : Type} {r : Except Fault α} (hr : Plain r) : P α (Exec.ofExcept r) := by
  cases r with
  | ok a => exact h.pure a
  | error f => exact h.fault hr

theorem ofOption {α : Type} (o : Option α) : P α (Exec.ofOption o) := by
  cases o with
  | none => exact h.stop rfl (by rintro ⟨⟩)
  | some a => exact h.pure a

theorem flowResult (name : String) (flow : Flow) : P Value (flowResult name flow) := by
  cases flow with
  | next | ret _ => exact h.pure _
  | brk | cont => exact h.invalid rfl

theorem getField (a : Address) (index : Nat) : P Value (Exec.getField a index) := by
  refine h.bind (h.look _) fun fields => ?_
  split
  · exact h.pure _
  · exact h.invalid rfl

theorem lengthOf (v : Value) : P Value (lengthOf v) := by
  cases v with
  | string s => exact h.ofExcept (lengthValue_plain _)
  | list a | set a | map a => exact h.bind (h.look _) fun items => h.ofExcept (lengthValue_plain _)
  | _ => exact h.fault rfl

theorem elementsOf (v : Value) : P (List Value) (elementsOf v) := by
  cases v with
  | set a => exact h.bind (h.look _) fun items => h.pure _
  | _ => exact h.fault rfl

theorem fieldOf (v : Value) (index : Nat) : P Value (fieldOf v index) := by
  cases v with
  | object model a => exact h.getField a index
  | _ => exact h.fault rfl

theorem iterationItems (v : Value) : P (List Value) (iterationItems v) := by
  cases v with
  | list a | set a => exact h.bind (h.look _) fun items => h.pure _
  | _ => exact h.fault rfl

theorem receiver (hframe : P Frame Exec.frame) : P (ModelId × Address) Exec.receiver := by
  refine h.bind hframe fun f => ?_
  split
  · exact h.pure _
  · exact h.invalid rfl
  · exact h.invalid rfl

section Changes

variable (hchange : ∀ {c f}, Write c f → P Unit (Exec.change f))
include hchange

theorem setField (a : Address) (index : Nat) (v : Value) : P Unit (Exec.setField a index v) := by
  refine h.bind (h.look _) fun fields => ?_
  split
  · exact hchange (.setField a index v)
  · exact h.invalid rfl

theorem popList (v : Value) : P Value (Exec.popList v) := by
  cases v with
  | list a =>
    refine h.bind (h.look _) fun last => ?_
    cases last with
    | none => exact h.fault rfl
    | some v => exact h.bind (hchange (.popItem a)) fun _ => h.pure v
  | _ => exact h.fault rfl

theorem pushTo (list v : Value) : P Unit (pushTo list v) := by
  cases list with
  | list a => exact hchange (.pushItem a v)
  | _ => exact h.fault rfl

end Changes

end Looking

variable {P}

theorem Reading.readDefinition (h : Reading P) (p : Program) (d : Definition) :
    P Value (readDefinition p d) := by
  cases d with
  | constant id => exact h.constant p id
  | argument function index =>
    refine h.bind h.frame fun f => ?_
    split
    · exact h.pure _
    · exact h.invalid rfl
  | field model index => exact h.bind (h.receiver h.frame) fun r => h.getField _ _
  | binding id =>
    refine h.bind h.frame fun f => ?_
    split
    · exact h.pure _
    · exact h.bind (h.ofOption _) fun l => h.unset _

theorem FuelFree.assignDefinition (h : FuelFree P) (d : Definition) (v : Value) :
    P Unit (assignDefinition d v) := by
  cases d with
  | binding id => exact h.setFrame _
  | argument function index =>
    refine h.bind h.frame fun f => ?_
    split
    · exact h.setFrame _
    · exact h.invalid rfl
  | field model index => exact h.bind (h.receiver h.frame) fun r => h.setField h.change _ _ _
  | constant id => exact h.invalid rfl

end Scribe.Machine
