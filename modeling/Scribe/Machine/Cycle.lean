import Scribe.Machine.Value
import Std.Data.HashMap

/-!
# Values that contain themselves

Storage may be shared and may lead back to itself. Whether it does is found out by a search that goes
into each piece of storage once, however often it is shared: a piece is entered, what it holds is
searched, and after that it is settled. A piece that is met again while it is still entered holds
itself.
-/

namespace Scribe.Machine

/-- A piece of storage. -/
inductive Cell where
  | list (address : Address)
  | set (address : Address)
  | map (address : Address)
  | object (address : Address)
  deriving DecidableEq, Repr, Hashable

/-- The storage of a value, if it has any. -/
def Value.cell? : Value → Option Cell
  | .list a => some (.list a)
  | .set a => some (.set a)
  | .map a => some (.map a)
  | .object _ a => some (.object a)
  | .void | .null | .bool _ | .int _ | .rune _ | .string _ => none

/-- The values that a piece of storage holds. -/
def Heap.contents (h : Heap) : Cell → List Value
  | .list a => (h.list a).toList
  | .set a => (h.set a).toList
  | .map a => (h.map a).toList.flatMap fun e => [e.1, e.2]
  | .object a => (h.fields a).toList

/-- How far the search has come with a piece of storage. -/
inductive Mark where
  /-- It is being searched. -/
  | entered
  /-- Nothing in it leads back to itself. -/
  | settled
  deriving DecidableEq, Repr

/-- The marks set so far. -/
abbrev Marks := Std.HashMap Cell Mark

/-- Settles the storage of a value; `none` if it leads back to itself. Pieces that are entered at
the same time differ, so the number of pieces bounds the depth. -/
def settle (h : Heap) : Nat → Marks → Value → Option Marks
  | 0, _, _ => none
  | depth + 1, marks, v =>
    match v.cell? with
    | none => some marks
    | some c =>
      match marks[c]? with
      | some .settled => some marks
      | some .entered => none
      | none => do
        let marks ← (h.contents c).foldlM (settle h depth) (marks.insert c .entered)
        return marks.insert c .settled

/-- Whether a value contains itself. -/
def isCyclic (h : Heap) (v : Value) : Bool :=
  (settle h (h.size + 1) {} v).isNone

end Scribe.Machine
