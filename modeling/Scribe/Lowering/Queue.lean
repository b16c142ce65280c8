import Scribe.Lowering.Scope
import Scribe.Syntax.Basic

/-!
# Deferred work

Bodies wait in a queue until every signature is known. Work carries the scope that it was deferred
in, and leaves the queue in the order in which it came.
-/

namespace Scribe.Lowering

open Scribe.Core

/-- A body to be lowered. -/
inductive Body where
  | function (id : FunctionId) (block : Syntax.Block)
  | method (id : FunctionId) (block : Syntax.Block)
  | equality (model : ModelId) (block : Syntax.Block)
  | hashing (model : ModelId) (block : Syntax.Block)

/-- Work left for later: a body, or the bodies of all members of a model. -/
inductive Work where
  | body (b : Body)
  | members (id : ModelId) (model : Syntax.Model)

namespace Work

/-- Whether work brings more work. -/
def isMembers : Work → Bool
  | .members .. => true
  | .body _ => false

end Work

/-- Work and the scope it belongs to. -/
structure Deferred where
  scope : Scope
  work : Work

/-- A queue of work, the oldest first. -/
structure Queue where
  items : List Deferred := []
  /-- How many items have been taken. -/
  executed : Nat := 0

namespace Queue

/-- Appends work. -/
def enqueueAll (q : Queue) (ds : List Deferred) : Queue :=
  { q with items := q.items ++ ds }

/-- Takes the oldest work. -/
def dequeue? (q : Queue) : Option (Deferred × Queue) :=
  match q.items with
  | [] => none
  | d :: rest => some (d, { items := rest, executed := q.executed + 1 })

/-- The number of items that wait. -/
def length (q : Queue) : Nat :=
  q.items.length

/-- The number of items that wait and bring more work. -/
def pendingMembers (q : Queue) : Nat :=
  q.items.countP (·.work.isMembers)

theorem dequeue?_eq_some {q q' : Queue} {d : Deferred} (h : q.dequeue? = some (d, q')) :
    q.items = d :: q'.items ∧ q'.executed = q.executed + 1 := by
  unfold dequeue? at h
  split at h
  · simp at h
  · rename_i items hq
    simp only [Option.some.injEq, Prod.mk.injEq] at h
    obtain ⟨rfl, rfl⟩ := h
    exact ⟨hq, rfl⟩

@[simp] theorem items_enqueueAll (q : Queue) (ds : List Deferred) :
    (q.enqueueAll ds).items = q.items ++ ds := rfl

end Queue

end Scribe.Lowering
