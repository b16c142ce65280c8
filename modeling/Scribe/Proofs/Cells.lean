import Scribe.Proofs.Closure
import Scribe.Proofs.Growth

/-!
# Storage by its cells

Storage seen as a table of cells (`Heap.get?`). New storage leaves every cell as it is
(`Heap.Grows`), and a change leaves every cell but one (`Write.get?_of_ne`).
-/

namespace Scribe.Machine

open Scribe.Core

/-- What a piece of storage holds. -/
inductive Contents where
  | items (values : Array Value)
  | entries (entries : Array (Value × Value))
  | object (object : Instance)
  deriving DecidableEq, Repr

/-- What a piece of storage holds, if it is there. -/
def Heap.get? (h : Heap) : Cell → Option Contents
  | .list a => h.lists[a]?.map .items
  | .set a => h.sets[a]?.map .items
  | .map a => h.maps[a]?.map .entries
  | .object a => h.objects[a]?.map .object

/-! ## New storage -/

/-- A relation between storages that every new piece has, and that sequences inherit. -/
structure Accrues (R : Heap → Heap → Prop) : Prop where
  refl (h : Heap) : R h h
  trans {h1 h2 h3 : Heap} (h12 : R h1 h2) (h23 : R h2 h3) : R h1 h3
  newList (h : Heap) (items : Array Value) : R h (h.newList items).2
  newSet (h : Heap) (items : Array Value) : R h (h.newSet items).2
  newMap (h : Heap) (entries : Array (Value × Value)) : R h (h.newMap entries).2
  newObject (h : Heap) (name : String) (fields : Array Value) : R h (h.newObject name fields).2

namespace Accrues

variable {R : Heap → Heap → Prop} (hR : Accrues R)
include hR

theorem zeroValue (h : Heap) (t : Ty) : R h (zeroValue h t).2 := by
  cases t with
  | primitive p => cases p <;> exact hR.refl h
  | list item => exact hR.newList h #[]
  | set item => exact hR.newSet h #[]
  | map key value => exact hR.newMap h #[]
  | model id => exact hR.refl h

theorem zeroValues (h : Heap) (fields : List Field) : R h (zeroValues h fields).2 := by
  induction fields generalizing h with
  | nil => exact hR.refl h
  | cons f rest ih => exact hR.trans (hR.zeroValue h f.type) (ih _)

theorem allocation {f : Heap → Address × Heap} (hf : Allocation f) (h : Heap) : R h (f h).2 := by
  cases hf with
  | list items => exact hR.newList h items
  | set => exact hR.newSet h #[]
  | map => exact hR.newMap h #[]
  | object m => exact hR.trans (hR.zeroValues h m.fields) (hR.newObject _ _ _)

end Accrues

/-- Storage that has all cells of another, as they are. -/
def Heap.Grows (h h' : Heap) : Prop :=
  ∀ c x, h.get? c = some x → h'.get? c = some x

namespace Heap.Grows

variable {h h' : Heap}

theorem refl (h : Heap) : h.Grows h :=
  fun _ _ hx => hx

theorem trans {h1 h2 h3 : Heap} (hg1 : h1.Grows h2) (hg2 : h2.Grows h3) : h1.Grows h3 :=
  fun c x hx => hg2 c x (hg1 c x hx)

theorem accrues : Accrues Heap.Grows := by
  have hpush {α : Type} {f : α → Contents} {cells : Array α} {a : Address} {x : Contents}
      (hx : cells[a]?.map f = some x) (new : α) : (cells.push new)[a]?.map f = some x := by
    obtain ⟨old, hold, rfl⟩ := Option.map_eq_some_iff.mp hx
    rw [getElem?_push_of_some hold, Option.map_some]
  refine ⟨refl, trans, fun h new c x hx => ?_, fun h new c x hx => ?_, fun h new c x hx => ?_,
    fun h _ _ c x hx => ?_⟩
  all_goals cases c <;> first | exact hx | exact hpush hx _

variable {a : Address} {items : Array Value}

theorem lists (hg : h.Grows h') (ha : h.lists[a]? = some items) : h'.lists[a]? = some items := by
  simpa [get?] using hg (.list a) (.items items) (by simp [get?, ha])

theorem sets (hg : h.Grows h') (ha : h.sets[a]? = some items) : h'.sets[a]? = some items := by
  simpa [get?] using hg (.set a) (.items items) (by simp [get?, ha])

theorem maps (hg : h.Grows h') {entries : Array (Value × Value)} (ha : h.maps[a]? = some entries) :
    h'.maps[a]? = some entries := by
  simpa [get?] using hg (.map a) (.entries entries) (by simp [get?, ha])

theorem objects (hg : h.Grows h') {o : Instance} (ha : h.objects[a]? = some o) :
    h'.objects[a]? = some o := by
  simpa [get?] using hg (.object a) (.object o) (by simp [get?, ha])

end Heap.Grows

/-! ## Changes -/

/-- A change leaves every other cell as it is. -/
theorem Write.get?_of_ne {c c' : Cell} {f : Heap → Heap} (hf : Write c f) (hc : c' ≠ c)
    (h : Heap) : (f h).get? c' = h.get? c' := by
  cases hf with
  | pushItem a | popItem a | setItem a =>
    cases c' with
    | list b =>
      have hne : a ≠ b := fun hab => hc (hab ▸ rfl)
      simp [Heap.get?, Heap.pushItem, Heap.popItem, Heap.setItem, Array.getElem?_modify, hne]
    | _ => rfl
  | pushElement a =>
    cases c' with
    | set b =>
      have hne : a ≠ b := fun hab => hc (hab ▸ rfl)
      simp [Heap.get?, Heap.pushElement, Array.getElem?_modify, hne]
    | _ => rfl
  | pushEntry a | setEntry a =>
    cases c' with
    | map b =>
      have hne : a ≠ b := fun hab => hc (hab ▸ rfl)
      simp [Heap.get?, Heap.pushEntry, Heap.setEntry, Array.getElem?_modify, hne]
    | _ => rfl
  | setField a =>
    cases c' with
    | object b =>
      have hne : a ≠ b := fun hab => hc (hab ▸ rfl)
      simp [Heap.get?, Heap.setField, Array.getElem?_modify, hne]
    | _ => rfl

end Scribe.Machine
