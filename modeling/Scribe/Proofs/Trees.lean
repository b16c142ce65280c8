import Scribe.Argument.Datum
import Scribe.Proofs.Cells

/-!
# Data in storage

A value spells a datum if following it through storage gives the datum back (`Heap.Spells`). The
cells on the way are listed, so a value is a tree if no cell is listed twice. Storing a datum gives
a tree that spells it, in cells that were not there before, and leaves all other cells alone
(`store_laid`).
-/

namespace Scribe

open Scribe.Core (ModelId)
open Scribe.Machine

/-! ## Data as trees -/

namespace Datum

/-- The data that a datum is made of. -/
def children : Datum → List Datum
  | .list items | .set items | .object _ _ items => items
  | .map entries => entries.flatMap fun e => [e.1, e.2]
  | _ => []

theorem mem_children_map {entries : List (Datum × Datum)} {e : Datum × Datum} (he : e ∈ entries) :
    e.1 ∈ (Datum.map entries).children ∧ e.2 ∈ (Datum.map entries).children :=
  ⟨List.mem_flatMap.mpr ⟨e, he, List.mem_cons_self⟩,
    List.mem_flatMap.mpr ⟨e, he, List.mem_cons_of_mem _ List.mem_cons_self⟩⟩

theorem sizeOf_child {d c : Datum} (h : c ∈ d.children) : sizeOf c < sizeOf d := by
  cases d with
  | list items | set items | object model name items =>
    have hlt : sizeOf c < sizeOf items := List.sizeOf_lt_of_mem h
    simp only [Datum.list.sizeOf_spec, Datum.set.sizeOf_spec, Datum.object.sizeOf_spec]
    omega
  | map entries =>
    obtain ⟨e, he, hc⟩ := List.mem_flatMap.mp h
    have hlt : sizeOf e < sizeOf entries := List.sizeOf_lt_of_mem he
    have hparts : sizeOf e = 1 + sizeOf e.1 + sizeOf e.2 := by cases e; rfl
    simp only [List.mem_cons, List.not_mem_nil, or_false] at hc
    simp only [Datum.map.sizeOf_spec]
    rcases hc with rfl | rfl <;> omega
  | _ => cases h

/-- Induction over data: what holds of a datum if it holds of the data it is made of holds of
all. -/
theorem nodeInduction {motive : Datum → Prop}
    (h : ∀ d, (∀ c ∈ d.children, motive c) → motive d) (d : Datum) : motive d :=
  h d fun c hc =>
    have := sizeOf_child hc
    nodeInduction h c
termination_by sizeOf d

end Datum

/-! ## Spelled data -/

/-- A value with the datum that it stands for, and the cells in which that is stored. -/
structure Spelled where
  value : Value
  datum : Datum
  cells : List Cell

/-- A value stands for a datum. -/
inductive Machine.Heap.Spells (h : Heap) : Spelled → Prop where
  | null : h.Spells ⟨.null, .null, []⟩
  | bool (b : Bool) : h.Spells ⟨.bool b, .bool b, []⟩
  | int (n : Int64) : h.Spells ⟨.int n, .int n, []⟩
  | rune (c : Char) : h.Spells ⟨.rune c, .rune c, []⟩
  | string (s : String) : h.Spells ⟨.string s, .string s, []⟩
  | list {a : Address} {parts : List Spelled}
      (ha : h.lists[a]? = some (parts.map (·.value)).toArray) (hparts : ∀ x ∈ parts, h.Spells x) :
      h.Spells ⟨.list a, .list (parts.map (·.datum)), parts.flatMap (·.cells) ++ [.list a]⟩
  | set {a : Address} {parts : List Spelled}
      (ha : h.sets[a]? = some (parts.map (·.value)).toArray) (hparts : ∀ x ∈ parts, h.Spells x) :
      h.Spells ⟨.set a, .set (parts.map (·.datum)), parts.flatMap (·.cells) ++ [.set a]⟩
  | map {a : Address} {parts : List (Spelled × Spelled)}
      (ha : h.maps[a]? = some (parts.map fun x => (x.1.value, x.2.value)).toArray)
      (hkeys : ∀ x ∈ parts, h.Spells x.1) (hvalues : ∀ x ∈ parts, h.Spells x.2) :
      h.Spells ⟨.map a, .map (parts.map fun x => (x.1.datum, x.2.datum)),
        (parts.flatMap fun x => x.1.cells ++ x.2.cells) ++ [.map a]⟩
  | object {model : ModelId} {name : String} {a : Address} {parts : List Spelled}
      (ha : h.objects[a]? = some ⟨name, (parts.map (·.value)).toArray⟩)
      (hparts : ∀ x ∈ parts, h.Spells x) :
      h.Spells ⟨.object model a, .object model name (parts.map (·.datum)),
        parts.flatMap (·.cells) ++ [.object a]⟩

theorem Machine.Heap.Spells.mono {h h' : Heap} (hg : h.Grows h') {x : Spelled} (hx : h.Spells x) :
    h'.Spells x := by
  induction hx with
  | null => exact .null
  | bool b => exact .bool b
  | int n => exact .int n
  | rune c => exact .rune c
  | string s => exact .string s
  | list ha _ ih => exact .list (hg.lists ha) ih
  | set ha _ ih => exact .set (hg.sets ha) ih
  | map ha _ _ ihk ihv => exact .map (hg.maps ha) ihk ihv
  | object ha _ ih => exact .object (hg.objects ha) ih

/-! ## New cells -/

/-- Pairwise different cells that are new in `h'`. -/
structure Fresh (h h' : Heap) (cells : List Cell) : Prop where
  grows : h.Grows h'
  nodup : cells.Nodup
  new : ∀ c ∈ cells, h.get? c = none ∧ h'.get? c ≠ none

namespace Fresh

theorem nil (h : Heap) : Fresh h h [] :=
  ⟨.refl h, List.nodup_nil, List.forall_mem_nil _⟩

theorem newList (h : Heap) (items : Array Value) :
    Fresh h (h.newList items).2 [.list h.lists.size] :=
  ⟨Heap.Grows.accrues.newList h items, by simp, by simp [Heap.get?, Heap.newList]⟩

theorem newSet (h : Heap) (items : Array Value) :
    Fresh h (h.newSet items).2 [.set h.sets.size] :=
  ⟨Heap.Grows.accrues.newSet h items, by simp, by simp [Heap.get?, Heap.newSet]⟩

theorem newMap (h : Heap) (entries : Array (Value × Value)) :
    Fresh h (h.newMap entries).2 [.map h.maps.size] :=
  ⟨Heap.Grows.accrues.newMap h entries, by simp, by simp [Heap.get?, Heap.newMap]⟩

theorem newObject (h : Heap) (name : String) (fields : Array Value) :
    Fresh h (h.newObject name fields).2 [.object h.objects.size] :=
  ⟨Heap.Grows.accrues.newObject h name fields, by simp, by simp [Heap.get?, Heap.newObject]⟩

theorem append {h h1 h2 : Heap} {cells cells' : List Cell} (hfirst : Fresh h h1 cells)
    (hrest : Fresh h1 h2 cells') : Fresh h h2 (cells ++ cells') := by
  refine ⟨hfirst.grows.trans hrest.grows, ?_, fun c hc => ?_⟩
  · refine List.nodup_append.mpr ⟨hfirst.nodup, hrest.nodup, ?_⟩
    rintro c hc _ hc' rfl
    exact (hfirst.new c hc).2 (hrest.new c hc').1
  · rcases List.mem_append.mp hc with hc | hc
    · obtain ⟨hold, hnew⟩ := hfirst.new c hc
      obtain ⟨x, hx⟩ := Option.ne_none_iff_exists'.mp hnew
      exact ⟨hold, by simp [hrest.grows c x hx]⟩
    · obtain ⟨hold, hnew⟩ := hrest.new c hc
      refine ⟨?_, hnew⟩
      rw [Option.eq_none_iff_forall_ne_some]
      intro x hx
      rw [hfirst.grows c x hx] at hold
      cases hold

end Fresh

/-! ## Storing -/

namespace Datum

/-- Storing a datum gives a tree of new cells that spells it. -/
def Laid (d : Datum) : Prop :=
  ∀ h, ∃ cells, (store h d).2.Spells ⟨(store h d).1, d, cells⟩ ∧ Fresh h (store h d).2 cells

theorem storeAll_laid {ds : List Datum} (hds : ∀ d ∈ ds, d.Laid) (h : Heap) :
    ∃ parts : List Spelled, parts.map (·.value) = (storeAll h ds).1 ∧ parts.map (·.datum) = ds ∧
      (∀ x ∈ parts, (storeAll h ds).2.Spells x) ∧
      Fresh h (storeAll h ds).2 (parts.flatMap (·.cells)) := by
  induction ds generalizing h with
  | nil => exact ⟨[], rfl, rfl, List.forall_mem_nil _, .nil h⟩
  | cons d ds ih =>
    obtain ⟨hd, hds⟩ := List.forall_mem_cons.mp hds
    obtain ⟨cells, hspells, hfresh⟩ := hd h
    obtain ⟨parts, hvalues, hdata, hparts, hrest⟩ := ih hds (store h d).2
    refine ⟨⟨(store h d).1, d, cells⟩ :: parts, ?_, ?_, ?_, ?_⟩
    · simp [storeAll, hvalues]
    · simp [hdata]
    · exact List.forall_mem_cons.mpr ⟨hspells.mono hrest.grows, hparts⟩
    · exact hfresh.append hrest

theorem storeEntries_laid {es : List (Datum × Datum)} (hkeys : ∀ e ∈ es, e.1.Laid)
    (hvalues : ∀ e ∈ es, e.2.Laid) (h : Heap) :
    ∃ parts : List (Spelled × Spelled),
      (parts.map fun x => (x.1.value, x.2.value)) = (storeEntries h es).1 ∧
      (parts.map fun x => (x.1.datum, x.2.datum)) = es ∧
      (∀ x ∈ parts, (storeEntries h es).2.Spells x.1) ∧
      (∀ x ∈ parts, (storeEntries h es).2.Spells x.2) ∧
      Fresh h (storeEntries h es).2 (parts.flatMap fun x => x.1.cells ++ x.2.cells) := by
  induction es generalizing h with
  | nil => exact ⟨[], rfl, rfl, List.forall_mem_nil _, List.forall_mem_nil _, .nil h⟩
  | cons e es ih =>
    obtain ⟨hkey, hkeys⟩ := List.forall_mem_cons.mp hkeys
    obtain ⟨hvalue, hvalues⟩ := List.forall_mem_cons.mp hvalues
    obtain ⟨cells, hk, hfresh⟩ := hkey h
    obtain ⟨cells', hv, hfresh'⟩ := hvalue (store h e.1).2
    obtain ⟨parts, hstored, hdata, hks, hvs, hrest⟩ := ih hkeys hvalues (store (store h e.1).2 e.2).2
    refine ⟨(⟨(store h e.1).1, e.1, cells⟩, ⟨(store (store h e.1).2 e.2).1, e.2, cells'⟩) :: parts,
      ?_, ?_, ?_, ?_, ?_⟩
    · simp [storeEntries, hstored]
    · simp [hdata]
    · exact List.forall_mem_cons.mpr ⟨hk.mono (hfresh'.grows.trans hrest.grows), hks⟩
    · exact List.forall_mem_cons.mpr ⟨hv.mono hrest.grows, hvs⟩
    · exact (hfresh.append hfresh').append hrest

/-- Storing a datum gives a tree of new cells that spells it, whatever is stored already. -/
theorem store_laid (d : Datum) : d.Laid := by
  induction d using nodeInduction with
  | h d ih =>
    intro h
    cases d with
    | null | bool b | int n | rune c | string s => exact ⟨[], by constructor, .nil h⟩
    | list items =>
      obtain ⟨parts, hvalues, rfl, hparts, hfresh⟩ := storeAll_laid (show ∀ d ∈ items, _ from ih) h
      have hnew := Fresh.newList (storeAll h (parts.map (·.datum))).2
        (storeAll h (parts.map (·.datum))).1.toArray
      refine ⟨_, .list ?_ fun x hx => (hparts x hx).mono hnew.grows, hfresh.append hnew⟩
      rw [hvalues]
      exact Array.getElem?_push_size
    | set items =>
      obtain ⟨parts, hvalues, rfl, hparts, hfresh⟩ := storeAll_laid (show ∀ d ∈ items, _ from ih) h
      have hnew := Fresh.newSet (storeAll h (parts.map (·.datum))).2
        (storeAll h (parts.map (·.datum))).1.toArray
      refine ⟨_, .set ?_ fun x hx => (hparts x hx).mono hnew.grows, hfresh.append hnew⟩
      rw [hvalues]
      exact Array.getElem?_push_size
    | map entries =>
      obtain ⟨parts, hstored, rfl, hkeys, hvalues, hfresh⟩ := storeEntries_laid
        (fun e he => ih e.1 (mem_children_map he).1) (fun e he => ih e.2 (mem_children_map he).2) h
      have hnew := Fresh.newMap (storeEntries h (parts.map fun x => (x.1.datum, x.2.datum))).2
        (storeEntries h (parts.map fun x => (x.1.datum, x.2.datum))).1.toArray
      refine ⟨_, .map ?_ (fun x hx => (hkeys x hx).mono hnew.grows)
        fun x hx => (hvalues x hx).mono hnew.grows, hfresh.append hnew⟩
      rw [hstored]
      exact Array.getElem?_push_size
    | object model name fields =>
      obtain ⟨parts, hvalues, rfl, hparts, hfresh⟩ := storeAll_laid (show ∀ d ∈ fields, _ from ih) h
      have hnew := Fresh.newObject (storeAll h (parts.map (·.datum))).2 name
        (storeAll h (parts.map (·.datum))).1.toArray
      refine ⟨_, .object ?_ fun x hx => (hparts x hx).mono hnew.grows, hfresh.append hnew⟩
      rw [hvalues]
      exact Array.getElem?_push_size

end Datum

end Scribe
