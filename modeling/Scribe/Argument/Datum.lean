import Scribe.Machine.Value

/-!
# Argument values

A datum is a value written out in full: a finite tree without shared storage. Data are compared by
their structure, and `Datum.store` puts a datum into storage of its own.
-/

namespace Scribe

open Scribe.Core (ModelId)
open Scribe.Machine (Heap Value)

/-- A value as a tree. -/
inductive Datum where
  | null
  | bool (value : Bool)
  | int (value : Int64)
  | rune (value : Char)
  | string (value : String)
  | list (items : List Datum)
  | set (items : List Datum)
  | map (entries : List (Datum × Datum))
  /-- An instance of a model, with the name of the model. -/
  | object (model : ModelId) (name : String) (fields : List Datum)

namespace Datum

mutual

/-- Whether two data have the same structure. -/
def same : Datum → Datum → Bool
  | .null, .null => true
  | .bool a, .bool b => a == b
  | .int a, .int b => a == b
  | .rune a, .rune b => a == b
  | .string a, .string b => a == b
  | .list a, .list b => sameAll a b
  | .set a, .set b => sameAll a b
  | .map a, .map b => sameEntries a b
  | .object m s a, .object n t b => m == n && s == t && sameAll a b
  | _, _ => false

def sameAll : List Datum → List Datum → Bool
  | [], [] => true
  | a :: as, b :: bs => same a b && sameAll as bs
  | _, _ => false

def sameEntries : List (Datum × Datum) → List (Datum × Datum) → Bool
  | [], [] => true
  | (k, v) :: as, (k', v') :: bs => same k k' && same v v' && sameEntries as bs
  | _, _ => false

end

/-- The first of each of several equal data, in their order. -/
def distinct (items : List Datum) : List Datum :=
  items.foldl (fun kept d => if kept.any (same · d) then kept else kept ++ [d]) []

/-- Gives a key its value. An equal key stays, with the new value. -/
def putEntry (key value : Datum) : List (Datum × Datum) → List (Datum × Datum)
  | [] => [(key, value)]
  | (k, v) :: rest =>
    if same k key then (k, value) :: rest else (k, v) :: putEntry key value rest

/-- The entries that are left when they are given one after the other. -/
def entriesOfPairs (pairs : List (Datum × Datum)) : List (Datum × Datum) :=
  pairs.foldl (fun entries (key, value) => putEntry key value entries) []

mutual

/-- Puts a datum into new storage. -/
def store (h : Heap) : Datum → Value × Heap
  | .null => (.null, h)
  | .bool b => (.bool b, h)
  | .int n => (.int n, h)
  | .rune c => (.rune c, h)
  | .string s => (.string s, h)
  | .list items =>
    let (vs, h) := storeAll h items
    let (a, h) := h.newList vs.toArray
    (.list a, h)
  | .set items =>
    let (vs, h) := storeAll h items
    let (a, h) := h.newSet vs.toArray
    (.set a, h)
  | .map entries =>
    let (es, h) := storeEntries h entries
    let (a, h) := h.newMap es.toArray
    (.map a, h)
  | .object model name fields =>
    let (vs, h) := storeAll h fields
    let (a, h) := h.newObject name vs.toArray
    (.object model a, h)

def storeAll (h : Heap) : List Datum → List Value × Heap
  | [] => ([], h)
  | d :: rest =>
    let (v, h) := store h d
    let (vs, h) := storeAll h rest
    (v :: vs, h)

def storeEntries (h : Heap) : List (Datum × Datum) → List (Value × Value) × Heap
  | [] => ([], h)
  | (key, value) :: rest =>
    let (k, h) := store h key
    let (v, h) := store h value
    let (es, h) := storeEntries h rest
    ((k, v) :: es, h)

end

end Datum

end Scribe
