import Scribe.Core.Ty

/-!
# Runtime values

Lists, sets, maps and objects live in storage and values hold their addresses, so copies of a value
share its storage. Each kind of storage has its own addresses. Sets and maps keep the order in which
their elements and keys came.
-/

namespace Scribe.Machine

open Scribe.Core

/-- A position in storage. -/
abbrev Address := Nat

/-- Runtime values. -/
inductive Value where
  /-- What a call gives that returns nothing. -/
  | void
  | null
  | bool (value : Bool)
  | int (value : Int64)
  | rune (value : Char)
  | string (value : String)
  | list (address : Address)
  | set (address : Address)
  | map (address : Address)
  /-- An instance of a model. -/
  | object (model : ModelId) (address : Address)
  deriving DecidableEq, Repr, Inhabited

namespace Value

/-- The word for the kind of a value. -/
def kind : Value → String
  | .void => "void"
  | .null => "null"
  | .bool _ => "bool"
  | .int _ => "int"
  | .rune _ => "rune"
  | .string _ => "string"
  | .list _ => "list"
  | .set _ => "set"
  | .map _ => "map"
  | .object _ _ => "instance"

end Value

/-- An instance in storage. -/
structure Instance where
  /-- The name of its model. -/
  name : String
  fields : Array Value
  deriving DecidableEq, Repr

/-- Storage: the items of lists and sets, the entries of maps, the instances of models. -/
structure Heap where
  lists : Array (Array Value) := #[]
  sets : Array (Array Value) := #[]
  maps : Array (Array (Value × Value)) := #[]
  objects : Array Instance := #[]

namespace Heap

variable (h : Heap) (a : Address)

/-! ## Reading -/

def list : Array Value :=
  h.lists[a]?.getD #[]

def set : Array Value :=
  h.sets[a]?.getD #[]

def map : Array (Value × Value) :=
  h.maps[a]?.getD #[]

def fields : Array Value :=
  (h.objects[a]?.map (·.fields)).getD #[]

/-- The name of the model of an instance. -/
def modelName : String :=
  (h.objects[a]?.map (·.name)).getD ""

/-- How many cells there are. -/
def size : Nat :=
  h.lists.size + h.sets.size + h.maps.size + h.objects.size

/-! ## New storage -/

def newList (items : Array Value) : Address × Heap :=
  (h.lists.size, { h with lists := h.lists.push items })

def newSet (items : Array Value) : Address × Heap :=
  (h.sets.size, { h with sets := h.sets.push items })

def newMap (entries : Array (Value × Value)) : Address × Heap :=
  (h.maps.size, { h with maps := h.maps.push entries })

def newObject (name : String) (fields : Array Value) : Address × Heap :=
  (h.objects.size, { h with objects := h.objects.push { name, fields } })

/-! ## Changes -/

/-- Appends to a list. -/
def pushItem (v : Value) : Heap :=
  { h with lists := h.lists.modify a (·.push v) }

/-- Drops the last item of a list. -/
def popItem : Heap :=
  { h with lists := h.lists.modify a Array.pop }

/-- Replaces an item of a list. -/
def setItem (i : Nat) (v : Value) : Heap :=
  { h with lists := h.lists.modify a (·.setIfInBounds i v) }

/-- Appends an element to a set. -/
def pushElement (v : Value) : Heap :=
  { h with sets := h.sets.modify a (·.push v) }

/-- Appends an entry to a map. -/
def pushEntry (key value : Value) : Heap :=
  { h with maps := h.maps.modify a (·.push (key, value)) }

/-- Replaces the value of an entry of a map. -/
def setEntry (i : Nat) (v : Value) : Heap :=
  { h with maps := h.maps.modify a (·.modify i ((·.1, v))) }

/-- Replaces a field of an object. -/
def setField (i : Nat) (v : Value) : Heap :=
  { h with objects := h.objects.modify a fun o => { o with fields := o.fields.setIfInBounds i v } }

end Heap

end Scribe.Machine
