import Scribe.Json.Basic

/-!
# Records and tagged nodes in JSON

A record with declared fields is written as an object, or as an array of its fields in the order
of their declaration. In an object, members that are no declared field are passed over, and a
declared field may not be given twice. In an array, fields may be missing at the end, and nothing
may be added.

A tagged node is a record of one of several kinds. As an object it names its kind in the member
`kind`; as an array it starts with the kind.

Every value taken out of a record is smaller than the record, which is what recursion over trees
written this way rests on.
-/

namespace Scribe.Json

/-- The values given for the declared fields of a record written as `j`. -/
structure Record (j : Json) where
  fields : List (String × Json)
  smaller : ∀ m ∈ fields, sizeOf m.2 < sizeOf j

theorem sizeOf_member {members : List (String × Json)} {m : String × Json} (h : m ∈ members) :
    sizeOf m.2 < sizeOf (Json.object members) := by
  have h1 := List.sizeOf_lt_of_mem h
  obtain ⟨k, v⟩ := m
  simp only [Prod.mk.sizeOf_spec] at h1
  simp only [Json.object.sizeOf_spec]
  omega

theorem sizeOf_item {items : List Json} {j : Json} (h : j ∈ items) :
    sizeOf j < sizeOf (Json.array items) := by
  have h1 := List.sizeOf_lt_of_mem h
  simp only [Json.array.sizeOf_spec]
  omega

/-- Whether no key is given twice. -/
def distinctKeys : List (String × Json) → Bool
  | [] => true
  | (key, _) :: rest => !(rest.any (·.1 == key)) && distinctKeys rest

namespace Record

/-- The declared fields among members of an object. -/
def ofMembers? (declared : List String) (members : List (String × Json)) :
    Option (Record (.object members)) :=
  if distinctKeys (members.filter fun m => declared.contains m.1) then
    some ⟨members.filter fun m => declared.contains m.1,
      fun _ h => sizeOf_member (List.mem_filter.mp h).1⟩
  else none

/-- The declared fields in their order, taken from the end of the items of an array. -/
def ofItems? (declared : List String) (items rest : List Json) (h : ∀ j ∈ rest, j ∈ items) :
    Option (Record (.array items)) :=
  if rest.length ≤ declared.length then
    some ⟨declared.zip rest, fun _ hm => sizeOf_item (h _ (List.of_mem_zip hm).2)⟩
  else none

/-- Reads a record with declared fields. -/
def ofJson? (declared : List String) : (j : Json) → Option (Record j)
  | .object members => ofMembers? declared members
  | .array items => ofItems? declared items items fun _ h => h
  | _ => none

/-- The value of a field that has to be given. -/
def get? {j : Json} (r : Record j) (name : String) : Option { v : Json // sizeOf v < sizeOf j } :=
  match h : r.fields.find? (·.1 == name) with
  | some m => some ⟨m.2, r.smaller m (List.mem_of_find?_eq_some h)⟩
  | none => none

/-- The value of a field that may be missing or null. -/
def optional? {j : Json} (r : Record j) (name : String) :
    Option { v : Json // sizeOf v < sizeOf j } :=
  match r.get? name with
  | some ⟨.null, _⟩ => none
  | other => other

end Record

/-! ## Tagged nodes -/

/-- A closed family of node kinds, in the order of their declaration. -/
class Tagged (κ : Type) where
  all : List κ
  tag : κ → String
  /-- The declared fields of a node of this kind. -/
  fields : κ → List String

namespace Tagged

/-- The kind with a given tag. -/
def ofTag? {κ : Type} [Tagged κ] (tag : String) : Option κ :=
  (all : List κ).find? (Tagged.tag · == tag)

/-- The kind that a value names: by its tag or, inside another node, by its position. -/
def ofJson? {κ : Type} [Tagged κ] (nested : Bool) : Json → Option κ
  | .string tag => ofTag? tag
  | .number (.int n) => if nested && 0 ≤ n then (all : List κ)[n.toNat]? else none
  | _ => none

end Tagged

/-- A node of some kind, with the values of the fields of that kind. -/
structure Node (κ : Type) (j : Json) where
  kind : κ
  record : Record j

/-- Reads a tagged node; `nested` says whether it stands inside another one. -/
def Node.ofJson? {κ : Type} [Tagged κ] (nested : Bool) : (j : Json) → Option (Node κ j)
  | .object members =>
    match members.filter (·.1 == "kind") with
    | [(_, tag)] => do
      let kind ← Tagged.ofJson? nested tag
      let record ← Record.ofMembers? (Tagged.fields kind) members
      some ⟨kind, record⟩
    | _ => none
  | .array (tag :: rest) => do
    let kind ← Tagged.ofJson? nested tag
    let record ← Record.ofItems? (Tagged.fields kind) (tag :: rest) rest
      fun _ h => List.mem_cons_of_mem _ h
    some ⟨kind, record⟩
  | _ => none

/-- Writes a node as an object. -/
def node {κ : Type} [Tagged κ] (kind : κ) (members : List (String × Json)) : Json :=
  .object (("kind", .string (Tagged.tag kind)) :: members)

/-! ## Leaves -/

def asString? : Json → Option String
  | .string s => some s
  | _ => none

def asBool? : Json → Option Bool
  | .bool b => some b
  | _ => none

/-- An integer that fits into 64 bits with a sign. -/
def asInt64? : Json → Option Int64
  | .number (.int n) =>
    if -9223372036854775808 ≤ n ∧ n ≤ 9223372036854775807 then some (Int64.ofInt n) else none
  | _ => none

/-- A string of exactly one character. -/
def asChar? : Json → Option Char
  | .string s =>
    match s.toList with
    | [c] => some c
    | _ => none
  | _ => none

end Scribe.Json
