import Scribe.Syntax.Decode

/-!
# Syntax trees from text

The parts of a text that nobody reads need only follow the grammar of JSON: they may be nested to
any depth, and their numbers and strings need not have a meaning. These are the members of plain
records, outside tagged nodes, that are no declared field. An outline says where they are.
-/

namespace Scribe.Syntax

open Scribe.Json

/-- Which parts of a value are read. -/
inductive Outline where
  /-- All of it. -/
  | all
  /-- The items of an array. -/
  | items (item : Outline)
  /-- The declared fields of a record. -/
  | record (fields : List (String × Outline))

mutual

/-- A value with `null` in place of what is not read. -/
def prune (o : Outline) (r : Raw) : Raw :=
  match r, o with
  | .array items, .items item => .array (pruneItems item items)
  | .array items, .record fields => .array (pruneFields (fields.map (·.2)) items)
  | .object members, .record fields => .object (pruneMembers fields members)
  | r, _ => r

def pruneItems (o : Outline) : List Raw → List Raw
  | [] => []
  | r :: rest => prune o r :: pruneItems o rest

/-- The fields of a record written as an array. -/
def pruneFields (outlines : List Outline) : List Raw → List Raw
  | [] => []
  | r :: rest => prune (outlines.headD .all) r :: pruneFields outlines.tail rest

/-- The fields of a record written as an object. -/
def pruneMembers (fields : List (String × Outline)) :
    List (Option String × Raw) → List (Option String × Raw)
  | [] => []
  | (key, r) :: rest =>
    let r := match key.bind (List.lookup · fields) with
      | some o => prune o r
      | none => .null
    (key, r) :: pruneMembers fields rest

end

/-- An outline of the declared fields in their order. -/
def Outline.ofFields (declared : List String) (outlines : List Outline) : Outline :=
  .record (declared.zip outlines)

def blockOutline : Outline :=
  .ofFields blockDeclared [.all]

def Function.outline : Outline :=
  .ofFields Function.declared
    [.all, .items (.ofFields Parameter.declared [.all, .all]), .all, blockOutline]

def Model.outline : Outline :=
  .ofFields Model.declared
    [.all, .items (.ofFields Field.declared [.all, .all]), .items Function.outline,
      .ofFields Equality.declared [.all, blockOutline], .ofFields hashingDeclared [blockOutline]]

def Module.outline : Outline :=
  .ofFields Module.declared
    [.all, .items (.ofFields Constant.declared [.all, .all]), .items Function.outline,
      .items Model.outline]

/-- Reads the text of a module. -/
def Module.ofText? (text : String) : Option Module := do
  let raw ← Raw.parse? text
  let raw := prune Module.outline raw
  if raw.depth ≤ depthLimit then
    Module.ofJson? (← ofRaw? raw)
  else
    none

end Scribe.Syntax
