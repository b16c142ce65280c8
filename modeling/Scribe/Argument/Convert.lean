import Scribe.Argument.Datum
import Scribe.Core.Program
import Scribe.Json.Record
import Scribe.Text.Integer
import Scribe.Text.Quoted

/-!
# Arguments from JSON

A JSON value is read at the type of the parameter it is meant for. A rune is a string of one
character. A map is an object if its keys are of a primitive type, and an array of pairs otherwise.
An instance is an object that gives every field of its model and nothing else, or null.
-/

namespace Scribe

open Scribe.Core
open Scribe.Text (IntegerError readInteger quoteString)

/-- Why a JSON value does not fit a type. -/
inductive ConvertError where
  | notInteger (number : Json.Number)
  | notCharacter (text : String)
  | notPair (value : Json)
  | keyNotInteger (text : String) (cause : IntegerError)
  | keyNotBoolean (text : String)
  | keyNotPrimitive
  | missingField (field model : String)
  | inField (field model : String) (cause : ConvertError)
  | unknownField (field model : String)
  | mismatch (expected : String) (got : Json)

namespace ConvertError

/-- The wording of an error: what went wrong, then why. -/
def messages : ConvertError → List String
  | .notInteger number => [number.render ++ " is not a 64-bit integer"]
  | .notCharacter text => ["expected a single character, got " ++ quoteString text]
  | .notPair value => ["map entries must be [key, value] pairs, got " ++ value.render]
  | .keyNotInteger text cause =>
    ["map key " ++ quoteString text ++ " is not an integer", cause.message]
  | .keyNotBoolean text =>
    ["map key " ++ quoteString text ++ " is not a boolean",
      "provided string was not `true` or `false`"]
  | .keyNotPrimitive => ["use [key, value] pairs for maps with non-primitive keys"]
  | .missingField field model => ["missing field `" ++ field ++ "` for " ++ model]
  | .inField field model cause => ("in field `" ++ field ++ "` of " ++ model) :: cause.messages
  | .unknownField field model => [model ++ " has no field `" ++ field ++ "`"]
  | .mismatch expected got => ["expected " ++ expected ++ ", got " ++ got.render]

/-- The wording of an error in one line. -/
def message (e : ConvertError) : String :=
  ": ".intercalate e.messages

end ConvertError

/-- What a conversion gives. -/
abbrev Converted := Except ConvertError

namespace Datum

/-- A JSON number as an integer. -/
def ofNumber (number : Json.Number) : Converted Datum :=
  match Json.asInt64? (.number number) with
  | some n => .ok (.int n)
  | none => .error (.notInteger number)

/-- A text of one character. -/
def ofCharacter (text : String) : Converted Datum :=
  match text.toList with
  | [c] => .ok (.rune c)
  | _ => .error (.notCharacter text)

/-- A key of an object, read at the type of the keys. -/
def ofKey (text : String) : Ty → Converted Datum
  | .primitive .string => .ok (.string text)
  | .primitive .int =>
    match readInteger text with
    | .ok n => .ok (.int n)
    | .error cause => .error (.keyNotInteger text cause)
  | .primitive .rune => ofCharacter text
  | .primitive .bool =>
    if text = "true" then .ok (.bool true)
    else if text = "false" then .ok (.bool false)
    else .error (.keyNotBoolean text)
  | _ => .error .keyNotPrimitive

/-- The members of an object, each with what it gives at any type. -/
abbrev Conversions := List (String × (Ty → Converted Datum))

/-- The fields of an instance, taken from the members of an object. -/
def ofFields (model : String) (members : Conversions) : List Field → Converted (List Datum)
  | [] => .ok []
  | f :: rest => do
    match members.lookup f.name with
    | none => throw (.missingField f.name model)
    | some convert =>
      match convert f.type with
      | .error cause => throw (.inField f.name model cause)
      | .ok d => do
        let ds ← ofFields model members rest
        return d :: ds

/-- An instance, from the members of an object. -/
def ofConversions (id : ModelId) (m : Model) (members : Conversions) : Converted Datum := do
  let fields ← ofFields m.name members m.fields
  match members.find? fun (name, _) => (m.field? name).isNone with
  | some (name, _) => throw (.unknownField name m.name)
  | none => return .object id m.name fields

mutual

/-- A JSON value read at a type. -/
def ofJson (p : Program) (j : Json) (t : Ty) : Converted Datum :=
  match j, t with
  | .bool b, .primitive .bool => .ok (.bool b)
  | .number n, .primitive .int => ofNumber n
  | .string s, .primitive .rune => ofCharacter s
  | .string s, .primitive .string => .ok (.string s)
  | .array items, .list item => do return .list (← ofItems p items item)
  | .array items, .set item => do return .set (distinct (← ofItems p items item))
  | .array items, .map key value => do
    return .map (entriesOfPairs (← ofPairs p items key value))
  | .object members, .map key value => do return .map (← ofEntries p members key value)
  | .null, .model _ => .ok .null
  | .object members, .model id =>
    match p.getModel? id with
    | some m => ofConversions id m (conversions p members)
    | none => .error (.mismatch "" (.object members))
  | j, t => .error (.mismatch (p.typeName t) j)

def ofItems (p : Program) : List Json → Ty → Converted (List Datum)
  | [], _ => .ok []
  | j :: rest, t => do
    let d ← ofJson p j t
    let ds ← ofItems p rest t
    return d :: ds

/-- Pairs of a key and a value, each an array of two. -/
def ofPairs (p : Program) : List Json → Ty → Ty → Converted (List (Datum × Datum))
  | [], _, _ => .ok []
  | .array [k, v] :: rest, key, value => do
    let k ← ofJson p k key
    let v ← ofJson p v value
    let es ← ofPairs p rest key value
    return (k, v) :: es
  | j :: _, _, _ => .error (.notPair j)

/-- The members of an object as entries of a map. -/
def ofEntries (p : Program) : List (String × Json) → Ty → Ty → Converted (List (Datum × Datum))
  | [], _, _ => .ok []
  | (k, v) :: rest, key, value => do
    let k ← ofKey k key
    let v ← ofJson p v value
    let es ← ofEntries p rest key value
    return (k, v) :: es

def conversions (p : Program) : List (String × Json) → Conversions
  | [] => []
  | (k, v) :: rest => (k, ofJson p v) :: conversions p rest

end

end Datum

end Scribe
