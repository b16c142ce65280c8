import Scribe.Json.Token

/-!
# JSON texts as written

A `Raw` value is what the grammar of JSON sees in a text: members in their order and with their
repetitions, numbers as literals, and strings that may fail to denote a text. It is built from the
tokens by a pushdown machine, so texts of any depth are read.
-/

namespace Scribe.Json

/-- A JSON value as written. -/
inductive Raw where
  | null
  | bool (value : Bool)
  | number (literal : NumberLiteral)
  | string (text : Option String)
  | array (items : List Raw)
  | object (members : List (Option String × Raw))

/-! ## Depth -/

mutual

/-- How many arrays and objects are nested in each other. -/
def Raw.depth : Raw → Nat
  | .array items => depthOfItems items + 1
  | .object members => depthOfMembers members + 1
  | _ => 0

def depthOfItems : List Raw → Nat
  | [] => 0
  | r :: rest => max r.depth (depthOfItems rest)

def depthOfMembers : List (Option String × Raw) → Nat
  | [] => 0
  | (_, r) :: rest => max r.depth (depthOfMembers rest)

end

/-! ## The machine -/

/-- A container that is still open, its contents last first. -/
inductive Open where
  | array (done : List Raw)
  | object (done : List (Option String × Raw)) (key : Option String)

/-- What the machine waits for. -/
inductive Phase where
  | value
  | valueOrClose
  | key
  | keyOrClose
  | colon
  | separator
  | finished (value : Raw)

structure Reader where
  stack : List Open
  phase : Phase

namespace Reader

def initial : Reader := ⟨[], .value⟩

/-- A value is complete: it belongs to the innermost open container. -/
def complete (stack : List Open) (v : Raw) : Reader :=
  match stack with
  | [] => ⟨[], .finished v⟩
  | .array done :: rest => ⟨.array (v :: done) :: rest, .separator⟩
  | .object done key :: rest => ⟨.object ((key, v) :: done) key :: rest, .separator⟩

/-- The innermost container is closed by `token`. -/
def close? (stack : List Open) (token : Token) : Option Reader :=
  match stack, token with
  | .array done :: rest, .closeArray => some (complete rest (.array done.reverse))
  | .object done _ :: rest, .closeObject => some (complete rest (.object done.reverse))
  | _, _ => none

/-- A value starts with `token`. -/
def value? (stack : List Open) (token : Token) : Option Reader :=
  match token with
  | .openObject => some ⟨.object [] none :: stack, .keyOrClose⟩
  | .openArray => some ⟨.array [] :: stack, .valueOrClose⟩
  | .null => some (complete stack .null)
  | .bool b => some (complete stack (.bool b))
  | .number l => some (complete stack (.number l))
  | .string s => some (complete stack (.string s))
  | _ => none

/-- A member of the innermost object starts with `token`. -/
def key? (stack : List Open) (token : Token) : Option Reader :=
  match stack, token with
  | .object done _ :: rest, .string key => some ⟨.object done key :: rest, .colon⟩
  | _, _ => none

/-- Takes the next token. -/
def step? (r : Reader) (token : Token) : Option Reader :=
  match r.phase with
  | .value => value? r.stack token
  | .valueOrClose => (close? r.stack token).or (value? r.stack token)
  | .key => key? r.stack token
  | .keyOrClose => (close? r.stack token).or (key? r.stack token)
  | .colon =>
    match token with
    | .colon => some ⟨r.stack, .value⟩
    | _ => none
  | .separator =>
    match r.stack, token with
    | .array _ :: _, .comma => some ⟨r.stack, .value⟩
    | .object _ _ :: _, .comma => some ⟨r.stack, .key⟩
    | _, _ => close? r.stack token
  | .finished _ => none

end Reader

/-- Reads a text that holds exactly one JSON value. -/
def Raw.parse? (text : String) : Option Raw := do
  let tokens ← tokens? text
  let r ← tokens.foldlM Reader.step? Reader.initial
  match r.phase with
  | .finished v => some v
  | _ => none

end Scribe.Json
