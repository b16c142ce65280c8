import Scribe.Json.Raw

/-!
# JSON values

A `Json` value has numbers with a value and strings that are texts. Members of an object keep the
order and the repetitions of the text they were read from; `Json.canonical` sorts them by key, the
last of several members of one key staying.

* `Json.ofRaw?` gives a raw value its meaning, if all its numbers and strings have one.
* `Json.parse?` reads a text of limited depth into a canonical value.
* `Json.render` writes a value without blanks.
-/

namespace Scribe

/-- A JSON value. -/
inductive Json where
  | null
  | bool (value : Bool)
  | number (value : Json.Number)
  | string (value : String)
  | array (items : List Json)
  | object (members : List (String × Json))
  deriving Inhabited

namespace Json

/-! ## From raw values -/

mutual

/-- The meaning of a raw value. -/
def ofRaw? : Raw → Option Json
  | .null => some .null
  | .bool b => some (.bool b)
  | .number l => l.value?.map .number
  | .string s => s.map .string
  | .array items => (ofRawItems? items).map .array
  | .object members => (ofRawMembers? members).map .object

def ofRawItems? : List Raw → Option (List Json)
  | [] => some []
  | r :: rest => do
    let j ← ofRaw? r
    let js ← ofRawItems? rest
    some (j :: js)

def ofRawMembers? : List (Option String × Raw) → Option (List (String × Json))
  | [] => some []
  | (key, r) :: rest => do
    let key ← key
    let j ← ofRaw? r
    let js ← ofRawMembers? rest
    some ((key, j) :: js)

end

/-! ## Canonical objects -/

/-- Inserts a member into members sorted by key; a member of the same key gives way. -/
def insertMember (key : String) (value : Json) : List (String × Json) → List (String × Json)
  | [] => [(key, value)]
  | (k, v) :: rest =>
    if key < k then (key, value) :: (k, v) :: rest
    else if key = k then (key, value) :: rest
    else (k, v) :: insertMember key value rest

mutual

/-- The same value with the members of every object sorted by key and without repetitions. -/
def canonical : Json → Json
  | .array items => .array (canonicalItems items)
  | .object members => .object (canonicalMembers [] members)
  | .null => .null
  | .bool b => .bool b
  | .number n => .number n
  | .string s => .string s

def canonicalItems : List Json → List Json
  | [] => []
  | j :: rest => canonical j :: canonicalItems rest

def canonicalMembers (sorted : List (String × Json)) : List (String × Json) → List (String × Json)
  | [] => sorted
  | (key, j) :: rest => canonicalMembers (insertMember key (canonical j) sorted) rest

end

/-- How deep the arrays and objects of a text may be nested. -/
def depthLimit : Nat := 127

/-- Reads a text of limited depth. -/
def parse? (text : String) : Option Json := do
  let raw ← Raw.parse? text
  if raw.depth ≤ depthLimit then (ofRaw? raw).map canonical else none

/-! ## Writing -/

/-- A character below 0x20 by its number. -/
def controlEscape (c : Char) : List Char :=
  let digits := Nat.toDigits 16 c.toNat
  ['\\', 'u'] ++ List.replicate (4 - digits.length) '0' ++ digits

/-- One character as it stands in a string. -/
def escapeChar (c : Char) : List Char :=
  if c = '\x22' then ['\\', '\x22']
  else if c = '\\' then ['\\', '\\']
  else if c = '\x08' then ['\\', 'b']
  else if c = '\x0c' then ['\\', 'f']
  else if c = '\n' then ['\\', 'n']
  else if c = '\r' then ['\\', 'r']
  else if c = '\t' then ['\\', 't']
  else if c.toNat < 0x20 then controlEscape c
  else [c]

/-- A string between quotes. -/
def renderString (s : String) : String :=
  String.ofList ('\x22' :: (s.toList.flatMap escapeChar ++ ['\x22']))

mutual

/-- The text of a value, without blanks. -/
def render : Json → String
  | .null => "null"
  | .bool true => "true"
  | .bool false => "false"
  | .number n => n.render
  | .string s => renderString s
  | .array items => "[" ++ ",".intercalate (renderItems items) ++ "]"
  | .object members => "\x7b" ++ ",".intercalate (renderMembers members) ++ "\x7d"

def renderItems : List Json → List String
  | [] => []
  | j :: rest => render j :: renderItems rest

def renderMembers : List (String × Json) → List String
  | [] => []
  | (key, j) :: rest => (renderString key ++ ":" ++ render j) :: renderMembers rest

end

/-! ## Building and taking apart -/

/-- An integer. -/
def int (n : Int) : Json := .number (.int n)

/-- The value of the first member called `key`. -/
def get? (key : String) : Json → Option Json
  | .object members => members.lookup key
  | _ => none

end Json

end Scribe
