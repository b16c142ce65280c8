import Scribe.Toml.Number
import Scribe.Toml.Table

/-!
# Documents

A document is a sequence of lines: headers, keys with their values, comments, or nothing. Values may
hold each other, but only to a limited depth.
-/

namespace Scribe.Toml

open Reader

/-- How many arrays and inline tables may be nested, and how many keys a dotted key may have. -/
def depthLimit : Nat := 79

/-! ## Keys -/

def isBare (c : Char) : Bool :=
  c.isAlphanum || c == '_' || c == '-'

/-- A key without dots. -/
def simpleKey : Reader String :=
  (do return String.ofList (← run1 isBare)) <|> quotedLine

/-- A key between blanks. -/
def spacedKey : Reader String := do
  blanks
  let key ← simpleKey
  blanks
  return key

/-- A dotted key: the keys on the way and the last one. -/
def key : Reader (List String × String) := do
  let first ← spacedKey
  let rest ← repeatAll do
    char '.'
    spacedKey
  let keys := first :: rest
  if keys.length ≤ depthLimit then
    return (keys.dropLast, keys.getLastD first)
  else
    failure

/-! ## Values -/

/-- A truth value. -/
def boolean : Reader Bool :=
  (do word "true"; return true) <|> (do word "false"; return false)

/-- The values of an array after its opening bracket. A comma may follow the last one. -/
def arrayItems (item : Reader Value) : Reader (List Value) := do
  let spaced : Reader Value := do
    filler
    let v ← item
    filler
    return v
  let items ← optional do
    let first ← spaced
    let rest ← repeatAll do
      char ','
      spaced
    let _ ← optional (char ',')
    return first :: rest
  filler
  char ']'
  return items.getD []

/-- A key with its value, without the end of the line. -/
def keyValue (item : Reader Value) : Reader (List String × String × Value) := do
  let (path, last) ← key
  char '='
  blanks
  let v ← item
  blanks
  return (path, last, v)

/-- The table that keys with values make one after the other. -/
def entriesOfPairs? (pairs : List (List String × String × Value)) : Option Entries :=
  pairs.foldlM (fun es (path, last, v) => Entries.insert path last v es) []

/-- The entries of an inline table after its opening brace. -/
def inlineEntries (item : Reader Value) : Reader Entries := do
  let pairs ← optional do
    let first ← keyValue item
    let rest ← repeatAll do
      char ','
      keyValue item
    return first :: rest
  blanks
  char '\x7d'
  entriesOfPairs? (pairs.getD [])

/-- A value that holds no others. -/
def scalar : Reader Value := do
  match ← peek? with
  | some '\x22' | some '\x27' => return .string (← quoted)
  | some 't' | some 'f' => return .bool (← boolean)
  | _ =>
    (do dateTime; return .dateTime) <|> (do float; return .float) <|>
      (do return .int (← integer))

/-- A value, with at most the given number of levels of nesting. -/
def value : Nat → Reader Value
  | 0 => scalar
  | depth + 1 => do
    match ← peek? with
    | some '[' => do
      char '['
      return .array (← arrayItems (value depth))
    | some '\x7b' => do
      char '\x7b'
      return .table (entriesToValues (← inlineEntries (value depth)))
    | _ => scalar

/-! ## Lines -/

/-- The document so far and the header that is in force. -/
structure Draft where
  root : Entries := []
  header : List String := []

/-- A header, after which keys go into its table. -/
def header (d : Draft) : Reader Draft := do
  match ← get with
  | '[' :: '[' :: rest => do
    set rest
    let (path, last) ← key
    word "]]"
    lineTrailing
    return { root := ← d.root.openElement path last, header := path ++ [last] }
  | _ => do
    char '['
    let (path, last) ← key
    char ']'
    lineTrailing
    return { root := ← d.root.openTable path last, header := path ++ [last] }

/-- A line with a key and its value. -/
def assignment (d : Draft) : Reader Draft := do
  let (path, last, v) ← keyValue (value depthLimit)
  lineTrailing
  return { d with root := ← d.root.within d.header (Entries.insert path last v) }

/-- One line. -/
def line (d : Draft) : Reader Draft := do
  match ← peek? with
  | some '#' => do
    comment
    newline <|> endOfText
    return d
  | some '[' => header d
  | some '\n' | some '\r' => do
    newline
    return d
  | _ => assignment d

/-- The lines up to the end of the text. Each takes a character, so the length of the text bounds
their number. -/
def linesUpTo : Nat → Draft → Reader Draft
  | 0, d => return d
  | n + 1, d => do
    blanks
    match ← peek? with
    | none => return d
    | some _ => linesUpTo n (← line d)

/-- Reads a document. A mark of the byte order may come first. -/
def parse? (text : String) : Option (List (String × Value)) := do
  let cs := match text.toList with
    | '\ufeff' :: rest => rest
    | cs => cs
  let (d, _) ← linesUpTo (cs.length + 1) {} cs
  return entriesToValues d.root

end Scribe.Toml
