/-!
# Values and tables

A document grows by headers and by keys. A table may be opened by a header once. On the way to it,
missing tables are made, which a header may open later. A dotted key makes tables too, and only
dotted keys may add to those.
-/

namespace Scribe.Toml

/-- A value. Of floats and dates it is only known that they are such. -/
inductive Value where
  | string (value : String)
  | int (value : Int)
  | float
  | bool (value : Bool)
  | dateTime
  | array (items : List Value)
  | table (entries : List (String × Value))

/-- How a table came to be. -/
inductive Origin where
  /-- Opened by a header. -/
  | header
  /-- Passed by a header on the way to another table. -/
  | passed
  /-- Made by a dotted key. -/
  | dotted
  deriving DecidableEq, Repr

/-- What stands under a key. -/
inductive Node where
  | value (v : Value)
  | table (origin : Origin) (entries : List (String × Node))
  /-- An array of tables that headers add to. -/
  | tables (items : List (List (String × Node)))

/-- The contents of a table. -/
abbrev Entries := List (String × Node)

namespace Entries

/-- Changes what stands under a key, or puts something there. -/
def alter (key : String) (f : Option Node → Option Node) : Entries → Option Entries
  | [] => do return [(key, ← f none)]
  | (k, node) :: rest =>
    if k = key then do return (k, ← f (some node)) :: rest
    else do return (k, node) :: (← alter key f rest)

/-- Changes the last of several tables. -/
def alterLast (f : Entries → Option Entries) (items : List Entries) : Option (List Entries) :=
  match items.getLast? with
  | some last => do return items.dropLast ++ [← f last]
  | none => none

/-- Goes down a path of keys and changes the table at its end. Missing tables are made with `made`,
and tables that `refused` speaks of are not entered. -/
def descend (made : Origin) (refused : Origin → Bool) (f : Origin → Entries → Option Entries)
    (origin : Origin) : List String → Entries → Option Entries
  | [], es => f origin es
  | key :: path, es =>
    alter key (fun
      | none => do return .table made (← descend made refused f made path [])
      | some (.table o inner) =>
        if refused o then none
        else do return .table o (← descend made refused f o path inner)
      | some (.tables items) => do
        return .tables (← alterLast (descend made refused f .header path) items)
      | some (.value _) => none) es

/-- Opens the table at a path for a header. -/
def openTable (path : List String) (key : String) (es : Entries) : Option Entries :=
  descend .passed (fun _ => false) (fun _ => alter key fun
    | none => some (.table .header [])
    | some (.table .passed inner) => some (.table .header inner)
    | some _ => none) .header path es

/-- Adds a table to the array of tables at a path for a header. -/
def openElement (path : List String) (key : String) (es : Entries) : Option Entries :=
  descend .passed (fun _ => false) (fun _ => alter key fun
    | none => some (.tables [[]])
    | some (.tables items) => some (.tables (items ++ [[]]))
    | some _ => none) .header path es

/-- Puts a value under a key that is not taken. -/
def insertNew (key : String) (v : Value) (es : Entries) : Option Entries :=
  alter key (fun
    | none => some (.value v)
    | some _ => none) es

/-- Puts a value under a dotted key of a table. The table it goes into has to be made by dotted
keys. -/
def insert (path : List String) (key : String) (v : Value) (es : Entries) : Option Entries :=
  if path.isEmpty then insertNew key v es
  else
    descend .dotted (· == .header)
      (fun o inner => if o = .dotted then insertNew key v inner else none) .header path es

/-- Changes the table that a header has opened. -/
def within (header : List String) (f : Entries → Option Entries) (es : Entries) : Option Entries :=
  descend .passed (fun _ => false) (fun _ => f) .header header es

end Entries

mutual

/-- The value that stands under a key in the end. -/
def Node.toValue : Node → Value
  | .value v => v
  | .table _ entries => .table (entriesToValues entries)
  | .tables items => .array (tablesToValues items)

def entriesToValues : List (String × Node) → List (String × Value)
  | [] => []
  | (key, node) :: rest => (key, node.toValue) :: entriesToValues rest

def tablesToValues : List (List (String × Node)) → List Value
  | [] => []
  | entries :: rest => .table (entriesToValues entries) :: tablesToValues rest

end

end Scribe.Toml
