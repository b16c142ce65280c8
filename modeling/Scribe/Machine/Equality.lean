import Scribe.Machine.State

/-!
# Equality and hashes of values

Primitive values and containers are compared by what they hold. Instances are compared by the
equality of their model if it has one, and by identity otherwise. Sets and maps are searched with
this equality, in the order of their elements, and on the contents they had when the search began.
-/

namespace Scribe.Machine

open Scribe.Core
open Exec (fault look change ofExcept ofOption)

/-- Runs a body in a new frame; the name is that of the callable. -/
abbrev Invoke := String → Block → Frame → Exec Value

/-- What evaluation depends on. -/
structure Env where
  program : Program
  invoke : Invoke
  /-- How often a loop may turn, and how deep a comparison may go. -/
  fuel : Nat

/-! ## Searching -/

variable (eq : Value → Value → Exec Bool)

/-- The position of the first item that is equal to a value, counted from `index`. -/
def positionFrom (value : Value) (index : Nat) : List Value → Exec (Option Nat)
  | [] => return none
  | item :: rest => do
    if ← eq item value then
      return some index
    else
      positionFrom value (index + 1) rest

/-- The position of the first item that is equal to a value. -/
def position (items : List Value) (value : Value) : Exec (Option Nat) :=
  positionFrom eq value 0 items

/-- The position of the first entry whose key is equal to `key`. -/
def findKey (entries : List (Value × Value)) (key : Value) : Exec (Option Nat) :=
  position eq (entries.map (·.1)) key

/-! ## Comparing containers -/

/-- Whether two lists of the same length are equal item by item. -/
def itemsEqual : List Value → List Value → Exec Bool
  | a :: as, b :: bs => do
    if ← eq a b then itemsEqual as bs else return false
  | _, _ => return true

/-- Whether all elements are found among `others`. -/
def elementsFound (others : List Value) : List Value → Exec Bool
  | [] => return true
  | item :: rest => do
    match ← position eq others item with
    | some _ => elementsFound others rest
    | none => return false

/-- Whether all entries are found among `others`, with equal values. -/
def entriesFound (others : List (Value × Value)) : List (Value × Value) → Exec Bool
  | [] => return true
  | (key, value) :: rest => do
    match ← findKey eq others key with
    | none => return false
    | some slot =>
      match others[slot]? with
      | none => return false
      | some (_, other) => do
        if ← eq value other then entriesFound others rest else return false

/-- Equality of the program. -/
def valuesEqual (env : Env) : Nat → Value → Value → Exec Bool
  | 0, _, _ => throw .exhausted
  | depth + 1, left, right =>
    match left, right with
    | .void, .void => return true
    | .null, .null => return true
    | .bool l, .bool r => return l == r
    | .int l, .int r => return l == r
    | .rune l, .rune r => return l == r
    | .string l, .string r => return l == r
    | .list a, .list b =>
      if a = b then return true
      else do
        let l ← look (·.list a)
        let r ← look (·.list b)
        if l.size = r.size then itemsEqual (valuesEqual env depth) l.toList r.toList
        else return false
    | .set a, .set b =>
      if a = b then return true
      else do
        let l ← look (·.set a)
        let r ← look (·.set b)
        if l.size = r.size then elementsFound (valuesEqual env depth) r.toList l.toList
        else return false
    | .map a, .map b =>
      if a = b then return true
      else do
        let l ← look (·.map a)
        let r ← look (·.map b)
        if l.size = r.size then entriesFound (valuesEqual env depth) r.toList l.toList
        else return false
    | .object model a, .object model' b => do
      let m ← ofOption (env.program.getModel? model)
      match m.equality with
      | some e =>
        if model = model' then
          let frame := { receiver := some left, locals := [(e.other, right)] }
          ofExcept (asBool (← env.invoke "equal" e.body frame))
        else
          return a == b
      | none => return a == b
    | _, _ => return false

/-- Equality of the program, as deep as the environment allows. -/
def Env.equal (env : Env) (left right : Value) : Exec Bool :=
  valuesEqual env env.fuel left right

/-! ## Sets and maps -/

/-- Adds a value to a set that has no equal one. -/
def addElement (env : Env) (a : Address) (value : Value) : Exec Unit := do
  let items ← look (·.set a)
  match ← position env.equal items.toList value with
  | some _ => return ()
  | none => change (·.pushElement a value)

/-- Adds a value to a set. -/
def addToSet (env : Env) (set value : Value) : Exec Unit :=
  match set with
  | .set a => addElement env a value
  | other => fault (notA "set" other)

/-- Gives a key of a map its value. An equal key stays, with the new value. -/
def putEntry (env : Env) (a : Address) (key value : Value) : Exec Unit := do
  let entries ← look (·.map a)
  match ← findKey env.equal entries.toList key with
  | some slot => change (·.setEntry a slot value)
  | none => change (·.pushEntry a key value)

/-! ## Hashes -/

/-- A hash of a sequence, from the hashes of its items. -/
def hashSequence (hashes : List Int64) : Int64 :=
  hashes.foldl (fun h x => h * 31 + x) 0

/-- A hash of a collection, whatever its order. -/
def hashCollection (hashes : List Int64) : Int64 :=
  hashes.foldl (· + ·) 0

/-- The hash of a string. -/
def hashString (s : String) : Int64 :=
  hashSequence (s.toList.map runeCode)

/-- The hashes of several values, in their order. -/
def hashAll (hash : Value → Exec Int64) : List Value → Exec (List Int64)
  | [] => return []
  | v :: rest => do
    let h ← hash v
    let hs ← hashAll hash rest
    return h :: hs

/-- The hashes of entries, in their order. -/
def hashEntries (hash : Value → Exec Int64) : List (Value × Value) → Exec (List Int64)
  | [] => return []
  | (key, value) :: rest => do
    let k ← hash key
    let v ← hash value
    let hs ← hashEntries hash rest
    return (k * 31 + v) :: hs

/-- The hash of a value. Sets and maps hash without regard to order. -/
def hashValue (env : Env) : Nat → Value → Exec Int64
  | 0, _ => throw .exhausted
  | depth + 1, value =>
    match value with
    | .void => return 0
    | .null => return 0
    | .bool b => return if b then 1 else 0
    | .int n => return n
    | .rune c => return runeCode c
    | .string s => return hashString s
    | .list a => do
      return hashSequence (← hashAll (hashValue env depth) (← look (·.list a)).toList)
    | .set a => do
      return hashCollection (← hashAll (hashValue env depth) (← look (·.set a)).toList)
    | .map a => do
      return hashCollection (← hashEntries (hashValue env depth) (← look (·.map a)).toList)
    | .object model _ => do
      let m ← ofOption (env.program.getModel? model)
      match m.hashing with
      | some body => do
        ofExcept (asInt (← env.invoke "hash" body { receiver := some value }))
      | none => return Int64.ofNat model.index

end Scribe.Machine
