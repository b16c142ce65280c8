import Scribe.Machine.Equality
import Scribe.Machine.Render

/-!
# Evaluation of expressions

Evaluation follows the expression. Calls go through the environment, which runs the body of the
callee; so does equality where a model defines its own.
-/

namespace Scribe.Machine

open Scribe.Core
open Exec (fault invalid look change alloc frame receiver getField setField popList ofExcept
  ofOption)

/-- The initial value of a field. -/
def zeroValue (h : Heap) : Ty → Value × Heap
  | .primitive .bool => (.bool false, h)
  | .primitive .int => (.int 0, h)
  | .primitive .rune => (.rune '\x00', h)
  | .primitive .string => (.string "", h)
  | .primitive .void => (.void, h)
  | .list _ => Prod.map .list id (h.newList #[])
  | .set _ => Prod.map .set id (h.newSet #[])
  | .map _ _ => Prod.map .map id (h.newMap #[])
  | .model _ => (.null, h)

/-- The initial values of fields. -/
def zeroValues (h : Heap) : List Field → List Value × Heap
  | [] => ([], h)
  | f :: rest =>
    let (v, h) := zeroValue h f.type
    let (vs, h) := zeroValues h rest
    (v :: vs, h)

/-- A new instance of a model. -/
def instantiate (m : Model) (h : Heap) : Address × Heap :=
  let (fields, h) := zeroValues h m.fields
  h.newObject m.name fields.toArray

/-- The value of a definition. -/
def readDefinition (p : Program) : Definition → Exec Value
  | .constant id => do
    match (← get).constants.lookup id with
    | some v => return v
    | none => do
      let c ← ofOption (p.getConstant? id)
      invalid (.constantUninitialized c.name)
  | .argument _ index => do
    match (← frame).arguments[index]? with
    | some v => return v
    | none => invalid .argumentOutOfRange
  | .field _ index => do
    let (_, a) ← receiver
    getField a index
  | .binding id => do
    match (← frame).locals.lookup id with
    | some v => return v
    | none => do
      let l ← ofOption (p.getLocal? id)
      invalid (.localUnset l.name)

/-- A value of a container. -/
def lookupValue (env : Env) (kind : LookupKind) (container key : Value) : Exec Value :=
  match kind, container with
  | .list, .list a => do
    let index ← ofExcept (asInt key)
    let items ← look (·.list a)
    let slot ← ofExcept (checkedIndex index items.size)
    match items[slot]? with
    | some v => return v
    | none => fault (.indexOutOfBounds index items.size)
  | .string, .string s => do
    let index ← ofExcept (asInt key)
    let chars := s.toList
    let slot ← ofExcept (checkedIndex index chars.length)
    match chars[slot]? with
    | some c => return .rune c
    | none => fault (.indexOutOfBounds index chars.length)
  | .map, .map a => do
    let entries ← look (·.map a)
    match ← findKey env.equal entries.toList key with
    | some slot => return (← ofOption entries[slot]?).2
    | none => do
      match ← look (text? · key) with
      | some text => fault (.missingKey text)
      | none => throw (.endless a key)
  | _, .null => fault .nullDereference
  | _, other => fault (notA "indexable value" other)

/-- The length of a string or a container. -/
def lengthOf : Value → Exec Value
  | .string s => ofExcept (lengthValue s.length)
  | .list a => do ofExcept (lengthValue (← look (·.list a)).size)
  | .set a => do ofExcept (lengthValue (← look (·.set a)).size)
  | .map a => do ofExcept (lengthValue (← look (·.map a)).size)
  | other => fault (notA "string or container" other)

/-- The elements of a set. -/
def elementsOf : Value → Exec (List Value)
  | .set a => return (← look (·.set a)).toList
  | other => fault (notA "set" other)

/-- A field of an instance. -/
def fieldOf (v : Value) (index : Nat) : Exec Value :=
  match v with
  | .object _ a => getField a index
  | .null => fault .nullDereference
  | other => fault (notA "instance" other)

/-- A unary operator applied to a value. -/
def evalUnary (env : Env) (op : UnaryOp) (value : Value) : Exec Value := do
  match op with
  | .hash => return .int (← hashValue env env.fuel value)
  | op => ofExcept (applyUnary op value)

/-- A binary operator applied to values. -/
def evalBinary (env : Env) (op : BinaryOp) (left right : Value) : Exec Value := do
  match op with
  | .equals => return .bool (← env.equal left right)
  | .notEqual => return .bool (!(← env.equal left right))
  | op => ofExcept (applyBinary op left right)

/-- The truth value that a computation gives. -/
def truth (act : Exec Value) : Exec Bool := do
  ofExcept (asBool (← act))

/-- A binary operator applied to operands. A connective leaves out its right operand if the left one
decides. -/
def evalOperands (env : Env) (op : BinaryOp) (left right : Exec Value) : Exec Value := do
  match op with
  | .and => if ← truth left then return .bool (← truth right) else return .bool false
  | .or => if ← truth left then return .bool true else return .bool (← truth right)
  | op => do
    let left ← left
    let right ← right
    evalBinary env op left right

/-- A call of a function on values. -/
def callFunction (env : Env) (id : FunctionId) (receiver : Option Value) (arguments : List Value) :
    Exec Value := do
  let f ← ofOption (env.program.getFunction? id)
  env.invoke f.name f.body { receiver, arguments }

mutual

/-- The value of an expression. -/
def eval (env : Env) : Expr → Exec Value
  | .bool value => return .bool value
  | .int value => return .int value
  | .rune value => return .rune value
  | .string value => return .string value
  | .list items _ => do
    let items ← evalAll env items
    return .list (← alloc (·.newList items.toArray))
  | .set items _ => do
    let a ← alloc (·.newSet #[])
    evalElements env a items
    return .set a
  | .map entries _ _ => do
    let a ← alloc (·.newMap #[])
    evalEntries env a entries
    return .map a
  | .emptyList _ => return .list (← alloc (·.newList #[]))
  | .emptySet _ => return .set (← alloc (·.newSet #[]))
  | .emptyMap _ _ => return .map (← alloc (·.newMap #[]))
  | .call receiver arguments function _ => do
    let receiver ← evalReceiver env receiver
    let arguments ← evalAll env arguments
    callFunction env function receiver arguments
  | .lookup container key kind _ => do
    let container ← eval env container
    let key ← eval env key
    lookupValue env kind container key
  | .property receiver field _ => do fieldOf (← eval env receiver) field.index
  | .contains set value => do
    let items ← elementsOf (← eval env set)
    let value ← eval env value
    return .bool (← position env.equal items value).isSome
  | .new model => do
    let m ← ofOption (env.program.getModel? model)
    return .object model (← alloc (instantiate m))
  | .length operand _ => do lengthOf (← eval env operand)
  | .unary op operand _ => do evalUnary env op (← eval env operand)
  | .binary op left right _ => evalOperands env op (eval env left) (eval env right)
  | .var definition _ => readDefinition env.program definition
  | .self _ => do
    let (model, a) ← receiver
    return .object model a
  | .null _ => return .null
  | .pop list _ => do popList (← eval env list)

def evalAll (env : Env) : List Expr → Exec (List Value)
  | [] => return []
  | e :: rest => do
    let v ← eval env e
    let vs ← evalAll env rest
    return v :: vs

/-- Adds the values of expressions to a set. -/
def evalElements (env : Env) (a : Address) : List Expr → Exec Unit
  | [] => return ()
  | e :: rest => do
    let v ← eval env e
    addElement env a v
    evalElements env a rest

/-- Adds entries to a map. -/
def evalEntries (env : Env) (a : Address) : List (Expr × Expr) → Exec Unit
  | [] => return ()
  | (key, value) :: rest => do
    let key ← eval env key
    let value ← eval env value
    putEntry env a key value
    evalEntries env a rest

/-- The receiver of a call, which may not be null. -/
def evalReceiver (env : Env) : Option Expr → Exec (Option Value)
  | none => return none
  | some e => do
    match ← eval env e with
    | .null => fault .nullDereference
    | v => return some v

end

end Scribe.Machine
