import Scribe.Lowering.Error

/-!
# Types of core expressions

Everything here is a function of the program and the expression: no scope and no state. Lowering
uses these rules while it builds nodes, and `typeOf` derives the type of any finished node again.
-/

namespace Scribe.Lowering

open Scribe.Core

variable (p : Program)

/-- The text of a type in a message. -/
def describe (t : Ty) : Checked String :=
  .ofOption (p.typeName? t)

/-- A type where another was needed. -/
def mismatch {α : Type} (expected : String) (found : Ty) : Checked α := do
  throw (.typeMismatch expected (← describe p found))

/-- Requires `found` to be exactly `expected`. -/
def ensureType (expected found : Ty) : Checked Unit := do
  if expected = found then
    return ()
  else
    mismatch p (← describe p expected) found

/-! ## Operators -/

/-- The result of a unary operator, where it is defined. -/
def unaryResult? : UnaryOp → Ty → Option Primitive
  | .hash, .list _ | .hash, .set _ | .hash, .model _ => some .int
  | .hash, .primitive t => if t = .void then none else some .int
  | .not, .primitive .bool => some .bool
  | .negate, .primitive .int => some .int
  | .castToInt, .primitive .rune => some .int
  | .castToString, .primitive .rune => some .string
  | _, _ => none

/-- The result of a unary operator. -/
def unaryOutput (op : UnaryOp) (operand : Ty) : Checked Primitive := do
  match unaryResult? op operand with
  | some output => return output
  | none => throw (.unsupportedOperator op.symbol (← describe p operand))

/-- Comparison and arithmetic, common to integers and runes. -/
def numericResult? (op : BinaryOp) (arithmetic : Primitive) : Option Primitive :=
  match op with
  | .equals | .notEqual | .lessThan | .lessThanOrEqual | .greaterThan | .greaterThanOrEqual =>
    some .bool
  | .add | .subtract | .multiply | .divide | .modulo => some arithmetic
  | .and | .or => none

/-- The operators of a pair of primitive types; `none` if the pair has none at all. -/
def binaryTable? : Primitive → Primitive → Option (BinaryOp → Option Primitive)
  | .int, .int => some (numericResult? · .int)
  | .rune, .rune => some (numericResult? · .rune)
  | .string, .string => some fun
    | .equals | .notEqual => some .bool
    | .add => some .string
    | _ => none
  | .bool, .bool => some fun
    | .and | .or => some .bool
    | _ => none
  | _, _ => none

/-- The result of a binary operator. -/
def binaryOutput (op : BinaryOp) (left right : Ty) : Checked Primitive :=
  match left, right with
  | .primitive l, .primitive r =>
    match binaryTable? l r with
    | none => .error (.typeMismatch l.name r.name)
    | some table =>
      match table op with
      | some output => .ok output
      | none => .error (.unsupportedOperator op.symbol (l.name ++ " and " ++ r.name))
  | left, right => do mismatch p (← describe p left) right

/-! ## Containers and members -/

/-- What a lookup indexes, and the type it gives. -/
def lookupType (container key : Ty) : Checked (LookupKind × Ty) := do
  match container with
  | .list item =>
    ensureType p .int key
    return (.list, item)
  | .map keyType value =>
    ensureType p keyType key
    return (.map, value)
  | .primitive .string =>
    ensureType p .int key
    return (.string, .rune)
  | other => throw (.invalidLookup (← describe p other))

/-- What a length measures. -/
def lengthKind : Ty → Checked LengthKind
  | .primitive .string => .ok .string
  | .list _ => .ok .list
  | .map _ _ => .ok .map
  | .set _ => .ok .set
  | other => mismatch p "string, list, map or set" other

/-- What a for-each walks over, and the type of an item. -/
def iterableKind : Ty → Checked (IterableKind × Ty)
  | .list item => .ok (.list, item)
  | .set item => .ok (.set, item)
  | other => mismatch p "list or set" other

/-- The element type of a list. -/
def listItem : Ty → Checked Ty
  | .list item => .ok item
  | other => mismatch p "list" other

/-- The element type of a set. -/
def setItem : Ty → Checked Ty
  | .set item => .ok item
  | other => mismatch p "set" other

/-- The model of an instance. -/
def receiverModel : Ty → Checked ModelId
  | .model id => .ok id
  | other => mismatch p "model" other

/-- The method `name` of a receiver. -/
def resolveMethod (receiver : Ty) (name : String) : Checked FunctionId := do
  let m ← .ofOption (p.getModel? (← receiverModel p receiver))
  match m.method? name with
  | some function => return function
  | none => throw (.unknownMethod m.name name)

/-! ## Literals -/

/-- Requires the elements after the first to have its type. -/
def agree (part : LiteralPart) (expected : Ty) : List (Checked Ty) → Checked Unit
  | [] => .ok ()
  | element :: rest => do
    let found ← element
    if found = expected then
      agree part expected rest
    else
      throw (.heterogeneousLiteral (.mixed part (← describe p expected) (← describe p found)))

/-- The type that all elements share. -/
def sharedType (part : LiteralPart) : List (Checked Ty) → Checked Ty
  | [] => .error (.heterogeneousLiteral (.empty part))
  | first :: rest => do
    let expected ← first
    agree p part expected rest
    return expected

/-! ## Expressions -/

mutual

/-- The type of an expression. -/
def typeOf : Expr → Checked Ty
  | .bool _ => .ok .bool
  | .int _ => .ok .int
  | .rune _ => .ok .rune
  | .string _ => .ok .string
  | .list items _ => do return .list (← sharedType p .list (typesOf items))
  | .set items _ => do return .set (← sharedType p .set (typesOf items))
  | .map entries _ _ => do
    let key ← sharedType p .mapKey (keyTypes entries)
    let value ← sharedType p .mapValue (valueTypes entries)
    return .map key value
  | .emptyList item => .ok (.list item)
  | .emptySet item => .ok (.set item)
  | .emptyMap key value => .ok (.map key value)
  | .call _ _ function _ => do return (← .ofOption (p.getFunction? function)).returnType
  | .lookup container key _ _ => do
    let container ← typeOf container
    let key ← typeOf key
    return (← lookupType p container key).2
  | .property _ field _ => .ofOption (p.definitionType? (.field field.model field.index))
  | .contains _ _ => .ok .bool
  | .new model => .ok (.model model)
  | .self model => .ok (.model model)
  | .length _ _ => .ok .int
  | .unary op operand _ => do return .primitive (← unaryOutput p op (← typeOf operand))
  | .binary op left right _ =>
    if op.isEquality && (left.isNull || right.isNull) then .ok .bool
    else do
      let left ← typeOf left
      let right ← typeOf right
      return .primitive (← binaryOutput p op left right)
  | .var definition _ => .ofOption (p.definitionType? definition)
  | .null output => .ok output
  | .pop _ item => .ok item

def typesOf : List Expr → List (Checked Ty)
  | [] => []
  | e :: rest => typeOf e :: typesOf rest

def keyTypes : List (Expr × Expr) → List (Checked Ty)
  | [] => []
  | (key, _) :: rest => typeOf key :: keyTypes rest

def valueTypes : List (Expr × Expr) → List (Checked Ty)
  | [] => []
  | (_, value) :: rest => typeOf value :: valueTypes rest

end

/-! ## Conditions and returns -/

/-- A condition is a `bool`. -/
def checkCondition (condition : Expr) : Checked Unit := do
  let found ← typeOf p condition
  if found = .bool then
    return ()
  else
    throw (.conditionNotBoolean (← describe p found))

/-- A return gives a value of exactly the declared type, and none where that is `void`. -/
def checkReturn (expected : Ty) (value : Option Expr) : Checked Unit := do
  let found ← match value with
    | some e => typeOf p e
    | none => pure Ty.void
  if found = expected then
    return ()
  else
    throw (.returnTypeMismatch (← describe p expected) (← describe p found))

/-- A body that has to give a value ends in a return. Only its last statement counts. -/
def checkTerminal (name : String) (returnType : Ty) (body : Block) : Checked Unit :=
  if returnType.isVoid || body.getLast?.any Stmt.isReturn then .ok ()
  else .error (.missingTerminalReturn name)

end Scribe.Lowering
