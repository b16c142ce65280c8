import Scribe.Lowering.Annotation
import Scribe.Lowering.Context
import Scribe.Lowering.Typing

/-!
# Lowering expressions

Names are resolved and types checked from the leaves up. `null` has no type of its own and takes
one from its surroundings. The built-in operations of containers have two spellings, a node of
their own and a call on the container; both lower to the same node.
-/

namespace Scribe.Lowering

open Scribe.Core
open Lower (check build inspect)

/-- The type of a finished expression. -/
def typed (e : Expr) : Lower Ty :=
  check (typeOf · e)

/-- Requires a finished expression to have a type. -/
def expectType (expected : Ty) (e : Expr) : Lower Expr := do
  let found ← typed e
  check (ensureType · expected found)
  return e

/-- The null of a type. -/
def nullAt (t : Ty) : Lower Expr :=
  if t.isVoid then throw .invalidNull else return .null t

/-- The function behind an id. -/
def functionAt (id : FunctionId) : Lower Function :=
  check fun p => .ofOption (p.getFunction? id)

/-- Requires a number of arguments. -/
def requireArity (name : String) (expected found : Nat) : Lower Unit :=
  if expected = found then return () else throw (.argumentCountMismatch name expected found)

/-- The target of a plain call: a method of the enclosing model, called on `self`, before a free
function. -/
def resolveFunction (p : Program) (scope : Scope) (name : String) :
    Checked (Option Expr × FunctionId) := do
  let method? ← match scope.enclosingModel? with
    | none => pure none
    | some model => do
      let m ← .ofOption (p.getModel? model)
      pure ((m.method? name).map (model, ·))
  match method? with
  | some (model, function) => return (some (.self model), function)
  | none =>
    match p.function? name with
    | some function => return (none, function)
    | none => throw (.nameNotFound name)

/-- A variable and its type. -/
def resolveVariable (p : Program) (scope : Scope) (name : String) : Checked Expr := do
  let definition ← scope.resolve p name
  return .var definition (← .ofOption (p.definitionType? definition))

/-- The field `name` of a receiver. -/
def resolveField (p : Program) (receiver : Ty) (name : String) : Checked (FieldRef × Ty) := do
  let model ← receiverModel p receiver
  let m ← .ofOption (p.getModel? model)
  match m.field? name with
  | none => throw (.nameNotFound name)
  | some index => do
    let field ← .ofOption m.fields[index]?
    return (⟨model, index⟩, field.type)

/-- A checked call. -/
structure Call where
  receiver : Option Expr
  arguments : List Expr
  function : FunctionId
  returnType : Ty

namespace Call

def toExpr (c : Call) : Expr :=
  .call c.receiver c.arguments c.function c.returnType

def toStmt (c : Call) : Stmt :=
  .call c.receiver c.arguments c.function c.returnType

end Call

/-- A call of a function with `count` arguments, which are lowered at the types of its
parameters. -/
def lowerCall (receiver : Option Expr) (function : FunctionId) (count : Nat)
    (lowerArguments : List Ty → Lower (List Expr)) : Lower Call := do
  let f ← functionAt function
  requireArity f.name f.parameters.length count
  let arguments ← lowerArguments (f.parameters.map (·.type))
  return { receiver, arguments, function, returnType := f.returnType }

mutual

/-- An expression. -/
def lowerExpr : Syntax.Expr → Lower Expr
  | .bool value => return .bool value
  | .int value => return .int value
  | .rune value => return .rune value
  | .string value => return .string value
  | .list items => do
    let items ← lowerExprs items
    let item ← check fun p => sharedType p .list (typesOf p items)
    return .list items item
  | .set items => do
    let items ← lowerExprs items
    let item ← check fun p => sharedType p .set (typesOf p items)
    return .set items item
  | .map entries => do
    let entries ← lowerEntries entries
    let key ← check fun p => sharedType p .mapKey (keyTypes p entries)
    let value ← check fun p => sharedType p .mapValue (valueTypes p entries)
    return .map entries key value
  | .emptyList item => do return .emptyList (← check (lowerValueType · item))
  | .emptySet item => do return .emptySet (← check (lowerValueType · item))
  | .emptyMap key value => do
    let key ← check (lowerValueType · key)
    let value ← check (lowerValueType · value)
    return .emptyMap key value
  | .call (.function name) arguments => do
    let (receiver, function) ← inspect fun p s => resolveFunction p s name
    let call ← lowerCall receiver function arguments.length (lowerArguments · arguments)
    return call.toExpr
  | .call (.method receiver name) arguments => do
    let receiver ← lowerExpr receiver
    match ← typed receiver, name with
    | .set item, "contains" => return .contains receiver (← lowerOnly name item arguments)
    | .list item, "pop" => do
      requireArity name 0 arguments.length
      return .pop receiver item
    | receiverType, _ => do
      let function ← check (resolveMethod · receiverType name)
      let call ← lowerCall receiver function arguments.length (lowerArguments · arguments)
      return call.toExpr
  | .lookup container key => do
    let container ← lowerExpr container
    let key ← lowerExpr key
    let containerType ← typed container
    let keyType ← typed key
    let (kind, output) ← check (lookupType · containerType keyType)
    return .lookup container key kind output
  | .property receiver name => do
    let receiver ← lowerExpr receiver
    let receiverType ← typed receiver
    let (field, output) ← check (resolveField · receiverType name)
    return .property receiver field output
  | .contains set value => do
    let set ← lowerExpr set
    let setType ← typed set
    let item ← check (setItem · setType)
    let value ← expectType item (← lowerExpr value)
    return .contains set value
  | .new model => do return .new (← check (resolveModel · model))
  | .length operand => do
    let operand ← lowerExpr operand
    let operandType ← typed operand
    return .length operand (← check (lengthKind · operandType))
  | .unary op operand => do
    let operand ← lowerExpr operand
    let operandType ← typed operand
    return .unary op operand (← check (unaryOutput · op operandType))
  | .binary op left right => do
    if left.isNull && right.isNull then
      throw .invalidNull
    else if op.isEquality && left.isNull then
      let right ← lowerExpr right
      let left ← nullAt (← typed right)
      return .binary op left right .bool
    else if op.isEquality && right.isNull then
      let left ← lowerExpr left
      let right ← nullAt (← typed left)
      return .binary op left right .bool
    else
      let left ← lowerExpr left
      let right ← lowerExpr right
      let leftType ← typed left
      let rightType ← typed right
      return .binary op left right (← check (binaryOutput · op leftType rightType))
  | .var name => inspect fun p s => resolveVariable p s name
  | .self => do
    match (← get).scope.enclosingModel? with
    | some model => return .self model
    | none => throw .selfOutsideModel
  | .null => throw .invalidNull
  | .pop list => do
    let list ← lowerExpr list
    let listType ← typed list
    return .pop list (← check (listItem · listType))

def lowerExprs : List Syntax.Expr → Lower (List Expr)
  | [] => return []
  | e :: rest => do
    let e ← lowerExpr e
    let rest ← lowerExprs rest
    return e :: rest

def lowerEntries : List (Syntax.Expr × Syntax.Expr) → Lower (List (Expr × Expr))
  | [] => return []
  | (key, value) :: rest => do
    let key ← lowerExpr key
    let value ← lowerExpr value
    let rest ← lowerEntries rest
    return (key, value) :: rest

/-- Arguments at the types of their parameters. -/
def lowerArguments (types : List Ty) : List Syntax.Expr → Lower (List Expr)
  | [] => return []
  | e :: rest => do
    match types with
    | [] => throw (.structural .dangling)
    | t :: types => do
      let e ← expectType t (← lowerExpr e)
      let rest ← lowerArguments types rest
      return e :: rest

/-- The only argument of a built-in operation. -/
def lowerOnly (name : String) (item : Ty) : List Syntax.Expr → Lower Expr
  | [e] => do expectType item (← lowerExpr e)
  | arguments => throw (.argumentCountMismatch name 1 arguments.length)

end

/-- An expression where `null` takes the type `expected`. -/
def lowerExpecting (expected : Ty) (e : Syntax.Expr) : Lower Expr :=
  if e.isNull then nullAt expected else lowerExpr e

/-- The place of an assignment: a variable that is no constant, a field, or an element of a list
or a map. -/
def lowerPlace (e : Syntax.Expr) : Lower Expr := do
  match e with
  | .var name =>
    match ← lowerExpr e with
    | .var (.constant _) _ => throw (.invalidAssignment (.constant name))
    | place => return place
  | .property _ _ => lowerExpr e
  | .lookup _ _ =>
    match ← lowerExpr e with
    | .lookup _ _ .string _ => throw (.invalidAssignment .stringIndex)
    | place => return place
  | _ => throw (.invalidAssignment .notPlace)

end Scribe.Lowering
