import Scribe.Lowering.Expr
import Scribe.Lowering.Naming

/-!
# Lowering statements

A block opens a frame for its declarations, and so does each loop. A declaration binds its name in
the innermost frame for what follows.
-/

namespace Scribe.Lowering

open Scribe.Core
open Lower (check build inspect withFrame)

/-- Takes a new local. -/
def newLocal (name : String) (type : Ty) (origin : LocalOrigin) : Lower LocalId :=
  build (Build.allocLocal { name, type, origin })

/-- A condition. -/
def lowerCondition (condition : Syntax.Expr) : Lower Expr := do
  let condition ← lowerExpr condition
  check (checkCondition · condition)
  return condition

/-- A declaration. -/
def lowerDeclare (name : String) (value : Syntax.Expr) : Lower Stmt := do
  check fun _ => checkMemberName name
  let value ← lowerExpr value
  let type ← typed value
  if type.isVoid then
    throw (.typeMismatch "a value" "void")
  let id ← newLocal name type .declared
  Lower.bind { name, id }
  return .declare id value

/-- An assignment. -/
def lowerAssign (place value : Syntax.Expr) : Lower Stmt := do
  let place ← lowerPlace place
  let target ← typed place
  let value ← expectType target (← lowerExpecting target value)
  return .assign place value

/-- The callable that a return leaves. -/
def enclosingCallable (scope : Scope) : Checked Callable :=
  match scope.enclosingCallable? with
  | some callable => .ok callable
  | none => .error (.structural .returnOutsideCallable)

/-- A return. -/
def lowerReturn (value : Option Syntax.Expr) : Lower Stmt := do
  let callable ← inspect fun _ scope => enclosingCallable scope
  let expected ← check fun p => .ofOption (p.callableReturnType? callable)
  let value ← match value with
    | some e => some <$> lowerExpecting expected e
    | none => pure none
  check (checkReturn · expected value)
  return .ret value callable

/-- A statement that acts on the innermost loop. -/
def lowerControl (s : Stmt) : Lower Stmt := do
  if (← get).scope.inLoop then
    return s
  else
    throw .loopControlOutsideLoop

/-- A value added to a set. -/
def lowerAdd (set value : Syntax.Expr) : Lower Stmt := do
  let set ← lowerExpr set
  let setType ← typed set
  let item ← check (setItem · setType)
  return .add set (← expectType item (← lowerExpr value))

/-- A value appended to a list. -/
def lowerPush (list value : Syntax.Expr) : Lower Stmt := do
  let list ← lowerExpr list
  let listType ← typed list
  let item ← check (listItem · listType)
  return .push list (← expectType item (← lowerExpr value))

/-- The last element taken off a list. -/
def lowerPop (list : Syntax.Expr) : Lower Stmt := do
  let list ← lowerExpr list
  let listType ← typed list
  let _ ← check (listItem · listType)
  return .pop list

/-- A call for its effect. The built-in operations of containers become their statements. -/
def lowerCallStmt : Syntax.Target → List Syntax.Expr → Lower Stmt
  | .function name, arguments => do
    let (receiver, function) ← inspect fun p s => resolveFunction p s name
    let call ← lowerCall receiver function arguments.length (lowerArguments · arguments)
    return call.toStmt
  | .method receiver name, arguments => do
    let receiver ← lowerExpr receiver
    match ← typed receiver, name with
    | .set item, "add" => return .add receiver (← lowerOnly name item arguments)
    | .list item, "push" => return .push receiver (← lowerOnly name item arguments)
    | .list _, "pop" => do
      requireArity name 0 arguments.length
      return .pop receiver
    | receiverType, _ => do
      let function ← check (resolveMethod · receiverType name)
      let call ← lowerCall receiver function arguments.length (lowerArguments · arguments)
      return call.toStmt

mutual

/-- A statement. -/
def lowerStmt : Syntax.Stmt → Lower Stmt
  | .declare name value => lowerDeclare name value
  | .assign place value => lowerAssign place value
  | .conditional arms otherwise => do
    if arms.isEmpty then
      throw (.structural .emptyConditional)
    let arms ← lowerArms arms
    let otherwise ← lowerOtherwise otherwise
    return .conditional arms otherwise
  | .forLoop start condition after body => withFrame (.forLoop none) do
    let start ← lowerPart start
    let condition ← lowerCondition condition
    let after ← lowerPart after
    let body ← withFrame (.block []) (lowerStmts body)
    return .forLoop start condition after body
  | .forEach item iterable body => do
    check fun _ => checkMemberName item
    let iterable ← lowerExpr iterable
    let iterableType ← typed iterable
    let (kind, itemType) ← check (iterableKind · iterableType)
    let id ← newLocal item itemType .forEachItem
    let body ← withFrame (.forEach ⟨item, id⟩) (withFrame (.block []) (lowerStmts body))
    return .forEach id iterable kind itemType body
  | .ret value => lowerReturn value
  | .brk => lowerControl .brk
  | .cont => lowerControl .cont
  | .add set value => lowerAdd set value
  | .push list value => lowerPush list value
  | .pop list => lowerPop list
  | .call target arguments => lowerCallStmt target arguments

def lowerStmts : List Syntax.Stmt → Lower (List Stmt)
  | [] => return []
  | s :: rest => do
    let s ← lowerStmt s
    let rest ← lowerStmts rest
    return s :: rest

/-- The first or last part of a loop. -/
def lowerPart : Option Syntax.Stmt → Lower (Option Stmt)
  | none => return none
  | some s => some <$> lowerStmt s

def lowerArms : List (Syntax.Expr × List Syntax.Stmt) → Lower (List (Expr × List Stmt))
  | [] => return []
  | (condition, block) :: rest => do
    let condition ← lowerCondition condition
    let block ← withFrame (.block []) (lowerStmts block)
    let rest ← lowerArms rest
    return (condition, block) :: rest

def lowerOtherwise : Option (List Syntax.Stmt) → Lower (Option (List Stmt))
  | none => return none
  | some block => some <$> withFrame (.block []) (lowerStmts block)

end

/-- A block. -/
def lowerBlock (block : Syntax.Block) : Lower Block :=
  withFrame (.block []) (lowerStmts block)

end Scribe.Lowering
