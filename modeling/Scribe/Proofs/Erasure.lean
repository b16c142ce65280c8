import Mathlib.Data.List.Forall2
import Scribe.Lowering.Module

/-!
# Programs written back as modules

A program can be written back as a module: every id becomes the name of the definition behind it,
every type the annotation that spells it, and what was found out about a node is dropped
(`Program.erase`). A node that does not stand where its form belongs has no spelling: a container
operation on something that is no such container, or a call whose receiver is no instance of the
model that has the method.

Two modules are the same up to spelling (`Syntax.Module.Respelled`) if they have the same definitions
in the same order and their trees agree node by node, but for the forms that have two spellings: the
operations of containers, written as calls or as nodes of their own, and calls of methods of the same
model, with or without `self`.
-/

namespace Scribe.Core.Program

open Scribe.Lowering
open Scribe.Syntax (TypeExpr Target)

variable (p : Program)

/-! ## Types and expressions -/

/-- The annotation that spells a type. -/
def eraseType : Ty → Option TypeExpr
  | .primitive .bool => some .bool
  | .primitive .int => some .int
  | .primitive .rune => some .rune
  | .primitive .string => some .string
  | .primitive .void => some .void
  | .list item => do return .list (← eraseType item)
  | .map key value => do return .map (← eraseType key) (← eraseType value)
  | .set item => do return .set (← eraseType item)
  | .model id => do return .model (← p.getModel? id).name

/-- Whether an expression is a list. -/
def isList (e : Expr) : Bool :=
  match typeOf p e with
  | .ok (.list _) => true
  | _ => false

/-- Whether an expression is a set. -/
def isSet (e : Expr) : Bool :=
  match typeOf p e with
  | .ok (.set _) => true
  | _ => false

/-- Whether an expression is an instance of a model. -/
def isInstance (id : Option ModelId) (e : Expr) : Bool :=
  match typeOf p e with
  | .ok (.model id') => id == some id'
  | _ => false

mutual

/-- An expression written back. -/
def eraseExpr : Expr → Option Syntax.Expr
  | .bool value => some (.bool value)
  | .int value => some (.int value)
  | .rune value => some (.rune value)
  | .string value => some (.string value)
  | .list items _ => do return .list (← eraseExprs items)
  | .map entries _ _ => do return .map (← eraseEntries entries)
  | .set items _ => do return .set (← eraseExprs items)
  | .emptyList item => do return .emptyList (← p.eraseType item)
  | .emptySet item => do return .emptySet (← p.eraseType item)
  | .emptyMap key value => do return .emptyMap (← p.eraseType key) (← p.eraseType value)
  | .call receiver arguments function _ => do
    return .call (← eraseTarget function receiver) (← eraseExprs arguments)
  | .lookup container key _ _ => do return .lookup (← eraseExpr container) (← eraseExpr key)
  | .property receiver field _ => do
    guard (p.isInstance (some field.model) receiver)
    return .property (← eraseExpr receiver) (← p.getField? field.model field.index).name
  | .contains set value => do
    guard (p.isSet set)
    return .contains (← eraseExpr set) (← eraseExpr value)
  | .new model => do return .new (← p.getModel? model).name
  | .length operand _ => do return .length (← eraseExpr operand)
  | .unary op operand _ => do return .unary op (← eraseExpr operand)
  | .binary op left right _ => do return .binary op (← eraseExpr left) (← eraseExpr right)
  | .var definition _ => do return .var (← p.definitionName? definition)
  | .self _ => some .self
  | .null _ => some .null
  | .pop list _ => do
    guard (p.isList list)
    return .pop (← eraseExpr list)

def eraseExprs : List Expr → Option (List Syntax.Expr)
  | [] => some []
  | e :: rest => do return (← eraseExpr e) :: (← eraseExprs rest)

def eraseEntries : List (Expr × Expr) → Option (List (Syntax.Expr × Syntax.Expr))
  | [] => some []
  | (key, value) :: rest => do
    return (← eraseExpr key, ← eraseExpr value) :: (← eraseEntries rest)

/-- The target of a call: a free function has no receiver, and a method has an instance of its
model. -/
def eraseTarget (function : FunctionId) : Option Expr → Option Target
  | none => do
    let f ← p.getFunction? function
    guard f.owner.isNone
    return .function f.name
  | some receiver => do
    let f ← p.getFunction? function
    guard (p.isInstance f.owner receiver)
    return .method (← eraseExpr receiver) f.name

end

/-! ## Statements -/

mutual

/-- A statement written back. -/
def eraseStmt : Stmt → Option Syntax.Stmt
  | .declare id value => do return .declare (← p.getLocal? id).name (← p.eraseExpr value)
  | .assign place value => do return .assign (← p.eraseExpr place) (← p.eraseExpr value)
  | .conditional arms otherwise => do
    return .conditional (← eraseArms arms) (← eraseOtherwise otherwise)
  | .forLoop start condition after body => do
    return .forLoop (← erasePart start) (← p.eraseExpr condition) (← erasePart after)
      (← eraseBlock body)
  | .forEach item iterable _ _ body => do
    return .forEach (← p.getLocal? item).name (← p.eraseExpr iterable) (← eraseBlock body)
  | .ret none _ => some (.ret none)
  | .ret (some value) _ => do return .ret (some (← p.eraseExpr value))
  | .brk => some .brk
  | .cont => some .cont
  | .add set value => do
    guard (p.isSet set)
    return .add (← p.eraseExpr set) (← p.eraseExpr value)
  | .push list value => do
    guard (p.isList list)
    return .push (← p.eraseExpr list) (← p.eraseExpr value)
  | .pop list => do
    guard (p.isList list)
    return .pop (← p.eraseExpr list)
  | .call receiver arguments function _ => do
    return .call (← p.eraseTarget function receiver) (← p.eraseExprs arguments)

/-- A block written back. -/
def eraseBlock : List Stmt → Option (List Syntax.Stmt)
  | [] => some []
  | s :: rest => do return (← eraseStmt s) :: (← eraseBlock rest)

def erasePart : Option Stmt → Option (Option Syntax.Stmt)
  | none => some none
  | some s => do return some (← eraseStmt s)

def eraseArms : List (Expr × List Stmt) → Option (List (Syntax.Expr × List Syntax.Stmt))
  | [] => some []
  | (condition, block) :: rest => do
    return (← p.eraseExpr condition, ← eraseBlock block) :: (← eraseArms rest)

def eraseOtherwise : Option (List Stmt) → Option (Option (List Syntax.Stmt))
  | none => some none
  | some block => do return some (← eraseBlock block)

end

/-! ## Definitions -/

/-- A constant written back. -/
def eraseConstant (c : Constant) : Option Syntax.Constant := do
  return { name := c.name, value := ← p.eraseExpr c.value }

/-- A parameter written back. -/
def eraseParameter (q : Parameter) : Option Syntax.Parameter := do
  return { name := q.name, type := ← p.eraseType q.type }

/-- A field written back. -/
def eraseField (f : Field) : Option Syntax.Field := do
  return { name := f.name, type := ← p.eraseType f.type }

/-- The function behind an id, written back. -/
def eraseFunction (id : FunctionId) : Option Syntax.Function := do
  let f ← p.getFunction? id
  return {
    name := f.name
    parameters := ← f.parameters.mapM p.eraseParameter
    returnType := ← p.eraseType f.returnType
    body := ← p.eraseBlock f.body }

/-- An equality written back. -/
def eraseEquality (e : Equality) : Option Syntax.Equality := do
  return { other := (← p.getLocal? e.other).name, body := ← p.eraseBlock e.body }

/-- A model written back. -/
def eraseModel (m : Model) : Option Syntax.Model := do
  return {
    name := m.name
    fields := ← m.fields.mapM p.eraseField
    methods := ← m.methods.mapM fun x => p.eraseFunction x.function
    equality := ← m.equality.mapM p.eraseEquality
    hashing := ← m.hashing.mapM p.eraseBlock }

/-- The functions that are written back, in order: the free functions, and the methods of one model
after the other. -/
def writtenFunctions : List FunctionId :=
  p.freeFunctions ++ p.models.toList.flatMap fun m => m.methods.map (·.function)

/-- The module that a program is written back as. -/
def erase : Option Syntax.Module := do
  return {
    name := p.name
    constants := ← p.constants.toList.mapM p.eraseConstant
    functions := ← p.freeFunctions.mapM p.eraseFunction
    models := ← p.models.toList.mapM p.eraseModel }

end Scribe.Core.Program

namespace Scribe.Syntax

/-! ## Spellings -/

/-- Whether an expression has no parts. -/
def Expr.isLeaf : Expr → Bool
  | .list _ | .map _ | .set _ | .call _ _ | .lookup _ _ | .property _ _ | .contains _ _ | .length _
  | .unary _ _ | .binary _ _ _ | .pop _ => false
  | .bool _ | .int _ | .rune _ | .string _ | .emptyList _ | .emptySet _ | .emptyMap _ _ | .new _
  | .var _ | .self | .null => true

variable (methods : List String)

/-- `e'` is `e` up to spelling, inside a model with the methods `methods`. -/
inductive Expr.Respelled : Expr → Expr → Prop where
  | leaf {e} (h : e.isLeaf = true) : Respelled e e
  | list {es es'} (hes : List.Forall₂ Respelled es es') : Respelled (.list es) (.list es')
  | set {es es'} (hes : List.Forall₂ Respelled es es') : Respelled (.set es) (.set es')
  | map {entries entries'} (hkeys : List.Forall₂ Respelled (entries.map (·.1)) (entries'.map (·.1)))
      (hvalues : List.Forall₂ Respelled (entries.map (·.2)) (entries'.map (·.2))) :
      Respelled (.map entries) (.map entries')
  | call {name es es'} (hname : name ∉ methods) (hes : List.Forall₂ Respelled es es') :
      Respelled (.call (.function name) es) (.call (.function name) es')
  /-- A method of the same model, called without a receiver. -/
  | callSelf {name es es'} (hname : name ∈ methods) (hes : List.Forall₂ Respelled es es') :
      Respelled (.call (.function name) es) (.call (.method .self name) es')
  | callMethod {r r' name es es'} (hr : Respelled r r') (hes : List.Forall₂ Respelled es es') :
      Respelled (.call (.method r name) es) (.call (.method r' name) es')
  /-- A test of a set, written as a call. -/
  | callContains {r r' e e'} (hr : Respelled r r') (he : Respelled e e') :
      Respelled (.call (.method r "contains") [e]) (.contains r' e')
  /-- The last element of a list, taken by a call. -/
  | callPop {r r'} (hr : Respelled r r') : Respelled (.call (.method r "pop") []) (.pop r')
  | lookup {a a' k k'} (ha : Respelled a a') (hk : Respelled k k') :
      Respelled (.lookup a k) (.lookup a' k')
  | property {r r' name} (hr : Respelled r r') : Respelled (.property r name) (.property r' name)
  | contains {a a' e e'} (ha : Respelled a a') (he : Respelled e e') :
      Respelled (.contains a e) (.contains a' e')
  | length {e e'} (he : Respelled e e') : Respelled (.length e) (.length e')
  | unary {op e e'} (he : Respelled e e') : Respelled (.unary op e) (.unary op e')
  | binary {op l l' r r'} (hl : Respelled l l') (hr : Respelled r r') :
      Respelled (.binary op l r) (.binary op l' r')
  | pop {a a'} (ha : Respelled a a') : Respelled (.pop a) (.pop a')

/-- `s'` is `s` up to spelling, inside a model with the methods `methods`. -/
inductive Stmt.Respelled : Stmt → Stmt → Prop where
  | declare {name e e'} (he : Expr.Respelled methods e e') :
      Respelled (.declare name e) (.declare name e')
  | assign {a a' e e'} (ha : Expr.Respelled methods a a') (he : Expr.Respelled methods e e') :
      Respelled (.assign a e) (.assign a' e')
  | conditional {arms arms' otherwise otherwise'}
      (hconditions : List.Forall₂ (Expr.Respelled methods) (arms.map (·.1)) (arms'.map (·.1)))
      (hblocks : List.Forall₂ (List.Forall₂ Respelled) (arms.map (·.2)) (arms'.map (·.2)))
      (hotherwise : Option.Rel (List.Forall₂ Respelled) otherwise otherwise') :
      Respelled (.conditional arms otherwise) (.conditional arms' otherwise')
  | forLoop {start start' after after' e e' body body'}
      (hstart : Option.Rel Respelled start start') (he : Expr.Respelled methods e e')
      (hafter : Option.Rel Respelled after after') (hbody : List.Forall₂ Respelled body body') :
      Respelled (.forLoop start e after body) (.forLoop start' e' after' body')
  | forEach {item e e' body body'} (he : Expr.Respelled methods e e')
      (hbody : List.Forall₂ Respelled body body') :
      Respelled (.forEach item e body) (.forEach item e' body')
  | ret {value value'} (h : Option.Rel (Expr.Respelled methods) value value') :
      Respelled (.ret value) (.ret value')
  | brk : Respelled .brk .brk
  | cont : Respelled .cont .cont
  | add {a a' e e'} (ha : Expr.Respelled methods a a') (he : Expr.Respelled methods e e') :
      Respelled (.add a e) (.add a' e')
  | push {a a' e e'} (ha : Expr.Respelled methods a a') (he : Expr.Respelled methods e e') :
      Respelled (.push a e) (.push a' e')
  | pop {a a'} (ha : Expr.Respelled methods a a') : Respelled (.pop a) (.pop a')
  | call {name es es'} (hname : name ∉ methods)
      (hes : List.Forall₂ (Expr.Respelled methods) es es') :
      Respelled (.call (.function name) es) (.call (.function name) es')
  /-- A method of the same model, called without a receiver. -/
  | callSelf {name es es'} (hname : name ∈ methods)
      (hes : List.Forall₂ (Expr.Respelled methods) es es') :
      Respelled (.call (.function name) es) (.call (.method .self name) es')
  | callMethod {r r' name es es'} (hr : Expr.Respelled methods r r')
      (hes : List.Forall₂ (Expr.Respelled methods) es es') :
      Respelled (.call (.method r name) es) (.call (.method r' name) es')
  /-- A value added to a set, written as a call. -/
  | callAdd {r r' e e'} (hr : Expr.Respelled methods r r') (he : Expr.Respelled methods e e') :
      Respelled (.call (.method r "add") [e]) (.add r' e')
  /-- A value appended to a list, written as a call. -/
  | callPush {r r' e e'} (hr : Expr.Respelled methods r r') (he : Expr.Respelled methods e e') :
      Respelled (.call (.method r "push") [e]) (.push r' e')
  /-- The last element taken off a list, written as a call. -/
  | callPop {r r'} (hr : Expr.Respelled methods r r') :
      Respelled (.call (.method r "pop") []) (.pop r')

/-- The same block up to spelling. -/
abbrev Block.Respelled : Block → Block → Prop :=
  List.Forall₂ (Stmt.Respelled methods)

/-- The same constant up to spelling. -/
structure Constant.Respelled (c c' : Constant) : Prop where
  name : c'.name = c.name
  value : Expr.Respelled [] c.value c'.value

/-- The same function up to spelling. -/
structure Function.Respelled (f f' : Function) : Prop where
  name : f'.name = f.name
  parameters : f'.parameters = f.parameters
  returnType : f'.returnType = f.returnType
  body : Block.Respelled methods f.body f'.body

/-- The same equality up to spelling. -/
structure Equality.Respelled (e e' : Equality) : Prop where
  other : e'.other = e.other
  body : Block.Respelled methods e.body e'.body

/-- The same model up to spelling. -/
structure Model.Respelled (m m' : Model) : Prop where
  name : m'.name = m.name
  fields : m'.fields = m.fields
  methods : List.Forall₂ (Function.Respelled (m.methods.map (·.name))) m.methods m'.methods
  equality : Option.Rel (Equality.Respelled (m.methods.map (·.name))) m.equality m'.equality
  hashing : Option.Rel (Block.Respelled (m.methods.map (·.name))) m.hashing m'.hashing

/-- The same module up to spelling. -/
structure Module.Respelled (m m' : Module) : Prop where
  name : m'.name = m.name
  constants : List.Forall₂ Constant.Respelled m.constants m'.constants
  functions : List.Forall₂ (Function.Respelled []) m.functions m'.functions
  models : List.Forall₂ Model.Respelled m.models m'.models

end Scribe.Syntax
