import Scribe.Syntax.Kind

/-!
# Syntax trees from JSON

Reading accepts more than writing produces: records and nodes may be arrays, fields that have a
default may be missing, and members that nobody asks for are passed over. A tree that cannot be
read is refused as a whole, without a reason.

The flag `nested` says whether a node stands inside another node; only there may a kind be given
by its position.
-/

namespace Scribe.Syntax

open Scribe.Json

/-- A type annotation. -/
def typeOfJson? (nested : Bool) (j : Json) : Option TypeExpr := do
  let node : Node TypeKind j ← Node.ofJson? nested j
  let r := node.record
  match node.kind with
  | .bool => some .bool
  | .int => some .int
  | .rune => some .rune
  | .string => some .string
  | .list => do
    let ⟨item, _⟩ ← r.get? "item"
    return .list (← typeOfJson? true item)
  | .map => do
    let ⟨key, _⟩ ← r.get? "key"
    let ⟨value, _⟩ ← r.get? "value"
    return .map (← typeOfJson? true key) (← typeOfJson? true value)
  | .set => do
    let ⟨item, _⟩ ← r.get? "item"
    return .set (← typeOfJson? true item)
  | .model => do
    let ⟨name, _⟩ ← r.get? "name"
    return .model (← name.asString?)
  | .void => some .void
termination_by sizeOf j

/-- An operator: its tag, or an object with its tag as the only member and nothing in it. -/
def operatorOfJson? {κ : Type} [Tagged κ] : Json → Option κ
  | .string tag => Tagged.ofTag? tag
  | .object [(tag, .null)] => Tagged.ofTag? tag
  | .object [(tag, .object [])] => Tagged.ofTag? tag
  | _ => none

mutual

/-- An expression. -/
def exprOfJson? (nested : Bool) (j : Json) : Option Expr := do
  let node : Node ExprKind j ← Node.ofJson? nested j
  let r := node.record
  match node.kind with
  | .bool => do
    let ⟨value, _⟩ ← r.get? "value"
    return .bool (← value.asBool?)
  | .int => do
    let ⟨value, _⟩ ← r.get? "value"
    return .int (← value.asInt64?)
  | .rune => do
    let ⟨value, _⟩ ← r.get? "value"
    return .rune (← value.asChar?)
  | .string => do
    let ⟨value, _⟩ ← r.get? "value"
    return .string (← value.asString?)
  | .list => do
    let ⟨items, _⟩ ← r.get? "items"
    return .list (← exprListOfJson? items)
  | .map => do
    let ⟨entries, _⟩ ← r.get? "entries"
    return .map (← entryListOfJson? entries)
  | .set => do
    let ⟨items, _⟩ ← r.get? "items"
    return .set (← exprListOfJson? items)
  | .emptyList => do
    let ⟨item, _⟩ ← r.get? "item"
    return .emptyList (← typeOfJson? true item)
  | .emptySet => do
    let ⟨item, _⟩ ← r.get? "item"
    return .emptySet (← typeOfJson? true item)
  | .emptyMap => do
    let ⟨key, _⟩ ← r.get? "key"
    let ⟨value, _⟩ ← r.get? "value"
    return .emptyMap (← typeOfJson? true key) (← typeOfJson? true value)
  | .call => do
    let ⟨target, _⟩ ← r.get? "function"
    let target ← targetOfJson? target
    match r.get? "arguments" with
    | none => return .call target []
    | some ⟨arguments, _⟩ => return .call target (← exprListOfJson? arguments)
  | .lookup => do
    let ⟨container, _⟩ ← r.get? "from"
    let ⟨key, _⟩ ← r.get? "key"
    return .lookup (← exprOfJson? true container) (← exprOfJson? true key)
  | .property => do
    let ⟨receiver, _⟩ ← r.get? "of"
    let ⟨name, _⟩ ← r.get? "name"
    return .property (← exprOfJson? true receiver) (← name.asString?)
  | .contains => do
    let ⟨set, _⟩ ← r.get? "set"
    let ⟨value, _⟩ ← r.get? "value"
    return .contains (← exprOfJson? true set) (← exprOfJson? true value)
  | .new => do
    let ⟨model, _⟩ ← r.get? "model"
    return .new (← model.asString?)
  | .length => do
    let ⟨operand, _⟩ ← r.get? "of"
    return .length (← exprOfJson? true operand)
  | .unary => do
    let ⟨op, _⟩ ← r.get? "operator"
    let ⟨operand, _⟩ ← r.get? "value"
    return .unary (← operatorOfJson? op) (← exprOfJson? true operand)
  | .binary => do
    let ⟨op, _⟩ ← r.get? "operator"
    let ⟨left, _⟩ ← r.get? "left"
    let ⟨right, _⟩ ← r.get? "right"
    return .binary (← operatorOfJson? op) (← exprOfJson? true left) (← exprOfJson? true right)
  | .var => do
    let ⟨name, _⟩ ← r.get? "name"
    return .var (← name.asString?)
  | .self => some .self
  | .null => some .null
  | .pop => do
    let ⟨list, _⟩ ← r.get? "list"
    return .pop (← exprOfJson? true list)
termination_by sizeOf j
decreasing_by all_goals assumption

/-- A call target. -/
def targetOfJson? (j : Json) : Option Target := do
  let node : Node TargetKind j ← Node.ofJson? true j
  let r := node.record
  match node.kind with
  | .function => do
    let ⟨name, _⟩ ← r.get? "name"
    return .function (← name.asString?)
  | .method => do
    let ⟨receiver, _⟩ ← r.get? "of"
    let ⟨name, _⟩ ← r.get? "name"
    return .method (← exprOfJson? true receiver) (← name.asString?)
termination_by sizeOf j
decreasing_by all_goals assumption

/-- An array of expressions. -/
def exprListOfJson? : Json → Option (List Expr)
  | .array items => exprsOfJson? items
  | _ => none
termination_by j => sizeOf j

def exprsOfJson? : List Json → Option (List Expr)
  | [] => some []
  | j :: rest => do
    let e ← exprOfJson? true j
    let es ← exprsOfJson? rest
    return e :: es
termination_by js => sizeOf js

/-- An array of map entries. -/
def entryListOfJson? : Json → Option (List (Expr × Expr))
  | .array items => entriesOfJson? items
  | _ => none
termination_by j => sizeOf j

def entryOfJson? (j : Json) : Option (Expr × Expr) := do
  let r ← Record.ofJson? entryDeclared j
  let ⟨key, _⟩ ← r.get? "key"
  let ⟨value, _⟩ ← r.get? "value"
  return (← exprOfJson? true key, ← exprOfJson? true value)
termination_by sizeOf j
decreasing_by all_goals assumption

def entriesOfJson? : List Json → Option (List (Expr × Expr))
  | [] => some []
  | j :: rest => do
    let e ← entryOfJson? j
    let es ← entriesOfJson? rest
    return e :: es
termination_by js => sizeOf js

end

mutual

/-- A statement. -/
def stmtOfJson? (nested : Bool) (j : Json) : Option Stmt := do
  let node : Node StmtKind j ← Node.ofJson? nested j
  let r := node.record
  match node.kind with
  | .declare => do
    let ⟨name, _⟩ ← r.get? "name"
    let ⟨value, _⟩ ← r.get? "value"
    return .declare (← name.asString?) (← exprOfJson? true value)
  | .assign => do
    let ⟨place, _⟩ ← r.get? "to"
    let ⟨value, _⟩ ← r.get? "from"
    return .assign (← exprOfJson? true place) (← exprOfJson? true value)
  | .conditional => do
    let ⟨arms, _⟩ ← r.get? "ifs"
    let arms ← armListOfJson? arms
    match r.optional? "else_block" with
    | none => return .conditional arms none
    | some ⟨block, _⟩ => return .conditional arms (some (← blockOfJson? true block))
  | .forLoop => do
    let start ← match r.optional? "initialization" with
      | none => pure none
      | some ⟨s, _⟩ => some <$> stmtOfJson? true s
    let ⟨condition, _⟩ ← r.get? "condition"
    let after ← match r.optional? "after_each" with
      | none => pure none
      | some ⟨s, _⟩ => some <$> stmtOfJson? true s
    let ⟨body, _⟩ ← r.get? "block"
    return .forLoop start (← exprOfJson? true condition) after (← blockOfJson? true body)
  | .forEach => do
    let ⟨item, _⟩ ← r.get? "item_name"
    let ⟨iterable, _⟩ ← r.get? "iterable"
    let ⟨body, _⟩ ← r.get? "block"
    return .forEach (← item.asString?) (← exprOfJson? true iterable) (← blockOfJson? true body)
  | .ret =>
    match r.optional? "value" with
    | none => some (.ret none)
    | some ⟨value, _⟩ => do return .ret (some (← exprOfJson? true value))
  | .brk => some .brk
  | .cont => some .cont
  | .add => do
    let ⟨set, _⟩ ← r.get? "set"
    let ⟨value, _⟩ ← r.get? "value"
    return .add (← exprOfJson? true set) (← exprOfJson? true value)
  | .push => do
    let ⟨list, _⟩ ← r.get? "list"
    let ⟨value, _⟩ ← r.get? "value"
    return .push (← exprOfJson? true list) (← exprOfJson? true value)
  | .pop => do
    let ⟨list, _⟩ ← r.get? "list"
    return .pop (← exprOfJson? true list)
  | .call => do
    let ⟨target, _⟩ ← r.get? "function"
    let target ← targetOfJson? target
    match r.get? "arguments" with
    | none => return .call target []
    | some ⟨arguments, _⟩ => return .call target (← exprListOfJson? arguments)
termination_by sizeOf j
decreasing_by all_goals assumption

/-- A block of statements. -/
def blockOfJson? (nested : Bool) (j : Json) : Option Block := do
  let r ← Record.ofJson? blockDeclared j
  match r.get? "statements" with
  | none => some []
  | some ⟨statements, _⟩ => stmtListOfJson? nested statements
termination_by sizeOf j
decreasing_by all_goals assumption

/-- An array of statements. -/
def stmtListOfJson? (nested : Bool) : Json → Option (List Stmt)
  | .array items => stmtsOfJson? nested items
  | _ => none
termination_by j => sizeOf j

def stmtsOfJson? (nested : Bool) : List Json → Option (List Stmt)
  | [] => some []
  | j :: rest => do
    let s ← stmtOfJson? nested j
    let ss ← stmtsOfJson? nested rest
    return s :: ss
termination_by js => sizeOf js

/-- An array of conditional arms. -/
def armListOfJson? : Json → Option (List (Expr × Block))
  | .array items => armsOfJson? items
  | _ => none
termination_by j => sizeOf j

def armOfJson? (j : Json) : Option (Expr × Block) := do
  let r ← Record.ofJson? armDeclared j
  let ⟨condition, _⟩ ← r.get? "condition"
  let ⟨block, _⟩ ← r.get? "block"
  return (← exprOfJson? true condition, ← blockOfJson? true block)
termination_by sizeOf j
decreasing_by all_goals assumption

def armsOfJson? : List Json → Option (List (Expr × Block))
  | [] => some []
  | j :: rest => do
    let arm ← armOfJson? j
    let arms ← armsOfJson? rest
    return arm :: arms
termination_by js => sizeOf js

end

/-! ## Definitions -/

/-- A list that may be missing. -/
def listField? {j : Json} {α : Type} (r : Record j) (name : String) (read : Json → Option α) :
    Option (List α) :=
  match r.get? name with
  | none => some []
  | some ⟨.array items, _⟩ => items.mapM read
  | some _ => none

/-- A part that may be missing or null. -/
def optionField? {j : Json} {α : Type} (r : Record j) (name : String) (read : Json → Option α) :
    Option (Option α) :=
  match r.optional? name with
  | none => some none
  | some ⟨v, _⟩ => some <$> read v

/-- A field that has to be given. -/
def field? {j : Json} {α : Type} (r : Record j) (name : String) (read : Json → Option α) :
    Option α := do
  let ⟨v, _⟩ ← r.get? name
  read v

namespace Constant

def ofJson? (j : Json) : Option Constant := do
  let r ← Record.ofJson? declared j
  return { name := ← field? r "name" asString?, value := ← field? r "value" (exprOfJson? false) }

end Constant

namespace Parameter

def ofJson? (j : Json) : Option Parameter := do
  let r ← Record.ofJson? declared j
  return { name := ← field? r "name" asString?, type := ← field? r "type" (typeOfJson? false) }

end Parameter

namespace Function

def ofJson? (j : Json) : Option Function := do
  let r ← Record.ofJson? declared j
  return {
    name := ← field? r "name" asString?
    parameters := ← listField? r "arguments" Parameter.ofJson?
    returnType := ← field? r "return_type" (typeOfJson? false)
    body := ← field? r "block" (blockOfJson? false) }

end Function

namespace Field

def ofJson? (j : Json) : Option Field := do
  let r ← Record.ofJson? declared j
  return { name := ← field? r "name" asString?, type := ← field? r "type" (typeOfJson? false) }

end Field

namespace Equality

def ofJson? (j : Json) : Option Equality := do
  let r ← Record.ofJson? declared j
  return {
    other := ← field? r "other_name" asString?
    body := ← field? r "block" (blockOfJson? false) }

end Equality

/-- The hash a model defines for itself. -/
def hashingOfJson? (j : Json) : Option Block := do
  let r ← Record.ofJson? hashingDeclared j
  field? r "block" (blockOfJson? false)

namespace Model

def ofJson? (j : Json) : Option Model := do
  let r ← Record.ofJson? declared j
  return {
    name := ← field? r "name" asString?
    fields := ← listField? r "fields" Field.ofJson?
    methods := ← listField? r "methods" Function.ofJson?
    equality := ← optionField? r "equal_override" Equality.ofJson?
    hashing := ← optionField? r "hash_override" hashingOfJson? }

end Model

namespace Module

/-- A whole module. -/
def ofJson? (j : Json) : Option Module := do
  let r ← Record.ofJson? declared j
  return {
    name := ← field? r "name" asString?
    constants := ← listField? r "constants" Constant.ofJson?
    functions := ← listField? r "functions" Function.ofJson?
    models := ← listField? r "models" Model.ofJson? }

end Module

end Scribe.Syntax
