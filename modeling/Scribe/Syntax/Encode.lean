import Scribe.Syntax.Kind

/-!
# Syntax trees to JSON

Every field is written, also one that has its default: an empty list as `[]` and a missing part as
`null`.
-/

namespace Scribe.Syntax

open Scribe.Json (node)

/-- A type annotation. -/
def TypeExpr.toJson : TypeExpr → Json
  | .bool => node TypeKind.bool []
  | .int => node TypeKind.int []
  | .rune => node TypeKind.rune []
  | .string => node TypeKind.string []
  | .list item => node TypeKind.list [("item", item.toJson)]
  | .map key value => node TypeKind.map [("key", key.toJson), ("value", value.toJson)]
  | .set item => node TypeKind.set [("item", item.toJson)]
  | .model name => node TypeKind.model [("name", .string name)]
  | .void => node TypeKind.void []

/-- An operator, as its tag. -/
def operatorToJson {κ : Type} [Json.Tagged κ] (op : κ) : Json :=
  .string (Json.Tagged.tag op)

mutual

/-- An expression. -/
def Expr.toJson : Expr → Json
  | .bool value => node ExprKind.bool [("value", .bool value)]
  | .int value => node ExprKind.int [("value", .int value.toInt)]
  | .rune value => node ExprKind.rune [("value", .string (String.singleton value))]
  | .string value => node ExprKind.string [("value", .string value)]
  | .list items => node ExprKind.list [("items", .array (exprsToJson items))]
  | .map entries => node ExprKind.map [("entries", .array (entriesToJson entries))]
  | .set items => node ExprKind.set [("items", .array (exprsToJson items))]
  | .emptyList item => node ExprKind.emptyList [("item", item.toJson)]
  | .emptySet item => node ExprKind.emptySet [("item", item.toJson)]
  | .emptyMap key value =>
    node ExprKind.emptyMap [("key", key.toJson), ("value", value.toJson)]
  | .call target arguments =>
    node ExprKind.call [("function", target.toJson), ("arguments", .array (exprsToJson arguments))]
  | .lookup container key =>
    node ExprKind.lookup [("from", container.toJson), ("key", key.toJson)]
  | .property receiver name =>
    node ExprKind.property [("of", receiver.toJson), ("name", .string name)]
  | .contains set value => node ExprKind.contains [("set", set.toJson), ("value", value.toJson)]
  | .new model => node ExprKind.new [("model", .string model)]
  | .length operand => node ExprKind.length [("of", operand.toJson)]
  | .unary op operand =>
    node ExprKind.unary [("operator", operatorToJson op), ("value", operand.toJson)]
  | .binary op left right =>
    node ExprKind.binary
      [("operator", operatorToJson op), ("left", left.toJson), ("right", right.toJson)]
  | .var name => node ExprKind.var [("name", .string name)]
  | .self => node ExprKind.self []
  | .null => node ExprKind.null []
  | .pop list => node ExprKind.pop [("list", list.toJson)]

/-- A call target. -/
def Target.toJson : Target → Json
  | .function name => node TargetKind.function [("name", .string name)]
  | .method receiver name =>
    node TargetKind.method [("of", receiver.toJson), ("name", .string name)]

def exprsToJson : List Expr → List Json
  | [] => []
  | e :: rest => e.toJson :: exprsToJson rest

def entriesToJson : List (Expr × Expr) → List Json
  | [] => []
  | (key, value) :: rest =>
    .object [("key", key.toJson), ("value", value.toJson)] :: entriesToJson rest

end

mutual

/-- A statement. -/
def Stmt.toJson : Stmt → Json
  | .declare name value =>
    node StmtKind.declare [("name", .string name), ("value", value.toJson)]
  | .assign place value => node StmtKind.assign [("to", place.toJson), ("from", value.toJson)]
  | .conditional arms otherwise =>
    node StmtKind.conditional
      [("ifs", .array (armsToJson arms)), ("else_block", otherwiseToJson otherwise)]
  | .forLoop start condition after body =>
    node StmtKind.forLoop
      [("initialization", partToJson start), ("condition", condition.toJson),
        ("after_each", partToJson after),
        ("block", .object [("statements", .array (stmtsToJson body))])]
  | .forEach item iterable body =>
    node StmtKind.forEach
      [("item_name", .string item), ("iterable", iterable.toJson),
        ("block", .object [("statements", .array (stmtsToJson body))])]
  | .ret none => node StmtKind.ret [("value", .null)]
  | .ret (some value) => node StmtKind.ret [("value", value.toJson)]
  | .brk => node StmtKind.brk []
  | .cont => node StmtKind.cont []
  | .add set value => node StmtKind.add [("set", set.toJson), ("value", value.toJson)]
  | .push list value => node StmtKind.push [("list", list.toJson), ("value", value.toJson)]
  | .pop list => node StmtKind.pop [("list", list.toJson)]
  | .call target arguments =>
    node StmtKind.call [("function", target.toJson), ("arguments", .array (exprsToJson arguments))]

def stmtsToJson : List Stmt → List Json
  | [] => []
  | s :: rest => s.toJson :: stmtsToJson rest

/-- An optional statement. -/
def partToJson : Option Stmt → Json
  | none => .null
  | some s => s.toJson

/-- An optional block. -/
def otherwiseToJson : Option (List Stmt) → Json
  | none => .null
  | some block => .object [("statements", .array (stmtsToJson block))]

def armsToJson : List (Expr × List Stmt) → List Json
  | [] => []
  | (condition, block) :: rest =>
    .object [("condition", condition.toJson),
      ("block", .object [("statements", .array (stmtsToJson block))])] :: armsToJson rest

end

/-- A block of statements. -/
def blockToJson (block : Block) : Json :=
  .object [("statements", .array (stmtsToJson block))]

namespace Constant

def toJson (c : Constant) : Json :=
  .object [("name", .string c.name), ("value", c.value.toJson)]

end Constant

namespace Parameter

def toJson (p : Parameter) : Json :=
  .object [("name", .string p.name), ("type", p.type.toJson)]

end Parameter

namespace Function

def toJson (f : Function) : Json :=
  .object [("name", .string f.name), ("arguments", .array (f.parameters.map Parameter.toJson)),
    ("return_type", f.returnType.toJson), ("block", blockToJson f.body)]

end Function

namespace Field

def toJson (f : Field) : Json :=
  .object [("name", .string f.name), ("type", f.type.toJson)]

end Field

namespace Equality

def toJson (e : Equality) : Json :=
  .object [("other_name", .string e.other), ("block", blockToJson e.body)]

end Equality

/-- The hash a model defines for itself. -/
def hashingToJson (body : Block) : Json :=
  .object [("block", blockToJson body)]

namespace Model

def toJson (m : Model) : Json :=
  .object [("name", .string m.name), ("fields", .array (m.fields.map Field.toJson)),
    ("methods", .array (m.methods.map Function.toJson)),
    ("equal_override", (m.equality.map Equality.toJson).getD .null),
    ("hash_override", (m.hashing.map hashingToJson).getD .null)]

end Model

namespace Module

/-- A whole module. -/
def toJson (m : Module) : Json :=
  .object [("name", .string m.name), ("constants", .array (m.constants.map Constant.toJson)),
    ("functions", .array (m.functions.map Function.toJson)),
    ("models", .array (m.models.map Model.toJson))]

end Module

end Scribe.Syntax
