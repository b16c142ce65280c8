import Scribe.Json.Record
import Scribe.Syntax.Basic

/-!
# Kinds of syntax nodes

The tag of every kind of node in JSON, and the fields of its record in the order of their
declaration. The order of the kinds themselves counts too: inside another node a kind may be given
by its position.
-/

namespace Scribe.Syntax

open Scribe.Json

/-- Kinds of type annotations. -/
inductive TypeKind where
  | bool | int | rune | string | list | map | set | model | void
  deriving DecidableEq, Repr

/-- Kinds of expressions. -/
inductive ExprKind where
  | bool | int | rune | string | list | map | set | emptyList | emptySet | emptyMap | call | lookup
  | property | contains | new | length | unary | binary | var | self | null | pop
  deriving DecidableEq, Repr

/-- Kinds of call targets. -/
inductive TargetKind where
  | function | method
  deriving DecidableEq, Repr

/-- Kinds of statements. -/
inductive StmtKind where
  | declare | assign | conditional | forLoop | forEach | ret | brk | cont | add | push | pop | call
  deriving DecidableEq, Repr

instance : Tagged TypeKind where
  all := [.bool, .int, .rune, .string, .list, .map, .set, .model, .void]
  tag
    | .bool => "bool"
    | .int => "int"
    | .rune => "rune"
    | .string => "string"
    | .list => "list"
    | .map => "map"
    | .set => "set"
    | .model => "model"
    | .void => "void"
  fields
    | .list | .set => ["item"]
    | .map => ["key", "value"]
    | .model => ["name"]
    | .bool | .int | .rune | .string | .void => []

instance : Tagged ExprKind where
  all := [.bool, .int, .rune, .string, .list, .map, .set, .emptyList, .emptySet, .emptyMap, .call,
    .lookup, .property, .contains, .new, .length, .unary, .binary, .var, .self, .null, .pop]
  tag
    | .bool => "literal_bool"
    | .int => "literal_int"
    | .rune => "literal_rune"
    | .string => "literal_string"
    | .list => "literal_list"
    | .map => "literal_map"
    | .set => "literal_set"
    | .emptyList => "empty_list"
    | .emptySet => "empty_set"
    | .emptyMap => "empty_map"
    | .call => "call"
    | .lookup => "lookup"
    | .property => "property"
    | .contains => "set_contains"
    | .new => "new"
    | .length => "length"
    | .unary => "unary"
    | .binary => "binary"
    | .var => "variable"
    | .self => "self_ref"
    | .null => "null"
    | .pop => "pop"
  fields
    | .bool | .int | .rune | .string => ["value"]
    | .list | .set => ["items"]
    | .map => ["entries"]
    | .emptyList | .emptySet => ["item"]
    | .emptyMap => ["key", "value"]
    | .call => ["function", "arguments"]
    | .lookup => ["from", "key"]
    | .property => ["of", "name"]
    | .contains => ["set", "value"]
    | .new => ["model"]
    | .length => ["of"]
    | .unary => ["operator", "value"]
    | .binary => ["operator", "left", "right"]
    | .var => ["name"]
    | .self | .null => []
    | .pop => ["list"]

instance : Tagged TargetKind where
  all := [.function, .method]
  tag
    | .function => "function"
    | .method => "property"
  fields
    | .function => ["name"]
    | .method => ["of", "name"]

instance : Tagged StmtKind where
  all := [.declare, .assign, .conditional, .forLoop, .forEach, .ret, .brk, .cont, .add, .push,
    .pop, .call]
  tag
    | .declare => "declare"
    | .assign => "assign"
    | .conditional => "conditional"
    | .forLoop => "for"
    | .forEach => "for_each"
    | .ret => "return"
    | .brk => "break"
    | .cont => "continue"
    | .add => "add_to_set"
    | .push => "push"
    | .pop => "pop"
    | .call => "call"
  fields
    | .declare => ["name", "value"]
    | .assign => ["to", "from"]
    | .conditional => ["ifs", "else_block"]
    | .forLoop => ["initialization", "condition", "after_each", "block"]
    | .forEach => ["item_name", "iterable", "block"]
    | .ret => ["value"]
    | .brk | .cont => []
    | .add => ["set", "value"]
    | .push => ["list", "value"]
    | .pop => ["list"]
    | .call => ["function", "arguments"]

instance : Tagged UnaryOp where
  all := [.not, .negate, .castToInt, .castToString, .hash]
  tag
    | .not => "not"
    | .negate => "negate"
    | .castToInt => "cast_to_int"
    | .castToString => "cast_to_string"
    | .hash => "hash"
  fields _ := []

instance : Tagged BinaryOp where
  all := [.equals, .notEqual, .lessThan, .lessThanOrEqual, .greaterThan, .greaterThanOrEqual, .add,
    .subtract, .multiply, .divide, .modulo, .and, .or]
  tag
    | .equals => "equals"
    | .notEqual => "not_equal"
    | .lessThan => "less_than"
    | .lessThanOrEqual => "less_than_or_equal"
    | .greaterThan => "greater_than"
    | .greaterThanOrEqual => "greater_than_or_equal"
    | .add => "add"
    | .subtract => "subtract"
    | .multiply => "multiply"
    | .divide => "divide"
    | .modulo => "modulo"
    | .and => "and"
    | .or => "or"
  fields _ := []

/-! ## Fields of the plain records -/

def Constant.declared : List String := ["name", "value"]

def Parameter.declared : List String := ["name", "type"]

def Function.declared : List String := ["name", "arguments", "return_type", "block"]

def Field.declared : List String := ["name", "type"]

def Equality.declared : List String := ["other_name", "block"]

/-- The fields of the record of a hash override. -/
def hashingDeclared : List String := ["block"]

/-- The fields of the record of a block. -/
def blockDeclared : List String := ["statements"]

/-- The fields of the record of a conditional arm. -/
def armDeclared : List String := ["condition", "block"]

/-- The fields of the record of a map entry. -/
def entryDeclared : List String := ["key", "value"]

def Model.declared : List String :=
  ["name", "fields", "methods", "equal_override", "hash_override"]

def Module.declared : List String := ["name", "constants", "functions", "models"]

end Scribe.Syntax
