import Scribe.Core.Ty
import Scribe.Syntax.Operator

/-!
# Core expressions and statements

Every name is resolved to an id, and every node carries what was found out about it when it was
checked: the type of a variable, the container a lookup indexes, the type a call returns.
-/

namespace Scribe.Core

/-- What a variable refers to. -/
inductive Definition where
  | constant (id : ConstantId)
  | argument (function : FunctionId) (index : Nat)
  /-- A field of the enclosing model, read from the receiver. -/
  | field (model : ModelId) (index : Nat)
  | binding (id : LocalId)
  deriving DecidableEq, Repr

/-- What a `return` leaves. -/
inductive Callable where
  | function (id : FunctionId)
  | equality (model : ModelId)
  | hashing (model : ModelId)
  deriving DecidableEq, Repr

/-- What a lookup indexes. -/
inductive LookupKind where
  | list | map | string
  deriving DecidableEq, Repr

/-- What a length measures. -/
inductive LengthKind where
  | string | list | map | set
  deriving DecidableEq, Repr

/-- What a for-each walks over. -/
inductive IterableKind where
  | list | set
  deriving DecidableEq, Repr

/-- A field of a model. -/
structure FieldRef where
  model : ModelId
  index : Nat
  deriving DecidableEq, Repr

/-- Expressions. -/
inductive Expr where
  | bool (value : Bool)
  | int (value : Int64)
  | rune (value : Char)
  | string (value : String)
  | list (items : List Expr) (item : Ty)
  | map (entries : List (Expr × Expr)) (key value : Ty)
  | set (items : List Expr) (item : Ty)
  | emptyList (item : Ty)
  | emptySet (item : Ty)
  | emptyMap (key value : Ty)
  /-- A call has a receiver exactly when it calls a method. -/
  | call (receiver : Option Expr) (arguments : List Expr) (function : FunctionId) (returnType : Ty)
  | lookup (container key : Expr) (kind : LookupKind) (output : Ty)
  | property (receiver : Expr) (field : FieldRef) (output : Ty)
  | contains (set value : Expr)
  | new (model : ModelId)
  | length (operand : Expr) (kind : LengthKind)
  | unary (op : UnaryOp) (operand : Expr) (output : Primitive)
  | binary (op : BinaryOp) (left right : Expr) (output : Primitive)
  | var (definition : Definition) (output : Ty)
  | self (model : ModelId)
  /-- The null of a type that its surroundings fix. -/
  | null (output : Ty)
  /-- Removes the last element and gives it. -/
  | pop (list : Expr) (item : Ty)

/-- Whether an expression is the literal `null`. -/
def Expr.isNull : Expr → Bool
  | .null _ => true
  | _ => false

/-- Statements. A block is a list of them. -/
inductive Stmt where
  | declare (binding : LocalId) (value : Expr)
  | assign (place value : Expr)
  | conditional (arms : List (Expr × List Stmt)) (otherwise : Option (List Stmt))
  | forLoop (start : Option Stmt) (condition : Expr) (after : Option Stmt) (body : List Stmt)
  | forEach (item : LocalId) (iterable : Expr) (kind : IterableKind) (itemType : Ty)
    (body : List Stmt)
  | ret (value : Option Expr) (callable : Callable)
  | brk
  | cont
  | add (set value : Expr)
  | push (list value : Expr)
  | pop (list : Expr)
  | call (receiver : Option Expr) (arguments : List Expr) (function : FunctionId) (returnType : Ty)

abbrev Block := List Stmt

/-- Whether a statement is a `return`. -/
def Stmt.isReturn : Stmt → Bool
  | .ret .. => true
  | _ => false

end Scribe.Core
