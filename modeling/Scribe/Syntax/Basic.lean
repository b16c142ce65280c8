import Scribe.Syntax.Operator

/-!
# Syntax trees

The untyped trees that programs are written in: nothing is resolved, names are strings, and types
are written the way a program spells them.

Blocks are lists of statements. A conditional is a chain of arms, each a condition and a block,
with an optional last block.
-/

namespace Scribe.Syntax

/-- A type annotation. -/
inductive TypeExpr where
  | bool
  | int
  | rune
  | string
  | list (item : TypeExpr)
  | map (key value : TypeExpr)
  | set (item : TypeExpr)
  | model (name : String)
  | void
  deriving DecidableEq, Repr

mutual

/-- An expression. -/
inductive Expr where
  | bool (value : Bool)
  | int (value : Int64)
  | rune (value : Char)
  | string (value : String)
  | list (items : List Expr)
  | map (entries : List (Expr × Expr))
  | set (items : List Expr)
  /-- An empty list with its element type. -/
  | emptyList (item : TypeExpr)
  | emptySet (item : TypeExpr)
  | emptyMap (key value : TypeExpr)
  | call (target : Target) (arguments : List Expr)
  /-- An element by index or key. -/
  | lookup (container key : Expr)
  /-- A field of an instance. -/
  | property (receiver : Expr) (name : String)
  /-- Whether a set has an element. -/
  | contains (set value : Expr)
  /-- A fresh instance of a model. -/
  | new (model : String)
  | length (operand : Expr)
  | unary (op : UnaryOp) (operand : Expr)
  | binary (op : BinaryOp) (left right : Expr)
  | var (name : String)
  /-- The receiver of a method or override. -/
  | self
  | null
  /-- Removes the last element of a list and yields it. -/
  | pop (list : Expr)

/-- What a call invokes. -/
inductive Target where
  | function (name : String)
  /-- A method of a model, or one of the operations built into containers. -/
  | method (receiver : Expr) (name : String)

end

/-- A statement. -/
inductive Stmt where
  | declare (name : String) (value : Expr)
  | assign (place value : Expr)
  | conditional (arms : List (Expr × List Stmt)) (otherwise : Option (List Stmt))
  | forLoop (start : Option Stmt) (condition : Expr) (after : Option Stmt) (body : List Stmt)
  | forEach (item : String) (iterable : Expr) (body : List Stmt)
  | ret (value : Option Expr)
  | brk
  | cont
  | add (set value : Expr)
  | push (list value : Expr)
  | pop (list : Expr)
  | call (target : Target) (arguments : List Expr)

/-- An ordered list of statements. -/
abbrev Block := List Stmt

/-- A module constant. -/
structure Constant where
  name : String
  value : Expr

/-- A parameter of a function or method. -/
structure Parameter where
  name : String
  type : TypeExpr
  deriving DecidableEq, Repr

/-- A free function or a method. -/
structure Function where
  name : String
  parameters : List Parameter
  returnType : TypeExpr
  body : Block

/-- A field of a model. -/
structure Field where
  name : String
  type : TypeExpr
  deriving DecidableEq, Repr

/-- The equality a model defines for itself; the body sees the receiver as `self` and the compared
instance under a name of its own. -/
structure Equality where
  other : String
  body : Block

/-- A model: a record with methods. -/
structure Model where
  name : String
  fields : List Field
  methods : List Function
  equality : Option Equality
  /-- The body of the hash a model defines for itself. -/
  hashing : Option Block

/-- A compilation unit. -/
structure Module where
  name : String
  constants : List Constant
  functions : List Function
  models : List Model

namespace Expr

def isNull : Expr → Bool
  | null => true
  | _ => false

end Expr

end Scribe.Syntax
