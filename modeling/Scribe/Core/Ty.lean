/-!
# Types of the core language

Definitions of a program are named by ids, positions in the tables of the program. Each kind of
definition has its own kind of id. A model type names its model by id, so two model types are equal
exactly when they name the same model.
-/

namespace Scribe.Core

structure ConstantId where
  index : Nat
  deriving DecidableEq, Repr

structure FunctionId where
  index : Nat
  deriving DecidableEq, Repr

structure ModelId where
  index : Nat
  deriving DecidableEq, Repr

structure LocalId where
  index : Nat
  deriving DecidableEq, Repr

/-- Primitive types. `void` is the type of a call that gives no value. -/
inductive Primitive where
  | bool | int | rune | string | void
  deriving DecidableEq, Repr

namespace Primitive

/-- The word for a primitive type. -/
def name : Primitive → String
  | .bool => "bool"
  | .int => "int"
  | .rune => "rune"
  | .string => "string"
  | .void => "void"

end Primitive

/-- Types. -/
inductive Ty where
  | primitive (p : Primitive)
  | list (item : Ty)
  | map (key value : Ty)
  | set (item : Ty)
  | model (id : ModelId)
  deriving DecidableEq, Repr

namespace Ty

abbrev bool : Ty := .primitive .bool

abbrev int : Ty := .primitive .int

abbrev rune : Ty := .primitive .rune

abbrev string : Ty := .primitive .string

abbrev void : Ty := .primitive .void

/-- Whether a type is `void` itself. -/
def isVoid : Ty → Bool
  | .primitive .void => true
  | _ => false

@[simp] theorem isVoid_iff {t : Ty} : t.isVoid = true ↔ t = .void := by
  cases t with
  | primitive p => cases p <;> simp [isVoid]
  | _ => simp [isVoid]

end Ty

end Scribe.Core
