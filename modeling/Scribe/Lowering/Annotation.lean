import Scribe.Lowering.Error
import Scribe.Syntax.Basic

/-!
# Type annotations

An annotation becomes the type it spells. `void` stands alone: no value and no part of a type is
`void`.
-/

namespace Scribe.Lowering

open Scribe.Core
open Scribe.Syntax (TypeExpr)

/-- Requires a type that values can have. -/
def requireValueType (t : Ty) : Checked Ty :=
  if t.isVoid then .error (.typeMismatch "a value type" "void") else .ok t

/-- The model called `name`. -/
def resolveModel (p : Program) (name : String) : Checked ModelId :=
  match p.model? name with
  | some id => .ok id
  | none => .error (.nameNotFound name)

/-- The type that an annotation spells. -/
def lowerType (p : Program) : TypeExpr → Checked Ty
  | .bool => .ok .bool
  | .int => .ok .int
  | .rune => .ok .rune
  | .string => .ok .string
  | .void => .ok .void
  | .list item => do return .list (← requireValueType (← lowerType p item))
  | .set item => do return .set (← requireValueType (← lowerType p item))
  | .map key value => do
    let key ← requireValueType (← lowerType p key)
    let value ← requireValueType (← lowerType p value)
    return .map key value
  | .model name => do return .model (← resolveModel p name)

/-- The type that the annotation of a value spells. -/
def lowerValueType (p : Program) (t : TypeExpr) : Checked Ty := do
  requireValueType (← lowerType p t)

end Scribe.Lowering
