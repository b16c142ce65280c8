import Scribe.Core.Build

/-!
# Lowering errors

The first problem found in a module, as its cause. `LowerError.message` gives the wording and
`LowerError.kind` the cause without its details.
-/

namespace Scribe.Lowering

/-- The rule that a name breaks. -/
inductive NameRule where
  | notEmpty
  | lettersOnly
  | uppercaseFirst
  | lowercaseFirst
  | noDigitFirst
  | identifierOnly
  deriving DecidableEq, Repr

namespace NameRule

def message : NameRule → String
  | .notEmpty => "name is empty"
  | .lettersOnly => "only ascii letters are allowed"
  | .uppercaseFirst => "must start with an uppercase letter"
  | .lowercaseFirst => "must start with a lowercase letter"
  | .noDigitFirst => "must not start with a digit"
  | .identifierOnly => "only ascii letters, digits and `_` are allowed"

end NameRule

/-- The elements of a literal that have to share a type. -/
inductive LiteralPart where
  | list | set | mapKey | mapValue
  deriving DecidableEq, Repr

namespace LiteralPart

def name : LiteralPart → String
  | .list => "list"
  | .set => "set"
  | .mapKey => "map key"
  | .mapValue => "map value"

end LiteralPart

/-- Why a literal has no type. -/
inductive LiteralCause where
  | empty (part : LiteralPart)
  | mixed (part : LiteralPart) (expected found : String)
  deriving DecidableEq, Repr

namespace LiteralCause

def message : LiteralCause → String
  | .empty part => "empty " ++ part.name ++ " literal"
  | .mixed part expected found => part.name ++ " mixes " ++ expected ++ " and " ++ found

end LiteralCause

/-- What cannot be assigned to. -/
inductive AssignmentCause where
  | constant (name : String)
  | stringIndex
  | notPlace
  deriving DecidableEq, Repr

namespace AssignmentCause

def message : AssignmentCause → String
  | .constant name => "constant " ++ name
  | .stringIndex => "a string index"
  | .notPlace => "a value that is not a variable, field or element"

end AssignmentCause

/-- A shape that a module should not have. -/
inductive StructuralCause where
  | returnOutsideCallable
  | equalityWithoutSkeleton
  | hashingWithoutSkeleton
  | emptyConditional
  | declarationOutsideBlock (name : String)
  | tooManyDeferred (limit : Nat)
  /-- An id or an index that names no definition. -/
  | dangling
  deriving DecidableEq, Repr

namespace StructuralCause

def message : StructuralCause → String
  | .returnOutsideCallable => "return outside of a callable"
  | .equalityWithoutSkeleton => "equality override body without a skeleton"
  | .hashingWithoutSkeleton => "hash override body without a skeleton"
  | .emptyConditional => "conditional without an if arm"
  | .declarationOutsideBlock name => "declaration of " ++ name ++ " outside a block"
  | .tooManyDeferred limit => "more than " ++ toString limit ++ " deferred continuations"
  | .dangling => "dangling reference"

end StructuralCause

/-- Why a module is refused. Types are given by their texts. -/
inductive LowerError where
  | nameNotFound (name : String)
  | duplicateDefinition (name : String)
  | invalidName (name : String) (rule : NameRule)
  | typeMismatch (expected found : String)
  | unsupportedOperator (operator operand : String)
  | invalidLookup (type : String)
  | unknownMethod (model method : String)
  | heterogeneousLiteral (cause : LiteralCause)
  | conditionNotBoolean (found : String)
  | returnTypeMismatch (expected found : String)
  | missingTerminalReturn (callable : String)
  | structural (cause : StructuralCause)
  | invalidConstant (name : String)
  | invalidNull
  | invalidAssignment (cause : AssignmentCause)
  | argumentCountMismatch (function : String) (expected found : Nat)
  | selfOutsideModel
  | loopControlOutsideLoop
  deriving DecidableEq, Repr

/-- Kinds of lowering errors. -/
inductive ErrorKind where
  | nameNotFound | duplicateDefinition | invalidName | typeMismatch | unsupportedOperator
  | invalidLookup | unknownMethod | heterogeneousLiteral | conditionNotBoolean
  | returnTypeMismatch | missingTerminalReturn | structural | invalidConstant | invalidNull
  | invalidAssignment | argumentCountMismatch | selfOutsideModel | loopControlOutsideLoop
  deriving DecidableEq, Repr

namespace LowerError

/-- The kind of an error. -/
def kind : LowerError → ErrorKind
  | .nameNotFound _ => .nameNotFound
  | .duplicateDefinition _ => .duplicateDefinition
  | .invalidName .. => .invalidName
  | .typeMismatch .. => .typeMismatch
  | .unsupportedOperator .. => .unsupportedOperator
  | .invalidLookup _ => .invalidLookup
  | .unknownMethod .. => .unknownMethod
  | .heterogeneousLiteral _ => .heterogeneousLiteral
  | .conditionNotBoolean _ => .conditionNotBoolean
  | .returnTypeMismatch .. => .returnTypeMismatch
  | .missingTerminalReturn _ => .missingTerminalReturn
  | .structural _ => .structural
  | .invalidConstant _ => .invalidConstant
  | .invalidNull => .invalidNull
  | .invalidAssignment _ => .invalidAssignment
  | .argumentCountMismatch .. => .argumentCountMismatch
  | .selfOutsideModel => .selfOutsideModel
  | .loopControlOutsideLoop => .loopControlOutsideLoop

/-- The wording of an error. -/
def message : LowerError → String
  | .nameNotFound name => "name not found: " ++ name
  | .duplicateDefinition name => "duplicate definition: " ++ name
  | .invalidName name rule => "invalid name `" ++ name ++ "`: " ++ rule.message
  | .typeMismatch expected found => "type mismatch: expected " ++ expected ++ ", found " ++ found
  | .unsupportedOperator operator operand =>
    "unsupported operator `" ++ operator ++ "` for " ++ operand
  | .invalidLookup type => "cannot index into " ++ type
  | .unknownMethod model method => "model " ++ model ++ " has no method " ++ method
  | .heterogeneousLiteral cause => "cannot infer literal type: " ++ cause.message
  | .conditionNotBoolean found => "condition must be bool, found " ++ found
  | .returnTypeMismatch expected found =>
    "return type mismatch: expected " ++ expected ++ ", found " ++ found
  | .missingTerminalReturn callable => "missing return at end of " ++ callable
  | .structural cause => "structural error: " ++ cause.message
  | .invalidConstant name =>
    "constant " ++ name ++ " must be built from literals and earlier constants"
  | .invalidNull => "null is only allowed where its type is known"
  | .invalidAssignment cause => "cannot assign to " ++ cause.message
  | .argumentCountMismatch function expected found =>
    function ++ " expects " ++ toString expected ++ " arguments, found " ++ toString found
  | .selfOutsideModel => "self used outside of a model"
  | .loopControlOutsideLoop => "loop control outside of a loop"

/-- A refused declaration, as an error of lowering. -/
def ofBuild : Core.BuildError → LowerError
  | .duplicate name => .duplicateDefinition name
  | .unknownModel _ => .structural .dangling

end LowerError

/-- What a check gives: a result or the first error. -/
abbrev Checked := Except LowerError

/-- The definition behind an id. -/
def Checked.ofOption {α : Type} : Option α → Checked α
  | some a => .ok a
  | none => .error (.structural .dangling)

end Scribe.Lowering
