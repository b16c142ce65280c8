import Scribe.Machine.Value

/-!
# Faults

Why a run stops without a value, as its cause. `Fault.message` gives the wording.
-/

namespace Scribe.Machine

/-- An operation that makes no sense where it stands. -/
inductive OperationCause where
  | noActiveFrame
  | receiverNotInstance
  | selfOutsideModel
  | argumentOutOfRange
  | fieldOutOfRange
  | constantUninitialized (name : String)
  | localUnset (name : String)
  | assignToConstant
  | assignToNonPlace
  | lengthOverflow
  | loopControlEscaped (callable : String)
  | cannotApply (operator kind : String)
  | notARune (code : Int64)
  deriving DecidableEq, Repr

namespace OperationCause

def message : OperationCause → String
  | .noActiveFrame => "no active frame"
  | .receiverNotInstance => "receiver is not an instance"
  | .selfOutsideModel => "`self` outside of a model"
  | .argumentOutOfRange => "argument out of range"
  | .fieldOutOfRange => "field out of range"
  | .constantUninitialized name => "constant `" ++ name ++ "` read before it was initialized"
  | .localUnset name => "local `" ++ name ++ "` read before it was set"
  | .assignToConstant => "assignment to a constant"
  | .assignToNonPlace => "assignment to a non-place value"
  | .lengthOverflow => "length overflows int"
  | .loopControlEscaped callable => "loop control escaped `" ++ callable ++ "`"
  | .cannotApply operator kind => "cannot apply `" ++ operator ++ "` to " ++ kind
  | .notARune code => toString code.toInt ++ " is not a valid rune"

end OperationCause

/-- Why a run fails. -/
inductive Fault where
  | unknownEntry (name : String)
  | argumentMismatch (function : String) (expected got : Nat)
  | typeMismatch (expected got : String)
  | divisionByZero
  | indexOutOfBounds (index : Int64) (length : Nat)
  | missingKey (key : String)
  | popFromEmptyList
  | nullDereference
  | invalidOperation (cause : OperationCause)
  deriving DecidableEq, Repr

namespace Fault

/-- The wording of a fault. -/
def message : Fault → String
  | .unknownEntry name => "no function named `" ++ name ++ "`"
  | .argumentMismatch function expected got =>
    "`" ++ function ++ "` expects " ++ toString expected ++ " argument(s), got " ++ toString got
  | .typeMismatch expected got => "type mismatch: expected " ++ expected ++ ", got " ++ got
  | .divisionByZero => "division by zero"
  | .indexOutOfBounds index length =>
    "index " ++ toString index.toInt ++ " out of bounds for length " ++ toString length
  | .missingKey key => "key " ++ key ++ " not found"
  | .popFromEmptyList => "pop from an empty list"
  | .nullDereference => "null dereference"
  | .invalidOperation cause => "invalid operation: " ++ cause.message

end Fault

/-- Why a run stops without a value. -/
inductive Stop where
  | fault (f : Fault)
  /-- The run would go on for longer than it was allowed to. -/
  | exhausted
  /-- A lookup in a map missed a key that contains itself. The fault would name the key, and writing
  the key out has no end. -/
  | endless (map : Address) (key : Value)
  /-- An id of the program names no definition. -/
  | dangling
  deriving DecidableEq, Repr

end Scribe.Machine
