/-!
# Signed 64-bit integers as text

An integer is an optional sign followed by at least one decimal digit; leading zeros are fine. The
digits are read from the left, and the first fault met decides the error: a character that is no
digit, or a digit that carries the value out of range.
-/

namespace Scribe.Text

/-- Why a text is no signed 64-bit integer. -/
inductive IntegerError where
  | empty
  | invalidDigit
  | tooLarge
  | tooSmall
  deriving DecidableEq, Repr

namespace IntegerError

/-- Wording of an integer error. -/
def message : IntegerError → String
  | empty => "cannot parse integer from empty string"
  | invalidDigit => "invalid digit found in string"
  | tooLarge => "number too large to fit in target type"
  | tooSmall => "number too small to fit in target type"

end IntegerError

/-- The value of a decimal digit. -/
def digitValue? (c : Char) : Option Nat :=
  if '0' ≤ c ∧ c ≤ '9' then some (c.toNat - '0'.toNat) else none

/-- Whether an integer fits into 64 bits with a sign. -/
def fitsInt64 (n : Int) : Bool :=
  -9223372036854775808 ≤ n && n ≤ 9223372036854775807

/-- Appends one digit to a value whose digits so far are `n`. -/
def pushDigit (negative : Bool) (n : Int) (c : Char) : Except IntegerError Int :=
  match digitValue? c with
  | none => .error .invalidDigit
  | some d =>
    let next := if negative then n * 10 - d else n * 10 + d
    if fitsInt64 next then .ok next
    else .error (if negative then .tooSmall else .tooLarge)

/-- Reads the digits that follow a sign; there has to be one. -/
def readDigits (negative : Bool) : List Char → Except IntegerError Int
  | [] => .error .invalidDigit
  | cs => cs.foldlM (pushDigit negative) 0

/-- Reads an optional sign and its digits. -/
def readInteger (text : String) : Except IntegerError Int64 :=
  Int64.ofInt <$>
    match text.toList with
    | [] => .error .empty
    | '-' :: cs => readDigits true cs
    | '+' :: cs => readDigits false cs
    | cs => readDigits false cs

end Scribe.Text
