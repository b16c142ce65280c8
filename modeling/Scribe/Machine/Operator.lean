import Scribe.Machine.Fault
import Scribe.Machine.Value
import Scribe.Syntax.Operator

/-!
# Operators on values

Integers have 64 bits and wrap around. Runes compute with their code points and have to come out
as runes again. Division goes toward zero.
-/

namespace Scribe.Machine

/-- The fault of a value of the wrong kind. -/
def notA (expected : String) (got : Value) : Fault :=
  .typeMismatch expected got.kind

/-- The quotient, toward zero. -/
def divide (l r : Int64) : Except Fault Int64 :=
  if r = 0 then .error .divisionByZero else .ok (l / r)

/-- The remainder, with the sign of the dividend. -/
def remainder (l r : Int64) : Except Fault Int64 :=
  if r = 0 then .error .divisionByZero else .ok (l % r)

/-- The code point of a rune. -/
def runeCode (c : Char) : Int64 :=
  Int64.ofNat c.toNat

/-- The rune with a code point. -/
def toRune (code : Int64) : Except Fault Value :=
  let n := code.toInt
  if 0 ≤ n ∧ n.toNat.isValidChar then .ok (.rune (Char.ofNat n.toNat))
  else .error (.invalidOperation (.notARune code))

/-- The operator is not defined on values of this kind. -/
def unsupported {α : Type} (op : String) (kind : String) : Except Fault α :=
  .error (.invalidOperation (.cannotApply op kind))

/-- Arithmetic; `none` for other operators. -/
def arithmetic? (op : BinaryOp) (l r : Int64) : Option (Except Fault Int64) :=
  match op with
  | .add => some (.ok (l + r))
  | .subtract => some (.ok (l - r))
  | .multiply => some (.ok (l * r))
  | .divide => some (divide l r)
  | .modulo => some (remainder l r)
  | _ => none

/-- Comparison; `none` for other operators. -/
def comparison? (op : BinaryOp) (l r : Int64) : Option Bool :=
  match op with
  | .lessThan => some (decide (l < r))
  | .lessThanOrEqual => some (decide (l ≤ r))
  | .greaterThan => some (decide (r < l))
  | .greaterThanOrEqual => some (decide (r ≤ l))
  | _ => none

/-- Arithmetic and comparison; `wrap` makes a value of a number. -/
def numeric (op : BinaryOp) (kind : String) (wrap : Int64 → Except Fault Value) (l r : Int64) :
    Except Fault Value :=
  match arithmetic? op l r, comparison? op l r with
  | some result, _ => result.bind wrap
  | none, some answer => .ok (.bool answer)
  | none, none => unsupported op.symbol kind

/-- Binary operators other than equality. -/
def applyBinary (op : BinaryOp) (left right : Value) : Except Fault Value :=
  match left, right with
  | .int l, .int r => numeric op "int" (.ok ∘ .int) l r
  | .rune l, .rune r => numeric op "rune" toRune (runeCode l) (runeCode r)
  | .string l, .string r =>
    match op with
    | .add => .ok (.string (l ++ r))
    | _ => unsupported op.symbol "string"
  | .bool l, .bool r =>
    match op with
    | .and => .ok (.bool (l && r))
    | .or => .ok (.bool (l || r))
    | _ => unsupported op.symbol "bool"
  | left, right => .error (notA left.kind right)

/-- Unary operators other than the hash. -/
def applyUnary (op : UnaryOp) (value : Value) : Except Fault Value :=
  match op, value with
  | .not, .bool b => .ok (.bool (!b))
  | .negate, .int n => .ok (.int (-n))
  | .castToInt, .rune c => .ok (.int (runeCode c))
  | .castToString, .rune c => .ok (.string (String.singleton c))
  | op, value => unsupported op.symbol value.kind

/-- The position that an index names. -/
def checkedIndex (index : Int64) (length : Nat) : Except Fault Nat :=
  let n := index.toInt
  if 0 ≤ n ∧ n.toNat < length then .ok n.toNat else .error (.indexOutOfBounds index length)

/-- A length as an integer. -/
def lengthValue (length : Nat) : Except Fault Value :=
  if length < 1 <<< 63 then .ok (.int (Int64.ofNat length))
  else .error (.invalidOperation .lengthOverflow)

/-- The value as an integer. -/
def asInt : Value → Except Fault Int64
  | .int n => .ok n
  | other => .error (notA "int" other)

/-- The value as a truth value. -/
def asBool : Value → Except Fault Bool
  | .bool b => .ok b
  | other => .error (notA "bool" other)

end Scribe.Machine
