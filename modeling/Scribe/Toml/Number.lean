import Scribe.Text.Integer
import Scribe.Toml.Quoted

/-!
# Numbers and dates

Digits may be parted by single underscores. Decimal integers have no leading zeros and an optional
sign; integers to base 2, 8 and 16 have no sign and any number of zeros. All have to fit into 64
bits with a sign. A float has a fraction or an exponent. Dates and times are checked for their ranges.
-/

namespace Scribe.Toml

open Reader
open Scribe.Text (fitsInt64)

/-! ## Integers -/

/-- Digits of a class, parted by single underscores. -/
def digitGroups (isDigit : Char → Bool) : Reader (List Char) := do
  let first ← run1 isDigit
  let groups ← repeatAll do
    char '_'
    run1 isDigit
  return first ++ groups.flatten

/-- The value of digits to a base. -/
def valueOfDigits (base : Nat) (digits : List Char) : Nat :=
  digits.foldl (fun n c => n * base + ((hexValue? [c]).getD 0)) 0

/-- A sign; whether it is a minus. -/
def sign : Reader Bool := do
  match ← peek? with
  | some '+' => do
    char '+'
    return false
  | some '-' => do
    char '-'
    return true
  | _ => return false

/-- The digits of a decimal integer: a zero alone, or others without a leading zero. -/
def decimalDigits : Reader (List Char) := do
  match ← peek? with
  | some '0' => do
    char '0'
    return ['0']
  | _ => digitGroups Char.isDigit

/-- An integer that fits. -/
def fitting (n : Int) : Reader Int :=
  if fitsInt64 n then return n else failure

/-- A decimal integer. -/
def decimalInteger : Reader Int := do
  let negative ← sign
  let n := valueOfDigits 10 (← decimalDigits)
  fitting (if negative then -n else n)

/-- An integer to a base, after its mark. -/
def basedInteger (mark : Char) (base : Nat) (isDigit : Char → Bool) : Reader Int := do
  char '0'
  char mark
  fitting (valueOfDigits base (← digitGroups isDigit))

def isHexDigit (c : Char) : Bool :=
  (hexValue? [c]).isSome

def isOctalDigit (c : Char) : Bool :=
  '0' ≤ c && c ≤ '7'

def isBinaryDigit (c : Char) : Bool :=
  c == '0' || c == '1'

/-- An integer. -/
def integer : Reader Int := do
  match ← get with
  | '0' :: 'x' :: _ => basedInteger 'x' 16 isHexDigit
  | '0' :: 'o' :: _ => basedInteger 'o' 8 isOctalDigit
  | '0' :: 'b' :: _ => basedInteger 'b' 2 isBinaryDigit
  | _ => decimalInteger

/-! ## Floats -/

/-- The digits after a point. -/
def fraction : Reader (List Char) := do
  char '.'
  digitGroups Char.isDigit

/-- An exponent. -/
def exponent : Reader Int := do
  let _ ← satisfy fun c => c == 'e' || c == 'E'
  let negative ← sign
  let n := valueOfDigits 10 (← digitGroups Char.isDigit)
  return if negative then -n else n

/-- Whether `digits` times ten to a power is beyond the greatest double, rounded to the nearest. -/
def overflows (digits : List Char) (power : Int) : Bool :=
  let n := valueOfDigits 10 digits
  let places : Int := (Nat.toDigits 10 n).length + power
  if n = 0 then false
  else if places > 310 then true
  else if places < 300 then false
  else
    let greatest := (1 <<< 1024) - (1 <<< 970)
    if 0 ≤ power then n * Nat.pow 10 power.toNat ≥ greatest
    else n ≥ greatest * Nat.pow 10 (-power).toNat

/-- A float in digits. Only a negative one may be infinite. -/
def decimalFloat : Reader Unit := do
  let negative ← sign
  let whole ← decimalDigits
  let (digits, power) ←
    (do
      let power ← exponent
      return (whole, power)) <|>
    (do
      let part ← fraction
      let power ← optional exponent
      return (whole ++ part, power.getD 0 - part.length))
  if !negative && overflows digits power then failure else return ()

/-- A float by name. -/
def namedFloat : Reader Unit := do
  let _ ← sign
  word "inf" <|> word "nan"

/-- A float. -/
def float : Reader Unit :=
  decimalFloat <|> namedFloat

/-! ## Dates and times -/

/-- A number of exactly `count` digits within bounds. -/
def fixedNumber (count low high : Nat) : Reader Nat := do
  let digits ← (List.replicate count ()).mapM fun _ => satisfy Char.isDigit
  let n := valueOfDigits 10 digits
  if low ≤ n ∧ n ≤ high then return n else failure

/-- The number of days in a month. -/
def daysIn (year month : Nat) : Nat :=
  if month = 2 then
    if year % 4 = 0 ∧ (year % 100 ≠ 0 ∨ year % 400 = 0) then 29 else 28
  else if month = 4 ∨ month = 6 ∨ month = 9 ∨ month = 11 then 30
  else 31

/-- A date. -/
def date : Reader Unit := do
  let year ← fixedNumber 4 0 9999
  char '-'
  let month ← fixedNumber 2 1 12
  char '-'
  let _ ← fixedNumber 2 1 (daysIn year month)

/-- A time of day. -/
def time : Reader Unit := do
  let _ ← fixedNumber 2 0 23
  char ':'
  let _ ← fixedNumber 2 0 59
  char ':'
  let _ ← fixedNumber 2 0 60
  let _ ← optional do
    char '.'
    run1 Char.isDigit

/-- A difference from universal time. -/
def offset : Reader Unit := do
  match ← satisfy fun c => c == 'Z' || c == 'z' || c == '+' || c == '-' with
  | 'Z' | 'z' => return ()
  | _ => do
    let _ ← fixedNumber 2 0 23
    char ':'
    let _ ← fixedNumber 2 0 59

/-- The time that may follow a date. -/
def timeOfDate : Reader Unit := do
  let _ ← satisfy fun c => c == 'T' || c == 't' || c == ' '
  time
  let _ ← optional offset

/-- A date, a time, or both. -/
def dateTime : Reader Unit :=
  (do
    date
    let _ ← optional timeOfDate) <|> time

end Scribe.Toml
