import Scribe.Decimal.Shortest

/-!
# Numbers of JSON texts

A number literal is kept digit by digit until it is given a value. A literal without fraction and
exponent whose value fits into 64 bits, with or without a sign, is an integer; the literal `-0` and
all others are doubles.

A double gathers its digits from the left into a significand of 64 bits. Digits that no longer fit
are dropped, those before the point raising the exponent by one each. A literal beyond the
greatest double has no value.
-/

namespace Scribe.Json

open Scribe.Decimal

/-- The value of a JSON number. -/
inductive Number where
  | int (value : Int)
  | double (value : Binary64)
  deriving DecidableEq, Repr

/-- A number literal, in its digits. -/
structure NumberLiteral where
  negative : Bool
  whole : List Nat
  /-- The digits after the point, if there is one. -/
  fraction : Option (List Nat)
  /-- Whether the exponent is negative, and its digits, if there is one. -/
  exponent : Option (Bool × List Nat)
  deriving DecidableEq, Repr

/-- A significand of at most 64 bits, scaled by a power of ten. -/
structure Scaled where
  significand : Nat
  exponent : Int

namespace Scaled

/-- The greatest significand. -/
def limit : Nat := (1 <<< 64) - 1

/-- Appends a digit before the point. -/
def pushWhole (s : Scaled) (full : Bool) (digit : Nat) : Scaled × Bool :=
  if full || limit < s.significand * 10 + digit then
    ({ s with exponent := s.exponent + 1 }, true)
  else ({ s with significand := s.significand * 10 + digit }, false)

/-- Gathers the digits before the point; after the first one that does not fit, all are dropped. -/
def ofWhole (digits : List Nat) : Scaled :=
  (digits.foldl (fun (s, full) d => s.pushWhole full d) (⟨0, 0⟩, false)).1

/-- Gathers the digits after the point up to the first one that does not fit. -/
def pushFraction (s : Scaled) : List Nat → Scaled
  | [] => s
  | d :: ds =>
    if limit < s.significand * 10 + d then s
    else pushFraction ⟨s.significand * 10 + d, s.exponent - 1⟩ ds

end Scaled

/-- The number that digits denote in base ten. -/
def natOfDigits (digits : List Nat) : Nat :=
  digits.foldl (fun n d => n * 10 + d) 0

namespace NumberLiteral

/-- The magnitude of a literal read as a double. -/
def magnitude? (l : NumberLiteral) : Option Magnitude :=
  let s := (Scaled.ofWhole l.whole).pushFraction (l.fraction.getD [])
  match l.exponent with
  | none => Magnitude.ofDecimal? s.significand s.exponent
  | some (negative, digits) =>
    let e : Int := natOfDigits digits
    Magnitude.ofDecimal? s.significand (if negative then s.exponent - e else s.exponent + e)

/-- The integer a literal denotes, if it is written as one and fits into 64 bits. -/
def integer? (l : NumberLiteral) : Option Int :=
  if l.fraction.isSome || l.exponent.isSome then none
  else
    let n := natOfDigits l.whole
    if l.negative then
      if 0 < n && n ≤ 1 <<< 63 then some (-(n : Int)) else none
    else if n < 1 <<< 64 then some n else none

/-- The value of a literal; `none` if it is beyond the greatest double. -/
def value? (l : NumberLiteral) : Option Number :=
  match l.integer? with
  | some n => some (.int n)
  | none => l.magnitude?.map fun m => .double ⟨l.negative, m⟩

end NumberLiteral

/-! ## Reading a literal -/

/-- Splits off leading digits. -/
def takeDigits : List Char → List Nat × List Char
  | [] => ([], [])
  | c :: cs =>
    if c.isDigit then
      let (ds, rest) := takeDigits cs
      ((c.toNat - 48) :: ds, rest)
    else ([], c :: cs)

/-- The exponent part: nothing, or a mark, an optional sign and at least one digit. -/
def readExponent? : List Char → Option (Option (Bool × List Nat))
  | [] => some none
  | c :: cs =>
    if c = 'e' || c = 'E' then
      let (negative, cs) := match cs with
        | '-' :: rest => (true, rest)
        | '+' :: rest => (false, rest)
        | rest => (false, rest)
      match takeDigits cs with
      | (d :: ds, []) => some (some (negative, d :: ds))
      | _ => none
    else none

/-- The part after the digits before the point. -/
def readTail? (negative : Bool) (whole : List Nat) : List Char → Option NumberLiteral
  | '.' :: cs =>
    match takeDigits cs with
    | ([], _) => none
    | (fraction, rest) =>
      (readExponent? rest).map fun e => ⟨negative, whole, some fraction, e⟩
  | cs => (readExponent? cs).map fun e => ⟨negative, whole, none, e⟩

/-- Reads a whole number literal; the digits before the point start with `0` only if that is all. -/
def NumberLiteral.ofChars? (cs : List Char) : Option NumberLiteral :=
  let (negative, cs) := match cs with
    | '-' :: rest => (true, rest)
    | rest => (false, rest)
  match takeDigits cs with
  | ([], _) => none
  | (0 :: _ :: _, _) => none
  | (whole, rest) => readTail? negative whole rest

namespace Number

/-- The text of a number. -/
def render : Number → String
  | int n => toString n
  | double x => x.format

end Number

end Scribe.Json
