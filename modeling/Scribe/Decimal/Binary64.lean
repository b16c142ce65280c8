/-!
# Double precision numbers

A finite double is a sign and a magnitude `mantissa * 2 ^ exponent`. All arithmetic is exact
arithmetic on natural numbers followed by one rounding to the nearest magnitude, ties to even, so
nothing here depends on a floating point unit.

* `Magnitude.ofRatio?` rounds a quotient of natural numbers.
* `Magnitude.ofDecimal?` reads `significand * 10 ^ exponent` in two roundings: the significand and
  the power of ten are rounded first, their product or quotient after that.
-/

namespace Scribe.Decimal

/-- The value `mantissa * 2 ^ exponent`. -/
structure Magnitude where
  mantissa : Nat
  exponent : Int
  deriving DecidableEq, Repr

/-- A finite double. -/
structure Binary64 where
  negative : Bool
  magnitude : Magnitude
  deriving DecidableEq, Repr

namespace Magnitude

/-- The least exponent of a double. -/
def minExponent : Int := -1074

/-- The greatest exponent of a double with a mantissa of 53 bits. -/
def maxExponent : Int := 971

def zero : Magnitude := ⟨0, minExponent⟩

def isZero (x : Magnitude) : Bool := x.mantissa == 0

/-- The quotient `num / den` to the nearest natural number, ties to even. -/
def roundDiv (num den : Nat) : Nat :=
  let q := num / den
  let r := num % den
  if den < 2 * r ∨ (2 * r = den ∧ q % 2 = 1) then q + 1 else q

/-- `num / den / 2 ^ e` as a quotient of natural numbers. -/
def scale (num den : Nat) (e : Int) : Nat × Nat :=
  if 0 ≤ e then (num, den <<< e.toNat) else (num <<< (-e).toNat, den)

/-- The exponent at which the quotient `num / den` has a mantissa of 53 bits, or the least one. -/
def exponentOf (num den : Nat) : Int :=
  let e := (num.log2 : Int) - (den.log2 : Int) - 53
  let (n, d) := scale num den e
  max (if d <<< 53 ≤ n then e + 1 else e) minExponent

/-- The double nearest to `num / den`; `none` if that is beyond the greatest one. -/
def ofRatio? (num den : Nat) : Option Magnitude :=
  if num = 0 then some zero
  else
    let e := exponentOf num den
    let (n, d) := scale num den e
    let m := roundDiv n d
    let (m, e) := if m = 1 <<< 53 then (1 <<< 52, e + 1) else (m, e)
    if maxExponent < e then none else some ⟨m, e⟩

/-- A magnitude as a quotient of natural numbers. -/
def toRatio (x : Magnitude) : Nat × Nat :=
  scale x.mantissa 1 (-x.exponent)

/-- The rounded power of ten; it is finite up to the exponent 308. -/
def powerOfTen (k : Nat) : Magnitude :=
  (ofRatio? (Nat.pow 10 k) 1).getD zero

def mul? (x y : Magnitude) : Option Magnitude :=
  let (a, b) := x.toRatio
  let (c, d) := y.toRatio
  ofRatio? (a * c) (b * d)

def div? (x y : Magnitude) : Option Magnitude :=
  let (a, b) := x.toRatio
  let (c, d) := y.toRatio
  ofRatio? (a * d) (b * c)

/-- Divides by `10 ^ k`, in steps of `10 ^ 308` as long as anything is left. -/
def divPowerOfTen? (x : Magnitude) (k : Nat) : Option Magnitude :=
  if k ≤ 308 then x.div? (powerOfTen k)
  else if x.isZero then some zero
  else do
    let y ← x.div? (powerOfTen 308)
    divPowerOfTen? y (k - 308)
termination_by k

/-- The value `significand * 10 ^ exponent`; `none` if it is beyond the greatest double. -/
def ofDecimal? (significand : Nat) (exponent : Int) : Option Magnitude := do
  let x ← ofRatio? significand 1
  if exponent < 0 then divPowerOfTen? x (-exponent).toNat
  else if exponent ≤ 308 then x.mul? (powerOfTen exponent.toNat)
  else if x.isZero then some zero
  else none

end Magnitude

end Scribe.Decimal
