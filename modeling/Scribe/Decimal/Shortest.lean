import Scribe.Decimal.Binary64

/-!
# The shortest decimal of a double

A double is shown with the fewest decimal digits that still round to it; of several such decimals
the one nearest to the double is taken. `shortest` finds those digits, `format` lays them out:
positional while the leading digit has an exponent from -5 to 15, with an exponent otherwise.
-/

namespace Scribe.Decimal

/-- The value `digits * 10 ^ exponent`. -/
structure Numeral where
  digits : Nat
  exponent : Int
  deriving DecidableEq, Repr

/-- The same value without zeros at the end of its digits. -/
def Numeral.strip (d : Numeral) : Numeral :=
  if d.digits ≠ 0 ∧ d.digits % 10 = 0 then strip ⟨d.digits / 10, d.exponent + 1⟩ else d
termination_by d.digits
decreasing_by exact Nat.div_lt_self (by omega) (by omega)

namespace Magnitude

/-- The decimals that round to a double: those between `low / den` and `high / den`, the two ends
included only if `closed`. The double itself is `mid / den`. -/
structure Interval where
  low : Nat
  mid : Nat
  high : Nat
  den : Nat
  closed : Bool

/-- The rounding interval of a double that is not zero. The gap below a power of two is half the
gap above it. -/
def interval (x : Magnitude) : Interval :=
  let below := if x.mantissa = 1 <<< 52 ∧ minExponent < x.exponent then 1 else 2
  let e := x.exponent - 2
  let (up, den) := if 0 ≤ e then (1 <<< e.toNat, 1) else (1, 1 <<< (-e).toNat)
  { low := (4 * x.mantissa - below) * up
    mid := 4 * x.mantissa * up
    high := (4 * x.mantissa + 2) * up
    den
    closed := x.mantissa % 2 = 0 }

/-- Whether `digits * 10 ^ k` lies in an interval. -/
def Interval.contains (i : Interval) (digits : Nat) (k : Int) : Bool :=
  let (n, d) := if 0 ≤ k then (digits * Nat.pow 10 k.toNat, 1) else (digits, Nat.pow 10 (-k).toNat)
  let value := n * i.den
  if i.closed then i.low * d ≤ value && value ≤ i.high * d
  else i.low * d < value && value < i.high * d

/-- The least `j` from `1` with `den ≤ num * 10 ^ j`, or the last one tried. -/
def leadingZeros (num den : Nat) : Nat → Nat → Nat
  | 0, j => j
  | tries + 1, j => if den ≤ num * Nat.pow 10 j then j else leadingZeros num den tries (j + 1)

/-- The exponent of the leading decimal digit of `num / den`. -/
def leadingExponent (num den : Nat) : Int :=
  if den ≤ num then ((Nat.toDigits 10 (num / den)).length : Int) - 1
  else -(leadingZeros num den 400 1 : Int)

/-- The neighbours of the middle of an interval on the grid `10 ^ k` that lie in it, the nearer
one first; of two equally near ones the even one. -/
def Interval.onGrid? (i : Interval) (k : Int) : Option Numeral :=
  let (n, d) :=
    if 0 ≤ k then (i.mid, i.den * Nat.pow 10 k.toNat)
    else (i.mid * Nat.pow 10 (-k).toNat, i.den)
  let down := n / d
  let r := n % d
  let downFirst := 2 * r < d || (2 * r = d && down % 2 = 0)
  let candidates := if downFirst then [down, down + 1] else [down + 1, down]
  (candidates.find? (i.contains · k)).map (⟨·, k⟩)

/-- Tries grids from the coarsest on. -/
def Interval.search (i : Interval) (lead : Int) : List Nat → Numeral
  | [] => ⟨i.mid / i.den, 0⟩
  | places :: rest => (i.onGrid? (lead - places)).getD (i.search lead rest)

/-- The shortest decimal that rounds to a double; seventeen digits always suffice. -/
def shortest (x : Magnitude) : Numeral :=
  let i := x.interval
  (i.search (leadingExponent i.mid i.den) (List.range 17)).strip

end Magnitude

/-- Digits with a point after the leading one, or none if there is only one. -/
def scientificDigits : List Char → List Char
  | [] => []
  | [c] => [c]
  | c :: rest => c :: '.' :: rest

/-- Lays out digits whose leading one has the exponent `lead`. -/
def layout (digits : List Char) (lead : Int) : List Char :=
  if lead < -5 then scientificDigits digits ++ ['e', '-'] ++ Nat.toDigits 10 (-lead).toNat
  else if lead < 0 then
    ['0', '.'] ++ List.replicate ((-lead).toNat - 1) '0' ++ digits
  else if lead ≤ 15 then
    let whole := lead.toNat + 1
    let padded := digits ++ List.replicate (whole - digits.length) '0'
    let fraction := padded.drop whole
    padded.take whole ++ ['.'] ++ if fraction.isEmpty then ['0'] else fraction
  else scientificDigits digits ++ ['e', '+'] ++ Nat.toDigits 10 lead.toNat

namespace Binary64

/-- The shortest text of a double that reads back as it. -/
def format (x : Binary64) : String :=
  let sign := if x.negative then ['-'] else []
  let body :=
    if x.magnitude.isZero then ['0', '.', '0']
    else
      let d := x.magnitude.shortest
      let digits := Nat.toDigits 10 d.digits
      layout digits (d.exponent + digits.length - 1)
  String.ofList (sign ++ body)

end Binary64

end Scribe.Decimal
