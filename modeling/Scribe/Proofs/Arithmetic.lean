import Scribe.Machine.Eval
import Mathlib.Data.Int.DivMod

/-!
# Arithmetic at the limits

Integers have 64 bits and wrap around, division goes toward zero. So a quotient is exact but for the
least integer divided by minus one, and quotient and remainder always give back the dividend
(`arithmetic_exact`). Runes compute with their code points. These are so small that nothing wraps
around: an operation on runes is the operation on integers without bounds, if that gives the code
point of a rune.
-/

namespace Scribe

/-- What an arithmetic operator gives on integers without bounds. -/
def BinaryOp.onIntegers? : BinaryOp → Int → Int → Option Int
  | .add, l, r => some (l + r)
  | .subtract, l, r => some (l - r)
  | .multiply, l, r => some (l * r)
  | .divide, l, r => if r = 0 then none else some (l.tdiv r)
  | .modulo, l, r => if r = 0 then none else some (l.tmod r)
  | _, _, _ => none

/-- The code points of characters: all up to 0x10ffff but for the surrogates. -/
def IsScalar (code : Int) : Prop :=
  0 ≤ code ∧ code < 0xd800 ∨ 0xdfff < code ∧ code < 0x110000

namespace Machine

/-! ## Integers of 64 bits -/

/-- Quotient and remainder give back the dividend. -/
theorem div_mul_add_mod (l r : Int64) : l / r * r + l % r = l := by
  apply Int64.toInt_inj.mp
  rw [Int64.toInt_add, Int64.toInt_mul, Int64.toInt_div, Int64.toInt_mod, Int.bmod_mul_bmod,
    Int.bmod_add_bmod, Int.mul_comm, Int.mul_tdiv_add_tmod]
  have hwrap := @Int64.toInt_ofInt l.toInt
  rw [Int64.ofInt_toInt] at hwrap
  exact hwrap.symm

theorem toInt_eq_zero {n : Int64} : n.toInt = 0 ↔ n = 0 := by
  rw [← Int64.toInt_zero, Int64.toInt_inj]

theorem natAbs_mod_lt {l r : Int64} (hr : r ≠ 0) : (l % r).toInt.natAbs < r.toInt.natAbs := by
  rw [Int64.toInt_mod, Int.natAbs_tmod]
  refine Nat.mod_lt _ (Int.natAbs_pos.mpr fun hzero => hr ?_)
  exact toInt_eq_zero.mp hzero

theorem mod_eq_zero_or_sign (l r : Int64) : l % r = 0 ∨ (l % r).toInt.sign = l.toInt.sign := by
  rw [← toInt_eq_zero, ← Int.sign_eq_zero_iff_zero, Int64.toInt_mod, Int.sign_tmod]
  split
  · exact .inl rfl
  · exact .inr rfl

/-- A quotient is exact, but for the least integer divided by minus one. -/
theorem toInt_div_eq {l r : Int64} (h : ¬(l = Int64.minValue ∧ r = -1)) :
    (l / r).toInt = l.toInt.tdiv r.toInt := by
  by_cases hl : l = Int64.minValue
  · exact Int64.toInt_div_of_ne_right _ _ fun hr => h ⟨hl, hr⟩
  · exact Int64.toInt_div_of_ne_left _ _ hl

/-! ## Code points -/

theorem toInt_runeCode (c : Char) : (runeCode c).toInt = c.toNat ∧ c.toNat < 0x110000 := by
  have hvalid : c.toNat.isValidChar := c.valid
  unfold Nat.isValidChar at hvalid
  have hlt : c.toNat < 0x110000 := by omega
  exact ⟨Int64.toInt_ofNat_of_lt (by omega), hlt⟩

theorem toRune_of_isScalar {n : Int64} (h : IsScalar n.toInt) :
    ∃ c : Char, (c.toNat : Int) = n.toInt ∧ toRune n = .ok (.rune c) := by
  unfold IsScalar at h
  have hnonneg : 0 ≤ n.toInt := by omega
  have hvalid : n.toInt.toNat.isValidChar := by
    unfold Nat.isValidChar
    omega
  refine ⟨Char.ofNat n.toInt.toNat, ?_, if_pos ⟨hnonneg, hvalid⟩⟩
  have hcode : (Char.ofNat n.toInt.toNat).toNat = n.toInt.toNat := by
    rw [Char.ofNat, dif_pos hvalid]
    rfl
  rw [hcode, Int.toNat_of_nonneg hnonneg]

theorem toRune_of_not_isScalar {n : Int64} (h : ¬IsScalar n.toInt) :
    toRune n = .error (.invalidOperation (.notARune n)) := by
  refine if_neg fun hvalid => h ?_
  unfold Nat.isValidChar at hvalid
  unfold IsScalar
  omega

/-! ## Arithmetic on code points -/

/-- A result of 64 bits that is the result without bounds. -/
inductive Exact : Option Int → Except Fault Int64 → Prop where
  | number (n : Int64) : Exact (some n.toInt) (.ok n)
  | divisionByZero : Exact none (.error .divisionByZero)

/-- A number between a code point below zero and a product of code points does not wrap around. -/
theorem Exact.of_bmod {n : Int64} {z : Int} (hn : n.toInt = z.bmod Int64.size)
    (hlow : -0x110000 ≤ z) (hhigh : z ≤ 0x110000 * 0x110000) : Exact (some z) (.ok n) := by
  rw [Int.bmod_eq_of_le (by simp only [Int64.size]; omega) (by simp only [Int64.size]; omega)] at hn
  rw [← hn]
  exact .number n

theorem Exact.unlessZero {n r : Int64} {z : Int} (hn : n.toInt = z) :
    Exact (if r.toInt = 0 then none else some z)
      (if r = 0 then .error .divisionByZero else .ok n) := by
  by_cases hr : r = 0
  · rw [if_pos hr, if_pos (toInt_eq_zero.mpr hr)]
    exact .divisionByZero
  · rw [if_neg hr, if_neg (mt toInt_eq_zero.mp hr), ← hn]
    exact .number n

/-- The arithmetic operators. -/
def arithmeticOps : List BinaryOp := [.add, .subtract, .multiply, .divide, .modulo]

/-- Arithmetic on numbers in the range of code points is arithmetic without bounds. -/
theorem arithmetic?_exact {op : BinaryOp} (hop : op ∈ arithmeticOps) {l r : Int64}
    (hl : 0 ≤ l.toInt ∧ l.toInt < 0x110000) (hr : 0 ≤ r.toInt ∧ r.toInt < 0x110000) :
    ∃ x, arithmetic? op l r = some x ∧ Exact (op.onIntegers? l.toInt r.toInt) x := by
  have hnonneg : 0 ≤ l.toInt * r.toInt := Int.mul_nonneg hl.1 hr.1
  have hproduct : l.toInt * r.toInt ≤ 0x110000 * 0x110000 :=
    Int.mul_le_mul (Int.le_of_lt hl.2) (Int.le_of_lt hr.2) hr.1 (by decide)
  simp only [arithmeticOps, List.mem_cons, List.not_mem_nil, or_false] at hop
  obtain rfl | rfl | rfl | rfl | rfl := hop
  · exact ⟨_, rfl, .of_bmod (Int64.toInt_add l r) (by omega) (by omega)⟩
  · exact ⟨_, rfl, .of_bmod (Int64.toInt_sub l r) (by omega) (by omega)⟩
  · exact ⟨_, rfl, .of_bmod (Int64.toInt_mul l r) (by omega) (by omega)⟩
  · refine ⟨_, rfl, .unlessZero (toInt_div_eq fun h => ?_)⟩
    rw [h.1, Int64.toInt_minValue] at hl
    omega
  · exact ⟨_, rfl, .unlessZero (Int64.toInt_mod l r)⟩

/-! ## Operators of the machine -/

section

variable {env : Env} {s : State}

/-- An arithmetic operator on two integers, and on two runes. -/
theorem evalBinary_arithmetic {op : BinaryOp} (hop : op ∈ arithmeticOps) {l r : Int64}
    {x : Except Fault Int64} (h : arithmetic? op l r = some x) :
    evalBinary env op (.int l) (.int r) = Exec.ofExcept (x.bind (.ok ∘ .int)) ∧
    ∀ a b : Char, runeCode a = l → runeCode b = r →
      evalBinary env op (.rune a) (.rune b) = Exec.ofExcept (x.bind toRune) := by
  have hnumeric (kind : String) (wrap : Int64 → Except Fault Value) :
      numeric op kind wrap l r = x.bind wrap := by
    rw [numeric, h]
  simp only [arithmeticOps, List.mem_cons, List.not_mem_nil, or_false] at hop
  refine ⟨?_, ?_⟩
  · rw [← hnumeric "int"]
    obtain rfl | rfl | rfl | rfl | rfl := hop <;> rfl
  · rintro a b rfl rfl
    rw [← hnumeric "rune"]
    obtain rfl | rfl | rfl | rfl | rfl := hop <;> rfl

end

/-- **Arithmetic is exact at the limits.** Quotient and remainder of integers give back the
dividend, the remainder is smaller than the divisor and has the sign of the dividend, and the
quotient is exact unless the least integer is divided by minus one. Runes have the sum, difference,
product, quotient or remainder of their code points in integers without bounds, if it is the code
point of a rune. -/
theorem arithmetic_exact (env : Env) (s : State) :
    (∀ l r : Int64, r ≠ 0 → ∃ q m product : Int64,
      evalBinary env .divide (.int l) (.int r) s = .ok (.int q) s ∧
      evalBinary env .modulo (.int l) (.int r) s = .ok (.int m) s ∧
      evalBinary env .multiply (.int q) (.int r) s = .ok (.int product) s ∧
      evalBinary env .add (.int product) (.int m) s = .ok (.int l) s ∧
      m.toInt.natAbs < r.toInt.natAbs ∧ (m = 0 ∨ m.toInt.sign = l.toInt.sign) ∧
      (¬(l = Int64.minValue ∧ r = -1) → q.toInt = l.toInt.tdiv r.toInt) ∧
      (l = Int64.minValue ∧ r = -1 → q = Int64.minValue)) ∧
    (∀ l : Int64, ∀ op ∈ [BinaryOp.divide, .modulo],
      evalBinary env op (.int l) (.int 0) s = .error (.fault .divisionByZero) s) ∧
    (∀ a b : Char, ∀ op ∈ arithmeticOps,
      (op.onIntegers? a.toNat b.toNat = none →
        evalBinary env op (.int (runeCode a)) (.int (runeCode b)) s =
          .error (.fault .divisionByZero) s ∧
        evalBinary env op (.rune a) (.rune b) s = .error (.fault .divisionByZero) s) ∧
      ∀ z : Int, op.onIntegers? a.toNat b.toNat = some z → ∃ n : Int64, n.toInt = z ∧
        evalBinary env op (.int (runeCode a)) (.int (runeCode b)) s = .ok (.int n) s ∧
        (IsScalar z → ∃ c : Char, (c.toNat : Int) = z ∧
          evalBinary env op (.rune a) (.rune b) s = .ok (.rune c) s) ∧
        (¬IsScalar z → evalBinary env op (.rune a) (.rune b) s =
          .error (.fault (.invalidOperation (.notARune n))) s)) := by
  refine ⟨fun l r hr => ?_, fun l op hop => ?_, fun a b op hop => ?_⟩
  · refine ⟨l / r, l % r, l / r * r, ?_, ?_, rfl, ?_, natAbs_mod_lt hr, mod_eq_zero_or_sign l r,
      toInt_div_eq, ?_⟩
    · show Exec.ofExcept ((divide l r).bind _) s = _
      rw [divide, if_neg hr]
      rfl
    · show Exec.ofExcept ((remainder l r).bind _) s = _
      rw [remainder, if_neg hr]
      rfl
    · show EStateM.Result.ok (Value.int (l / r * r + l % r)) s = _
      rw [div_mul_add_mod]
    · rintro ⟨rfl, rfl⟩
      decide
  · simp only [List.mem_cons, List.not_mem_nil, or_false] at hop
    obtain rfl | rfl := hop <;> rfl
  · obtain ⟨ha, halt⟩ := toInt_runeCode a
    obtain ⟨hb, hblt⟩ := toInt_runeCode b
    obtain ⟨x, hx, hexact⟩ :=
      @arithmetic?_exact op hop (runeCode a) (runeCode b) (by omega) (by omega)
    obtain ⟨hint, hrune⟩ := @evalBinary_arithmetic env op hop _ _ _ hx
    rw [hint, hrune a b rfl rfl, ← ha, ← hb]
    generalize op.onIntegers? (runeCode a).toInt (runeCode b).toInt = result at hexact ⊢
    cases hexact with
    | divisionByZero => exact ⟨fun _ => ⟨rfl, rfl⟩, by rintro z ⟨⟩⟩
    | number n =>
      refine ⟨by rintro ⟨⟩, ?_⟩
      rintro z ⟨⟩
      refine ⟨n, rfl, rfl, fun hscalar => ?_, fun hscalar => ?_⟩
      · obtain ⟨c, hc, hrune⟩ := toRune_of_isScalar hscalar
        refine ⟨c, hc, ?_⟩
        show Exec.ofExcept (toRune n) s = _
        rw [hrune]
        rfl
      · show Exec.ofExcept (toRune n) s = _
        rw [toRune_of_not_isScalar hscalar]
        rfl

end Machine

end Scribe
