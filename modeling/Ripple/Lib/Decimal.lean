import Mathlib.Algebra.Order.Floor.Semifield
import Mathlib.Data.Nat.Digits.Lemmas
import Mathlib.Data.Rat.Floor
import Mathlib.Tactic.FieldSimp
import Mathlib.Tactic.LinearCombination
import Mathlib.Tactic.NormNum

/-!
# Ripple.Lib.Decimal

Numbers `m * 10 ^ e` with a mantissa and an exponent, as fixed precision arithmetic keeps them.

* `numDigits`: a bound on a number, read off its digits (`le_value_iff`).
* `iterate_div`, `iterate_mul`, `iterate_tdiv`: loops that move the exponent one place at a time.
-/

namespace Decimal

open Nat

/-! ## Digits -/

def numDigits (m : ℕ) : ℕ := (Nat.digits 10 m).length

variable {m k p : ℕ}

theorem numDigits_le_iff : numDigits m ≤ k ↔ m < 10 ^ k := digits_length_le_iff (by decide) m

theorem lt_numDigits_iff : k < numDigits m ↔ 10 ^ k ≤ m := lt_digits_length_iff (by decide) m

theorem numDigits_pos (hm : m ≠ 0) : 0 < numDigits m :=
  lt_numDigits_iff.mpr (by rw [pow_zero]; omega)

theorem numDigits_eq (hlo : 10 ^ k ≤ m) (hhi : m < 10 ^ (k + 1)) : numDigits m = k + 1 :=
  le_antisymm (numDigits_le_iff.mpr hhi) (lt_numDigits_iff.mpr hlo)

theorem pow_le_of_ne_zero (hm : m ≠ 0) : 10 ^ (numDigits m - 1) ≤ m :=
  lt_numDigits_iff.mp (by have := numDigits_pos hm; omega)

theorem lt_pow_numDigits (m : ℕ) : m < 10 ^ numDigits m := numDigits_le_iff.mp le_rfl

theorem numDigits_mul_pow (hm : m ≠ 0) (k : ℕ) : numDigits (m * 10 ^ k) = numDigits m + k := by
  have hpos := numDigits_pos hm
  have hlo : 10 ^ (numDigits m - 1 + k) ≤ m * 10 ^ k := by
    rw [pow_add]
    exact mul_le_mul_right _ (pow_le_of_ne_zero hm)
  have hhi : m * 10 ^ k < 10 ^ (numDigits m - 1 + k + 1) := by
    rw [show numDigits m - 1 + k + 1 = numDigits m + k by omega, pow_add]
    exact mul_lt_mul_of_pos_right (lt_pow_numDigits m) (by positivity)
  rw [numDigits_eq hlo hhi]
  omega

theorem numDigits_div_pow (hk : k < numDigits m) : numDigits (m / 10 ^ k) = numDigits m - k := by
  have hm : m ≠ 0 := by
    rintro rfl
    simp [numDigits] at hk
  have hlo : 10 ^ (numDigits m - k - 1) ≤ m / 10 ^ k := by
    rw [le_div_iff_mul_le (by positivity), ← pow_add, show numDigits m - k - 1 + k = numDigits m - 1 by omega]
    exact pow_le_of_ne_zero hm
  have hhi : m / 10 ^ k < 10 ^ (numDigits m - k - 1 + 1) := by
    rw [div_lt_iff_lt_mul (by positivity), ← pow_add, show numDigits m - k - 1 + 1 + k = numDigits m by omega]
    exact lt_pow_numDigits m
  rw [numDigits_eq hlo hhi]
  omega

theorem le_value_iff (hm : m ≠ 0) (e k : ℤ) : (10 : ℚ) ^ k ≤ m * 10 ^ e ↔ k < e + numDigits m := by
  have hten : (0 : ℚ) < 10 ^ e := zpow_pos (by norm_num) e
  rw [← div_le_iff₀ hten, ← zpow_sub₀ (by norm_num)]
  rcases le_or_gt e k with hle | hlt
  · obtain ⟨n, hn⟩ := Int.eq_ofNat_of_zero_le (sub_nonneg.mpr hle)
    have hcast : (10 : ℚ) ^ (k - e) = ((10 ^ n : ℕ) : ℚ) := by
      rw [hn]
      push_cast
      exact zpow_natCast 10 n
    rw [hcast, cast_le, ← lt_numDigits_iff]
    omega
  · have hpos := numDigits_pos hm
    refine iff_of_true ?_ (by omega)
    calc (10 : ℚ) ^ (k - e) ≤ 10 ^ (0 : ℤ) := zpow_le_zpow_right₀ (by norm_num) (by omega)
      _ = ((1 : ℕ) : ℚ) := by norm_num
      _ ≤ m := cast_le.mpr (one_le_iff_ne_zero.mpr hm)

/-! ## A given number of digits -/

/-- The digits of `m`, with zeros behind them or without the last ones so that there are `p`. -/
def leading (p m : ℕ) : ℕ := m * 10 ^ (p - numDigits m) / 10 ^ (numDigits m - p)

theorem leading_of_le (h : numDigits m ≤ p) : leading p m = m * 10 ^ (p - numDigits m) := by
  rw [leading, Nat.sub_eq_zero_of_le h, pow_zero, Nat.div_one]

theorem leading_of_ge (h : p ≤ numDigits m) : leading p m = m / 10 ^ (numDigits m - p) := by
  rw [leading, Nat.sub_eq_zero_of_le h, pow_zero, Nat.mul_one]

theorem numDigits_leading (hp : 0 < p) (hm : m ≠ 0) : numDigits (leading p m) = p := by
  rcases le_total (numDigits m) p with h | h
  · rw [leading_of_le h, numDigits_mul_pow hm]
    omega
  · rw [leading_of_ge h, numDigits_div_pow (by omega)]
    omega

theorem leading_self (h : numDigits m = p) : leading p m = m := by
  rw [leading_of_le h.le, h, Nat.sub_self, pow_zero, Nat.mul_one]

theorem leading_value_of_le (h : numDigits m ≤ p) (e : ℤ) :
    (leading p m : ℚ) * 10 ^ (e + numDigits m - p) = m * 10 ^ e := by
  rw [leading_of_le h]
  push_cast
  rw [mul_assoc, ← zpow_natCast, ← zpow_add₀ (by norm_num)]
  congr 2
  omega

theorem leading_value_of_ge (h : p ≤ numDigits m) (e : ℤ) :
    (leading p m : ℚ) * 10 ^ (e + numDigits m - p) ≤ m * 10 ^ e ∧
      m * 10 ^ e < (leading p m + 1 : ℚ) * 10 ^ (e + numDigits m - p) := by
  have hsplit : (10 : ℚ) ^ (e + numDigits m - p) = ((10 ^ (numDigits m - p) : ℕ) : ℚ) * 10 ^ e := by
    push_cast
    rw [← zpow_natCast, ← zpow_add₀ (by norm_num)]
    congr 1
    omega
  have hten : (0 : ℚ) < 10 ^ e := zpow_pos (by norm_num) e
  have hlo : leading p m * 10 ^ (numDigits m - p) ≤ m := by
    rw [leading_of_ge h]
    exact div_mul_le_self _ _
  have hhi : m < (leading p m + 1) * 10 ^ (numDigits m - p) := by
    rw [leading_of_ge h]
    exact (div_lt_iff_lt_mul (by positivity)).mp (lt_succ_self _)
  rw [hsplit, ← mul_assoc, ← mul_assoc]
  constructor
  · exact mul_le_mul_of_nonneg_right (by exact_mod_cast hlo) hten.le
  · exact mul_lt_mul_of_pos_right (by exact_mod_cast hhi) hten

/-! ## Loops -/

theorem iterate_div (k v : ℕ) : (fun v => v / 10)^[k] v = v / 10 ^ k := by
  induction k with
  | zero => simp
  | succ k ih => rw [Function.iterate_succ_apply', ih, Nat.div_div_eq_div_mul, Nat.pow_succ]

theorem iterate_mul {v w : ℕ} (hv : v < w) (k : ℕ) : (fun v => v * 10 % w)^[k] v = v * 10 ^ k % w := by
  induction k with
  | zero => rw [Function.iterate_zero_apply, pow_zero, mul_one, mod_eq_of_lt hv]
  | succ k ih => rw [Function.iterate_succ_apply', ih, mod_mul_mod, mul_assoc, ← pow_succ]

theorem iterate_tdiv (k : ℕ) (v : ℤ) : (fun v : ℤ => v.tdiv 10)^[k] v = v.tdiv (10 ^ k : ℕ) := by
  induction k with
  | zero => simp
  | succ k ih =>
    have hnat : ∀ n : ℕ, ((n : ℤ).tdiv (10 ^ k : ℕ)).tdiv 10 = (n : ℤ).tdiv (10 ^ (k + 1) : ℕ) := fun n =>
      congrArg Nat.cast (Nat.div_div_eq_div_mul n (10 ^ k) 10)
    rw [Function.iterate_succ_apply', ih]
    obtain ⟨n, rfl | rfl⟩ := v.eq_nat_or_neg
    · exact hnat n
    · rw [Int.neg_tdiv, Int.neg_tdiv, Int.neg_tdiv, hnat]

theorem tdiv_error (v : ℤ) (d : ℕ) (hd : 0 < d) : |(v.tdiv d : ℚ) * d - v| < d := by
  have hmod : |v.tmod d| < d := by
    rw [← Int.natCast_natAbs, Int.natAbs_tmod]
    exact_mod_cast mod_lt _ hd
  have hdiv : v.tdiv d * d - v = -v.tmod d := by
    rw [Int.tmod_def]
    ring
  rw [← abs_neg, ← hdiv] at hmod
  exact_mod_cast hmod

theorem floor_value (m : ℕ) (e : ℤ) :
    ⌊(m : ℚ) * 10 ^ e⌋₊ = m * 10 ^ e.toNat / 10 ^ (-e).toNat := by
  rcases le_total 0 e with h | h
  · obtain ⟨n, rfl⟩ := Int.eq_ofNat_of_zero_le h
    rw [zpow_natCast, show (-(n : ℤ)).toNat = 0 by omega, Int.toNat_natCast, pow_zero, Nat.div_one]
    exact_mod_cast Nat.floor_natCast (m * 10 ^ n)
  · obtain ⟨n, hn⟩ := Int.eq_ofNat_of_zero_le (neg_nonneg.mpr h)
    obtain rfl : e = -n := by omega
    rw [show (-(n : ℤ)).toNat = 0 by omega, neg_neg, Int.toNat_natCast, pow_zero, Nat.mul_one, zpow_neg,
      zpow_natCast, ← div_eq_mul_inv]
    have hfloor : ⌊(m : ℚ) / (10 ^ n : ℕ)⌋₊ = m / 10 ^ n := Nat.floor_div_eq_div m (10 ^ n)
    rwa [Nat.cast_pow, Nat.cast_ofNat] at hfloor

end Decimal
