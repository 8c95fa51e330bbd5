import Ripple.Lib.Decimal
import Ripple.Protocol.STAmount

/-!
# Ripple.Protocol.STAmountCanonical

What `STAmount::canonicalize` does to the value of an amount.

* `make_native_iff`: the native case. The loops work in 64 bits, and the range is checked behind them.
* `canonicalizeIOU_eq`: the issued case, in one formula. The first digit of the value decides whether it
  overflows or vanishes, and otherwise the first 16 digits are kept.
-/

namespace Ripple.Protocol.STAmount

open Decimal

/-! ## Native amounts -/

def nativeValue (mantissa : Nat) (exponent : Int) : Nat :=
  mantissa / 10 ^ (-exponent).toNat * 10 ^ exponent.toNat % 2 ^ 64

variable {a : STAmount} {mantissa m : Nat}

theorem canonicalizeNative_eq (hvalue : a.mValue < 2 ^ 64) (hne : a.mValue ≠ 0) :
    a.canonicalizeNative =
      if nativeValue a.mValue a.mOffset > cMaxNativeN then none
      else some { a with mIsNative := true, mValue := nativeValue a.mValue a.mOffset, mOffset := 0 } := by
  have hquot : a.mValue / 10 ^ (-a.mOffset).toNat < 2 ^ 64 := (Nat.div_le_self ..).trans_lt hvalue
  have hloops : (fun v => v * 10 % 2 ^ 64)^[a.mOffset.toNat] ((fun v => v / 10)^[(-a.mOffset).toNat] a.mValue) =
      nativeValue a.mValue a.mOffset := by
    rw [iterate_div, iterate_mul hquot, nativeValue]
  unfold canonicalizeNative
  rw [if_neg hne]
  simp only [hloops]

/-- The exact value, cut off at the point: the constructor throws where it is out of range, and
otherwise keeps it with its sign. -/
def KeepsValue (mantissa : Nat) (exponent : Int) (negative : Bool) : Prop :=
  (make xrpIssue mantissa exponent negative = none ↔ cMaxNativeN < ⌊(mantissa : ℚ) * 10 ^ exponent⌋₊) ∧
  ∀ a, make xrpIssue mantissa exponent negative = some a →
    a.xrp = some (if negative then -(⌊(mantissa : ℚ) * 10 ^ exponent⌋₊ : Int)
      else ⌊(mantissa : ℚ) * 10 ^ exponent⌋₊) ∧
    (a.mIsNegative = true ↔ negative = true ∧ ⌊(mantissa : ℚ) * 10 ^ exponent⌋₊ ≠ 0)

/-- The product does not come back into range when it is taken in 64 bits. -/
def StaysOut (mantissa : Nat) (exponent : Int) : Prop :=
  mantissa * 10 ^ exponent.toNat ≤ cMaxNativeN ∨ cMaxNativeN < mantissa * 10 ^ exponent.toNat % 2 ^ 64

def NegativeDust (mantissa : Nat) (exponent : Int) (negative : Bool) : Prop :=
  negative = true ∧ mantissa ≠ 0 ∧ mantissa < 10 ^ (-exponent).toNat

instance (mantissa : Nat) (exponent : Int) : Decidable (StaysOut mantissa exponent) :=
  inferInstanceAs (Decidable (_ ∨ _))

instance (mantissa : Nat) (exponent : Int) (negative : Bool) :
    Decidable (NegativeDust mantissa exponent negative) :=
  inferInstanceAs (Decidable (_ ∧ _))

theorem make_native (hm : mantissa < 2 ^ 64) (hne : mantissa ≠ 0) (exponent : Int) (negative : Bool) :
    make xrpIssue mantissa exponent negative =
      if nativeValue mantissa exponent > cMaxNativeN then none
      else some { mValue := nativeValue mantissa exponent, mIsNegative := negative } :=
  canonicalizeNative_eq (a := ⟨xrpIssue, mantissa, exponent, true, negative⟩) hm hne

theorem xrp_eq {value : Nat} (hvalue : value ≤ cMaxNativeN) (issue : Issue) (negative : Bool) :
    xrp { mIssue := issue, mValue := value, mIsNegative := negative } =
      some (if negative then -(value : Int) else value) := by
  unfold cMaxNativeN at hvalue
  have hpos : int64 value = value := int64_of_range (by omega) (by omega)
  have hneg : int64 (-value) = -value := int64_of_range (by omega) (by omega)
  simp only [xrp, if_true, hpos, hneg]

theorem nativeValue_eq (hm : mantissa < 2 ^ 64) (exponent : Int) : nativeValue mantissa exponent =
      if 0 < exponent then mantissa * 10 ^ exponent.toNat % 2 ^ 64 else ⌊(mantissa : ℚ) * 10 ^ exponent⌋₊ := by
  rw [nativeValue, floor_value]
  split
  · rw [show (-exponent).toNat = 0 by omega, pow_zero, Nat.div_one]
  · have hquot : mantissa / 10 ^ (-exponent).toNat < 2 ^ 64 := (Nat.div_le_self ..).trans_lt hm
    rw [show exponent.toNat = 0 by omega, pow_zero, Nat.mul_one, Nat.mul_one, Nat.mod_eq_of_lt hquot]

/-- The loops are exact, or there is no telling from what they leave that they are not. -/
theorem staysOut_iff (hm : mantissa < 2 ^ 64) (exponent : Int) : StaysOut mantissa exponent ↔
      (cMaxNativeN < nativeValue mantissa exponent ↔ cMaxNativeN < ⌊(mantissa : ℚ) * 10 ^ exponent⌋₊) := by
  rw [nativeValue_eq hm]
  split
  · rename_i hpos
    have hfloor : ⌊(mantissa : ℚ) * 10 ^ exponent⌋₊ = mantissa * 10 ^ exponent.toNat := by
      rw [floor_value, show (-exponent).toNat = 0 by omega, pow_zero, Nat.div_one]
    have hle : mantissa * 10 ^ exponent.toNat % 2 ^ 64 ≤ mantissa * 10 ^ exponent.toNat := Nat.mod_le _ _
    rw [StaysOut, hfloor]
    omega
  · rename_i hpos
    refine iff_of_true ?_ Iff.rfl
    rw [StaysOut, show exponent.toNat = 0 by omega, pow_zero, Nat.mul_one, Nat.mod_eq_of_lt hm]
    omega

theorem floor_eq_zero_iff (mantissa : Nat) (exponent : Int) :
    ⌊(mantissa : ℚ) * 10 ^ exponent⌋₊ = 0 ↔ mantissa < 10 ^ (-exponent).toNat := by
  rw [floor_value, Nat.div_eq_zero_iff_lt (by positivity)]
  rcases le_or_gt exponent 0 with h | h
  · rw [show exponent.toNat = 0 by omega, pow_zero, Nat.mul_one]
  · rw [show (-exponent).toNat = 0 by omega, pow_zero, Nat.lt_one_iff, Nat.lt_one_iff, Nat.mul_eq_zero]
    exact or_iff_left (by positivity)

theorem make_native_iff {mantissa : Nat} (hm : mantissa < 2 ^ 64) (exponent : Int) (negative : Bool) :
    KeepsValue mantissa exponent negative ↔
      StaysOut mantissa exponent ∧ ¬NegativeDust mantissa exponent negative := by
  by_cases hne : mantissa = 0
  · subst hne
    have hmake : make xrpIssue 0 exponent negative = some { mValue := 0 } := rfl
    refine iff_of_true ⟨?_, ?_⟩ ⟨.inl ?_, fun hdust => hdust.2.1 rfl⟩
    · simp [hmake]
    · intro a ha
      rw [hmake] at ha
      cases ha
      simp [xrp_eq (Nat.zero_le _)]
    · simp
  · rw [KeepsValue, make_native hm hne, staysOut_iff hm]
    constructor
    · rintro ⟨hthrow, hkeep⟩
      have hout : cMaxNativeN < nativeValue mantissa exponent ↔
          cMaxNativeN < ⌊(mantissa : ℚ) * 10 ^ exponent⌋₊ := by
        rw [← hthrow]
        split
        · rename_i hlt
          exact iff_of_true hlt rfl
        · rename_i hlt
          exact iff_of_false hlt nofun
      refine ⟨hout, ?_⟩
      rintro ⟨hneg, -, hlt⟩
      have hzero := (floor_eq_zero_iff mantissa exponent).mpr hlt
      have hsmall : ¬nativeValue mantissa exponent > cMaxNativeN := by
        rw [gt_iff_lt, hout, hzero]
        exact Nat.not_lt_zero _
      have hsign := (hkeep _ (if_neg hsmall)).2
      exact (hsign.mp hneg).2 hzero
    · rintro ⟨hout, hdust⟩
      by_cases hlt : cMaxNativeN < nativeValue mantissa exponent
      · rw [if_pos hlt]
        exact ⟨iff_of_true rfl (hout.mp hlt), nofun⟩
      · rw [if_neg hlt]
        refine ⟨iff_of_false nofun (hout.not.mp hlt), fun a ha => ?_⟩
        cases ha
        have hvalue : nativeValue mantissa exponent = ⌊(mantissa : ℚ) * 10 ^ exponent⌋₊ := by
          rw [nativeValue_eq hm]
          split
          · rename_i hpos
            have hfloor : ⌊(mantissa : ℚ) * 10 ^ exponent⌋₊ = mantissa * 10 ^ exponent.toNat := by
              rw [floor_value, show (-exponent).toNat = 0 by omega, pow_zero, Nat.div_one]
            have hsmall := hout.not.mp hlt
            rw [hfloor] at hsmall ⊢
            unfold cMaxNativeN at hsmall
            exact Nat.mod_eq_of_lt (by omega)
          · rfl
        rw [xrp_eq (not_lt.mp hlt), hvalue]
        refine ⟨rfl, fun hneg => ⟨hneg, fun hzero => ?_⟩, And.left⟩
        exact hdust ⟨hneg, hne, (floor_eq_zero_iff mantissa exponent).mp hzero⟩

theorem make_native_iff_drops : KeepsValue 75 5 true :=
  (make_native_iff (by decide) 5 true).mpr (by decide)

/-- `1e64` is out of range, but in 64 bits it is zero drops. -/
theorem native_wraps : make xrpIssue 1 64 false = some { mValue := 0 } ∧
    cMaxNativeN < ⌊((1 : ℕ) : ℚ) * 10 ^ (64 : ℤ)⌋₊ := by
  refine ⟨by decide +kernel, ?_⟩
  rw [floor_value]
  decide +kernel

/-! ## Issued amounts -/

theorem lt_minValue_iff : m < cMinValue ↔ numDigits m ≤ 15 := by
  rw [numDigits_le_iff]
  rfl

theorem gt_maxValue_iff : m > cMaxValue ↔ 16 < numDigits m := by
  rw [lt_numDigits_iff]
  exact Iff.rfl

theorem scaleUp_eq (rounds : Nat) : ∀ {m : Nat} {e : Int}, m ≠ 0 → 16 ≤ numDigits m + rounds →
    scaleUp rounds (m, e) =
      (m * 10 ^ min (16 - numDigits m) (e + 96).toNat, e - (min (16 - numDigits m) (e + 96).toNat : Nat)) := by
  induction rounds with
  | zero =>
    intro m e hm hrounds
    rw [scaleUp, show 16 - numDigits m = 0 by omega]
    simp
  | succ rounds ih =>
    intro m e hm hrounds
    rw [scaleUp]
    split
    · rename_i hguard
      rw [lt_minValue_iff, cMinOffset] at hguard
      have hdigits : numDigits (m * 10) = numDigits m + 1 := by
        rw [← pow_one 10, numDigits_mul_pow hm]
      have hless : min (16 - numDigits m) (e + 96).toNat =
          min (16 - numDigits (m * 10)) (e - 1 + 96).toNat + 1 := by omega
      rw [ih (by omega) (by omega), hless, pow_succ']
      refine Prod.ext ?_ ?_
      · ring
      · push_cast
        ring
    · rename_i hguard
      rw [lt_minValue_iff, cMinOffset] at hguard
      rw [show min (16 - numDigits m) (e + 96).toNat = 0 by omega]
      simp

theorem scaleDown_eq (rounds : Nat) : ∀ {m : Nat} {e : Int}, numDigits m ≤ 16 + rounds →
    scaleDown rounds (m, e) =
      if numDigits m ≤ 16 ∨ e + (numDigits m - 16 : Nat) ≤ 80 then
        some (m / 10 ^ (numDigits m - 16), e + (numDigits m - 16 : Nat))
      else none := by
  induction rounds with
  | zero =>
    intro m e hrounds
    rw [scaleDown, if_pos (.inl (by omega)), show numDigits m - 16 = 0 by omega]
    simp
  | succ rounds ih =>
    intro m e hrounds
    rw [scaleDown]
    split
    · rename_i hguard
      rw [gt_maxValue_iff] at hguard
      have hdigits : numDigits (m / 10) = numDigits m - 1 := by
        rw [← pow_one 10, numDigits_div_pow (by omega)]
      split
      · rename_i hmax
        rw [cMaxOffset] at hmax
        rw [if_neg (by omega)]
      · rename_i hmax
        rw [cMaxOffset] at hmax
        have hsplit : 10 * 10 ^ (numDigits m - 1 - 16) = 10 ^ (numDigits m - 16) := by
          rw [← pow_succ', show numDigits m - 1 - 16 + 1 = numDigits m - 16 by omega]
        rw [ih (by omega), hdigits, Nat.div_div_eq_div_mul, hsplit,
          show e + 1 + ((numDigits m - 1 - 16 : Nat) : Int) = e + (numDigits m - 16 : Nat) by omega]
        refine if_congr ?_ rfl rfl
        omega
    · rename_i hguard
      rw [gt_maxValue_iff] at hguard
      rw [if_pos (.inl (by omega)), show numDigits m - 16 = 0 by omega]
      simp

def lastExponent (m : Nat) (e : Int) : Int := e + numDigits m - 16

theorem canonicalizeIOU_of_zero (hzero : a.mValue = 0) :
    a.canonicalizeIOU = some (zeroOf a.mIssue false) := if_pos hzero

theorem canonicalizeIOU_eq (hvalue : a.mValue < 2 ^ 64) (hne : a.mValue ≠ 0) : a.canonicalizeIOU =
      if cMaxOffset < lastExponent a.mValue a.mOffset then none
      else if lastExponent a.mValue a.mOffset < cMinOffset then some (zeroOf a.mIssue false)
      else some { a with
        mIsNative := false, mValue := leading 16 a.mValue, mOffset := lastExponent a.mValue a.mOffset } := by
  have hpos := numDigits_pos hne
  have hmax : numDigits a.mValue ≤ 20 := numDigits_le_iff.mpr (hvalue.trans (by norm_num))
  unfold canonicalizeIOU lastExponent cMaxOffset cMinOffset
  rw [if_neg hne, scaleUp_eq 15 hne (by omega)]
  rcases le_or_gt (numDigits a.mValue) 16 with hle | hgt
  · -- the digits are padded, as far as the exponent allows
    generalize hk : min (16 - numDigits a.mValue) (a.mOffset + 96).toNat = k
    have hdigits : numDigits (a.mValue * 10 ^ k) = numDigits a.mValue + k := numDigits_mul_pow hne k
    rw [scaleDown_eq 4 (by omega), if_pos (.inl (by omega)), hdigits,
      show numDigits a.mValue + k - 16 = 0 by omega]
    simp only [pow_zero, Nat.div_one, Nat.cast_zero, add_zero, Option.bind_eq_bind, Option.bind_some,
      lt_minValue_iff, hdigits]
    by_cases hmin : a.mOffset + numDigits a.mValue - 16 < -96
    · rw [if_pos (by omega), if_neg (by omega), if_pos hmin]
    · obtain rfl : k = 16 - numDigits a.mValue := by omega
      rw [if_neg (by omega), leading_of_le hle,
        show a.mOffset - ((16 - numDigits a.mValue : Nat) : Int) = a.mOffset + numDigits a.mValue - 16 by omega,
        if_neg hmin]
  · -- the last digits are cut off
    rw [show 16 - numDigits a.mValue = 0 by omega, Nat.zero_min, pow_zero, Nat.mul_one, Nat.cast_zero, sub_zero,
      scaleDown_eq 4 (by omega),
      show a.mOffset + ((numDigits a.mValue - 16 : Nat) : Int) = a.mOffset + numDigits a.mValue - 16 by omega]
    by_cases hover : 80 < a.mOffset + numDigits a.mValue - 16
    · rw [if_neg (by omega), if_pos hover]
      rfl
    · rw [if_pos (by omega), if_neg hover, ← leading_of_ge hgt.le]
      have hdigits : numDigits (leading 16 a.mValue) = 16 := numDigits_leading (by decide) hne
      simp only [Option.bind_eq_bind, Option.bind_some, lt_minValue_iff, hdigits]
      by_cases hmin : a.mOffset + numDigits a.mValue - 16 < -96
      · rw [if_pos (.inl hmin), if_pos hmin]
      · rw [if_neg (by omega), if_neg hover, if_neg hmin]

end Ripple.Protocol.STAmount
