import Ripple.Protocol.STAmountCanonical

/-!
# Ripple.Protocol.IOUAmount

Amounts of issued currencies as a signed mantissa and an exponent, from `protocol/IOUAmount.h` and
`IOUAmount.cpp`, beside the `STAmount` that holds the same value as sign and magnitude. A function that
throws answers `none`.
-/

namespace Ripple.Protocol

open Decimal
open STAmount

@[ext] structure IOUAmount where
  mantissa : Int
  exponent : Int
deriving DecidableEq

namespace IOUAmount

def minMantissa : Int := 1000000000000000
def maxMantissa : Int := 9999999999999999
def minExponent : Int := -96
def maxExponent : Int := 80

def zero : IOUAmount := ⟨0, -100⟩

/-- `while ((mantissa_ < minMantissa) && (exponent_ > minExponent))`, at most 15 rounds. -/
def scaleUp : Nat → Int × Int → Int × Int
  | 0, p => p
  | rounds + 1, (mantissa, exponent) =>
    if mantissa < minMantissa ∧ exponent > minExponent then scaleUp rounds (mantissa * 10, exponent - 1)
    else (mantissa, exponent)

/-- `while (mantissa_ > maxMantissa)`, at most 4 rounds. -/
def scaleDown : Nat → Int × Int → Option (Int × Int)
  | 0, p => some p
  | rounds + 1, (mantissa, exponent) =>
    if mantissa > maxMantissa then
      if exponent ≥ maxExponent then none else scaleDown rounds (mantissa.tdiv 10, exponent + 1)
    else some (mantissa, exponent)

def normalize (a : IOUAmount) : Option IOUAmount :=
  if a.mantissa = 0 then some zero
  else do
    let negative := decide (a.mantissa < 0)
    let (mantissa, exponent) ← scaleDown 4 (scaleUp 15 (if negative then -a.mantissa else a.mantissa, a.exponent))
    if exponent < minExponent ∨ mantissa < minMantissa then some zero
    else if exponent > maxExponent then none
    else some ⟨if negative then -mantissa else mantissa, exponent⟩

/-- `operator+`. The sum of the mantissas stays within 64 bits. -/
def add (a other : IOUAmount) : Option IOUAmount :=
  if other = zero then some a
  else if a = zero then some other
  else
    let mantissa := shift a.mantissa (other.exponent - a.exponent) +
      shift other.mantissa (a.exponent - other.exponent)
    if mantissa ≥ -10 ∧ mantissa ≤ 10 then some zero
    else normalize ⟨mantissa, max a.exponent other.exponent⟩

/-- `operator<`. -/
def lt (a other : IOUAmount) : Bool :=
  let lneg := decide (a.mantissa < 0)
  let rneg := decide (other.mantissa < 0)
  if lneg ≠ rneg then lneg
  else if a.mantissa = 0 then other.mantissa > 0
  else if other.mantissa = 0 then false
  else if a.exponent > other.exponent then lneg
  else if a.exponent < other.exponent then !lneg
  else a.mantissa < other.mantissa

inductive Normalized : IOUAmount → Prop
  | zero : Normalized zero
  | digits {a : IOUAmount} : minMantissa ≤ a.mantissa.natAbs → a.mantissa.natAbs ≤ maxMantissa →
      minExponent ≤ a.exponent → a.exponent ≤ maxExponent → Normalized a

def value (a : IOUAmount) : ℚ := a.mantissa * 10 ^ a.exponent

end IOUAmount

namespace STAmount

def signed (a : STAmount) : IOUAmount := ⟨if a.mIsNegative then -(a.mValue : Int) else a.mValue, a.mOffset⟩

/-- `STAmount (IOUAmount const& amount, Issue const& issue)`. -/
def ofIOU (amount : IOUAmount) (issue : Issue) : Option STAmount :=
  canonicalize { mIssue := issue, mValue := amount.mantissa.natAbs, mOffset := amount.exponent,
                 mIsNative := false, mIsNegative := decide (amount.mantissa < 0) }

/-- `operator<`. -/
def lt (lhs rhs : STAmount) : Option Bool :=
  if !areComparable lhs rhs then none
  else if lhs.negative ≠ rhs.negative then some lhs.negative
  else if lhs.mValue = 0 then some (if rhs.negative then false else decide (rhs.mValue ≠ 0))
  else if rhs.mValue = 0 then some false
  else if lhs.mOffset > rhs.mOffset then some lhs.negative
  else if lhs.mOffset < rhs.mOffset then some !lhs.negative
  else if lhs.mValue > rhs.mValue then some lhs.negative
  else if lhs.mValue < rhs.mValue then some !lhs.negative
  else some false

end STAmount

namespace IOUAmount

/-! ## The two ways to canonicalize -/

def widen (p : Nat × Int) : Int × Int := (p.1, p.2)

theorem scaleUp_widen (rounds : Nat) :
    ∀ p : Nat × Int, scaleUp rounds (widen p) = widen (STAmount.scaleUp rounds p) := by
  induction rounds with
  | zero => exact fun _ => rfl
  | succ rounds ih =>
    rintro ⟨m, e⟩
    have hguard : ((m : Int) < minMantissa ∧ e > minExponent) ↔ m < cMinValue ∧ e > cMinOffset := by
      rw [minMantissa, minExponent, cMinValue, cMinOffset]
      omega
    rw [widen, scaleUp, STAmount.scaleUp]
    by_cases h : m < cMinValue ∧ e > cMinOffset
    · rw [if_pos (hguard.mpr h), if_pos h]
      exact ih (m * 10, e - 1)
    · rw [if_neg (hguard.not.mpr h), if_neg h]
      rfl

theorem scaleDown_widen (rounds : Nat) : ∀ p : Nat × Int,
    scaleDown rounds (widen p) = (STAmount.scaleDown rounds p).map widen := by
  induction rounds with
  | zero => exact fun _ => rfl
  | succ rounds ih =>
    rintro ⟨m, e⟩
    have hguard : (m : Int) > maxMantissa ↔ m > cMaxValue := by
      rw [maxMantissa, cMaxValue]
      omega
    rw [widen, scaleDown, STAmount.scaleDown]
    by_cases h : m > cMaxValue
    · rw [if_pos (hguard.mpr h), if_pos h]
      by_cases hmax : e ≥ cMaxOffset
      · rw [if_pos hmax]
        exact if_pos hmax
      · rw [if_neg hmax, ← ih]
        exact if_neg hmax
    · rw [if_neg (hguard.not.mpr h), if_neg h]
      rfl

theorem normalize_eq (issue : Issue) (isNative : Bool) (a : IOUAmount) :
    normalize a = (canonicalizeIOU ⟨issue, a.mantissa.natAbs, a.exponent, isNative,
      decide (a.mantissa < 0)⟩).map signed := by
  unfold normalize canonicalizeIOU
  by_cases hzero : a.mantissa = 0
  · rw [if_pos hzero, if_pos (by simp [hzero])]
    rfl
  · have habs : (if decide (a.mantissa < 0) = true then -a.mantissa else a.mantissa) =
        (a.mantissa.natAbs : Int) := by
      simp only [decide_eq_true_eq]
      split <;> omega
    rw [if_neg hzero, if_neg (by simp [hzero])]
    have hloops :=
      (congrArg (scaleDown 4) (scaleUp_widen 15 (a.mantissa.natAbs, a.exponent))).trans (scaleDown_widen 4 _)
    rw [widen] at hloops
    simp only [habs, hloops]
    cases STAmount.scaleDown 4 (STAmount.scaleUp 15 (a.mantissa.natAbs, a.exponent)) with
    | none => rfl
    | some p =>
      obtain ⟨m, e⟩ := p
      have hmin : (m : Int) < minMantissa ↔ m < cMinValue := by
        rw [minMantissa, cMinValue]
        omega
      simp only [widen, Option.map_some, Option.bind_eq_bind, Option.bind_some, hmin, minExponent, maxExponent,
        cMinOffset, cMaxOffset]
      by_cases hlow : e < -96 ∨ m < cMinValue
      · simp only [hlow, if_true]
        rfl
      · simp only [hlow, if_false]
        by_cases hmax : e > 80
        · simp only [hmax, if_true]
          rfl
        · simp only [hmax, if_false]
          rfl

end IOUAmount

namespace STAmount

variable {m : Nat} {a r : STAmount}

theorem le_value_ten (hm : m ≠ 0) (e : Int) :
    (10 : ℚ) ^ 96 ≤ m * 10 ^ e ↔ cMaxOffset < lastExponent m e := by
  have h := le_value_iff hm e 96
  rw [show ((10 : ℚ) ^ (96 : ℤ)) = 10 ^ 96 from zpow_ofNat 10 96] at h
  rw [h, cMaxOffset, lastExponent]
  omega

theorem value_lt_ten (hm : m ≠ 0) (e : Int) :
    (m : ℚ) * 10 ^ e < 10 ^ (-81 : ℤ) ↔ lastExponent m e < cMinOffset := by
  rw [← not_le, le_value_iff hm, cMinOffset, lastExponent]
  omega

theorem ne_zero_of_numDigits (h : numDigits m = 16) : m ≠ 0 := by
  rintro rfl
  cases h

theorem canonicalizeIOU_self (hdigits : numDigits a.mValue = 16) (hlo : cMinOffset ≤ a.mOffset)
    (hhi : a.mOffset ≤ cMaxOffset) : a.canonicalizeIOU = some { a with mIsNative := false } := by
  have hne := ne_zero_of_numDigits hdigits
  have hvalue : a.mValue < 2 ^ 64 := (lt_pow_numDigits a.mValue).trans_le (by rw [hdigits]; norm_num)
  have hlast : lastExponent a.mValue a.mOffset = a.mOffset := by
    rw [lastExponent, hdigits]
    omega
  rw [canonicalizeIOU_eq hvalue hne, hlast, if_neg (by omega), if_neg (by omega), leading_self hdigits]

theorem canonicalizeIOU_cases (hvalue : a.mValue < 2 ^ 64) (h : a.canonicalizeIOU = some r) :
    (r = zeroOf a.mIssue false ∧ (a.mValue = 0 ∨ lastExponent a.mValue a.mOffset < cMinOffset)) ∨
      (a.mValue ≠ 0 ∧ cMinOffset ≤ lastExponent a.mValue a.mOffset ∧
        lastExponent a.mValue a.mOffset ≤ cMaxOffset ∧
        r = ⟨a.mIssue, leading 16 a.mValue, lastExponent a.mValue a.mOffset, false, a.mIsNegative⟩) := by
  by_cases hne : a.mValue = 0
  · rw [canonicalizeIOU_of_zero hne] at h
    cases h
    exact .inl ⟨rfl, .inl hne⟩
  · rw [canonicalizeIOU_eq hvalue hne] at h
    split at h
    · cases h
    · split at h
      · rename_i hlow
        cases h
        exact .inl ⟨rfl, .inr hlow⟩
      · cases h
        exact .inr ⟨hne, by omega, by omega, rfl⟩

theorem canonicalizeIOU_idem (hvalue : a.mValue < 2 ^ 64) (h : a.canonicalizeIOU = some r) :
    r.canonicalizeIOU = some r ∧ r.mIssue = a.mIssue := by
  obtain ⟨rfl, -⟩ | ⟨hne, hlo, hhi, rfl⟩ := canonicalizeIOU_cases hvalue h
  · exact ⟨rfl, rfl⟩
  · exact ⟨canonicalizeIOU_self (numDigits_leading (by decide) hne) hlo hhi, rfl⟩

theorem canonicalize_of_issued (hissue : isXRP a.mIssue.currency = false) :
    a.canonicalize = a.canonicalizeIOU := by
  rw [canonicalize, hissue]
  rfl

/-- `canonicalize` on an issued amount, and `IOUAmount::normalize` beside it. -/
theorem canonicalize_issued {a : STAmount} (hissue : isXRP a.mIssue.currency = false) (hvalue : a.mValue < 2 ^ 64) :
    (a.canonicalize = none ↔ (10 : ℚ) ^ 96 ≤ a.mValue * 10 ^ a.mOffset) ∧
    (a.canonicalize = some (zeroOf a.mIssue false) ↔ (a.mValue : ℚ) * 10 ^ a.mOffset < 10 ^ (-81 : ℤ)) ∧
    ((10 : ℚ) ^ (-81 : ℤ) ≤ a.mValue * 10 ^ a.mOffset → (a.mValue : ℚ) * 10 ^ a.mOffset < 10 ^ 96 →
      a.canonicalize =
        some ⟨a.mIssue, leading 16 a.mValue, a.mOffset + numDigits a.mValue - 16, false, a.mIsNegative⟩ ∧
      -96 ≤ a.mOffset + numDigits a.mValue - 16 ∧ a.mOffset + numDigits a.mValue - 16 ≤ 80) ∧
    (∀ r, a.canonicalize = some r → r.canonicalize = some r) ∧
    ∀ mantissa : Int, -2 ^ 63 < mantissa → mantissa < 2 ^ 63 →
      IOUAmount.normalize ⟨mantissa, a.mOffset⟩ =
        (canonicalize { a with mValue := mantissa.natAbs, mIsNegative := decide (mantissa < 0) }).map signed := by
  have hidem : ∀ r, a.canonicalize = some r → r.canonicalize = some r := by
    intro r hr
    rw [canonicalize_of_issued hissue] at hr
    obtain ⟨hself, hsame⟩ := canonicalizeIOU_idem hvalue hr
    rw [canonicalize_of_issued (by rw [hsame]; exact hissue), hself]
  have hiou : ∀ mantissa : Int, -2 ^ 63 < mantissa → mantissa < 2 ^ 63 →
      IOUAmount.normalize ⟨mantissa, a.mOffset⟩ =
        (canonicalize { a with mValue := mantissa.natAbs, mIsNegative := decide (mantissa < 0) }).map signed := by
    intro mantissa _ _
    rw [canonicalize_of_issued
      (a := ⟨a.mIssue, mantissa.natAbs, a.mOffset, a.mIsNative, decide (mantissa < 0)⟩) hissue]
    exact IOUAmount.normalize_eq a.mIssue a.mIsNative ⟨mantissa, a.mOffset⟩
  by_cases hne : a.mValue = 0
  · have hcanon : a.canonicalize = some (zeroOf a.mIssue false) := by
      rw [canonicalize_of_issued hissue, canonicalizeIOU_of_zero hne]
    have hpos : (0 : ℚ) < 10 ^ (-81 : ℤ) := zpow_pos (by norm_num) _
    refine ⟨?_, ?_, ?_, hidem, hiou⟩
    · simp [hcanon, hne]
    · simp [hcanon, hne]
    · intro hle
      simp only [hne, Nat.cast_zero, zero_mul] at hle
      exact absurd hle (not_le.mpr hpos)
  · have hlead : leading 16 a.mValue ≠ 0 := ne_zero_of_numDigits (numDigits_leading (by decide) hne)
    have heq := canonicalizeIOU_eq hvalue hne
    rw [← canonicalize_of_issued hissue] at heq
    refine ⟨?_, ?_, ?_, hidem, hiou⟩
    · rw [le_value_ten hne, heq]
      by_cases hover : cMaxOffset < lastExponent a.mValue a.mOffset
      · simp [hover]
      · rw [if_neg hover]
        refine iff_of_false ?_ hover
        split
        · simp
        · simp
    · rw [value_lt_ten hne, heq]
      by_cases hover : cMaxOffset < lastExponent a.mValue a.mOffset
      · rw [if_pos hover]
        refine iff_of_false (by simp) ?_
        unfold cMaxOffset at hover
        unfold cMinOffset
        omega
      · rw [if_neg hover]
        by_cases hunder : lastExponent a.mValue a.mOffset < cMinOffset
        · simp [hunder]
        · rw [if_neg hunder]
          refine iff_of_false (fun h => hlead ?_) hunder
          exact congrArg mValue (Option.some.inj h)
    · intro hlo hhi
      have hover : ¬cMaxOffset < lastExponent a.mValue a.mOffset := (le_value_ten hne _).not.mp (not_le.mpr hhi)
      have hunder : ¬lastExponent a.mValue a.mOffset < cMinOffset := (value_lt_ten hne _).not.mp (not_lt.mpr hlo)
      rw [if_neg hover, if_neg hunder] at heq
      exact ⟨heq, not_lt.mp hunder, not_lt.mp hover⟩

/-- A mantissa of 20 digits loses the last four. -/
theorem canonicalize_issued_long :
    canonicalize ⟨⟨1, 2⟩, 12345678901234567890, -5, true, true⟩ =
      some ⟨⟨1, 2⟩, 1234567890123456, -1, false, true⟩ := by
  have h := (canonicalize_issued (a := ⟨⟨1, 2⟩, 12345678901234567890, -5, true, true⟩) rfl (by decide)).2.2.1
    (by norm_num) (by norm_num)
  rw [h.1]
  decide +kernel

end STAmount

namespace IOUAmount

/-! ## Sums -/

def amountOf (issue : Issue) (a : IOUAmount) : STAmount :=
  ⟨issue, a.mantissa.natAbs, a.exponent, false, decide (a.mantissa < 0)⟩

variable {a : IOUAmount} {m : Nat} {b : IOUAmount} {issue : Issue} {e : Int} {n : Nat} {f : Int}
  {c : IOUAmount}

theorem Normalized.cases (h : Normalized a) :
    a = IOUAmount.zero ∨ (numDigits a.mantissa.natAbs = 16 ∧ -96 ≤ a.exponent ∧ a.exponent ≤ 80) := by
  cases h with
  | zero => exact .inl rfl
  | digits hlo hhi hmin hmax =>
    unfold minMantissa at hlo
    unfold maxMantissa at hhi
    exact .inr ⟨numDigits_eq (by norm_num; omega) (by norm_num; omega), hmin, hmax⟩

theorem lt_of_numDigits (h : numDigits m = 16) : 1000000000000000 ≤ m ∧ m < 10000000000000000 := by
  have hlo : 10 ^ 15 ≤ m := lt_numDigits_iff.mp (by omega)
  have hhi : m < 10 ^ 16 := numDigits_le_iff.mp h.le
  omega

section Issued

variable {issue : Issue} (hissue : isXRP issue.currency = false)

include hissue

theorem ofIOU_eq (a : IOUAmount) : ofIOU a issue = (amountOf issue a).canonicalizeIOU :=
  canonicalize_of_issued hissue

theorem ofIOU_normalized {a : IOUAmount} (h : Normalized a) : ofIOU a issue = some (amountOf issue a) := by
  rw [ofIOU_eq hissue]
  obtain rfl | ⟨hdigits, hlo, hhi⟩ := h.cases
  · rfl
  · exact canonicalizeIOU_self hdigits hlo hhi

theorem ofIOU_signed {a r : STAmount} (ha : a.mIssue = issue) (hvalue : a.mValue < 2 ^ 64)
    (h : a.canonicalizeIOU = some r) : ofIOU r.signed issue = some r := by
  rw [ofIOU_eq hissue]
  obtain ⟨rfl, -⟩ | ⟨hne, hlo, hhi, rfl⟩ := canonicalizeIOU_cases hvalue h
  · rw [ha]
    rfl
  · have hdigits : numDigits (leading 16 a.mValue) = 16 := numDigits_leading (by decide) hne
    have hlead := ne_zero_of_numDigits hdigits
    have hsame : amountOf issue (signed ⟨a.mIssue, leading 16 a.mValue,
        lastExponent a.mValue a.mOffset, false, a.mIsNegative⟩) =
          ⟨a.mIssue, leading 16 a.mValue, lastExponent a.mValue a.mOffset, false, a.mIsNegative⟩ := by
      rw [amountOf, ha]
      cases a.mIsNegative with
      | false => simp [signed]
      | true => simp [signed, Nat.pos_of_ne_zero hlead]
    rw [hsame, canonicalizeIOU_self hdigits hlo hhi]

end Issued

theorem natAbs_shift_le (v places : Int) : (shift v places).natAbs ≤ v.natAbs := by
  rw [shift, iterate_tdiv, Int.natAbs_tdiv]
  exact Nat.div_le_self _ _

def sumMantissa (a b : IOUAmount) : Int :=
  shift a.mantissa (b.exponent - a.exponent) + shift b.mantissa (a.exponent - b.exponent)

theorem natAbs_sumMantissa (ha : numDigits a.mantissa.natAbs = 16)
    (hb : numDigits b.mantissa.natAbs = 16) : (sumMantissa a b).natAbs < 20000000000000000 := by
  have h1 := natAbs_shift_le a.mantissa (b.exponent - a.exponent)
  have h2 := natAbs_shift_le b.mantissa (a.exponent - b.exponent)
  have h3 := (lt_of_numDigits ha).2
  have h4 := (lt_of_numDigits hb).2
  unfold sumMantissa
  omega

theorem sumMantissa_comm (a b : IOUAmount) : sumMantissa a b = sumMantissa b a := Int.add_comm _ _

theorem add_zero_right (a : IOUAmount) : add a zero = some a := if_pos rfl

theorem add_zero_left (b : IOUAmount) : add zero b = some b := by
  rw [add]
  split
  · next h => rw [h]
  · exact if_pos rfl

theorem add_of_digits (ha : numDigits a.mantissa.natAbs = 16)
    (hb : numDigits b.mantissa.natAbs = 16) :
    add a b = if sumMantissa a b ≥ -10 ∧ sumMantissa a b ≤ 10 then some zero
      else normalize ⟨sumMantissa a b, max a.exponent b.exponent⟩ := by
  have hane : a ≠ zero := fun h => ne_zero_of_numDigits ha (by rw [h]; rfl)
  have hbne : b ≠ zero := fun h => ne_zero_of_numDigits hb (by rw [h]; rfl)
  rw [add, if_neg hbne, if_neg hane]
  rfl

theorem signedValue_amountOf (h : numDigits a.mantissa.natAbs = 16) :
    (amountOf issue a).signedValue = a.mantissa := by
  have hlt := (lt_of_numDigits h).2
  have hpos : int64 (a.mantissa.natAbs : Int) = a.mantissa.natAbs := int64_of_range (by omega) (by omega)
  have hneg : int64 (-(a.mantissa.natAbs : Int)) = -a.mantissa.natAbs := int64_of_range (by omega) (by omega)
  simp only [STAmount.signedValue, amountOf, decide_eq_true_eq, hpos, hneg]
  split <;> omega

theorem signum_amountOf (issue : Issue) (a : IOUAmount) : (amountOf issue a).signum = 0 ↔ a.mantissa = 0 := by
  by_cases hzero : a.mantissa = 0
  · simp [STAmount.signum, amountOf, hzero]
  · by_cases hneg : a.mantissa < 0
    · simp [STAmount.signum, amountOf, hzero, hneg]
    · simp [STAmount.signum, amountOf, hzero, hneg]

theorem addIOU_amountOf (ha : numDigits a.mantissa.natAbs = 16)
    (hb : numDigits b.mantissa.natAbs = 16) :
    addIOU (amountOf issue a) (amountOf issue b) =
      if -10 ≤ sumMantissa a b ∧ sumMantissa a b ≤ 10 then STAmount.make issue 0 0 false
      else STAmount.make issue (sumMantissa a b).natAbs (max a.exponent b.exponent)
        (decide (sumMantissa a b < 0)) := by
  have hsum := natAbs_sumMantissa ha hb
  have hfv : int64 (sumMantissa a b) = sumMantissa a b := int64_of_range (by omega) (by omega)
  have hshift : int64 (STAmount.shift (amountOf issue a).signedValue
        ((amountOf issue b).mOffset - (amountOf issue a).mOffset) +
      STAmount.shift (amountOf issue b).signedValue ((amountOf issue a).mOffset - (amountOf issue b).mOffset)) =
        sumMantissa a b := by
    rw [signedValue_amountOf ha, signedValue_amountOf hb]
    exact hfv
  unfold addIOU
  simp only [hshift]
  rfl

theorem add_amountOf (hissue : isXRP issue.currency = false) (ha : Normalized a) (hb : Normalized b) :
    (add a b).bind (fun c => ofIOU c issue) =
      STAmount.add (amountOf issue a) (amountOf issue b) := by
  have hcomparable : areComparable (amountOf issue a) (amountOf issue b) = true := by
    simp [areComparable, STAmount.native, STAmount.issue, amountOf]
  have hmake : ∀ (m : Nat) (e : Int) (negative : Bool), STAmount.make issue m e negative =
      canonicalizeIOU ⟨issue, m, e, true, negative⟩ := fun _ _ _ => canonicalize_of_issued hissue
  have hnative : (amountOf issue a).native = false := rfl
  rw [STAmount.add, hcomparable, hnative]
  simp only [Bool.not_true, Bool.false_eq_true, if_false, signum_amountOf]
  obtain rfl | ⟨hbdigits, -, -⟩ := hb.cases
  · rw [add_zero_right, if_pos (show zero.mantissa = 0 from rfl)]
    exact ofIOU_normalized hissue ha
  have hbne : b.mantissa ≠ 0 := by simpa using ne_zero_of_numDigits hbdigits
  rw [if_neg hbne]
  obtain rfl | ⟨hadigits, -, -⟩ := ha.cases
  · rw [add_zero_left, if_pos (show zero.mantissa = 0 from rfl), Option.bind_some, ofIOU_eq hissue]
    exact (hmake _ _ _).symm
  have hane : a.mantissa ≠ 0 := by simpa using ne_zero_of_numDigits hadigits
  rw [if_neg hane, add_of_digits hadigits hbdigits, addIOU_amountOf hadigits hbdigits]
  by_cases hsmall : -10 ≤ sumMantissa a b ∧ sumMantissa a b ≤ 10
  · rw [if_pos hsmall, if_pos hsmall, Option.bind_some, ofIOU_eq hissue, hmake,
      canonicalizeIOU_of_zero (a := amountOf issue zero) rfl, canonicalizeIOU_of_zero rfl]
    rfl
  · have hsum := natAbs_sumMantissa hadigits hbdigits
    have hvalue : (sumMantissa a b).natAbs < 2 ^ 64 := by omega
    rw [if_neg hsmall, if_neg hsmall, normalize_eq issue true, hmake]
    cases hcanon : canonicalizeIOU ⟨issue, (sumMantissa a b).natAbs, max a.exponent b.exponent, true,
        decide (sumMantissa a b < 0)⟩ with
    | none => rfl
    | some r => exact ofIOU_signed hissue rfl hvalue hcanon

theorem add_comm (ha : Normalized a) (hb : Normalized b) : add a b = add b a := by
  obtain rfl | ⟨hadigits, -, -⟩ := ha.cases
  · rw [add_zero_left, add_zero_right]
  · obtain rfl | ⟨hbdigits, -, -⟩ := hb.cases
    · rw [add_zero_left, add_zero_right]
    · rw [add_of_digits hadigits hbdigits, add_of_digits hbdigits hadigits, sumMantissa_comm, max_comm]

/-! ## Comparisons -/

theorem cast_of_nonneg {s : Int} (h : ¬s < 0) : (s : ℚ) = (s.natAbs : ℚ) := by
  rw [← Int.cast_natCast, Int.natAbs_of_nonneg (not_lt.mp h)]

theorem cast_of_neg {s : Int} (h : s < 0) : (s : ℚ) = -(s.natAbs : ℚ) := by
  rw [← Int.cast_natCast, Int.ofNat_natAbs_of_nonpos h.le, Int.cast_neg, neg_neg]

theorem value_of_nonneg (h : ¬a.mantissa < 0) : a.value = (a.mantissa.natAbs : ℚ) * 10 ^ a.exponent := by
  rw [value, cast_of_nonneg h]

theorem value_of_neg (h : a.mantissa < 0) : a.value = -((a.mantissa.natAbs : ℚ) * 10 ^ a.exponent) := by
  rw [value, cast_of_neg h, neg_mul]

theorem lt_of_exponent_lt (hm : numDigits m = 16) (hn : numDigits n = 16) (h : e < f) :
    (m : ℚ) * 10 ^ e < n * 10 ^ f := by
  have hlt : (m : ℚ) * 10 ^ e < 10 ^ (e + 16) :=
    not_le.mp ((le_value_iff (ne_zero_of_numDigits hm) e (e + 16)).not.mpr (by omega))
  have hle : (10 : ℚ) ^ (e + 16) ≤ n * 10 ^ f :=
    (le_value_iff (ne_zero_of_numDigits hn) f (e + 16)).mpr (by omega)
  exact hlt.trans_le hle

theorem magnitude_lt_iff (hm : numDigits m = 16) (hn : numDigits n = 16) :
    (m : ℚ) * 10 ^ e < n * 10 ^ f ↔ e < f ∨ (e = f ∧ m < n) := by
  rcases lt_trichotomy e f with h | rfl | h
  · exact iff_of_true (lt_of_exponent_lt hm hn h) (.inl h)
  · rw [mul_lt_mul_iff_left₀ (zpow_pos (by norm_num : (0 : ℚ) < 10) e), Nat.cast_lt]
    simp
  · refine iff_of_false (lt_of_exponent_lt hn hm h).not_gt ?_
    omega

theorem value_pos_of_digits (hm : numDigits m = 16) (e : Int) : (0 : ℚ) < m * 10 ^ e :=
  mul_pos (Nat.cast_pos.mpr (Nat.pos_of_ne_zero (ne_zero_of_numDigits hm))) (zpow_pos (by norm_num) e)

theorem value_nonneg (h : ¬a.mantissa < 0) : 0 ≤ a.value := by
  rw [value_of_nonneg h]
  exact mul_nonneg (Nat.cast_nonneg _) (zpow_nonneg (by norm_num) _)

theorem Normalized.value_neg (ha : Normalized a) (h : a.mantissa < 0) : a.value < 0 := by
  obtain rfl | ⟨hdigits, -, -⟩ := ha.cases
  · exact absurd h (by decide)
  · rw [value_of_neg h]
    exact neg_neg_of_pos (value_pos_of_digits hdigits _)

theorem lt_iff_value (ha : Normalized a) (hb : Normalized b) :
    lt a b = true ↔ a.value < b.value := by
  unfold lt
  by_cases hlneg : a.mantissa < 0
  · by_cases hrneg : b.mantissa < 0
    · -- both below zero: the larger magnitude is less
      have hadigits := (ha.cases.resolve_left (by rintro rfl; exact absurd hlneg (by decide))).1
      have hbdigits := (hb.cases.resolve_left (by rintro rfl; exact absurd hrneg (by decide))).1
      simp only [hlneg, hrneg, decide_true, ne_eq, not_true_eq_false, if_false, Bool.not_true,
        show a.mantissa ≠ 0 by omega, show b.mantissa ≠ 0 by omega]
      rw [value_of_neg hlneg, value_of_neg hrneg, neg_lt_neg_iff, magnitude_lt_iff hbdigits hadigits]
      rcases lt_trichotomy a.exponent b.exponent with h | h | h
      · rw [if_neg (by omega), if_pos h]
        exact iff_of_false nofun (by omega)
      · rw [if_neg (by omega), if_neg (by omega), decide_eq_true_eq]
        omega
      · rw [if_pos h]
        exact iff_of_true rfl (.inl h)
    · simp only [hlneg, hrneg, decide_true, decide_false, ne_eq, Bool.true_eq_false, not_false_eq_true,
        if_true, true_iff]
      exact (ha.value_neg hlneg).trans_le (value_nonneg hrneg)
  · by_cases hrneg : b.mantissa < 0
    · simp only [hlneg, hrneg, decide_true, decide_false, ne_eq, Bool.false_eq_true, not_false_eq_true, if_true,
        false_iff, not_lt]
      exact (hb.value_neg hrneg).le.trans (value_nonneg hlneg)
    · simp only [hlneg, hrneg, decide_false, ne_eq, not_true_eq_false, if_false, Bool.not_false]
      rw [value_of_nonneg hlneg, value_of_nonneg hrneg]
      obtain rfl | ⟨hadigits, -, -⟩ := ha.cases
      · rw [if_pos (show zero.mantissa = 0 from rfl)]
        obtain rfl | ⟨hbdigits, -, -⟩ := hb.cases
        · simp [zero]
        · have hpos := value_pos_of_digits hbdigits b.exponent
          have hne := ne_zero_of_numDigits hbdigits
          refine iff_of_true (decide_eq_true (by omega)) ?_
          simpa [zero] using hpos
      · have hane := ne_zero_of_numDigits hadigits
        rw [if_neg (by omega)]
        obtain rfl | ⟨hbdigits, -, -⟩ := hb.cases
        · rw [if_pos (show zero.mantissa = 0 from rfl)]
          refine iff_of_false nofun (not_lt.mpr ?_)
          simpa [zero] using (value_pos_of_digits hadigits a.exponent).le
        · have hbne := ne_zero_of_numDigits hbdigits
          rw [if_neg (by omega), magnitude_lt_iff hadigits hbdigits]
          rcases lt_trichotomy a.exponent b.exponent with h | h | h
          · rw [if_neg (by omega), if_pos h]
            exact iff_of_true rfl (.inl h)
          · rw [if_neg (by omega), if_neg (by omega), decide_eq_true_eq]
            omega
          · rw [if_pos h]
            exact iff_of_false nofun (by omega)

theorem lt_mk (issue : Issue) (m n : Nat) (e f : Int) (s t : Bool) :
    STAmount.lt ⟨issue, m, e, false, s⟩ ⟨issue, n, f, false, t⟩ =
      if s ≠ t then some s
      else if m = 0 then some (if t then false else decide (n ≠ 0))
      else if n = 0 then some false
      else if e > f then some s
      else if e < f then some !s
      else if m > n then some s
      else if m < n then some !s
      else some false := by
  have hcomparable : areComparable ⟨issue, m, e, false, s⟩ ⟨issue, n, f, false, t⟩ = true := by
    simp [areComparable, STAmount.native, STAmount.issue]
  rw [STAmount.lt, hcomparable]
  rfl

theorem lt_amountOf (issue : Issue) (a b : IOUAmount) :
    STAmount.lt (amountOf issue a) (amountOf issue b) = some (lt a b) := by
  rw [amountOf, amountOf, lt_mk]
  unfold lt
  by_cases hsign : decide (a.mantissa < 0) = decide (b.mantissa < 0)
  · rw [if_neg (not_not.mpr hsign), if_neg (not_not.mpr hsign)]
    have hsign' : a.mantissa < 0 ↔ b.mantissa < 0 := decide_eq_decide.mp hsign
    by_cases ha : a.mantissa = 0
    · have hb : ¬decide (b.mantissa < 0) = true := by
        rw [decide_eq_true_eq]
        omega
      rw [if_pos (by omega), if_pos ha, if_neg hb]
      exact congrArg some (decide_eq_decide.mpr (by omega))
    · rw [if_neg (by omega), if_neg ha]
      by_cases hb : b.mantissa = 0
      · rw [if_pos (by omega), if_pos hb]
      · rw [if_neg (by omega), if_neg hb]
        rcases lt_trichotomy a.exponent b.exponent with h | h | h
        · rw [if_neg (by omega), if_pos h, if_neg (by omega), if_pos h]
        · simp only [h, gt_iff_lt, lt_self_iff_false, if_false]
          rcases lt_trichotomy a.mantissa.natAbs b.mantissa.natAbs with hm | hm | hm
          · rw [if_neg (by omega), if_pos hm, ← decide_not]
            exact congrArg some (decide_eq_decide.mpr (by omega))
          · rw [if_neg (by omega), if_neg (by omega)]
            exact congrArg some (decide_eq_false (by omega)).symm
          · rw [if_pos hm]
            exact congrArg some (decide_eq_decide.mpr (by omega))
        · rw [if_pos h, if_pos h]
  · rw [if_pos hsign, if_pos hsign]

/-! ## The error of a sum -/

theorem shift_error (v e : Int) (n : Nat) : |(shift v n : ℚ) * 10 ^ (e + n) - v * 10 ^ e| < 10 ^ (e + n) := by
  have hten : (0 : ℚ) < 10 ^ e := zpow_pos (by norm_num) e
  have hsplit : (10 : ℚ) ^ (e + n) = ((10 ^ n : ℕ) : ℚ) * 10 ^ e := by
    push_cast
    rw [zpow_add₀ (by norm_num), zpow_natCast, mul_comm]
  have hcut : |(shift v n : ℚ) * (10 ^ n : ℕ) - v| < (10 ^ n : ℕ) := by
    rw [shift, Int.toNat_natCast, iterate_tdiv]
    exact tdiv_error v _ (by positivity)
  calc |(shift v n : ℚ) * 10 ^ (e + n) - v * 10 ^ e|
      = |((shift v n : ℚ) * (10 ^ n : ℕ) - v) * 10 ^ e| := by rw [hsplit, sub_mul, mul_assoc]
    _ = |(shift v n : ℚ) * (10 ^ n : ℕ) - v| * 10 ^ e := by rw [abs_mul, abs_of_pos hten]
    _ < (10 ^ n : ℕ) * 10 ^ e := mul_lt_mul_of_pos_right hcut hten
    _ = 10 ^ (e + n) := hsplit.symm

theorem shift_of_nonpos {v places : Int} (h : places ≤ 0) : shift v places = v := by
  rw [shift, Int.toNat_of_nonpos h]
  rfl

/-- Only the operand with the smaller exponent loses digits. -/
theorem sumMantissa_error (a b : IOUAmount) :
    |(sumMantissa a b : ℚ) * 10 ^ max a.exponent b.exponent - (a.value + b.value)| <
      10 ^ max a.exponent b.exponent := by
  wlog h : a.exponent ≤ b.exponent generalizing a b
  · rw [sumMantissa_comm, max_comm, AddCommMagma.add_comm a.value]
    exact this b a (le_of_not_ge h)
  obtain ⟨n, hn⟩ := Int.eq_ofNat_of_zero_le (sub_nonneg.mpr h)
  have hb : b.exponent = a.exponent + n := by omega
  have herror := shift_error a.mantissa a.exponent n
  rw [max_eq_right h, sumMantissa, hn, shift_of_nonpos (by omega : a.exponent - b.exponent ≤ 0)]
  refine lt_of_eq_of_lt (congrArg abs ?_) (hb ▸ herror)
  rw [value, value]
  push_cast
  ring

theorem normalize_error {s : Int} (hs : s.natAbs < 100000000000000000)
    (h : normalize ⟨s, e⟩ = some c) :
    |c.value - s * 10 ^ e| < 10 * 10 ^ e ∨ (c = zero ∧ |(s : ℚ) * 10 ^ e| < 10 ^ (-81 : ℤ)) := by
  have hten : (0 : ℚ) < 10 ^ e := zpow_pos (by norm_num) e
  have habs : |(s : ℚ) * 10 ^ e| = s.natAbs * 10 ^ e := by
    rw [abs_mul, abs_of_pos hten, Nat.cast_natAbs, Int.cast_abs]
  rw [normalize_eq ⟨1, 1⟩ false, Option.map_eq_some_iff] at h
  obtain ⟨r, hr, rfl⟩ := h
  have hvalue : s.natAbs < 2 ^ 64 := by omega
  obtain ⟨rfl, hsmall⟩ | ⟨hne, -, -, rfl⟩ := canonicalizeIOU_cases hvalue hr
  · refine .inr ⟨rfl, ?_⟩
    rw [habs]
    by_cases hzero : s.natAbs = 0
    · rw [hzero, Nat.cast_zero, zero_mul]
      exact zpow_pos (by norm_num) _
    · exact (STAmount.value_lt_ten hzero e).mpr (hsmall.resolve_left hzero)
  · left
    have hne' : s.natAbs ≠ 0 := hne
    -- the digits of the magnitude
    have herror : |(leading 16 s.natAbs : ℚ) * 10 ^ lastExponent s.natAbs e - s.natAbs * 10 ^ e| <
        10 * 10 ^ e := by
      have hpos : (0 : ℚ) < 10 * 10 ^ e := mul_pos (by norm_num) hten
      rw [lastExponent]
      rcases le_or_gt (numDigits s.natAbs) 16 with hle | hgt
      · have hexact := leading_value_of_le hle e
        rw [Nat.cast_ofNat] at hexact
        rw [hexact, sub_self, abs_zero]
        exact hpos
      · have hdigits : numDigits s.natAbs = 17 :=
          le_antisymm (numDigits_le_iff.mpr (hs.trans_eq (by norm_num))) hgt
        have hplace : e + ((numDigits s.natAbs : ℕ) : ℤ) - 16 = e + 1 := by omega
        obtain ⟨hlo, hhi⟩ := leading_value_of_ge hgt.le e
        rw [Nat.cast_ofNat, hplace, zpow_add_one₀ (by norm_num)] at hlo hhi
        rw [hplace, zpow_add_one₀ (by norm_num), abs_lt]
        constructor
        · linarith
        · linarith
    rw [value, signed]
    by_cases hneg : s < 0
    · simp only [hneg, decide_true, if_true]
      rw [cast_of_neg hneg, Int.cast_neg, Int.cast_natCast, ← abs_neg]
      refine lt_of_eq_of_lt (congrArg abs ?_) herror
      ring
    · simp only [hneg, decide_false, Bool.false_eq_true, if_false]
      rw [cast_of_nonneg hneg, Int.cast_natCast]
      exact herror

theorem add_error (ha : Normalized a) (hb : Normalized b) (h : add a b = some c) :
    |c.value - (a.value + b.value)| ≤ 11 * 10 ^ max a.exponent b.exponent ∨
      (c = zero ∧ |a.value + b.value| < 10 ^ (-81 : ℤ) + 10 ^ max a.exponent b.exponent) := by
  have hten : (0 : ℚ) < 10 ^ max a.exponent b.exponent := zpow_pos (by norm_num) _
  have hzero : zero.value = 0 := by simp [value, zero]
  obtain rfl | ⟨hbdigits, -, -⟩ := hb.cases
  · rw [add_zero_right] at h
    cases h
    left
    rw [hzero, add_zero, sub_self, abs_zero]
    positivity
  obtain rfl | ⟨hadigits, -, -⟩ := ha.cases
  · rw [add_zero_left] at h
    cases h
    left
    rw [hzero, zero_add, sub_self, abs_zero]
    positivity
  have hsum := natAbs_sumMantissa hadigits hbdigits
  have hshift := abs_lt.mp (sumMantissa_error a b)
  rw [add_of_digits hadigits hbdigits] at h
  split at h
  · rename_i hsmall
    cases h
    left
    have hlo : (-10 : ℚ) ≤ sumMantissa a b := by exact_mod_cast hsmall.1
    have hhi : (sumMantissa a b : ℚ) ≤ 10 := by exact_mod_cast hsmall.2
    have hlo' := mul_le_mul_of_nonneg_right hlo hten.le
    have hhi' := mul_le_mul_of_nonneg_right hhi hten.le
    rw [hzero, abs_le]
    constructor
    · linarith
    · linarith
  · obtain herror | ⟨rfl, hlow⟩ := normalize_error (by omega) h
    · left
      have herror' := abs_lt.mp herror
      rw [abs_le]
      constructor
      · linarith
      · linarith
    · right
      have hlow' := abs_lt.mp hlow
      refine ⟨rfl, abs_lt.mpr ⟨?_, ?_⟩⟩
      · linarith
      · linarith

/-- Sums and comparisons of `IOUAmount` and of `STAmount`, and the exact values. -/
theorem add_agrees {a b : IOUAmount} (ha : Normalized a) (hb : Normalized b) {issue : Issue}
    (hissue : isXRP issue.currency = false) :
    ((add a b).bind (fun c => ofIOU c issue) = do
      let x ← ofIOU a issue
      let y ← ofIOU b issue
      STAmount.add x y) ∧
    (lt a b = true ↔ a.value < b.value) ∧
    ((do
      let x ← ofIOU a issue
      let y ← ofIOU b issue
      STAmount.lt x y) = some (lt a b)) ∧
    add a b = add b a ∧
    ((do
      let x ← ofIOU a issue
      let y ← ofIOU b issue
      STAmount.add x y) = do
      let x ← ofIOU a issue
      let y ← ofIOU b issue
      STAmount.add y x) ∧
    ∀ c, add a b = some c →
      |c.value - (a.value + b.value)| ≤ 11 * 10 ^ max a.exponent b.exponent ∨
        (c = zero ∧ |a.value + b.value| < 10 ^ (-81 : ℤ) + 10 ^ max a.exponent b.exponent) := by
  rw [ofIOU_normalized hissue ha, ofIOU_normalized hissue hb]
  simp only [Option.bind_eq_bind, Option.bind_some]
  refine ⟨add_amountOf hissue ha hb, lt_iff_value ha hb, lt_amountOf issue a b, add_comm ha hb, ?_, ?_⟩
  · rw [← add_amountOf hissue ha hb, ← add_amountOf hissue hb ha, add_comm ha hb]
  · exact fun c => add_error ha hb

theorem add_agrees_half : add ⟨1500000000000000, -15⟩ ⟨-1000000000000000, -15⟩ = some ⟨5000000000000000, -16⟩ ∧
    add ⟨1500000000000000, -15⟩ ⟨-1000000000000000, -15⟩ = add ⟨-1000000000000000, -15⟩ ⟨1500000000000000, -15⟩ :=
  ⟨by decide +kernel, (add_agrees (.digits (by decide) (by decide) (by decide) (by decide))
    (.digits (by decide) (by decide) (by decide) (by decide))
    (show isXRP (Issue.mk 1 2).currency = false from rfl)).2.2.2.1⟩

/-- A hundred units of the smallest exponent are not kept, and drops are cut off before they are
added. -/
theorem add_agrees_fails :
    (add ⟨1000000000000100, -96⟩ ⟨-1000000000000000, -96⟩ = some zero ∧
      11 * (10 : ℚ) ^ (-96 : ℤ) <
        |value zero - (value ⟨1000000000000100, -96⟩ + value ⟨-1000000000000000, -96⟩)|) ∧
    (add ⟨1500000000000000, -15⟩ ⟨1500000000000000, -15⟩).bind (fun c => ofIOU c xrpIssue) ≠ (do
      let x ← ofIOU ⟨1500000000000000, -15⟩ xrpIssue
      let y ← ofIOU ⟨1500000000000000, -15⟩ xrpIssue
      STAmount.add x y) := by
  refine ⟨⟨by decide +kernel, ?_⟩, by decide +kernel⟩
  norm_num [value, zero]

end IOUAmount

end Ripple.Protocol
