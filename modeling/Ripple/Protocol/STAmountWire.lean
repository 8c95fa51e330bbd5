import Mathlib.Data.Nat.Bitwise
import Ripple.Lib.Decimal
import Ripple.Protocol.STAmount
import Ripple.Protocol.Serializer

/-!
# Ripple.Protocol.STAmountWire

Amounts as bytes, from `STAmount.cpp`: the constructor from a `SerialIter` and `add`.

The first 64 bits hold the sign, whether the amount is native, the exponent and the digits; an issued
amount is followed by its currency and its issuer. `Wired` are the amounts that have a place there.
Both directions go through it: what is read is `Wired` and is written back as it came
(`construct_eq_ok`), and every amount that is `Wired` is read back (`reads_construct`).
-/

namespace Ripple.Protocol.STAmount

open Serializer SerialIter Nat

def cNotNative : Nat := 0x8000000000000000
def cPosNative : Nat := 0x4000000000000000

def complement (bits : Nat) : Nat := 0xFFFFFFFFFFFFFFFF ^^^ bits

def shifted (bits : Int) : Nat := (bits % 2 ^ 64).toNat <<< (64 - 10) % 2 ^ 64

def addTo (a : STAmount) : Blob :=
  if a.mIsNative then
    if !a.mIsNegative then add64 (a.mValue ||| cPosNative) else add64 a.mValue
  else
    add64 (if a.signum = 0 then cNotNative
      else if a.mIsNegative then a.mValue ||| shifted (a.mOffset + 512 + 97)
      else a.mValue ||| shifted (a.mOffset + 512 + 256 + 97)) ++
    add160 a.mIssue.currency ++ add160 a.mIssue.account

/-- The result of `canonicalize`; an issued amount throws only this. -/
def canonicalized (a : STAmount) : Get STAmount :=
  match a.canonicalize with
  | some a => pure a
  | none => Parser.fail "value overflow"

def constructIssued (value : Nat) (issue : Issue) : Get STAmount :=
  let offset := value >>> (64 - 10)
  let value := value &&& complement (1023 <<< (64 - 10))
  if value ≠ 0 then
    let isNegative := decide (offset &&& 256 = 0)
    let offset : Int := ((offset &&& 255 : Nat) : Int) - 97
    if value < cMinValue ∨ value > cMaxValue ∨ offset < cMinOffset ∨ offset > cMaxOffset then
      Parser.fail "invalid currency value"
    else canonicalized { mIssue := issue, mValue := value, mOffset := offset, mIsNegative := isNegative }
  else if offset ≠ 512 then Parser.fail "invalid currency value"
  else canonicalized { mIssue := issue, mValue := 0 }

/-- `STAmount (SerialIter& sit, SField const& name)`. -/
def construct : Get STAmount := do
  let value ← get64
  if value &&& cNotNative = 0 then
    if value &&& cPosNative ≠ 0 then pure { mValue := value &&& complement cPosNative }
    else if value = 0 then Parser.fail "negative zero is not canonical"
    else pure { mValue := value, mIsNegative := true }
  else
    let currency ← get160
    if isXRP currency then Parser.fail "invalid native currency"
    else
      let account ← get160
      if isXRP account then Parser.fail "invalid native account"
      else constructIssued value ⟨currency, account⟩

theorem shrinks_construct : Parser.Shrinks construct := by
  have hcanonicalized : ∀ a : STAmount, Parser.Shrinks (canonicalized a) := by
    intro a
    unfold canonicalized
    split
    · exact .pure _
    · exact .fail _
  have hissued : ∀ value issue, Parser.Shrinks (constructIssued value issue) := by
    intro value issue
    unfold constructIssued
    dsimp only
    split
    · split
      · exact .fail _
      · exact hcanonicalized _
    · split
      · exact .fail _
      · exact hcanonicalized _
  refine (shrinks_getNumber _ _).bind fun value => ?_
  split
  · split
    · exact .pure _
    · split
      · exact .fail _
      · exact .pure _
  · refine (shrinks_getNumber _ _).bind fun currency => ?_
    split
    · exact .fail _
    · refine (shrinks_getNumber _ _).bind fun account => ?_
      split
      · exact .fail _
      · exact hissued _ _

/-! ## Bits as arithmetic -/

theorem and_two_pow_eq_zero (n k : Nat) : n &&& 2 ^ k = 0 ↔ n / 2 ^ k % 2 = 0 := by
  rw [and_two_pow, testBit_eq_decide_div_mod_eq]
  have hpow : 2 ^ k ≠ 0 := by positivity
  rcases mod_two_eq_zero_or_one (n / 2 ^ k) with h | h <;> simp [h]

variable {value bits : Nat} {issue : Issue} {offset : Int} {negative native : Bool} {a : STAmount}
  {rest sit : Blob} {b : STAmount}

theorem notNative_eq_zero (hvalue : value < 2 ^ 64) :
    value &&& cNotNative = 0 ↔ value < 2 ^ 63 := by
  have h := and_two_pow_eq_zero value 63
  simp only [cNotNative, Nat.reducePow] at h hvalue ⊢
  rw [h]
  omega

theorem posNative_eq_zero (hvalue : value < 2 ^ 63) :
    value &&& cPosNative = 0 ↔ value < 2 ^ 62 := by
  have h := and_two_pow_eq_zero value 62
  simp only [cPosNative, Nat.reducePow] at h hvalue ⊢
  rw [h]
  omega

theorem and_complement_posNative (hvalue : value < 2 ^ 63) :
    value &&& complement cPosNative = value % 2 ^ 62 := by
  have hmask : complement cPosNative = 2 ^ 63 ||| (2 ^ 62 - 1) := by decide
  have hhigh : value &&& 2 ^ 63 = 0 := (and_two_pow_eq_zero value 63).mpr (by
    rw [div_eq_of_lt hvalue])
  rw [hmask, and_or_distrib_left, hhigh, zero_or, and_two_pow_sub_one_eq_mod]

theorem or_posNative (hvalue : value < 2 ^ 62) : value ||| cPosNative = 2 ^ 62 + value := by
  have h := Nat.two_pow_add_eq_or_of_lt hvalue 1
  rw [Nat.mul_one] at h
  rw [h, Nat.or_comm]
  rfl

theorem and_complement_offset (value : Nat) :
    value &&& complement (1023 <<< (64 - 10)) = value % 2 ^ 54 := by
  have hmask : complement (1023 <<< (64 - 10)) = 2 ^ 54 - 1 := by decide
  rw [hmask, and_two_pow_sub_one_eq_mod]

theorem or_shifted (hvalue : value < 2 ^ 54) (hbits : bits < 1024) :
    value ||| shifted bits = 2 ^ 54 * bits + value := by
  have hshift : shifted bits = 2 ^ 54 * bits := by
    have hcast : ((bits : Int) % 2 ^ 64).toNat = bits := by omega
    rw [shifted, hcast, Nat.shiftLeft_eq, Nat.mul_comm]
    simp only [Nat.reduceSub, Nat.reducePow]
    omega
  rw [hshift, Nat.or_comm, Nat.two_pow_add_eq_or_of_lt hvalue]

/-! ## Amounts on the wire -/

structure Issue.Issued (issue : Issue) : Prop where
  currency_lt : issue.currency < 256 ^ 20
  account_lt : issue.account < 256 ^ 20
  currency_ne : isXRP issue.currency = false
  account_ne : isXRP issue.account = false

inductive Wired : STAmount → Prop
  | native {value : Nat} {negative : Bool} : value < 2 ^ 62 → (negative = true → value ≠ 0) →
      Wired { mValue := value, mIsNegative := negative }
  | zero {issue : Issue} : Issue.Issued issue → Wired (zeroOf issue false)
  | issued {issue : Issue} {value : Nat} {offset : Int} {negative : Bool} : Issue.Issued issue →
      cMinValue ≤ value → value ≤ cMaxValue → cMinOffset ≤ offset → offset ≤ cMaxOffset →
      Wired ⟨issue, value, offset, false, negative⟩

theorem canonicalize_inRange (hissue : isXRP issue.currency = false) (hmin : cMinValue ≤ value)
    (hmax : value ≤ cMaxValue) (hlow : cMinOffset ≤ offset) (hhigh : offset ≤ cMaxOffset) :
    canonicalize ⟨issue, value, offset, native, negative⟩ = some ⟨issue, value, offset, false, negative⟩ := by
  have hne : value ≠ 0 := by
    unfold cMinValue at hmin
    omega
  have hup : scaleUp 15 (value, offset) = (value, offset) := by
    rw [scaleUp, if_neg (by omega)]
  have hdown : scaleDown 4 (value, offset) = some (value, offset) := by
    rw [scaleDown, if_neg (by omega)]
  simp only [canonicalize, hissue, canonicalizeIOU, if_neg hne, hup, hdown, Option.bind_eq_bind,
    Option.bind_some, if_neg (show ¬(offset < cMinOffset ∨ value < cMinValue) by omega),
    if_neg (show ¬offset > cMaxOffset by omega), Bool.false_eq_true, if_false]

theorem canonicalize_zero (hissue : isXRP issue.currency = false) :
    canonicalize ⟨issue, 0, offset, native, negative⟩ = some (zeroOf issue false) := by
  simp [canonicalize, hissue, canonicalizeIOU]

/-! ## Reading what was written -/

theorem reads_issued (hissue : Issue.Issued issue) (hlow : 2 ^ 63 ≤ value) (hhigh : value < 2 ^ 64)
    (ha : ∀ sit, constructIssued value issue sit = .ok (a, sit)) :
    Parser.Reads construct (add64 value ++ add160 issue.currency ++ add160 issue.account) a := by
  have hbit : ¬value &&& cNotNative = 0 := by
    rw [notNative_eq_zero hhigh]
    omega
  rw [List.append_assoc]
  refine Parser.Reads.bind (reads_getNumber _ hhigh) ?_
  simp only [if_neg hbit]
  refine Parser.Reads.bind (reads_getNumber _ hissue.currency_lt) ?_
  simp only [hissue.currency_ne, Bool.false_eq_true, if_false]
  intro rest
  have haccount := reads_getNumber "invalid SerialIter getBitString" hissue.account_lt rest
  refine (Parser.bind_apply haccount).trans ?_
  simp only [hissue.account_ne, Bool.false_eq_true, if_false]
  exact ha rest

theorem constructIssued_inRange (hissue : Issue.Issued issue) (hmin : cMinValue ≤ value)
    (hmax : value ≤ cMaxValue) (hlow : cMinOffset ≤ (bits % 256 : Nat) - 97)
    (hhigh : (bits % 256 : Nat) - 97 ≤ cMaxOffset) (sit : Blob) :
    constructIssued (2 ^ 54 * bits + value) issue sit =
      .ok (⟨issue, value, (bits % 256 : Nat) - 97, false, decide (bits / 256 % 2 = 0)⟩, sit) := by
  have hlt : value < 2 ^ 54 := by
    unfold cMaxValue at hmax
    omega
  have hne : value ≠ 0 := by
    unfold cMinValue at hmin
    omega
  have hoffset : (2 ^ 54 * bits + value) >>> (64 - 10) = bits := by
    rw [shiftRight_eq_div_pow]
    omega
  have hdigits : (2 ^ 54 * bits + value) % 2 ^ 54 = value := by omega
  have hlow8 : bits &&& 255 = bits % 256 := and_two_pow_sub_one_eq_mod bits 8
  have hsign : bits &&& 256 = 0 ↔ bits / 256 % 2 = 0 := and_two_pow_eq_zero bits 8
  simp only [constructIssued, and_complement_offset, hoffset, hdigits, hlow8, hsign, canonicalized, ne_eq, hne,
    not_false_eq_true, if_true]
  rw [if_neg (by omega), canonicalize_inRange hissue.currency_ne hmin hmax hlow hhigh]
  rfl

theorem constructIssued_zero (hissue : Issue.Issued issue) (sit : Blob) :
    constructIssued cNotNative issue sit = .ok (zeroOf issue false, sit) := by
  have hoffset : cNotNative >>> (64 - 10) = 512 := by decide
  have hdigits : cNotNative &&& complement (1023 <<< (64 - 10)) = 0 := by decide
  simp only [constructIssued, hoffset, hdigits, canonicalized, ne_eq, not_true_eq_false, if_false,
    canonicalize_zero hissue.currency_ne]
  rfl

theorem signum_eq_zero (a : STAmount) : a.signum = 0 ↔ a.mValue = 0 := by
  unfold signum
  split
  · simp [*]
  · rename_i hne
    simp only [hne, iff_false]
    split <;> omega

theorem addTo_issued (hne : value ≠ 0) (hlt : value < 2 ^ 54) (hbits : bits < 1024)
    (hsum : (bits : Int) = offset + 512 + (if negative then 0 else 256) + 97) :
    addTo ⟨issue, value, offset, false, negative⟩ =
      add64 (2 ^ 54 * bits + value) ++ add160 issue.currency ++ add160 issue.account := by
  rw [← or_shifted hlt hbits, hsum]
  cases negative <;> simp [addTo, signum_eq_zero, hne]

theorem reads_construct (h : Wired a) : Parser.Reads construct a.addTo a := by
  cases h with
  | @native value negative hvalue hsign =>
    cases negative with
    | false =>
      have hword : value ||| cPosNative < 256 ^ 8 := by
        rw [or_posNative hvalue]
        omega
      have hnative : (value ||| cPosNative) &&& cNotNative = 0 := by
        rw [or_posNative hvalue, notNative_eq_zero (by omega)]
        omega
      have hpos : ¬(value ||| cPosNative) &&& cPosNative = 0 := by
        rw [or_posNative hvalue, posNative_eq_zero (by omega)]
        omega
      have hback : (value ||| cPosNative) &&& complement cPosNative = value := by
        rw [or_posNative hvalue, and_complement_posNative (by omega)]
        omega
      intro rest
      refine (Parser.bind_apply (reads_getNumber _ hword rest)).trans ?_
      simp only [if_pos hnative, ne_eq, hpos, not_false_eq_true, if_true, hback]
      rfl
    | true =>
      have hnative : value &&& cNotNative = 0 := (notNative_eq_zero (by omega)).mpr (by omega)
      have hpos : value &&& cPosNative = 0 := (posNative_eq_zero (by omega)).mpr hvalue
      intro rest
      refine (Parser.bind_apply (reads_getNumber _ (show value < 256 ^ 8 by omega) rest)).trans ?_
      simp only [if_pos hnative, ne_eq, hpos, not_true_eq_false, if_false, if_neg (hsign rfl)]
      rfl
  | zero hissue =>
    have hlow : 2 ^ 63 ≤ cNotNative := by decide
    have hhigh : cNotNative < 2 ^ 64 := by decide
    exact reads_issued hissue hlow hhigh (constructIssued_zero hissue)
  | @issued issue value offset negative hissue hmin hmax hlow hhigh =>
    have hne : value ≠ 0 := by
      unfold cMinValue at hmin
      omega
    have hlt : value < 2 ^ 54 := by
      unfold cMaxValue at hmax
      omega
    -- the ten bits above the digits
    obtain ⟨bits, hbits⟩ : ∃ bits : Nat, (bits : Int) = offset + 512 + (if negative then 0 else 256) + 97 := by
      refine ⟨(offset + 512 + (if negative then 0 else 256) + 97).toNat, ?_⟩
      unfold cMinOffset at hlow
      split <;> omega
    have hrange : 512 ≤ bits ∧ bits < 1024 := by
      unfold cMinOffset at hlow
      unfold cMaxOffset at hhigh
      split at hbits <;> omega
    have hoffset : ((bits % 256 : Nat) : Int) - 97 = offset := by
      unfold cMinOffset at hlow
      unfold cMaxOffset at hhigh
      split at hbits <;> omega
    have hsign : decide (bits / 256 % 2 = 0) = negative := by
      unfold cMinOffset at hlow
      unfold cMaxOffset at hhigh
      cases negative with
      | false =>
        simp only [Bool.false_eq_true, if_false] at hbits
        exact decide_eq_false (by omega)
      | true =>
        simp only [if_true] at hbits
        exact decide_eq_true (by omega)
    have hread := constructIssued_inRange hissue hmin hmax (hoffset ▸ hlow) (hoffset ▸ hhigh)
    rw [hoffset, hsign] at hread
    rw [addTo_issued hne hlt hrange.2 hbits]
    exact reads_issued hissue (by omega) (by omega) hread

/-! ## Writing what was read -/

theorem constructIssued_eq_ok (hissue : Issue.Issued issue) (hlow : 2 ^ 63 ≤ value)
    (hhigh : value < 2 ^ 64) (h : constructIssued value issue sit = .ok (a, rest)) :
    Wired a ∧ sit = rest ∧ a.addTo = add64 value ++ add160 issue.currency ++ add160 issue.account := by
  obtain ⟨bits, digits, rfl, hdigits⟩ : ∃ bits digits, value = 2 ^ 54 * bits + digits ∧ digits < 2 ^ 54 :=
    ⟨value / 2 ^ 54, value % 2 ^ 54, by omega, by omega⟩
  have hoffset : (2 ^ 54 * bits + digits) >>> (64 - 10) = bits := by
    rw [shiftRight_eq_div_pow]
    omega
  have hmod : (2 ^ 54 * bits + digits) % 2 ^ 54 = digits := by omega
  have hlow8 : bits &&& 255 = bits % 256 := and_two_pow_sub_one_eq_mod bits 8
  have hsign : bits &&& 256 = 0 ↔ bits / 256 % 2 = 0 := and_two_pow_eq_zero bits 8
  simp only [constructIssued, and_complement_offset, hoffset, hmod, hlow8, hsign, canonicalized] at h
  split at h
  · rename_i hne
    split at h
    · cases h
    · rename_i hrange
      rw [canonicalize_inRange hissue.currency_ne (by omega) (by omega) (by omega) (by omega)] at h
      cases h
      refine ⟨.issued hissue (by omega) (by omega) (by omega) (by omega), rfl, ?_⟩
      refine addTo_issued hne hdigits (by omega) ?_
      simp only [decide_eq_true_eq]
      split <;> omega
  · rename_i hzero
    split at h
    · cases h
    · rename_i hbits
      rw [canonicalize_zero hissue.currency_ne] at h
      cases h
      have hvalue : 2 ^ 54 * bits + digits = cNotNative := by
        unfold cNotNative
        omega
      rw [hvalue]
      exact ⟨.zero hissue, rfl, rfl⟩

theorem construct_eq_ok (h : construct sit = .ok (a, rest)) : Wired a ∧ sit = a.addTo ++ rest := by
  obtain ⟨value, sit', hvalue, hrest⟩ := Parser.bind_eq_ok h
  obtain ⟨hlt, rfl⟩ := getNumber_eq_ok hvalue
  split at hrest
  · rename_i hnative
    rw [notNative_eq_zero hlt] at hnative
    split at hrest
    · rename_i hpos
      rw [ne_eq, posNative_eq_zero hnative] at hpos
      rw [and_complement_posNative hnative] at hrest
      cases hrest
      have hback : value % 2 ^ 62 ||| cPosNative = value := by
        rw [or_posNative (by omega)]
        omega
      refine ⟨.native (by omega) (by simp), ?_⟩
      simp only [addTo, hback, Bool.not_false, if_true]
      rfl
    · rename_i hneg
      split at hrest
      · cases hrest
      · rename_i hne
        cases hrest
        rw [ne_eq, not_not, posNative_eq_zero hnative] at hneg
        exact ⟨.native hneg fun _ => hne, rfl⟩
  · rename_i hissued
    rw [notNative_eq_zero hlt] at hissued
    obtain ⟨currency, sit'', hcurrency, hrest'⟩ := Parser.bind_eq_ok hrest
    obtain ⟨hclt, rfl⟩ := getNumber_eq_ok hcurrency
    split at hrest'
    · cases hrest'
    · rename_i hcne
      obtain ⟨account, sit''', haccount, hlast⟩ := Parser.bind_eq_ok hrest'
      obtain ⟨halt, rfl⟩ := getNumber_eq_ok haccount
      split at hlast
      · cases hlast
      · rename_i hane
        have hissue : Issue.Issued ⟨currency, account⟩ :=
          ⟨hclt, halt, by simpa using hcne, by simpa using hane⟩
        obtain ⟨hwired, rfl, hword⟩ := constructIssued_eq_ok hissue (by omega) hlt hlast
        refine ⟨hwired, ?_⟩
        rw [hword, List.append_assoc, List.append_assoc]
        rfl

theorem Wired.length_addTo (h : Wired a) : a.addTo.length = if a.mIsNative then 8 else 48 := by
  cases h with
  | @native _ negative => cases negative <;> simp [addTo, add64]
  | zero => simp [addTo, add64, add160, zeroOf]
  | issued => simp [addTo, add64, add160]

/-- The bytes of an amount are the only ones it is read from. -/
theorem construct_canonical {sit rest : Blob} {a : STAmount} (h : construct sit = .ok (a, rest)) :
    sit = a.addTo ++ rest ∧ a.addTo.length = (if a.mIsNative then 8 else 48) ∧
    (∀ sit' rest', construct sit' = .ok (a, rest') →
      sit.take (sit.length - rest.length) = sit'.take (sit'.length - rest'.length)) ∧
    (a.mIsNative = false → a.mValue = 0 ∨
      (cMinValue ≤ a.mValue ∧ a.mValue ≤ cMaxValue ∧ cMinOffset ≤ a.mOffset ∧ a.mOffset ≤ cMaxOffset)) := by
  obtain ⟨hwired, hsit⟩ := construct_eq_ok h
  refine ⟨hsit, hwired.length_addTo, ?_, ?_⟩
  · intro sit' rest' h'
    rw [(construct_eq_ok h').2, hsit]
    simp
  · intro hissued
    cases hwired with
    | native => simp at hissued
    | zero => exact .inl rfl
    | issued _ hmin hmax hlow hhigh => exact .inr ⟨hmin, hmax, hlow, hhigh⟩

def issuedAmount : STAmount := ⟨⟨5, 7⟩, 1234567890123456, -3, false, true⟩

theorem construct_canonical_issued :
    construct (issuedAmount.addTo ++ [1]) = .ok (issuedAmount, [1]) ∧ issuedAmount.addTo.length = 48 ∧
    ∀ sit rest, construct sit = .ok (issuedAmount, rest) →
      sit.take (sit.length - rest.length) = issuedAmount.addTo := by
  have hissue : Issue.Issued ⟨5, 7⟩ := ⟨by decide, by decide, rfl, rfl⟩
  have hwired : Wired issuedAmount := .issued hissue (by decide) (by decide) (by decide) (by decide)
  have hread := reads_construct hwired [1]
  obtain ⟨-, hlen, honly, -⟩ := construct_canonical hread
  refine ⟨hread, hlen, fun sit rest h => ?_⟩
  rw [← honly sit rest h]
  simp

/-! ## Amounts that were constructed -/

/-- The value of a native amount comes to zero: its digits are divided away, or the product with the
power of ten wraps around to zero. -/
def ScalesAway (mantissa : Nat) (exponent : Int) : Prop :=
  mantissa ≠ 0 ∧ (mantissa < 10 ^ (-exponent).toNat ∨ 2 ^ 64 ∣ mantissa * 10 ^ exponent.toNat)

instance (mantissa : Nat) (exponent : Int) : Decidable (ScalesAway mantissa exponent) :=
  inferInstanceAs (Decidable (_ ∧ _))

theorem native_value_eq_zero {mantissa : Nat} (hm : mantissa < 2 ^ 64) (hne : mantissa ≠ 0) (exponent : Int) :
    (fun v => v * 10 % 2 ^ 64)^[exponent.toNat] ((fun v => v / 10)^[(-exponent).toNat] mantissa) = 0 ↔
      ScalesAway mantissa exponent := by
  have hquot : mantissa / 10 ^ (-exponent).toNat < 2 ^ 64 := (Nat.div_le_self ..).trans_lt hm
  rw [Decimal.iterate_div, Decimal.iterate_mul hquot, ScalesAway]
  simp only [hne, ne_eq, not_false_eq_true, true_and]
  have hndvd : ¬2 ^ 64 ∣ mantissa := fun hdvd => by
    have := Nat.le_of_dvd (Nat.pos_of_ne_zero hne) hdvd
    omega
  rcases Int.le_total exponent 0 with hle | hle
  · have hzero : exponent.toNat = 0 := by omega
    simp only [hzero, Nat.pow_zero, Nat.mul_one, hndvd, or_false, Nat.mod_eq_of_lt hquot]
    simp [Nat.div_eq_zero_iff]
  · have hzero : (-exponent).toNat = 0 := by omega
    simp only [hzero, Nat.pow_zero, Nat.div_one, ← Nat.dvd_iff_mod_eq_zero]
    omega

theorem scaleUp_lt (rounds : Nat) (hvalue : value < 2 ^ 64) :
    (scaleUp rounds (value, offset)).1 < 2 ^ 64 := by
  induction rounds generalizing value offset with
  | zero => exact hvalue
  | succ rounds ih =>
    rw [scaleUp]
    split
    · rename_i hsmall
      unfold cMinValue at hsmall
      exact ih (by omega)
    · exact hvalue

theorem scaleDown_le (rounds : Nat) {p : Nat × Int} (hvalue : value < 10 ^ (16 + rounds))
    (h : scaleDown rounds (value, offset) = some p) : p.1 ≤ cMaxValue := by
  induction rounds generalizing value offset with
  | zero =>
    cases h
    unfold cMaxValue
    exact le_of_lt_succ hvalue
  | succ rounds ih =>
    rw [scaleDown] at h
    split at h
    · split at h
      · cases h
      · refine ih ?_ h
        rw [div_lt_iff_lt_mul (by omega)]
        calc value < 10 ^ (16 + (rounds + 1)) := hvalue
          _ = 10 ^ (16 + rounds) * 10 := by rw [← add_assoc, pow_succ]
    · cases h
      omega

theorem canonicalizeIOU_wired (hissue : Issue.Issued a.mIssue) (hvalue : a.mValue < 2 ^ 64)
    (h : a.canonicalizeIOU = some b) : Wired b ∧ b.mIssue = a.mIssue := by
  unfold canonicalizeIOU at h
  split at h
  · cases h
    exact ⟨.zero hissue, rfl⟩
  · obtain ⟨⟨value, offset⟩, hscale, h⟩ := Option.bind_eq_some_iff.mp h
    have hmax : value ≤ cMaxValue := by
      have hup : (scaleUp 15 (a.mValue, a.mOffset)).1 < 2 ^ 64 := scaleUp_lt 15 hvalue
      exact scaleDown_le 4 (hup.trans (by norm_num)) hscale
    simp only at h
    split at h
    · cases h
      exact ⟨.zero hissue, rfl⟩
    · rename_i hlow
      split at h
      · cases h
      · cases h
        exact ⟨.issued hissue (by omega) hmax (by omega) (by omega), rfl⟩

theorem canonicalizeNative_eq_some (hvalue : a.mValue < 2 ^ 64) (h : a.canonicalizeNative = some b) :
    b.mIssue = a.mIssue ∧ b.mOffset = 0 ∧ b.mIsNative = true ∧ b.mValue < 2 ^ 62 ∧
      ((b.mIsNegative = true ∧ b.mValue = 0) ↔ a.mIsNegative = true ∧ ScalesAway a.mValue a.mOffset) := by
  unfold canonicalizeNative at h
  split at h
  · rename_i hzero
    cases h
    have haway : ¬ScalesAway 0 a.mOffset := fun haway => haway.1 rfl
    simp [hzero, haway]
  · rename_i hne
    simp only at h
    split at h
    · cases h
    · rename_i hmax
      cases h
      unfold cMaxNativeN at hmax
      exact ⟨rfl, rfl, rfl, by dsimp only; omega, and_congr_right fun _ => native_value_eq_zero hvalue hne _⟩

theorem reads_native (hnative : b.mIsNative = true) (hoffset : b.mOffset = 0)
    (hvalue : b.mValue < 2 ^ 62) (hsign : ¬(b.mIsNegative = true ∧ b.mValue = 0)) :
    construct b.addTo = .ok ({ b with mIssue := xrpIssue }, []) := by
  obtain ⟨issue, value, offset, native, negative⟩ := b
  cases hnative
  cases hoffset
  exact (reads_construct (.native hvalue fun hneg hzero => hsign ⟨hneg, hzero⟩)).apply_nil

theorem construct_negative_zero (hnative : b.mIsNative = true) (hneg : b.mIsNegative = true)
    (hzero : b.mValue = 0) : construct b.addTo = .error "negative zero is not canonical" := by
  have hword : b.addTo = add64 0 := by simp [addTo, hnative, hneg, hzero]
  rw [hword]
  decide

/-- A constructed amount is read back from its bytes, except for a native one below zero whose value
came to zero. -/
theorem construct_make {issue : Issue} {mantissa : Nat} {exponent : Int} {negative : Bool} {a : STAmount}
    (hissue : isXRP issue.currency = true ∨ Issue.Issued issue) (hmantissa : mantissa < 2 ^ 64)
    (h : make issue mantissa exponent negative = some a) :
    (∃ b, construct a.addTo = .ok (b, []) ∧ equal a b = true ∧ a.mIssue.same b.mIssue = true) ↔
      ¬(isXRP issue.currency = true ∧ negative = true ∧ ScalesAway mantissa exponent) := by
  unfold make canonicalize at h
  cases hxrp : isXRP issue.currency with
  | true =>
    simp only [hxrp, if_true] at h
    obtain ⟨hissue', hoffset, hnative, hvalue, hsign⟩ := canonicalizeNative_eq_some hmantissa h
    have hcurrency : issue.currency = 0 := by simpa [isXRP] using hxrp
    simp only [true_and, ← hsign]
    constructor
    · rintro ⟨b, hread, -, -⟩ ⟨hneg, hzero⟩
      rw [construct_negative_zero hnative hneg hzero] at hread
      cases hread
    · intro hnot
      refine ⟨_, reads_native hnative hoffset hvalue hnot, ?_, ?_⟩
      · simp [equal, areComparable, STAmount.native, STAmount.issue, hissue', hcurrency, xrpIssue]
      · simp [Issue.same, hissue', hcurrency, xrpIssue, isXRP]
  | false =>
    have hissued : Issue.Issued issue := hissue.resolve_left (by simp [hxrp])
    simp only [hxrp, Bool.false_eq_true, if_false] at h
    obtain ⟨hwired, -⟩ := canonicalizeIOU_wired hissued hmantissa h
    simp only [Bool.false_eq_true, false_and, not_false_eq_true, iff_true]
    refine ⟨a, (reads_construct hwired).apply_nil, ?_, ?_⟩
    · simp [equal, areComparable]
    · simp [Issue.same]

/-- Five tenths of a drop, below zero: the amount that is constructed is not read back. -/
theorem negative_dust :
    make xrpIssue 5 (-1) true = some { mValue := 0, mIsNegative := true } ∧
    construct (addTo { mValue := 0, mIsNegative := true }) = .error "negative zero is not canonical" :=
  ⟨by decide, construct_negative_zero rfl rfl rfl⟩

theorem construct_make_drops : make xrpIssue 5 0 true = some { mValue := 5, mIsNegative := true } ∧
    ∃ b, construct (addTo { mValue := 5, mIsNegative := true }) = .ok (b, []) ∧
      equal { mValue := 5, mIsNegative := true } b = true ∧ xrpIssue.same b.mIssue = true := by
  have hmake : make xrpIssue 5 0 true = some { mValue := 5, mIsNegative := true } := by decide
  exact ⟨hmake, (construct_make (.inl rfl) (by decide) hmake).mpr (by decide)⟩

end Ripple.Protocol.STAmount
