import Mathlib.Logic.Function.Iterate
import Mathlib.Tactic.NormNum

/-!
# Ripple.Protocol.STAmount

Amounts of XRP and of issued currencies, from `protocol/STAmount.h`, `STAmount.cpp` and `Issue.cpp`.
A function that throws answers `none`.

An `XRPAmount` is its number of drops, an `std::int64_t`: `int64` brings a sum back into that range.
-/

namespace Ripple.Protocol

/-- 160 bits. The account `0` is `xrpAccount()`. -/
abbrev AccountID := Nat

/-- 160 bits. The currency `0` is `xrpCurrency()`. -/
abbrev Currency := Nat

abbrev Uint256 := Nat

/-- The 64 bits of a two's complement number. -/
def int64 (n : Int) : Int := n.bmod (2 ^ 64)

theorem int64_of_range {n : Int} (hlo : -2 ^ 63 ≤ n) (hhi : n < 2 ^ 63) : int64 n = n :=
  Int.bmod_eq_of_le (by norm_num at *; omega) (by norm_num at *; omega)

@[simp] theorem int64_int64_add (m n : Int) : int64 (int64 m + n) = int64 (m + n) :=
  Int.bmod_add_bmod

/-! ## Issues -/

def isXRP (c : Nat) : Bool := c == 0

structure Issue where
  currency : Currency
  account : AccountID
deriving DecidableEq

def xrpIssue : Issue := ⟨0, 0⟩

/-- `operator==`: the account of XRP does not count. -/
def Issue.same (lhs rhs : Issue) : Bool :=
  lhs.currency == rhs.currency && (isXRP lhs.currency || lhs.account == rhs.account)

/-! ## Amounts -/

structure STAmount where
  mIssue : Issue := xrpIssue
  mValue : Nat
  mOffset : Int := 0
  mIsNative : Bool := true
  mIsNegative : Bool := false
deriving DecidableEq

namespace STAmount

def cMinOffset : Int := -96
def cMaxOffset : Int := 80
def cMinValue : Nat := 1000000000000000
def cMaxValue : Nat := 9999999999999999
def cMaxNativeN : Nat := 100000000000000000

variable (a : STAmount)

def native : Bool := a.mIsNative
def negative : Bool := a.mIsNegative
def issue : Issue := a.mIssue

def signum : Int := if a.mValue = 0 then 0 else if a.mIsNegative then -1 else 1

/-- `xrp().drops()`. -/
def xrp : Option Int :=
  if a.mIsNative then
    let drops := int64 a.mValue
    some (if a.mIsNegative then int64 (-drops) else drops)
  else none

def areComparable (v1 v2 : STAmount) : Bool :=
  v1.native == v2.native && v1.issue.currency == v2.issue.currency

/-- `operator==`. -/
def equal (lhs rhs : STAmount) : Bool :=
  areComparable lhs rhs && lhs.mIsNegative == rhs.mIsNegative && lhs.mOffset == rhs.mOffset &&
    lhs.mValue == rhs.mValue

/-- Both `operator-` and `negate`. -/
def neg : STAmount :=
  if a.mValue = 0 then a else { a with mIsNegative := !a.mIsNegative }

/-- `while ((mValue < cMinValue) && (mOffset > cMinOffset))`. A value that is not zero is large
enough after 15 rounds. -/
def scaleUp : Nat → Nat × Int → Nat × Int
  | 0, p => p
  | rounds + 1, (mValue, mOffset) =>
    if mValue < cMinValue ∧ mOffset > cMinOffset then scaleUp rounds (mValue * 10, mOffset - 1)
    else (mValue, mOffset)

/-- `while (mValue > cMaxValue)`. A value of 64 bits is small enough after 4 rounds. -/
def scaleDown : Nat → Nat × Int → Option (Nat × Int)
  | 0, p => some p
  | rounds + 1, (mValue, mOffset) =>
    if mValue > cMaxValue then
      if mOffset ≥ cMaxOffset then none else scaleDown rounds (mValue / 10, mOffset + 1)
    else some (mValue, mOffset)

def canonicalizeNative : Option STAmount :=
  if a.mValue = 0 then some { a with mIsNative := true, mOffset := 0, mIsNegative := false }
  else
    let low := (fun v => v / 10)^[(-a.mOffset).toNat] a.mValue
    let value := (fun v => v * 10 % 2 ^ 64)^[a.mOffset.toNat] low
    if value > cMaxNativeN then none
    else some { a with mIsNative := true, mValue := value, mOffset := 0 }

def zeroOf (issue : Issue) (isNative : Bool) : STAmount :=
  { mIssue := issue, mValue := 0, mOffset := -100, mIsNative := isNative, mIsNegative := false }

def canonicalizeIOU : Option STAmount :=
  if a.mValue = 0 then some (zeroOf a.mIssue false)
  else do
    let (value, offset) ← scaleDown 4 (scaleUp 15 (a.mValue, a.mOffset))
    if offset < cMinOffset ∨ value < cMinValue then some (zeroOf a.mIssue false)
    else if offset > cMaxOffset then none
    else some { a with mIsNative := false, mValue := value, mOffset := offset }

def canonicalize : Option STAmount :=
  if isXRP a.mIssue.currency then a.canonicalizeNative else a.canonicalizeIOU

/-- `STAmount (Issue const& issue, uint64 mantissa, int exponent, bool negative)`. -/
def make (issue : Issue) (mantissa : Nat) (exponent : Int) (negative : Bool) : Option STAmount :=
  canonicalize { mIssue := issue, mValue := mantissa, mOffset := exponent, mIsNegative := negative }

/-- `STAmount (SField const& name, std::int64_t mantissa)`. -/
def ofInt64 (v : Int) : STAmount := { mValue := v.natAbs, mIsNegative := decide (v < 0) }

def signedValue : Int :=
  if a.mIsNegative then int64 (-int64 a.mValue) else int64 a.mValue

/-- The loops over the exponents, here and in `IOUAmount`: the digits that are lost when `v` takes the
exponent of a larger amount. -/
def shift (v : Int) (places : Int) : Int := (fun v => v.tdiv 10)^[places.toNat] v

def addIOU (v1 v2 : STAmount) : Option STAmount :=
  let vv1 := shift v1.signedValue (v2.mOffset - v1.mOffset)
  let vv2 := shift v2.signedValue (v1.mOffset - v2.mOffset)
  let ov1 := max v1.mOffset v2.mOffset
  let fv := int64 (vv1 + vv2)
  if -10 ≤ fv ∧ fv ≤ 10 then make v1.mIssue 0 0 false
  else make v1.mIssue fv.natAbs ov1 (decide (fv < 0))

/-- `operator+`. -/
def add (v1 v2 : STAmount) : Option STAmount :=
  if !areComparable v1 v2 then none
  else if v2.signum = 0 then some v1
  else if v1.signum = 0 then make v1.mIssue v2.mValue v2.mOffset v2.mIsNegative
  else if v1.native then some (ofInt64 (int64 (v1.signedValue + v2.signedValue)))
  else addIOU v1 v2

/-- `operator-`. -/
def sub (v1 v2 : STAmount) : Option STAmount := add v1 v2.neg

end STAmount

end Ripple.Protocol
