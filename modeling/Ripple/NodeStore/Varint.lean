import Mathlib.Algebra.Order.Group.Nat
import Mathlib.Tactic.NormNum

/-!
# Ripple.NodeStore.Varint

The numbers of `nodestore/impl/varint.h`: the digits to base 127, the lowest one first, and the high
bit on every byte but the last. The reader takes a step that does not make the number larger for an
overflow.
-/

namespace Ripple.NodeStore

/-- The loop over the bytes, from the last one: `t` takes up a digit modulo `2 ^ 64`. -/
def accumulate : List UInt8 → Option Nat
  | [] => some 0
  | d :: digits => do
    let t0 ← accumulate digits
    let t := (t0 * 127 + d.toNat % 128) % 2 ^ 64
    if t ≤ t0 then none else some t

/-- The bytes up to the first one without the high bit. -/
def digitsOf : List UInt8 → Option (List UInt8)
  | [] => none
  | d :: buf => if d.toNat ≥ 128 then (digitsOf buf).map (d :: ·) else some [d]

/-- `read_varint`: the number of bytes and the value, or `none` for a reply of zero. -/
def readVarint (buf : List UInt8) : Option (Nat × Nat) := do
  let digits ← digitsOf buf
  -- special case for 0
  if digits = [0] then some (1, 0)
  else do
    let t ← accumulate digits
    some (digits.length, t)

def sizeVarint (v : Nat) : Nat := if v / 127 = 0 then 1 else sizeVarint (v / 127) + 1

def writeVarint (v : Nat) : List UInt8 :=
  if v / 127 = 0 then [UInt8.ofNat (v % 127)] else UInt8.ofNat (v % 127 + 128) :: writeVarint (v / 127)

def number : List UInt8 → Nat
  | [] => 0
  | d :: digits => number digits * 127 + d.toNat % 128

/-- Some digit leaves the number, modulo `2 ^ 64`, no greater than it is without that digit and those
before it. -/
def OverflowSeen (digits : List UInt8) : Prop :=
  ∃ i < digits.length, number (digits.drop i) % 2 ^ 64 ≤ number (digits.drop (i + 1)) % 2 ^ 64

theorem toNat_byte {n : Nat} (h : n < 256) : (UInt8.ofNat n).toNat = n := UInt8.toNat_ofNat_of_lt' h

theorem length_writeVarint (v : Nat) : (writeVarint v).length = sizeVarint v := by
  fun_induction writeVarint v with
  | case1 v h => rw [sizeVarint, if_pos h, List.length_singleton]
  | case2 v h ih => rw [sizeVarint, if_neg h, List.length_cons, ih]

theorem sizeVarint_le {k : Nat} : ∀ {v : Nat}, v < 127 ^ (k + 1) → sizeVarint v ≤ k + 1 := by
  induction k with
  | zero =>
    intro v h
    rw [sizeVarint, if_pos (Nat.div_eq_of_lt (by simpa using h))]
  | succ k ih =>
    intro v h
    rw [sizeVarint]
    split
    · omega
    · have := ih (Nat.div_lt_of_lt_mul (h.trans_eq (Nat.pow_succ' ..)))
      omega

theorem digitsOf_writeVarint (v : Nat) (rest : List UInt8) :
    digitsOf (writeVarint v ++ rest) = some (writeVarint v) := by
  fun_induction writeVarint v with
  | case1 v h =>
    rw [List.singleton_append, digitsOf, toNat_byte (by omega), if_neg (by omega)]
  | case2 v h ih =>
    rw [List.cons_append, digitsOf, toNat_byte (by omega), if_pos (by omega), ih, Option.map_some]

theorem accumulate_writeVarint {v : Nat} (hpos : 0 < v) (hv : v < 2 ^ 64) :
    accumulate (writeVarint v) = some v := by
  fun_induction writeVarint v with
  | case1 v h =>
    simp only [accumulate, toNat_byte (by omega : v % 127 < 256), Option.bind_eq_bind,
      Option.bind_some, Nat.zero_mul, Nat.zero_add, show v % 127 % 128 % 2 ^ 64 = v by omega,
      if_neg hpos.not_ge]
  | case2 v h ih =>
    simp only [accumulate, ih (by omega) (by omega), toNat_byte (by omega : v % 127 + 128 < 256),
      Option.bind_eq_bind, Option.bind_some,
      show (v / 127 * 127 + (v % 127 + 128) % 128) % 2 ^ 64 = v by omega]
    exact if_neg (by omega)

theorem overflowSeen_cons (d : UInt8) (digits : List UInt8) : OverflowSeen (d :: digits) ↔
    OverflowSeen digits ∨ number (d :: digits) % 2 ^ 64 ≤ number digits % 2 ^ 64 := by
  constructor
  · rintro ⟨_ | i, hi, hle⟩
    · exact .inr hle
    · exact .inl ⟨i, by simpa using hi, hle⟩
  · rintro (⟨i, hi, hle⟩ | hle)
    · exact ⟨i + 1, by simpa using hi, hle⟩
    · exact ⟨0, by simp, hle⟩

/-- The loop keeps the number modulo `2 ^ 64`, and it ends early just when an overflow is seen. -/
theorem accumulate_spec (digits : List UInt8) :
    (accumulate digits = none ∧ OverflowSeen digits) ∨
      accumulate digits = some (number digits % 2 ^ 64) ∧ ¬ OverflowSeen digits := by
  induction digits with
  | nil => exact .inr ⟨rfl, by simp [OverflowSeen]⟩
  | cons d digits ih =>
    rw [overflowSeen_cons]
    obtain ⟨hnone, hseen⟩ | ⟨hsome, hunseen⟩ := ih
    · exact .inl ⟨by rw [accumulate, hnone]; rfl, .inl hseen⟩
    · have hvalue : (number digits % 2 ^ 64 * 127 + d.toNat % 128) % 2 ^ 64 =
          number (d :: digits) % 2 ^ 64 := by
        rw [number, Nat.add_mod, Nat.mod_mul_mod, ← Nat.add_mod]
      simp only [accumulate, hsome, Option.bind_eq_bind, Option.bind_some, hvalue]
      by_cases hle : number (d :: digits) % 2 ^ 64 ≤ number digits % 2 ^ 64
      · exact .inl ⟨if_pos hle, .inr hle⟩
      · exact .inr ⟨if_neg hle, not_or.2 ⟨hunseen, hle⟩⟩

theorem digitsOf_eq_some {buf : List UInt8} : ∀ {digits : List UInt8}, digitsOf buf = some digits →
    buf.take digits.length = digits := by
  induction buf with
  | nil => exact fun h => nomatch h
  | cons d buf ih =>
    intro digits h
    rw [digitsOf] at h
    split at h
    · obtain ⟨digits, hdigits, rfl⟩ := Option.map_eq_some_iff.mp h
      exact congrArg (d :: ·) (ih hdigits)
    · cases h
      rfl

theorem readVarint_written {v : Nat} (hv : v < 2 ^ 64) (rest : List UInt8) :
    readVarint (writeVarint v ++ rest) = some (sizeVarint v, v) := by
  simp only [readVarint, digitsOf_writeVarint, Option.bind_eq_bind, Option.bind_some]
  rcases Nat.eq_zero_or_pos v with rfl | hpos
  · rw [writeVarint, sizeVarint]
    rfl
  · have hread := accumulate_writeVarint hpos hv
    rw [if_neg, hread, Option.bind_some, length_writeVarint]
    intro hzero
    rw [hzero] at hread
    cases hread

theorem readVarint_spec {buf digits : List UInt8} (h : digitsOf buf = some digits) :
    (readVarint buf = none ∧ digits ≠ [0] ∧ OverflowSeen digits) ∨
      readVarint buf = some (digits.length, number digits % 2 ^ 64) ∧
        (digits = [0] ∨ ¬ OverflowSeen digits) := by
  simp only [readVarint, h, Option.bind_eq_bind, Option.bind_some]
  by_cases hzero : digits = [0]
  · subst hzero
    exact .inr ⟨rfl, .inl rfl⟩
  · rw [if_neg hzero]
    obtain ⟨hnone, hseen⟩ | ⟨hsome, hunseen⟩ := accumulate_spec digits
    · exact .inl ⟨by rw [hnone]; rfl, hzero, hseen⟩
    · exact .inr ⟨by rw [hsome]; rfl, .inr hunseen⟩

/-- A number of 64 bits is read back. From other bytes the reader reports an error just when there is
no last byte or an overflow is seen; the value it answers with is the number that the bytes denote
unless this has more than 64 bits and no overflow is seen. -/
theorem varint_exact_iff (v : Nat) (buf digits : List UInt8) :
    (v < 2 ^ 64 → (writeVarint v).length = sizeVarint v ∧ sizeVarint v ≤ 10 ∧
      ∀ rest, readVarint (writeVarint v ++ rest) = some (sizeVarint v, v)) ∧
    (digitsOf buf = none → readVarint buf = none) ∧
    (digitsOf buf = some digits →
      (readVarint buf = none ↔ digits ≠ [0] ∧ OverflowSeen digits) ∧
      ((∀ n t, readVarint buf = some (n, t) → buf.take n = digits ∧ t = number digits) ↔
        number digits < 2 ^ 64 ∨ OverflowSeen digits)) := by
  refine ⟨fun hv => ⟨length_writeVarint v, sizeVarint_le (hv.trans (by norm_num)),
    readVarint_written hv⟩, fun h => ?_, fun h => ?_⟩
  · rw [readVarint, h]
    rfl
  · obtain ⟨hnone, hzero, hseen⟩ | ⟨hsome, hunseen⟩ := readVarint_spec h
    · refine ⟨iff_of_true hnone ⟨hzero, hseen⟩, iff_of_true (fun n t hread => ?_) (.inr hseen)⟩
      rw [hnone] at hread
      cases hread
    · refine ⟨iff_of_false (by simp [hsome]) fun hseen => ?_, fun hexact => .inl ?_, fun hfits n t hread => ?_⟩
      · exact hunseen.elim hseen.1 fun hnot => hnot hseen.2
      · rw [← (hexact _ _ hsome).2]
        exact Nat.mod_lt _ (by decide)
      · have hlt : number digits < 2 ^ 64 := by
          obtain rfl | hunseen := hunseen
          · decide
          · exact hfits.resolve_right hunseen
        cases hsome.symm.trans hread
        exact ⟨digitsOf_eq_some h, Nat.mod_eq_of_lt hlt⟩

/-- The bytes denote `2 ^ 64 + 2 * 10 ^ 17`, and `2 * 10 ^ 17` is read. -/
theorem wrapped_varint_read :
    number (writeVarint (2 ^ 64 + 200000000000000000)) = 2 ^ 64 + 200000000000000000 ∧
      readVarint (writeVarint (2 ^ 64 + 200000000000000000)) = some (10, 200000000000000000) := by
  decide +kernel

end Ripple.NodeStore
