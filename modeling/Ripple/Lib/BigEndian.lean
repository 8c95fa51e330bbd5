import Mathlib.Algebra.Order.Group.Nat
import Mathlib.Tactic.Ring

/-!
# Ripple.Lib.BigEndian

Numbers as a fixed number of bytes, the most significant one first.

* `toNat_encode`: reading what was written gives the number modulo `256 ^ width`.
* `encode_toNat`: every string of bytes is the encoding of the number it stands for.
-/

namespace BigEndian

/-- The number that a string of bytes stands for. -/
def toNat : List UInt8 → Nat
  | [] => 0
  | b :: bytes => b.toNat * 256 ^ bytes.length + toNat bytes

def encode : (width n : Nat) → List UInt8
  | 0, _ => []
  | width + 1, n => UInt8.ofNat (n / 256 ^ width) :: encode width n

@[simp] theorem length_encode (width n : Nat) : (encode width n).length = width := by
  induction width with
  | zero => rfl
  | succ width ih => simp only [encode, List.length_cons, ih]

theorem toNat_lt (bytes : List UInt8) : toNat bytes < 256 ^ bytes.length := by
  induction bytes with
  | nil => simp [toNat]
  | cons b bytes ih =>
    have hb : b.toNat + 1 ≤ 256 := b.toNat_lt
    calc b.toNat * 256 ^ bytes.length + toNat bytes
        < (b.toNat + 1) * 256 ^ bytes.length := by rw [Nat.succ_mul]; omega
      _ ≤ 256 * 256 ^ bytes.length := Nat.mul_le_mul_right _ hb
      _ = 256 ^ (bytes.length + 1) := by rw [Nat.pow_succ, Nat.mul_comm]

theorem toNat_encode (width n : Nat) : toNat (encode width n) = n % 256 ^ width := by
  induction width with
  | zero => simp [encode, toNat, Nat.mod_one]
  | succ width ih =>
    have hbyte : (UInt8.ofNat (n / 256 ^ width)).toNat = n / 256 ^ width % 256 := UInt8.toNat_ofNat'
    rw [encode, toNat, length_encode, ih, hbyte, Nat.pow_succ, Nat.mod_mul, Nat.add_comm,
      Nat.mul_comm (n / 256 ^ width % 256)]

theorem toNat_encode_of_lt {width n : Nat} (h : n < 256 ^ width) : toNat (encode width n) = n := by
  rw [toNat_encode, Nat.mod_eq_of_lt h]

theorem encode_add_mul (width n high : Nat) : encode width (high * 256 ^ width + n) = encode width n := by
  induction width generalizing high with
  | zero => rfl
  | succ width ih =>
    have hpow : high * 256 ^ (width + 1) = high * 256 * 256 ^ width := by ring
    have hdiv : (high * 256 * 256 ^ width + n) / 256 ^ width = n / 256 ^ width + 256 * high := by
      rw [Nat.add_comm, Nat.add_mul_div_right _ _ (Nat.pow_pos (by omega)), Nat.mul_comm high]
    rw [hpow, encode, ih, hdiv, encode]
    congr 1
    apply UInt8.toNat_inj.mp
    simp only [UInt8.toNat_ofNat', Nat.reducePow]
    omega

theorem encode_toNat (bytes : List UInt8) : encode bytes.length (toNat bytes) = bytes := by
  induction bytes with
  | nil => rfl
  | cons b bytes ih =>
    have hdiv : (b.toNat * 256 ^ bytes.length + toNat bytes) / 256 ^ bytes.length = b.toNat := by
      rw [Nat.add_comm, Nat.add_mul_div_right _ _ (Nat.pow_pos (by omega)),
        Nat.div_eq_of_lt (toNat_lt bytes), Nat.zero_add]
    rw [List.length_cons, encode, toNat, encode_add_mul, ih, hdiv, UInt8.ofNat_toNat]

end BigEndian
