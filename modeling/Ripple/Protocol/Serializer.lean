import Ripple.Lib.BigEndian
import Ripple.Lib.Parser

/-!
# Ripple.Protocol.Serializer

The bytes of the protocol, from `protocol/Serializer.h` and `Serializer.cpp`. What a call of
`Serializer` appends is a list of bytes; a call of `SerialIter` is a `Parser`, whose error is the
text that is thrown.
-/

namespace Ripple.Protocol

open Ripple.Parser (bind_apply bind_eq_ok Reads)

abbrev Blob := List UInt8

/-- A call of `SerialIter`. -/
abbrev Get := Parser String UInt8

namespace Serializer

variable (i : Nat)

def add8 : Blob := BigEndian.encode 1 i

def add16 : Blob := BigEndian.encode 2 i

def add32 : Blob := BigEndian.encode 4 i

def add64 : Blob := BigEndian.encode 8 i

def add160 : Blob := BigEndian.encode 20 i

def addBitString {bits : Nat} (v : BitVec bits) : Blob := BigEndian.encode (bits / 8) v.toNat

/-- A common type or name is below 16 and shares a byte; the half of an uncommon one is zero. -/
def addFieldID (type name : Nat) : Blob :=
  if type < 16 then
    if name < 16 then add8 ((type <<< 4) ||| name) else add8 (type <<< 4) ++ add8 name
  else if name < 16 then add8 name ++ add8 type
  else add8 0 ++ add8 type ++ add8 name

def addEncoded (length : Nat) : Except String Blob :=
  if length ≤ 192 then .ok (add8 length)
  else if length ≤ 12480 then
    let length := length - 193
    .ok (add8 (193 + (length >>> 8)) ++ add8 (length &&& 0xff))
  else if length ≤ 918744 then
    let length := length - 12481
    .ok (add8 (241 + (length >>> 16)) ++ add8 ((length >>> 8) &&& 0xff) ++ add8 (length &&& 0xff))
  else .error "lenlen"

def addVL (data : Blob) : Except String Blob := do
  let encoded ← addEncoded data.length
  return encoded ++ data

end Serializer

namespace SerialIter

open Serializer

def getNumber (thrown : String) (width : Nat) : Get Nat := do
  let bytes ← Parser.take thrown width
  pure (BigEndian.toNat bytes)

def get8 : Get Nat := getNumber "invalid SerialIter get8" 1

def get16 : Get Nat := getNumber "invalid SerialIter get16" 2

def get32 : Get Nat := getNumber "invalid SerialIter get32" 4

def get64 : Get Nat := getNumber "invalid SerialIter get64" 8

def get160 : Get Nat := getNumber "invalid SerialIter getBitString" 20

def getBitString (bits : Nat) : Get (BitVec bits) := do
  let n ← getNumber "invalid SerialIter getBitString" (bits / 8)
  pure (BitVec.ofNat bits n)

def getUncommon (what : String) : Get Nat := do
  let n ← get8
  if n < 16 then Parser.fail ("gFID: uncommon " ++ what ++ " out of range " ++ toString n) else pure n

def getHalf (what : String) (half : Nat) : Get Nat := if half = 0 then getUncommon what else pure half

def getFieldID : Get (Nat × Nat) := do
  let b ← get8
  let type ← getHalf "type" (b >>> 4)
  let name ← getHalf "name" (b &&& 15)
  pure (type, name)

def getVLDataLength : Get Nat := do
  let b1 ← get8
  if b1 ≤ 192 then pure b1
  else if b1 ≤ 240 then do
    let b2 ← get8
    pure (193 + (b1 - 193) * 256 + b2)
  else if b1 ≤ 254 then do
    let b2 ← get8
    let b3 ← get8
    pure (12481 + (b1 - 241) * 65536 + b2 * 256 + b3)
  else Parser.fail "b1>254"

def getRaw (size : Nat) : Get Blob := Parser.take "invalid SerialIter getRaw" size

def getVL : Get Blob := do
  let size ← getVLDataLength
  getRaw size

/-! ## Numbers -/

variable {n width : Nat} {rest sit : Blob} {type name : Nat}

theorem reads_getNumber (thrown : String) (hn : n < 256 ^ width) :
    Reads (getNumber thrown width) (BigEndian.encode width n) n := by
  intro rest
  unfold getNumber
  rw [bind_apply (Parser.take_append thrown (BigEndian.length_encode width n) rest),
    Parser.pure_apply, BigEndian.toNat_encode_of_lt hn]

theorem getNumber_eq_ok {thrown : String} (h : getNumber thrown width sit = .ok (n, rest)) :
    n < 256 ^ width ∧ sit = BigEndian.encode width n ++ rest := by
  obtain ⟨bytes, rest', htake, hpure⟩ := bind_eq_ok h
  obtain ⟨rfl, rfl⟩ := Parser.take_eq_ok htake
  cases hpure
  exact ⟨BigEndian.toNat_lt bytes, by rw [BigEndian.encode_toNat]⟩

theorem shrinks_getNumber (thrown : String) (width : Nat) : Parser.Shrinks (getNumber thrown width) :=
  (Parser.Shrinks.take _ _).bind fun _ => .pure _

theorem reads_get8 (hn : n < 256) : Reads get8 (add8 n) n := reads_getNumber _ (by omega)

theorem reads_get16 (hn : n < 2 ^ 16) : Reads get16 (add16 n) n := reads_getNumber _ hn

theorem reads_get32 (hn : n < 2 ^ 32) : Reads get32 (add32 n) n := reads_getNumber _ hn

theorem reads_get64 (hn : n < 2 ^ 64) : Reads get64 (add64 n) n := reads_getNumber _ hn

theorem shrinks_getBitString (bits : Nat) : Parser.Shrinks (getBitString bits) :=
  (shrinks_getNumber _ _).bind fun _ => .pure _

theorem reads_getBitString {bits : Nat} (hbits : bits % 8 = 0) (v : BitVec bits) :
    Reads (getBitString bits) (addBitString v) v := by
  have hpow : 256 ^ (bits / 8) = 2 ^ bits := by
    rw [show 256 = 2 ^ 8 by rfl, ← Nat.pow_mul, Nat.mul_div_cancel' (Nat.dvd_of_mod_eq_zero hbits)]
  have hread := (reads_getNumber "invalid SerialIter getBitString" (hpow ▸ v.isLt)).map (BitVec.ofNat bits)
  rwa [BitVec.ofNat_toNat, BitVec.setWidth_eq] at hread

/-! ## Field identifiers -/

def halfOf (n : Nat) : Nat := if n < 16 then n else 0

def ownByte (n : Nat) : Blob := if n < 16 then [] else add8 n

theorem addFieldID_eq (type name : Nat) :
    addFieldID type name = add8 ((halfOf type <<< 4) ||| halfOf name) ++ (ownByte type ++ ownByte name) := by
  rw [addFieldID, halfOf, halfOf, ownByte, ownByte]
  split
  · split
    · simp
    · simp
  · split
    · simp
    · simp

theorem fieldByte (htype : type < 16) (hname : name < 16) :
    ((type <<< 4) ||| name) >>> 4 = type ∧ ((type <<< 4) ||| name) &&& 15 = name ∧
      (type <<< 4) ||| name < 256 := by
  rw [Nat.shiftLeft_eq, Nat.mul_comm, ← Nat.two_pow_add_eq_or_of_lt hname, Nat.shiftRight_eq_div_pow,
    show 15 = 2 ^ 4 - 1 by rfl, Nat.and_two_pow_sub_one_eq_mod]
  omega

theorem halfOf_lt (n : Nat) : halfOf n < 16 := by
  rw [halfOf]
  split <;> omega

theorem reads_getHalf (what : String) (hpos : 0 < n) (hn : n < 256) :
    Reads (getHalf what (halfOf n)) (ownByte n) n := by
  intro rest
  rw [getHalf, halfOf, ownByte]
  by_cases hcommon : n < 16
  · rw [if_pos hcommon, if_pos hcommon, if_neg hpos.ne']
    rfl
  · rw [if_neg hcommon, if_neg hcommon, if_pos rfl, getUncommon, bind_apply (reads_get8 hn rest),
      if_neg hcommon]
    rfl

theorem reads_getFieldID (htype : 0 < type) (htype' : type < 256) (hname : 0 < name)
    (hname' : name < 256) : Reads getFieldID (addFieldID type name) (type, name) := by
  obtain ⟨hhigh, hlow, hbyte⟩ := fieldByte (halfOf_lt type) (halfOf_lt name)
  rw [addFieldID_eq]
  refine (reads_get8 hbyte).bind ?_
  rw [hhigh, hlow]
  exact (reads_getHalf "type" htype htype').bind ((reads_getHalf "name" hname hname').map (type, ·))

theorem getHalf_eq_ok {what : String} {half : Nat} (hhalf : half < 16) (h : getHalf what half sit = .ok (n, rest)) :
    (0 < n ∧ n < 256) ∧ halfOf n = half ∧ sit = ownByte n ++ rest := by
  rw [halfOf, ownByte]
  unfold getHalf at h
  split at h
  · next hzero =>
    obtain ⟨n', rest', hget, hn⟩ := bind_eq_ok h
    obtain ⟨hlt, rfl⟩ := getNumber_eq_ok hget
    split at hn
    · cases hn
    · next huncommon =>
      cases hn
      rw [if_neg huncommon, if_neg huncommon]
      exact ⟨⟨by omega, by simpa using hlt⟩, hzero.symm, rfl⟩
  · cases h
    rw [if_pos hhalf, if_pos hhalf]
    exact ⟨⟨by omega, by omega⟩, rfl, rfl⟩

theorem getFieldID_eq_ok (h : getFieldID sit = .ok ((type, name), rest)) :
    (0 < type ∧ type < 256) ∧ (0 < name ∧ name < 256) ∧ sit = addFieldID type name ++ rest := by
  obtain ⟨b, rest₁, hb, h⟩ := bind_eq_ok h
  obtain ⟨type', rest₂, htype, h⟩ := bind_eq_ok h
  obtain ⟨name', rest₃, hname, h⟩ := bind_eq_ok h
  cases h
  obtain ⟨hlt, rfl⟩ := getNumber_eq_ok hb
  have hhalves : ∀ b < 256, b >>> 4 < 16 ∧ ((b >>> 4) <<< 4) ||| (b &&& 15) = b := by decide +kernel
  obtain ⟨hhigh, hbyte⟩ := hhalves b hlt
  obtain ⟨ht, hthalf, rfl⟩ := getHalf_eq_ok hhigh htype
  obtain ⟨hn, hnhalf, rfl⟩ := getHalf_eq_ok (Nat.and_lt_two_pow b (by decide : 15 < 2 ^ 4)) hname
  refine ⟨ht, hn, ?_⟩
  rw [addFieldID_eq, hthalf, hnhalf, hbyte, List.append_assoc, List.append_assoc]
  rfl

/-! ## Variable length -/

/-- The bytes in front of a number of bytes, as they are read. -/
inductive Encoded : Nat → Blob → Prop
  | one {b1} : b1 ≤ 192 → Encoded b1 (add8 b1)
  | two {b1 b2} : 193 ≤ b1 → b1 ≤ 240 → b2 < 256 → Encoded (193 + (b1 - 193) * 256 + b2) (add8 b1 ++ add8 b2)
  | three {b1 b2 b3} : 241 ≤ b1 → b1 ≤ 254 → b2 < 256 → b3 < 256 →
      Encoded (12481 + (b1 - 241) * 65536 + b2 * 256 + b3) (add8 b1 ++ add8 b2 ++ add8 b3)

variable {length : Nat} {bytes : Blob}

theorem reads_getVLDataLength (h : Encoded length bytes) :
    Reads getVLDataLength bytes length := by
  intro rest
  cases h with
  | one hb1 => rw [getVLDataLength, bind_apply (reads_get8 (by omega) rest), if_pos hb1, Parser.pure_apply]
  | two hlo hhi hb2 =>
    rw [List.append_assoc, getVLDataLength, bind_apply (reads_get8 (by omega) _), if_neg (by omega), if_pos hhi,
      bind_apply (reads_get8 hb2 rest), Parser.pure_apply]
  | three hlo hhi hb2 hb3 =>
    rw [List.append_assoc, List.append_assoc, getVLDataLength, bind_apply (reads_get8 (by omega) _),
      if_neg (by omega), if_neg (by omega), if_pos hhi, bind_apply (reads_get8 hb2 _),
      bind_apply (reads_get8 hb3 rest), Parser.pure_apply]

theorem getVLDataLength_eq_ok (h : getVLDataLength sit = .ok (length, rest)) :
    ∃ bytes, Encoded length bytes ∧ sit = bytes ++ rest := by
  obtain ⟨b1, rest₁, hb1, hrest⟩ := bind_eq_ok h
  obtain ⟨-, rfl⟩ := getNumber_eq_ok hb1
  split at hrest
  · next hone =>
    cases hrest
    exact ⟨_, .one hone, rfl⟩
  · split at hrest
    · next hone htwo =>
      obtain ⟨b2, rest₂, hb2, hpure⟩ := bind_eq_ok hrest
      obtain ⟨hlt2, rfl⟩ := getNumber_eq_ok hb2
      cases hpure
      exact ⟨_, .two (by omega) htwo hlt2, (List.append_assoc ..).symm⟩
    · split at hrest
      · next hone htwo hthree =>
        obtain ⟨b2, rest₂, hb2, hrest⟩ := bind_eq_ok hrest
        obtain ⟨b3, rest₃, hb3, hpure⟩ := bind_eq_ok hrest
        obtain ⟨hlt2, rfl⟩ := getNumber_eq_ok hb2
        obtain ⟨hlt3, rfl⟩ := getNumber_eq_ok hb3
        cases hpure
        exact ⟨_, .three (by omega) hthree hlt2 hlt3, by simp only [List.append_assoc]; rfl⟩
      · cases hrest

theorem Encoded.addEncoded (h : Encoded length bytes) (hlength : length ≤ 918744) :
    addEncoded length = .ok bytes := by
  have hbyte : ∀ n, n &&& 0xff = n % 2 ^ 8 := fun n => Nat.and_two_pow_sub_one_eq_mod n 8
  cases h with
  | one hb1 => rw [Serializer.addEncoded, if_pos hb1]
  | @two b1 b2 hlo hhi hb2 =>
    have hlow : 193 + (b1 - 193) * 256 + b2 - 193 = (b1 - 193) * 256 + b2 := by omega
    rw [Serializer.addEncoded, if_neg (by omega), if_pos (by omega), hlow]
    dsimp only
    rw [hbyte, Nat.shiftRight_eq_div_pow, show 193 + ((b1 - 193) * 256 + b2) / 2 ^ 8 = b1 by omega,
      show ((b1 - 193) * 256 + b2) % 2 ^ 8 = b2 by omega]
  | @three b1 b2 b3 hlo hhi hb2 hb3 =>
    have hlow : 12481 + (b1 - 241) * 65536 + b2 * 256 + b3 - 12481 = (b1 - 241) * 65536 + b2 * 256 + b3 := by omega
    rw [Serializer.addEncoded, if_neg (by omega), if_neg (by omega), if_pos hlength, hlow]
    dsimp only
    rw [hbyte, hbyte, Nat.shiftRight_eq_div_pow, Nat.shiftRight_eq_div_pow,
      show 241 + ((b1 - 241) * 65536 + b2 * 256 + b3) / 2 ^ 16 = b1 by omega,
      show ((b1 - 241) * 65536 + b2 * 256 + b3) / 2 ^ 8 % 2 ^ 8 = b2 by omega,
      show ((b1 - 241) * 65536 + b2 * 256 + b3) % 2 ^ 8 = b3 by omega]

theorem exists_encoded (h : length ≤ 918744) :
    ∃ bytes, addEncoded length = .ok bytes ∧ Encoded length bytes := by
  have hbytes : ∃ bytes, Encoded length bytes := by
    rcases le_or_gt length 192 with hone | hone
    · exact ⟨_, .one hone⟩
    rcases le_or_gt length 12480 with htwo | htwo
    · have hsum : 193 + (193 + (length - 193) / 256 - 193) * 256 + (length - 193) % 256 = length := by omega
      exact ⟨_, hsum ▸ Encoded.two (by omega) (by omega) (by omega)⟩
    · have hsum : 12481 + (241 + (length - 12481) / 65536 - 241) * 65536 + (length - 12481) / 256 % 256 * 256 +
          (length - 12481) % 256 = length := by omega
      exact ⟨_, hsum ▸ Encoded.three (by omega) (by omega) (by omega) (by omega)⟩
  exact hbytes.imp fun _ hbytes => ⟨hbytes.addEncoded h, hbytes⟩

theorem add8_append {b : UInt8} {more : Blob} (hn : n < 256) (h : add8 n ++ rest = b :: more) :
    b.toNat = n ∧ rest = more := by
  have hcons : add8 n ++ rest = UInt8.ofNat (n / 256 ^ 0) :: rest := rfl
  obtain ⟨rfl, rfl⟩ := List.cons.inj (hcons.symm.trans h)
  rw [Nat.pow_zero, Nat.div_one, UInt8.toNat_ofNat', Nat.mod_eq_of_lt hn]
  exact ⟨rfl, rfl⟩

/-- In bytes: only a first byte 254 stands for lengths beyond the greatest that can be written. -/
theorem Encoded.le_iff (h : Encoded length bytes) (rest : Blob) : length ≤ 918744 ↔
    ∀ b2 b3 more, bytes ++ rest = 254 :: b2 :: b3 :: more →
      256 * b2.toNat + b3.toNat ≤ 54295 := by
  have hfirst : (254 : UInt8).toNat = 254 := rfl
  cases h with
  | one hb1 =>
    refine iff_of_true (by omega) fun b2 b3 more heq => ?_
    obtain ⟨hhead, -⟩ := add8_append (by omega) heq
    omega
  | two hlo hhi hb2 =>
    refine iff_of_true (by omega) fun b2 b3 more heq => ?_
    rw [List.append_assoc] at heq
    obtain ⟨hhead, -⟩ := add8_append (by omega) heq
    omega
  | @three b1 b2 b3 hlo hhi hb2 hb3 =>
    simp only [List.append_assoc]
    constructor
    · intro hle b2' b3' more heq
      obtain ⟨hhead, heq⟩ := add8_append (by omega) heq
      obtain ⟨hsecond, heq⟩ := add8_append hb2 heq
      obtain ⟨hthird, -⟩ := add8_append hb3 heq
      omega
    · intro hbytes
      by_cases hlast : b1 = 254
      · have hle := hbytes (UInt8.ofNat b2) (UInt8.ofNat b3) rest (by
          rw [hlast, add8, add8, add8, BigEndian.encode, BigEndian.encode, BigEndian.encode]
          simp [BigEndian.encode])
        rw [UInt8.toNat_ofNat', UInt8.toNat_ofNat', Nat.mod_eq_of_lt hb2, Nat.mod_eq_of_lt hb3] at hle
        omega
      · omega

/-- Identifiers and lengths are read back, and every identifier that is read is written the same way.
So is a length, unless its bytes stand for one that cannot be written. -/
theorem headers_canonical (type name length : Nat) (sit rest : Blob) :
    ((0 < type ∧ type < 256) → (0 < name ∧ name < 256) →
      Reads getFieldID (addFieldID type name) (type, name)) ∧
    (length ≤ 918744 → ∃ bytes, addEncoded length = .ok bytes ∧ Reads getVLDataLength bytes length) ∧
    (getFieldID sit = .ok ((type, name), rest) →
      (0 < type ∧ type < 256) ∧ (0 < name ∧ name < 256) ∧ sit = addFieldID type name ++ rest) ∧
    (getVLDataLength sit = .ok (length, rest) →
      ((∃ bytes, addEncoded length = .ok bytes ∧ sit = bytes ++ rest) ↔
        ∀ b2 b3 more, sit = 254 :: b2 :: b3 :: more → 256 * b2.toNat + b3.toNat ≤ 54295)) := by
  refine ⟨fun ht hn => reads_getFieldID ht.1 ht.2 hn.1 hn.2, fun h => ?_, getFieldID_eq_ok, fun h => ?_⟩
  · exact (exists_encoded h).imp fun _ hbytes => ⟨hbytes.1, reads_getVLDataLength hbytes.2⟩
  · obtain ⟨bytes, hbytes, rfl⟩ := getVLDataLength_eq_ok h
    rw [← hbytes.le_iff rest]
    constructor
    · rintro ⟨written, hwritten, -⟩
      by_contra hlong
      rw [addEncoded, if_neg (by omega), if_neg (by omega), if_neg hlong] at hwritten
      cases hwritten
    · exact fun hlength => ⟨bytes, hbytes.addEncoded hlength, rfl⟩

/-- The longest length that can be read. -/
theorem longest_length_not_written :
    getVLDataLength [254, 255, 255] = .ok (929984, []) ∧ addEncoded 929984 = .error "lenlen" :=
  ⟨rfl, rfl⟩

theorem shrinks_getVL : Parser.Shrinks getVL := by
  refine Parser.Shrinks.bind (fun sit length rest h => ?_) fun size => Parser.Shrinks.take _ _
  obtain ⟨bytes, -, rfl⟩ := getVLDataLength_eq_ok h
  simp

theorem reads_getVL {data : Blob} (h : data.length ≤ 918744) :
    ∃ bytes, addVL data = .ok bytes ∧ Reads getVL bytes data := by
  obtain ⟨bytes, hbytes, hencoded⟩ := exists_encoded h
  refine ⟨bytes ++ data, ?_, (reads_getVLDataLength hencoded).bind fun rest => Parser.take_append _ rfl rest⟩
  rw [addVL, hbytes]
  rfl

end SerialIter

end Ripple.Protocol
