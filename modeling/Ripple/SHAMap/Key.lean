import Ripple.Lib.Trie

/-!
# Ripple.SHAMap.Key

The keys of a map are 256-bit numbers, read from the most significant byte on. A node at depth `d`
branches on the nibble `d` of a key: the high half of a byte at an even depth and the low half at an
odd one.

The nodes of version 2 keep the nibbles that the keys below them share. `hasCommonPrefix`,
`getCommonPrefix` and `prefixOf` work on whole bytes and mask the last one at an odd depth;
here they are read as statements about nibbles.
-/

namespace Ripple.SHAMap

open Trie (Agree)

/-- A `uint256`, byte by byte from the most significant one. -/
abbrev Key := Fin 32 → UInt8

def byte (k : Key) (i : ℕ) : UInt8 := if h : i < 32 then k ⟨i, h⟩ else 0

variable {i : ℕ} {k1 k2 : Key}

theorem byte_of_lt (k : Key) (h : i < 32) : byte k i = k ⟨i, h⟩ := dif_pos h

theorem byte_of_le (k : Key) (h : 32 ≤ i) : byte k i = 0 := dif_neg (Nat.not_lt.mpr h)

theorem ext_byte {k k' : Key} (h : ∀ i < 32, byte k i = byte k' i) : k = k' := by
  funext ⟨i, hi⟩
  simpa only [byte_of_lt _ hi] using h i hi

/-! ## Halves of a byte -/

def highHalf (b : UInt8) : Fin 16 := Fin.ofNat 16 (b >>> 4).toNat

def lowHalf (b : UInt8) : Fin 16 := Fin.ofNat 16 (b &&& 0x0F).toNat

variable (b : UInt8)

theorem val_highHalf : (highHalf b).val = b.toNat / 16 := by
  have hb : b.toNat < 256 := b.toNat_lt
  have : (b >>> 4).toNat = b.toNat / 16 := by
    rw [UInt8.toNat_shiftRight]
    exact Nat.shiftRight_eq_div_pow _ _
  rw [highHalf, Fin.val_ofNat, this]
  omega

theorem val_lowHalf : (lowHalf b).val = b.toNat % 16 := by
  have : (b &&& 0x0F).toNat = b.toNat % 16 := by
    rw [UInt8.toNat_and]
    exact Nat.and_two_pow_sub_one_eq_mod _ 4
  rw [lowHalf, Fin.val_ofNat, this, Nat.mod_mod]

theorem eq_of_halves {b b' : UInt8} (hhigh : highHalf b = highHalf b') (hlow : lowHalf b = lowHalf b') :
    b = b' := by
  have h1 := congrArg Fin.val hhigh
  have h2 := congrArg Fin.val hlow
  rw [val_highHalf, val_highHalf] at h1
  rw [val_lowHalf, val_lowHalf] at h2
  exact UInt8.toNat_inj.mp (by omega)

theorem toNat_mask : (b &&& 0xF0).toNat = 16 * (b.toNat / 16) := by
  have hall : ∀ n < 256, n &&& 0xF0 = 16 * (n / 16) := by decide +kernel
  rw [UInt8.toNat_and]
  exact hall _ b.toNat_lt

theorem mask_eq_iff (b b' : UInt8) : b &&& 0xF0 = b' &&& 0xF0 ↔ highHalf b = highHalf b' := by
  rw [← UInt8.toNat_inj, toNat_mask, toNat_mask, Fin.ext_iff, val_highHalf, val_highHalf]
  omega

theorem highHalf_mask : highHalf (b &&& 0xF0) = highHalf b := by
  rw [Fin.ext_iff, val_highHalf, val_highHalf, toNat_mask]
  omega

theorem lowHalf_mask : lowHalf (b &&& 0xF0) = 0 := by
  rw [Fin.ext_iff, val_lowHalf, toNat_mask]
  simp

/-! ## Nibbles -/

/-- `SHAMapNodeID::selectBranch`, for a node at the depth `d`. -/
def selectBranch (d : ℕ) (k : Key) : Fin 16 :=
  let branch := byte k (d / 2)
  if d % 2 = 1 then lowHalf branch else highHalf branch

theorem selectBranch_even (i : ℕ) (k : Key) : selectBranch (2 * i) k = highHalf (byte k i) := by
  have hdiv : 2 * i / 2 = i := by omega
  simp [selectBranch, hdiv]

theorem selectBranch_odd (i : ℕ) (k : Key) : selectBranch (2 * i + 1) k = lowHalf (byte k i) := by
  have hdiv : (2 * i + 1) / 2 = i := by omega
  have hmod : (2 * i + 1) % 2 = 1 := by omega
  simp [selectBranch, hdiv, hmod]

theorem byte_eq_iff (k k' : Key) (i : ℕ) :
    byte k i = byte k' i ↔ selectBranch (2 * i) k = selectBranch (2 * i) k' ∧
      selectBranch (2 * i + 1) k = selectBranch (2 * i + 1) k' := by
  simp only [selectBranch_even, selectBranch_odd]
  constructor
  · intro h
    rw [h]
    exact ⟨rfl, rfl⟩
  · rintro ⟨hhigh, hlow⟩
    exact eq_of_halves hhigh hlow

instance : Spelled Key 16 64 where
  digit k d := selectBranch d k
  ext_digit := by
    intro k k' h
    refine ext_byte fun i hi => (byte_eq_iff k k' i).mpr ⟨h _ (by omega), h _ (by omega)⟩

@[simp] theorem digit_eq (k : Key) (d : ℕ) : Spelled.digit k d = selectBranch d k := rfl

theorem agree_two_mul_iff (k k' : Key) (n : ℕ) :
    Agree (2 * n) k k' ↔ ∀ i < n, byte k i = byte k' i := by
  constructor
  · exact fun h i hi => (byte_eq_iff k k' i).mpr ⟨h _ (by omega), h _ (by omega)⟩
  · intro h d hd
    obtain ⟨heven, hodd⟩ := (byte_eq_iff k k' (d / 2)).mp (h (d / 2) (by omega))
    obtain hmod | hmod := Nat.mod_two_eq_zero_or_one d
    · have : 2 * (d / 2) = d := by omega
      rwa [this] at heven
    · have : 2 * (d / 2) + 1 = d := by omega
      rwa [this] at hodd

theorem agree_two_mul_succ_iff (k k' : Key) (n : ℕ) :
    Agree (2 * n + 1) k k' ↔
      (∀ i < n, byte k i = byte k' i) ∧ byte k n &&& 0xF0 = byte k' n &&& 0xF0 := by
  rw [← agree_two_mul_iff, mask_eq_iff, ← selectBranch_even, ← selectBranch_even]
  constructor
  · exact fun h => ⟨h.mono (Nat.le_succ _), h _ (Nat.lt_succ_self _)⟩
  · exact fun ⟨h, hd⟩ => h.succ hd

/-! ## The shared nibbles of a node -/

/-- `SHAMapInnerNodeV2::has_common_prefix`, for the node's `depth_` and `common_`. -/
def hasCommonPrefix (depth : ℕ) (common key : Key) : Bool :=
  ((List.range (depth / 2)).all fun i => byte common i == byte key i) &&
    if depth % 2 = 1 then byte common (depth / 2) &&& 0xF0 == byte key (depth / 2) &&& 0xF0 else true

variable (depth : ℕ)

theorem hasCommonPrefix_iff (common key : Key) :
    hasCommonPrefix depth common key = true ↔ Agree depth common key := by
  obtain hmod | hmod := Nat.mod_two_eq_zero_or_one depth
  · have hd : depth = 2 * (depth / 2) := by omega
    have := agree_two_mul_iff common key (depth / 2)
    rw [← hd] at this
    simp [hasCommonPrefix, hmod, this]
  · have hd : depth = 2 * (depth / 2) + 1 := by omega
    have := agree_two_mul_succ_iff common key (depth / 2)
    rw [← hd] at this
    simp [hasCommonPrefix, hmod, this]

/-- The loop of `SHAMapInnerNodeV2::get_common_prefix`: from the byte `i` on, with `n` whole bytes
to go and `r` nibbles counted. -/
def commonNibbles (depth : ℕ) (common key : Key) : (n i r : ℕ) → ℕ
  | 0, _, r =>
    if depth % 2 = 1 ∧ byte common (depth / 2) &&& 0xF0 = byte key (depth / 2) &&& 0xF0 then r + 1 else r
  | n + 1, i, r =>
    if byte common i ≠ byte key i then
      if byte common i &&& 0xF0 = byte key i &&& 0xF0 then r + 1 else r
    else commonNibbles depth common key n (i + 1) (r + 2)

/-- `SHAMapInnerNodeV2::get_common_prefix`, for the node's `depth_` and `common_`. -/
def getCommonPrefix (depth : ℕ) (common key : Key) : ℕ :=
  commonNibbles depth common key (depth / 2) 0 0

def Shared (depth : ℕ) (k k' : Key) (r : ℕ) : Prop :=
  r ≤ depth ∧ Agree r k k' ∧ (r < depth → selectBranch r k ≠ selectBranch r k')

theorem shared_in_byte {depth : ℕ} {common key : Key} (hi : 2 * i + 1 < depth)
    (hagree : Agree (2 * i) common key) (hne : byte common i ≠ byte key i) : Shared depth common key
      (if byte common i &&& 0xF0 = byte key i &&& 0xF0 then 2 * i + 1 else 2 * i) := by
  have hhigh := mask_eq_iff (byte common i) (byte key i)
  rw [← selectBranch_even, ← selectBranch_even] at hhigh
  by_cases hmask : byte common i &&& 0xF0 = byte key i &&& 0xF0
  · rw [if_pos hmask]
    have hagree' := hagree.succ (hhigh.mp hmask)
    refine ⟨by omega, hagree', fun _ hlow => hne ?_⟩
    exact (byte_eq_iff _ _ i).mpr ⟨hhigh.mp hmask, hlow⟩
  · rw [if_neg hmask]
    exact ⟨by omega, hagree, fun _ h => hmask (hhigh.mpr h)⟩

theorem shared_commonNibbles (common key : Key) (n : ℕ) :
    ∀ i, i + n = depth / 2 → Agree (2 * i) common key →
      Shared depth common key (commonNibbles depth common key n i (2 * i)) := by
  induction n with
  | zero =>
    intro i hi hagree
    have hhigh := mask_eq_iff (byte common (depth / 2)) (byte key (depth / 2))
    rw [← selectBranch_even, ← selectBranch_even] at hhigh
    obtain rfl : i = depth / 2 := by omega
    rw [commonNibbles]
    split
    · next h => exact ⟨by omega, hagree.succ (hhigh.mp h.2), fun hlt => by omega⟩
    · next h =>
      refine ⟨by omega, hagree, fun hlt hdigit => h ⟨by omega, hhigh.mpr hdigit⟩⟩
  | succ n ih =>
    intro i hi hagree
    rw [commonNibbles]
    by_cases hbyte : byte common i = byte key i
    · obtain ⟨hhigh, hlow⟩ := (byte_eq_iff common key i).mp hbyte
      rw [if_neg (not_not.mpr hbyte)]
      exact ih (i + 1) (by omega) ((hagree.succ hhigh).succ hlow)
    · rw [if_pos hbyte]
      exact shared_in_byte (by omega) hagree hbyte

theorem shared_getCommonPrefix (common key : Key) :
    Shared depth common key (getCommonPrefix depth common key) :=
  shared_commonNibbles depth common key (depth / 2) 0 (Nat.zero_add _) (Trie.agree_zero _ _)

/-- The function `prefix` of `SHAMap.cpp`: the first `depth` nibbles of the key. -/
def prefixOf (depth : ℕ) (key : Key) : Key := fun i =>
  if i.val < depth / 2 then key i
  else if depth % 2 = 1 ∧ i.val = depth / 2 then key i &&& 0xF0
  else 0

theorem byte_prefixOf (key : Key) (i : ℕ) :
    byte (prefixOf depth key) i =
      if i < depth / 2 then byte key i
      else if depth % 2 = 1 ∧ i = depth / 2 then byte key i &&& 0xF0
      else 0 := by
  by_cases hi : i < 32
  · simp only [byte_of_lt _ hi, prefixOf]
  · simp [byte_of_le _ (Nat.le_of_not_lt hi)]

theorem selectBranch_prefixOf (key : Key) (e : ℕ) :
    selectBranch e (prefixOf depth key) = if e < depth then selectBranch e key else 0 := by
  have hzero : highHalf 0 = 0 ∧ lowHalf 0 = 0 := by decide
  obtain ⟨i, rfl | rfl⟩ : ∃ i, e = 2 * i ∨ e = 2 * i + 1 := ⟨e / 2, by omega⟩
  · rw [selectBranch_even, selectBranch_even, byte_prefixOf]
    split_ifs with h1 h2 h3 h3
    · rfl
    · omega
    · exact highHalf_mask _
    · omega
    · omega
    · exact hzero.1
  · rw [selectBranch_odd, selectBranch_odd, byte_prefixOf]
    split_ifs with h1 h2 h3 h3
    · rfl
    · omega
    · omega
    · exact lowHalf_mask _
    · omega
    · exact hzero.2

theorem agree_prefixOf (key : Key) : Agree depth (prefixOf depth key) key := by
  intro e he
  simp [selectBranch_prefixOf, he]

theorem prefixOf_eq_iff (k k' : Key) : prefixOf depth k = prefixOf depth k' ↔ Agree depth k k' := by
  constructor
  · intro h
    exact (agree_prefixOf depth k).symm.trans (h ▸ agree_prefixOf depth k')
  · intro h
    refine Spelled.ext_digit fun e _ => ?_
    rw [digit_eq, digit_eq, selectBranch_prefixOf, selectBranch_prefixOf]
    split
    · next he => exact h e he
    · rfl

@[simp] theorem prefixOf_zero (k : Key) : prefixOf 0 k = 0 := by
  funext i
  simp [prefixOf]

/-- The loop of `SHAMapInnerNodeV2::setChildren` over the bytes that the keys share, from the byte
`i` on. -/
def equalBytes (k1 k2 : Key) : (n i : ℕ) → ℕ
  | 0, i => i
  | n + 1, i => if byte k1 i = byte k2 i then equalBytes k1 k2 n (i + 1) else i

theorem equalBytes_spec (hne : k1 ≠ k2) (n : ℕ) :
    ∀ i, i + n = 32 → (∀ j < i, byte k1 j = byte k2 j) →
      equalBytes k1 k2 n i < 32 ∧ (∀ j < equalBytes k1 k2 n i, byte k1 j = byte k2 j) ∧
        byte k1 (equalBytes k1 k2 n i) ≠ byte k2 (equalBytes k1 k2 n i) := by
  induction n with
  | zero =>
    intro i hi heq
    obtain rfl : i = 32 := by omega
    exact absurd (ext_byte heq) hne
  | succ n ih =>
    intro i hi heq
    rw [equalBytes]
    split
    · next hbyte =>
      refine ih (i + 1) (by omega) fun j hj => ?_
      obtain hj | rfl := Nat.lt_succ_iff_lt_or_eq.mp hj
      · exact heq j hj
      · exact hbyte
    · next hbyte => exact ⟨by omega, heq, hbyte⟩

/-- The `depth_` that `SHAMapInnerNodeV2::setChildren` gives the node above two leaves. -/
def forkDepth (k1 k2 : Key) : ℕ :=
  let i := equalBytes k1 k2 32 0
  if byte k1 i &&& 0xF0 = byte k2 i &&& 0xF0 then 2 * i + 1 else 2 * i

/-- The `common_` that `SHAMapInnerNodeV2::setChildren` gives the node above two leaves. -/
def forkCommon (k1 k2 : Key) : Key := fun j =>
  let i := equalBytes k1 k2 32 0
  if j.val < i then k1 j
  else if j.val = i ∧ byte k1 i &&& 0xF0 = byte k2 i &&& 0xF0 then k1 j &&& 0xF0
  else 0

theorem shared_forkDepth (hne : k1 ≠ k2) : Shared 64 k1 k2 (forkDepth k1 k2) := by
  obtain ⟨hlt, heq, hbyte⟩ := equalBytes_spec hne 32 0 rfl (fun j hj => absurd hj (Nat.not_lt_zero _))
  exact shared_in_byte (by omega) ((agree_two_mul_iff _ _ _).mpr heq) hbyte

theorem forkDepth_lt (hne : k1 ≠ k2) : forkDepth k1 k2 < 64 := by
  obtain ⟨hlt, -, -⟩ := equalBytes_spec hne 32 0 rfl (fun j hj => absurd hj (Nat.not_lt_zero _))
  rw [forkDepth]
  split <;> omega

theorem forkCommon_eq (k1 k2 : Key) : forkCommon k1 k2 = prefixOf (forkDepth k1 k2) k1 := by
  funext j
  have hdepth : forkDepth k1 k2 =
      if byte k1 (equalBytes k1 k2 32 0) &&& 0xF0 = byte k2 (equalBytes k1 k2 32 0) &&& 0xF0
      then 2 * equalBytes k1 k2 32 0 + 1 else 2 * equalBytes k1 k2 32 0 := rfl
  by_cases hmask : byte k1 (equalBytes k1 k2 32 0) &&& 0xF0 = byte k2 (equalBytes k1 k2 32 0) &&& 0xF0
  · rw [if_pos hmask] at hdepth
    have hdiv : forkDepth k1 k2 / 2 = equalBytes k1 k2 32 0 := by omega
    have hmod : forkDepth k1 k2 % 2 = 1 := by omega
    simp only [forkCommon, prefixOf, hdiv, hmod, hmask, and_true, true_and]
  · rw [if_neg hmask] at hdepth
    have hdiv : forkDepth k1 k2 / 2 = equalBytes k1 k2 32 0 := by omega
    have hmod : forkDepth k1 k2 % 2 = 0 := by omega
    simp only [forkCommon, prefixOf, hdiv, hmod, hmask, and_false, false_and, if_false, zero_ne_one]

end Ripple.SHAMap
