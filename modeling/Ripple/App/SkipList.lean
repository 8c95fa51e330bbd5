import Mathlib

/-!
# Ripple.App.SkipList

The hashes of its ancestors that a ledger keeps: `Ledger::updateSkipList` in `app/ledger/Ledger.cpp` and
`hashOfSeq` in `ledger/impl/View.cpp`. One entry has the hashes of the last 256 ledgers, and for each 65536
ledgers there is one with the hashes of those whose sequence is a multiple of 256. The lookups of
`app/ledger/impl/LedgerMaster.cpp` reach the others through a second ledger.
-/

namespace Ripple.App.SkipList

open List

structure LedgerHashes (H : Type) where
  hashes : List H
  lastLedgerSequence : UInt32

/-- The keys of the entries, which are hashes and do not collide. -/
structure Keylets (K : Type) where
  skip : K
  /-- The key of an entry by the upper half of the sequences in it. -/
  skipAt : UInt32 → K
  injective : Function.Injective skipAt
  ne_skip : ∀ g, skipAt g ≠ skip

/-- A ledger with its entries of type `ltLEDGER_HASHES`. -/
structure Ledger (K H : Type) where
  seq : UInt32
  hash : H
  parentHash : H
  state : K → Option (LedgerHashes H)

variable {K H : Type} [DecidableEq K] (keys : Keylets K)

def hashesAt (state : K → Option (LedgerHashes H)) (k : K) : List H :=
  match state k with
  | none => []
  | some sle => sle.hashes

def updateSkipList (seq : UInt32) (parentHash : H) (state : K → Option (LedgerHashes H)) :
    K → Option (LedgerHashes H) :=
  if seq = 0 then state
  else
    let prevIndex := seq - 1
    -- the record of every 256th ledger
    let state :=
      if prevIndex &&& 0xff = 0 then
        let k := keys.skipAt (prevIndex >>> 16)
        Function.update state k (some ⟨hashesAt state k ++ [parentHash], prevIndex⟩)
      else state
    -- the record of the past 256 ledgers
    let hashes := hashesAt state keys.skip
    let hashes := if hashes.length = 256 then hashes.tail else hashes
    Function.update state keys.skip (some ⟨hashes ++ [parentHash], prevIndex⟩)

variable (ledger : Ledger K H)

/-- The hash out of the record of the past 256 ledgers. `diff` is an `int`, compared unsigned. -/
def normalHash (diff : ℤ) : Option H :=
  match ledger.state keys.skip with
  | none => none
  | some hashIndex =>
    let vec := hashIndex.hashes
    let offset := (diff % 2 ^ 64).toNat
    if offset ≤ vec.length then vec[vec.length - offset]? else none

/-- The hash out of the record of every 256th ledger. -/
def skipHash (seq : UInt32) : Option H :=
  match ledger.state (keys.skipAt (seq >>> 16)) with
  | none => none
  | some hashIndex =>
    let diff := (hashIndex.lastLedgerSequence - seq) >>> 8
    let vec := hashIndex.hashes
    if diff.toNat < vec.length then vec[vec.length - diff.toNat - 1]? else none

def hashOfSeq (seq : UInt32) : Option H :=
  if ledger.seq < seq then none
  else if seq = ledger.seq then some ledger.hash
  else if seq = ledger.seq - 1 then some ledger.parentHash
  else
    let diff : ℤ := (ledger.seq - seq).toInt32.toInt
    match if diff ≤ 256 then normalHash keys ledger diff else none with
    | some hash => some hash
    | none => if seq &&& 0xff ≠ 0 then none else skipHash keys ledger seq

/-- A ledger whose sequence is a multiple of 256, at most 256 above the one that is looked for. -/
def getCandidateLedger (requested : UInt32) : UInt32 := (requested + 255) &&& ~~~255

section

variable (getLedgerByHash : H → Option (Ledger K H))

def getLedgerHash (desiredSeq : UInt32) (knownGoodLedger : Ledger K H) : Option H :=
  match hashOfSeq keys knownGoodLedger desiredSeq with
  | some hash => some hash
  | none =>
    let seq := (desiredSeq + 255) % 256
    match hashOfSeq keys knownGoodLedger seq with
    | some hash =>
      match getLedgerByHash hash with
      | some l => hashOfSeq keys l desiredSeq
      | none => some hash
    -- `assert(false)`
    | none => none

/-- `LedgerMaster::walkHashBySeq`. What is not in the history is asked for with `acquire`. -/
def walkHashBySeq (acquire : H → UInt32 → Option (Ledger K H)) (index : UInt32) (referenceLedger : Ledger K H) :
    Option H :=
  if referenceLedger.seq < index then none
  else match hashOfSeq keys referenceLedger index with
  | some ledgerHash => some ledgerHash
  | none =>
    let refIndex := getCandidateLedger index
    match hashOfSeq keys referenceLedger refIndex with
    | none => none
    | some refHash =>
      match getLedgerByHash refHash with
      | some ledger => hashOfSeq keys ledger index
      | none => (acquire refHash refIndex).bind fun ledger => hashOfSeq keys ledger index

end

/-- A ledger built from its parent: the transactions leave the records of hashes alone. -/
structure Built (parent child : Ledger K H) : Prop where
  seq : child.seq.toNat = parent.seq.toNat + 1
  parentHash : child.parentHash = parent.hash
  state : ∃ state, state keys.skip = parent.state keys.skip ∧
    (∀ g, state (keys.skipAt g) = parent.state (keys.skipAt g)) ∧
    child.state = updateSkipList keys child.seq child.parentHash state

/-- The ledgers with the sequences from `1` to `length`, by their sequence. -/
structure Chain (length : ℕ) (chain : ℕ → Ledger K H) : Prop where
  genesis : (chain 1).seq = 1
  noSkip : (chain 1).state keys.skip = none
  noSkipAt : ∀ g, (chain 1).state (keys.skipAt g) = none
  built : ∀ n, 1 ≤ n → n < length → Built keys (chain n) (chain (n + 1))

/-! ## Machine arithmetic -/

theorem land_255_eq_zero (x : UInt32) : x &&& 0xff = 0 ↔ x.toNat % 256 = 0 := by
  rw [← UInt32.toNat_inj, UInt32.toNat_and]
  have : (0xff : UInt32).toNat = 2 ^ 8 - 1 := rfl
  rw [this, Nat.and_two_pow_sub_one_eq_mod]
  rfl

theorem toNat_shiftRight_16 (x : UInt32) : (x >>> 16).toNat = x.toNat / 65536 := by
  rw [UInt32.toNat_shiftRight]
  exact Nat.shiftRight_eq_div_pow _ _

theorem toNat_shiftRight_8 (x : UInt32) : (x >>> 8).toNat = x.toNat / 256 := by
  rw [UInt32.toNat_shiftRight]
  exact Nat.shiftRight_eq_div_pow _ _

theorem toNat_getCandidateLedger {x : UInt32} (h : x.toNat + 255 < 2 ^ 32) :
    (getCandidateLedger x).toNat = (x.toNat + 255) / 256 * 256 := by
  have hsum : (x + 255).toNat = x.toNat + 255 := by
    rw [UInt32.toNat_add]
    exact Nat.mod_eq_of_lt h
  have hbits : ∀ j, ∀ _ : j < 32, (4294967040#32)[j] = decide (8 ≤ j) := by decide
  have hmask : getCandidateLedger x = ((x + 255) >>> 8) <<< 8 := by
    refine UInt32.toBitVec_inj.mp (BitVec.eq_of_getElem_eq fun j hj => ?_)
    simp [getCandidateLedger, hbits j hj]
    grind
  rw [hmask, UInt32.toNat_shiftLeft, toNat_shiftRight_8, hsum]
  exact (Nat.mod_eq_of_lt (by rw [Nat.shiftLeft_eq]; simp; omega)).trans (Nat.shiftLeft_eq _ _)

theorem toInt_of_toNat (x : UInt32) :
    x.toInt32.toInt = if x.toNat < 2 ^ 31 then (x.toNat : ℤ) else x.toNat - 2 ^ 32 := by
  rw [Int32.toInt, BitVec.toInt_eq_toNat_cond]
  have hx := x.toNat_lt
  simp
  split <;> split <;> omega

/-! ## The records -/

def firstMark (g : ℕ) : ℕ := if g = 0 then 256 else 65536 * g

def marks (g n : ℕ) : ℕ := (min n (65536 * (g + 1)) + 255 - firstMark g) / 256

theorem marks_succ_of_mark {g n : ℕ} (hn : 1 ≤ n) (hmod : n % 256 = 0) (hg : n / 65536 = g) :
    marks g (n + 1) = marks g n + 1 ∧ firstMark g + 256 * marks g n = n := by
  rw [marks, marks, firstMark]
  split <;> omega

theorem marks_succ_of_not_mark {g n : ℕ} (h : ¬(n % 256 = 0 ∧ n / 65536 = g)) : marks g (n + 1) = marks g n := by
  rw [marks, marks, firstMark]
  split <;> omega

structure Recorded (hash : ℕ → H) (n : ℕ) (state : K → Option (LedgerHashes H)) : Prop where
  normal : state keys.skip = if n = 1 then none else
    some ⟨(List.range' (n - min (n - 1) 256) (min (n - 1) 256)).map hash, UInt32.ofNat (n - 1)⟩
  groups : ∀ g, state (keys.skipAt g) = if marks g.toNat n = 0 then none else
    some ⟨(List.range (marks g.toNat n)).map fun j => hash (firstMark g.toNat + 256 * j),
      UInt32.ofNat (firstMark g.toNat + 256 * (marks g.toNat n - 1))⟩

variable {keys} {hash : ℕ → H} {n : ℕ} {state : K → Option (LedgerHashes H)} {seq : UInt32}

omit [DecidableEq K] in
theorem Recorded.hashesAt_skip (h : Recorded keys hash n state) :
    hashesAt state keys.skip = (List.range' (n - min (n - 1) 256) (min (n - 1) 256)).map hash := by
  rw [hashesAt, h.normal]
  by_cases hn : n = 1
  · simp [hn]
  · simp [hn]

omit [DecidableEq K] in
theorem Recorded.hashesAt_skipAt (h : Recorded keys hash n state) (g : UInt32) :
    hashesAt state (keys.skipAt g) =
      (List.range (marks g.toNat n)).map fun j => hash (firstMark g.toNat + 256 * j) := by
  rw [hashesAt, h.groups]
  by_cases hm : marks g.toNat n = 0
  · simp [hm]
  · simp [hm]

theorem toNat_pred (hseq : seq.toNat = n + 1) : (seq - 1).toNat = n := by
  rw [UInt32.toNat_sub_of_le]
  · simp [hseq]
  · rw [UInt32.le_iff_toNat_le, hseq]
    simp

theorem pred_eq_ofNat (hseq : seq.toNat = n + 1) : seq - 1 = UInt32.ofNat n := by
  have hlt := seq.toNat_lt
  rw [← UInt32.toNat_inj, toNat_pred hseq, UInt32.toNat_ofNat_of_lt']
  exact (by omega : n < 2 ^ 32)

theorem window_succ (hn : 1 ≤ n) {hashes : List H}
    (hhashes : hashes = (List.range' (n - min (n - 1) 256) (min (n - 1) 256)).map hash) :
    (if hashes.length = 256 then hashes.tail else hashes) ++ [hash n] =
      (List.range' (n + 1 - min n 256) (min n 256)).map hash := by
  have hlength : hashes.length = min (n - 1) 256 := by rw [hhashes, length_map, length_range']
  rw [hlength, hhashes]
  by_cases hfull : n ≤ 256
  · rw [if_neg (by omega), show min (n - 1) 256 = n - 1 by omega, show min n 256 = n - 1 + 1 by omega,
      show n - (n - 1) = 1 by omega, show n + 1 - (n - 1 + 1) = 1 by omega, range'_concat, map_append]
    simp [show 1 + (n - 1) = n by omega]
  · have hconcat : List.range' (n - 255) (255 + 1) = List.range' (n - 255) 255 ++ [n - 255 + 1 * 255] :=
      range'_concat
    rw [if_pos (by omega), show min (n - 1) 256 = 255 + 1 by omega, show min n 256 = 255 + 1 by omega,
      range'_succ, map_cons, tail_cons, show n - (255 + 1) + 1 = n - 255 by omega,
      show n + 1 - (255 + 1) = n - 255 by omega, hconcat, map_append]
    simp [show n - 255 + 255 = n by omega]

theorem Recorded.update (h : Recorded keys hash n state) (hn : 1 ≤ n) (hseq : seq.toNat = n + 1) :
    Recorded keys hash (n + 1) (updateSkipList keys seq (hash n) state) := by
  have hne : seq ≠ 0 := fun h0 => by simp [h0] at hseq
  have hprev := toNat_pred hseq
  have hmark : (seq - 1) &&& 0xff = 0 ↔ n % 256 = 0 := by rw [land_255_eq_zero, hprev]
  have hgroup : ((seq - 1) >>> 16).toNat = n / 65536 := by rw [toNat_shiftRight_16, hprev]
  refine ⟨?_, fun g => ?_⟩
  · -- the record of every 256th ledger is another entry
    have hsame : hashesAt (if (seq - 1) &&& 0xff = 0 then
        Function.update state (keys.skipAt ((seq - 1) >>> 16))
          (some ⟨hashesAt state (keys.skipAt ((seq - 1) >>> 16)) ++ [hash n], seq - 1⟩) else state) keys.skip =
        hashesAt state keys.skip := by
      split
      · simp only [hashesAt]
        rw [Function.update_of_ne (keys.ne_skip _).symm]
      · rfl
    simp only [updateSkipList, if_neg hne, Function.update_self, hsame]
    rw [window_succ hn h.hashesAt_skip, if_neg (by omega), pred_eq_ofNat hseq, Nat.add_sub_cancel]
  · simp only [updateSkipList, if_neg hne]
    rw [Function.update_of_ne (keys.ne_skip g)]
    by_cases hm : n % 256 = 0
    · rw [if_pos (hmark.mpr hm)]
      by_cases hg : g = (seq - 1) >>> 16
      · obtain ⟨hsucc, hlast⟩ := marks_succ_of_mark hn hm hgroup.symm
        subst hg
        rw [Function.update_self, h.hashesAt_skipAt, hsucc, if_neg (by omega), range_succ, map_append]
        simp only [map_cons, map_nil, Nat.add_sub_cancel, hlast]
        rw [pred_eq_ofNat hseq]
      · have hother : marks g.toNat (n + 1) = marks g.toNat n := by
          refine marks_succ_of_not_mark fun hmem => hg ?_
          rw [← UInt32.toNat_inj, hgroup, hmem.2]
        rw [Function.update_of_ne (fun heq => hg (keys.injective heq)), h.groups, hother]
    · rw [if_neg (hmark.not.mpr hm), h.groups, marks_succ_of_not_mark fun hmem => hm hmem.1]

/-! ## Reading -/

variable {ledger : Ledger K H}

section

omit [DecidableEq K]

section

variable (h : Recorded keys hash n ledger.state)
include h

theorem Recorded.normalHash_of_le {d : ℕ} (hd : 2 ≤ d) (hle : d ≤ 256)
    (hlt : d < n) : normalHash keys ledger d = some (hash (n - d)) := by
  have hoffset : ((d : ℤ) % 2 ^ 64).toNat = d := by omega
  rw [normalHash, h.normal, if_neg (by omega)]
  simp only [hoffset, length_map, length_range']
  rw [if_pos (by omega), getElem?_map, getElem?_range' (by omega)]
  simp only [Option.map_some, one_mul]
  congr 2
  omega

theorem Recorded.normalHash_of_lt {diff : ℤ}
    (hfar : ((min (n - 1) 256 : ℕ) : ℤ) < diff % 2 ^ 64) : normalHash keys ledger diff = none := by
  rw [normalHash, h.normal]
  by_cases hn : n = 1
  · simp [hn]
  · rw [if_neg hn]
    simp only [length_map, length_range']
    rw [if_neg (by omega)]

theorem Recorded.skipHash_of_mark {s : UInt32} (hs : 1 ≤ s.toNat)
    (hmod : s.toNat % 256 = 0) (hlt : s.toNat < n) : skipHash keys ledger s = some (hash s.toNat) := by
  have hslt := s.toNat_lt
  set g := (s >>> 16).toNat with hg
  have hgroup : g = s.toNat / 65536 := toNat_shiftRight_16 s
  have hmarks : marks g n ≠ 0 ∧ firstMark g ≤ s.toNat ∧ s.toNat ≤ firstMark g + 256 * (marks g n - 1) ∧
      firstMark g % 256 = 0 ∧ firstMark g + 256 * (marks g n - 1) < 65536 * (g + 1) := by
    rw [marks, firstMark]
    split <;> omega
  obtain ⟨hpos, hfirst, hlast, hfmod, hbound⟩ := hmarks
  have hlastNat : (UInt32.ofNat (firstMark g + 256 * (marks g n - 1))).toNat =
      firstMark g + 256 * (marks g n - 1) :=
    UInt32.toNat_ofNat_of_lt' (by change _ < 2 ^ 32; omega)
  have hdiff : ((UInt32.ofNat (firstMark g + 256 * (marks g n - 1)) - s) >>> 8).toNat =
      (firstMark g + 256 * (marks g n - 1) - s.toNat) / 256 := by
    rw [toNat_shiftRight_8, UInt32.toNat_sub_of_le, hlastNat]
    rwa [UInt32.le_iff_toNat_le, hlastNat]
  rw [skipHash, h.groups, ← hg, if_neg hpos]
  simp only [hdiff, length_map, length_range]
  rw [if_pos (by omega), getElem?_map, getElem?_range (by omega)]
  simp only [Option.map_some]
  congr 2
  omega

theorem Recorded.skipHash_zero : skipHash keys ledger 0 = none := by
  have hzero : ((0 : UInt32) >>> 16).toNat = 0 := rfl
  rw [skipHash, h.groups, hzero]
  by_cases hm : marks 0 n = 0
  · simp [hm]
  · rw [if_neg hm]
    have hbound : firstMark 0 + 256 * (marks 0 n - 1) < 65536 ∧ firstMark 0 = 256 := by
      have hpos := hm
      rw [marks, firstMark, if_pos rfl] at hpos ⊢
      omega
    have hlastNat : (UInt32.ofNat (firstMark 0 + 256 * (marks 0 n - 1))).toNat =
        firstMark 0 + 256 * (marks 0 n - 1) :=
      UInt32.toNat_ofNat_of_lt' (by change _ < 2 ^ 32; omega)
    simp only [length_map, length_range, toNat_shiftRight_8, UInt32.sub_zero, hlastNat]
    rw [if_neg (by omega)]

theorem Recorded.behind {s : UInt32} {d : ℕ} (hd : 2 ≤ d) (hn : s.toNat + d = n)
    (hlt : n < 2 ^ 32) {diff : ℤ} (hdiff : diff = if d < 2 ^ 31 then (d : ℤ) else d - 2 ^ 32) :
    (match if diff ≤ 256 then normalHash keys ledger diff else none with
      | some hash => some hash
      | none => if s &&& 0xff ≠ 0 then none else skipHash keys ledger s) =
    if 1 ≤ s.toNat ∧ (d ≤ 256 ∨ s.toNat % 256 = 0) then some (hash s.toNat) else none := by
  by_cases hnear : d ≤ 256 ∧ 1 ≤ s.toNat
  · have hd' : diff = d := hdiff.trans (if_pos (by omega))
    have hfound : 1 ≤ s.toNat ∧ (d ≤ 256 ∨ s.toNat % 256 = 0) := ⟨hnear.2, .inl hnear.1⟩
    rw [hd', if_pos (show (d : ℤ) ≤ 256 by omega), h.normalHash_of_le hd hnear.1 (by omega), if_pos hfound]
    simp [show n - d = s.toNat by omega]
  · have hnormal : (if diff ≤ 256 then normalHash keys ledger diff else none) = none := by
      split
      · exact h.normalHash_of_lt (by split at hdiff <;> omega)
      · rfl
    rw [hnormal]
    change (if s &&& 0xff ≠ 0 then none else skipHash keys ledger s) = _
    by_cases hs : s.toNat = 0
    · obtain rfl : s = 0 := UInt32.toNat_inj.mp hs
      simp [h.skipHash_zero]
    by_cases hmod : s.toNat % 256 = 0
    · have hfound : 1 ≤ s.toNat ∧ (d ≤ 256 ∨ s.toNat % 256 = 0) := ⟨by omega, .inr hmod⟩
      rw [if_neg (not_not.mpr ((land_255_eq_zero s).mpr hmod)), if_pos hfound]
      exact h.skipHash_of_mark (by omega) hmod (by omega)
    · have hlost : ¬(1 ≤ s.toNat ∧ (d ≤ 256 ∨ s.toNat % 256 = 0)) := by omega
      rw [if_pos ((land_255_eq_zero s).not.mpr hmod), if_neg hlost]

theorem Recorded.hashOfSeq (hseq : ledger.seq.toNat = n) (hn : 1 ≤ n)
    (hself : ledger.hash = hash n) (hparent : 2 ≤ n → ledger.parentHash = hash (n - 1)) (s : UInt32) :
    hashOfSeq keys ledger s =
      if 1 ≤ s.toNat ∧ (n ≤ s.toNat + 256 ∧ s.toNat ≤ n ∨ s.toNat % 256 = 0 ∧ s.toNat ≤ n) then some (hash s.toNat)
      else if n = 1 ∧ s = 0 then some ledger.parentHash
      else none := by
  have hlt := ledger.seq.toNat_lt
  have hpred : (ledger.seq - 1).toNat = n - 1 := toNat_pred (by omega)
  have hzero : s = 0 ↔ s.toNat = 0 := by
    rw [← UInt32.toNat_inj]
    rfl
  rw [SkipList.hashOfSeq]
  by_cases hfuture : ledger.seq < s
  · rw [if_pos hfuture]
    rw [UInt32.lt_iff_toNat_lt, hseq] at hfuture
    rw [if_neg (by omega), if_neg (by rw [hzero]; omega)]
  rw [if_neg hfuture]
  rw [UInt32.lt_iff_toNat_lt, hseq] at hfuture
  by_cases hcurrent : s = ledger.seq
  · have hs : s.toNat = n := by rw [hcurrent, hseq]
    rw [if_pos hcurrent, if_pos (by omega), hself, hs]
  rw [if_neg hcurrent]
  have hne : s.toNat ≠ n := fun heq => hcurrent (UInt32.toNat_inj.mp (heq.trans hseq.symm))
  by_cases hprev : s = ledger.seq - 1
  · have hs : s.toNat = n - 1 := by rw [hprev, hpred]
    rw [if_pos hprev]
    by_cases hone : n = 1
    · rw [if_neg (by omega), if_pos ⟨hone, hzero.mpr (by omega)⟩]
    · rw [if_pos (by omega), hparent (by omega), hs]
  have hne' : s.toNat ≠ n - 1 := fun heq => hprev (UInt32.toNat_inj.mp (heq.trans hpred.symm))
  have hsub : (ledger.seq - s).toNat = n - s.toNat := by
    rw [UInt32.toNat_sub_of_le, hseq]
    rw [UInt32.le_iff_toNat_le]
    omega
  rw [if_neg hprev]
  refine (h.behind (d := n - s.toNat) (by omega) (by omega) (by omega) ?_).trans ?_
  · rw [toInt_of_toNat, hsub]
  · by_cases hfound : 1 ≤ s.toNat ∧ (n - s.toNat ≤ 256 ∨ s.toNat % 256 = 0)
    · rw [if_pos hfound, if_pos (by omega)]
    · rw [if_neg hfound, if_neg (by omega), if_neg (by omega)]

end

/-! ## Chains -/

theorem recorded_genesis (hash : ℕ → H) (hskip : state keys.skip = none)
    (hskipAt : ∀ g, state (keys.skipAt g) = none) :
    Recorded keys hash 1 state := by
  refine ⟨by rw [if_pos rfl]; exact hskip, fun g => ?_⟩
  have hnone : marks g.toNat 1 = 0 := by
    rw [marks, firstMark]
    split <;> omega
  rw [if_pos hnone]
  exact hskipAt g

end

theorem Chain.recorded {length : ℕ} {chain : ℕ → Ledger K H} (h : Chain keys length chain) (hn : 1 ≤ n)
    (hle : n ≤ length) :
    (chain n).seq.toNat = n ∧ Recorded keys (fun i => (chain i).hash) n (chain n).state := by
  induction n, hn using Nat.le_induction with
  | base => exact ⟨by rw [h.genesis]; rfl, recorded_genesis _ h.noSkip h.noSkipAt⟩
  | succ n hn ih =>
    obtain ⟨hseq, hrec⟩ := ih (by omega)
    have hbuilt := h.built n hn (by omega)
    obtain ⟨state, hskip, hskipAt, hstate⟩ := hbuilt.state
    have hnext : (chain (n + 1)).seq.toNat = n + 1 := by rw [hbuilt.seq, hseq]
    refine ⟨hnext, ?_⟩
    rw [hstate, hbuilt.parentHash]
    have hsame : Recorded keys (fun i => (chain i).hash) n state :=
      ⟨hskip.trans hrec.normal, fun g => (hskipAt g).trans (hrec.groups g)⟩
    exact hsame.update hn hnext

section

variable {length : ℕ} {chain : ℕ → Ledger K H} (h : Chain keys length chain)
include h

theorem Chain.parentHash (hle : n ≤ length) (h2 : 2 ≤ n) : (chain n).parentHash = (chain (n - 1)).hash := by
  have hbuilt := h.built (n - 1) (by omega) (by omega)
  rw [show n - 1 + 1 = n by omega] at hbuilt
  exact hbuilt.parentHash

theorem Chain.hashOfSeq (hle : n ≤ length) (h2 : 2 ≤ n) (hs : seq.toNat ≤ n) :
    hashOfSeq keys (chain n) seq =
      if 1 ≤ seq.toNat ∧ (n ≤ seq.toNat + 256 ∨ seq.toNat % 256 = 0) then some (chain seq.toNat).hash
      else none := by
  obtain ⟨hseq, hrec⟩ := h.recorded (by omega) hle
  rw [hrec.hashOfSeq hseq (by omega) rfl (h.parentHash hle)]
  by_cases hfound : 1 ≤ seq.toNat ∧ (n ≤ seq.toNat + 256 ∨ seq.toNat % 256 = 0)
  · rw [if_pos hfound, if_pos (by omega)]
  · rw [if_neg hfound, if_neg (by omega), if_neg (by omega)]

end

/-- Every ledger of a chain finds the last 256 ancestors and those at multiples of 256; the first
ledger answers for `0` with its parent hash. -/
theorem hashOfSeq_chain {length : ℕ} {chain : ℕ → Ledger K H} (h : Chain keys length chain) (hn : 1 ≤ n)
    (hle : n ≤ length) :
    (chain n).seq.toNat = n ∧ ∀ s : UInt32, hashOfSeq keys (chain n) s =
      if 1 ≤ s.toNat ∧ (n ≤ s.toNat + 256 ∧ s.toNat ≤ n ∨ s.toNat % 256 = 0 ∧ s.toNat ≤ n) then
        some (chain s.toNat).hash
      else if n = 1 ∧ s = 0 then some (chain 1).parentHash
      else none := by
  obtain ⟨hseq, hrec⟩ := h.recorded hn hle
  refine ⟨hseq, fun s => ?_⟩
  rw [hrec.hashOfSeq hseq hn rfl (h.parentHash hle) s]
  by_cases hone : n = 1
  · rw [hone]
  · simp [hone]

def sampleKeys : Keylets (Option UInt32) where
  skip := none
  skipAt := some
  injective := Option.some_injective _
  ne_skip _ := Option.some_ne_none _

def sampleChain : ℕ → Ledger (Option UInt32) ℕ
  | 0 => ⟨0, 0, 0, fun _ => none⟩
  | 1 => ⟨1, 1, 0, fun _ => none⟩
  | n + 2 =>
    { seq := UInt32.ofNat (n + 2)
      hash := n + 2
      parentHash := n + 1
      state := updateSkipList sampleKeys (UInt32.ofNat (n + 2)) (n + 1) (sampleChain (n + 1)).state }

theorem sampleChain_hash (n : ℕ) : (sampleChain n).hash = n := by
  match n with
  | 0 => rfl
  | 1 => rfl
  | n + 2 => rfl

theorem sampleChain_seq {n : ℕ} (hn : n < 2 ^ 32) : (sampleChain n).seq.toNat = n := by
  match n with
  | 0 => rfl
  | 1 => rfl
  | n + 2 => exact UInt32.toNat_ofNat_of_lt' hn

theorem chain_sampleChain : Chain sampleKeys 1000 sampleChain where
  genesis := rfl
  noSkip := rfl
  noSkipAt _ := rfl
  built n hn hlt := by
    obtain ⟨m, rfl⟩ : ∃ m, n = m + 1 := ⟨n - 1, by omega⟩
    refine ⟨?_, (sampleChain_hash (m + 1)).symm, (sampleChain (m + 1)).state, rfl, fun _ => rfl, rfl⟩
    rw [sampleChain_seq (by omega), sampleChain_seq (by omega)]

/-- The first ledger has an answer for the sequence `0`, where the chain has no ledger. -/
theorem genesis_answers_zero :
    Chain sampleKeys 1000 sampleChain ∧ hashOfSeq sampleKeys (sampleChain 1) 0 = some 0 :=
  ⟨chain_sampleChain, rfl⟩

theorem hashOfSeq_chain_sample :
    hashOfSeq sampleKeys (sampleChain 900) 512 = some 512 ∧ hashOfSeq sampleKeys (sampleChain 900) 600 = none := by
  have h := (hashOfSeq_chain chain_sampleChain (n := 900) (by decide) (by decide)).2
  refine ⟨?_, ?_⟩
  · rw [h, if_pos (by decide), sampleChain_hash]
    rfl
  · rw [h, if_neg (by decide), if_neg (by decide)]

/-! ## The lookups -/

section

variable {length : ℕ} {chain : ℕ → Ledger K H} (h : Chain keys length chain) (hle : n ≤ length)
  (getLedgerByHash : H → Option (Ledger K H)) {i : UInt32} (hi : 0 < i.toNat) (hlt : i.toNat < n)
include h hle hi hlt

theorem Chain.getLedgerHash : getLedgerHash keys getLedgerByHash i (chain n) =
    if n ≤ i.toNat + 256 ∨ i.toNat % 256 = 0 then some (chain i.toNat).hash else none := by
  have hbase : ((i + 255) % 256).toNat = (i.toNat + 255) % 256 := by
    rw [UInt32.toNat_mod, UInt32.toNat_add]
    exact Nat.mod_mod_of_dvd _ (by decide)
  rw [SkipList.getLedgerHash, h.hashOfSeq hle (by omega) hlt.le]
  by_cases hfound : n ≤ i.toNat + 256 ∨ i.toNat % 256 = 0
  · rw [if_pos hfound, if_pos ⟨hi, hfound⟩]
  · -- the second ledger is looked for below the first 256
    rw [if_neg hfound, if_neg fun hf => hfound hf.2]
    dsimp only
    rw [h.hashOfSeq hle (by omega) (by omega), hbase, if_neg (by omega)]

theorem Chain.walkHashBySeq (hload : ∀ m, 1 ≤ m → m ≤ length → getLedgerByHash (chain m).hash = some (chain m))
    (acquire : H → UInt32 → Option (Ledger K H)) :
    walkHashBySeq keys getLedgerByHash acquire i (chain n) = some (chain i.toNat).hash := by
  have hseq := (h.recorded (by omega) hle).1
  rw [SkipList.walkHashBySeq, if_neg (by rw [UInt32.lt_iff_toNat_lt]; omega), h.hashOfSeq hle (by omega) hlt.le]
  by_cases hfound : n ≤ i.toNat + 256 ∨ i.toNat % 256 = 0
  · rw [if_pos ⟨hi, hfound⟩]
  · have hbound := (chain n).seq.toNat_lt
    have href := toNat_getCandidateLedger (x := i) (by omega)
    rw [if_neg fun hf => hfound hf.2]
    dsimp only
    rw [h.hashOfSeq hle (by omega) (by omega), if_pos (by omega)]
    dsimp only
    rw [hload _ (by omega) (by omega)]
    dsimp only
    rw [h.hashOfSeq (by omega) (by omega) (by omega), if_pos (by omega)]

/-- `walkHashBySeq` finds every ancestor, and `getLedgerHash` those whose hash is in the ledger itself. -/
theorem ancestor_lookups (hload : ∀ m, 1 ≤ m → m ≤ length → getLedgerByHash (chain m).hash = some (chain m))
    (acquire : H → UInt32 → Option (Ledger K H)) :
    walkHashBySeq keys getLedgerByHash acquire i (chain n) = some (chain i.toNat).hash ∧
      (getLedgerHash keys getLedgerByHash i (chain n) = some (chain i.toNat).hash ↔
        n ≤ i.toNat + 256 ∨ i.toNat % 256 = 0) := by
  refine ⟨h.walkHashBySeq hle _ hi hlt hload acquire, ?_⟩
  rw [h.getLedgerHash hle _ hi hlt, Option.ite_none_right_eq_some, and_iff_left rfl]

end

theorem ancestor_lookups_sample :
    walkHashBySeq sampleKeys (fun m => some (sampleChain m)) (fun _ _ => none) 600 (sampleChain 900) = some 600 ∧
      getLedgerHash sampleKeys (fun m => some (sampleChain m)) 512 (sampleChain 900) = some 512 := by
  have h : ∀ i : UInt32, 0 < i.toNat → i.toNat < 900 → _ := fun i hi hlt =>
    ancestor_lookups chain_sampleChain (by decide) (fun m => some (sampleChain m)) hi hlt
      (fun m _ _ => by rw [sampleChain_hash]) fun _ _ => none
  have h600 := h 600 (by decide) (by decide)
  have h512 := h 512 (by decide) (by decide)
  rw [sampleChain_hash] at h600 h512
  exact ⟨h600.1, h512.2.mpr (.inr rfl)⟩

/-- An ancestor of which the ledger itself has no hash. -/
theorem getLedgerHash_lost : Chain sampleKeys 1000 sampleChain ∧
    getLedgerHash sampleKeys (fun m => some (sampleChain m)) 600 (sampleChain 900) = none := by
  refine ⟨chain_sampleChain, ?_⟩
  rw [chain_sampleChain.getLedgerHash (by decide) _ (by decide) (by decide)]
  exact if_neg (by decide)

end Ripple.App.SkipList
