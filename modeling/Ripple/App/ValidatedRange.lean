import Mathlib

/-!
# Ripple.App.ValidatedRange

The validated range of `app/ledger/impl/LedgerMaster.cpp` and `prevMissing` of `basics/RangeSet.h`.
A `RangeSet` is the set of the numbers in its intervals. The numbers have 32 bits; what wraps is
written out.
-/

namespace Ripple.App.ValidatedRange

abbrev RangeSet := Finset ℕ

/-- `t - 1` wraps at 0. -/
def prevMissing (rs : RangeSet) (t minVal : ℕ) : Option ℕ :=
  if rs = ∅ ∨ t = minVal then none
  else
    let tgt := Finset.Icc minVal ((t + (2 ^ 32 - 1)) % 2 ^ 32) \ rs
    if h : tgt.Nonempty then some (tgt.max' h) else none

def getFullValidatedRange (mCompleteLedgers : RangeSet) (mPubLedgerSeq : ℕ) : Option (ℕ × ℕ) :=
  if mPubLedgerSeq = 0 then none
  else
    match prevMissing mCompleteLedgers mPubLedgerSeq 0 with
    | none => some (mPubLedgerSeq, mPubLedgerSeq)
    | some v => some (1 + v, mPubLedgerSeq)

/-- The first loop. 0 is never pending. -/
def lower (pendingSaves : Finset ℕ) : ℕ → ℕ
  | 0 => 0
  | maxVal + 1 => if maxVal + 1 ∈ pendingSaves then lower pendingSaves maxVal else maxVal + 1

/-- The second loop. -/
def raise (pendingSaves : Finset ℕ) (minVal : ℕ) : ℕ :=
  if h : minVal ∈ pendingSaves then
    have : minVal ≤ pendingSaves.sup id := Finset.le_sup (f := id) h
    raise pendingSaves (minVal + 1)
  else minVal
termination_by pendingSaves.sup id + 1 - minVal

/-- A pending save in the range cuts it, and the larger side is kept. -/
def cut (range : ℕ × ℕ) (v : ℕ) : ℕ × ℕ :=
  if range.1 ≤ v ∧ v ≤ range.2 then
    if v > (range.1 + range.2) % 2 ^ 32 / 2 then (range.1, v - 1) else (v + 1, range.2)
  else range

def getValidatedRange (mCompleteLedgers pendingSaves : Finset ℕ) (mPubLedgerSeq : ℕ) :
    Option (ℕ × ℕ) :=
  match getFullValidatedRange mCompleteLedgers mPubLedgerSeq with
  | none => none
  | some (minVal, maxVal) =>
    if pendingSaves ≠ ∅ ∧ (minVal ≠ 0 ∨ maxVal ≠ 0) then
      let range := (pendingSaves.sort (· ≤ ·)).foldl cut
        (raise pendingSaves minVal, lower pendingSaves maxVal)
      some (if range.1 > range.2 then (0, 0) else range)
    else some (minVal, maxVal)

/-! ## The previous gap -/

def Missing (rs : RangeSet) (t minVal v : ℕ) : Prop := minVal ≤ v ∧ v < t ∧ v ∉ rs

section

variable {rs : RangeSet} {t minVal v : ℕ}

theorem prevMissing_some (h : prevMissing rs t minVal = some v) (hpos : 0 < t) (ht : t < 2 ^ 32) :
    IsGreatest {v | Missing rs t minVal v} v := by
  unfold prevMissing at h
  split at h
  · cases h
  · have hmod : (t + (2 ^ 32 - 1)) % 2 ^ 32 = t - 1 := by omega
    have hmem : ∀ w, w ∈ Finset.Icc minVal (t - 1) \ rs ↔ Missing rs t minVal w := by
      intro w
      rw [Finset.mem_sdiff, Finset.mem_Icc, Missing, Nat.le_sub_one_iff_lt hpos, and_assoc]
    simp only [hmod] at h
    split at h
    · cases h
      exact ⟨(hmem _).mp (Finset.max'_mem _ _), fun w hw => Finset.le_max' _ w ((hmem w).mpr hw)⟩
    · cases h

theorem prevMissing_none (hrs : rs ≠ ∅) (hne : t ≠ minVal) : prevMissing rs t minVal = none ↔
    ∀ v, minVal ≤ v → v ≤ (t + (2 ^ 32 - 1)) % 2 ^ 32 → v ∈ rs := by
  simp only [prevMissing, hrs, hne, or_self, if_false, dite_eq_right_iff, reduceCtorEq, imp_false,
    Finset.not_nonempty_iff_eq_empty, Finset.sdiff_eq_empty_iff_subset, Finset.subset_iff,
    Finset.mem_Icc, and_imp]

/-- The previous gap is found, except that none is found in the empty set and that the search for
one below 0 goes up from `minVal`. -/
theorem prevMissing_iff (ht : t < 2 ^ 32) :
    ((∀ v, prevMissing rs t minVal = some v → IsGreatest {v | Missing rs t minVal v} v) ∧
      (prevMissing rs t minVal = none ↔ ∀ v, ¬ Missing rs t minVal v)) ↔
    if rs = ∅ then t ≤ minVal
    else t = 0 → minVal = 0 ∨ ∀ v, minVal ≤ v → v < 2 ^ 32 → v ∈ rs := by
  -- where the code finds nothing, nothing may be missing
  have hfound : prevMissing rs t minVal = none →
      (((∀ v, prevMissing rs t minVal = some v → IsGreatest {v | Missing rs t minVal v} v) ∧
        (prevMissing rs t minVal = none ↔ ∀ v, ¬ Missing rs t minVal v)) ↔
      ∀ v, ¬ Missing rs t minVal v) := by
    intro hnone
    simp [hnone]
  by_cases hrs : rs = ∅
  · rw [hfound (if_pos (.inl hrs)), if_pos hrs]
    constructor
    · intro h
      by_contra hlt
      exact h minVal ⟨le_refl _, not_le.mp hlt, by simp [hrs]⟩
    · rintro hle v ⟨hmin, hlt, -⟩
      omega
  rw [if_neg hrs]
  by_cases hne : t = minVal
  · rw [hfound (if_pos (.inr hne))]
    simp only [Missing, hne]
    refine iff_of_true ?_ .inl
    rintro v ⟨hmin, hlt, -⟩
    omega
  rcases Nat.eq_zero_or_pos t with rfl | hpos
  · have hnot : ∀ v, ¬ Missing rs 0 minVal v := by simp [Missing]
    constructor
    · rintro ⟨-, h⟩ -
      exact .inr fun v hmin hlt => (prevMissing_none hrs hne).mp (h.mpr hnot) v hmin (by omega)
    · intro h
      have hall := (h rfl).resolve_left (Ne.symm hne)
      exact (hfound ((prevMissing_none hrs hne).mpr fun v hmin hle => hall v hmin (by omega))).mpr hnot
  · refine iff_of_true ⟨fun v hv => prevMissing_some hv hpos ht, ?_⟩ (by omega)
    have hmod : (t + (2 ^ 32 - 1)) % 2 ^ 32 = t - 1 := by omega
    simp only [prevMissing_none hrs hne, hmod, Nat.le_sub_one_iff_lt hpos, Missing, not_and, not_not]

theorem prevMissing_iff_ten : IsGreatest {v | Missing {3, 4, 9} 10 2 v} 8 :=
  ((prevMissing_iff (by decide)).mpr (by decide)).1 8 (by decide)

/-- Nothing is found in the empty set, where 4 is missing. -/
theorem prevMissing_empty : prevMissing ∅ 5 0 = none ∧ Missing ∅ 5 0 4 :=
  ⟨rfl, by decide, by decide, by decide⟩

end

/-! ## The range that is offered -/

section

variable {pending : Finset ℕ} {p : ℕ}

theorem getFullValidatedRange_spec (complete : RangeSet) (hpos : 0 < p) (hp : p < 2 ^ 32) :
    ∃ low, getFullValidatedRange complete p = some (low, p) ∧ 0 < low ∧ low ≤ p ∧
      ∀ s, low ≤ s → s < p → s ∈ complete := by
  unfold getFullValidatedRange
  rw [if_neg hpos.ne']
  split
  · exact ⟨p, rfl, hpos, le_refl p, fun s hlow hlt => absurd hlow (not_le.mpr hlt)⟩
  · rename_i v hv
    obtain ⟨⟨-, hlt, -⟩, hmax⟩ := prevMissing_some hv hpos hp
    refine ⟨1 + v, rfl, by omega, by omega, fun s hlow hs => ?_⟩
    by_contra hnot
    have hle := hmax ⟨Nat.zero_le s, hs, hnot⟩
    omega

theorem lower_spec (hzero : 0 ∉ pending) (m : ℕ) : lower pending m ≤ m ∧
    lower pending m ∉ pending ∧ ∀ v, lower pending m < v → v ≤ m → v ∈ pending := by
  induction m with
  | zero => exact ⟨le_refl 0, hzero, fun v hlt hle => by omega⟩
  | succ m ih =>
    unfold lower
    split
    · rename_i hmem
      refine ⟨by omega, ih.2.1, fun v hlt hle => ?_⟩
      rcases Nat.lt_or_eq_of_le hle with hle | rfl
      · exact ih.2.2 v hlt (by omega)
      · exact hmem
    · rename_i hmem
      exact ⟨le_refl _, hmem, fun v hlt hle => by omega⟩

theorem raise_spec (pending : Finset ℕ) (m : ℕ) : m ≤ raise pending m ∧
    ∀ v, m ≤ v → v < raise pending m → v ∈ pending := by
  fun_induction raise pending m with
  | case1 m hmem _ ih =>
    refine ⟨by omega, fun v hle hlt => ?_⟩
    rcases Nat.eq_or_lt_of_le hle with rfl | hle
    · exact hmem
    · exact ih.2 v hle hlt
  | case2 m hmem => exact ⟨le_refl m, fun v hle hlt => by omega⟩

theorem cut_spec {range : ℕ × ℕ} {v : ℕ} (hne : v ≠ range.2) (hle : range.1 ≤ range.2)
    (hsmall : range.2 < 2 ^ 31) : range.1 ≤ (cut range v).1 ∧ (cut range v).2 ≤ range.2 ∧
      (cut range v).1 ≤ (cut range v).2 ∧ ¬ ((cut range v).1 ≤ v ∧ v ≤ (cut range v).2) ∧
      ((cut range v).2 = range.2 ∨ (cut range v).2 + 1 = v) := by
  unfold cut
  split
  · split
    · simp only
      omega
    · simp only [true_or, and_true]
      omega
  · simp only [true_or, and_true]
    omega

/-- The saves are cut out in ascending order. The upper end is never pending: it stays, or it comes
to be below a save, where the earlier ones were cut out. -/
theorem foldl_cut (saves : List ℕ) (range : ℕ × ℕ) (hsorted : saves.Pairwise (· ≤ ·))
    (hsaves : ∀ v ∈ saves, v ∈ pending)
    (hout : ∀ v ∈ pending, v ∈ saves ∨ ¬ (range.1 ≤ v ∧ v ≤ range.2))
    (hle : range.1 ≤ range.2) (hsmall : range.2 < 2 ^ 31) (hend : range.2 ∉ pending) :
    range.1 ≤ (saves.foldl cut range).1 ∧ (saves.foldl cut range).2 ≤ range.2 ∧
      (saves.foldl cut range).1 ≤ (saves.foldl cut range).2 ∧
      ∀ v ∈ pending, ¬ ((saves.foldl cut range).1 ≤ v ∧ v ≤ (saves.foldl cut range).2) := by
  induction saves generalizing range with
  | nil => exact ⟨le_refl _, le_refl _, hle, fun v hv => by simpa using hout v hv⟩
  | cons v saves ih =>
    rw [List.pairwise_cons] at hsorted
    have hv := hsaves v (by simp)
    obtain ⟨hlow, hhigh, hle', hcut, hnext⟩ :=
      cut_spec (fun heq => hend (heq ▸ hv)) hle hsmall
    have hinner : ∀ w ∈ pending, w ∈ saves ∨ ¬ ((cut range v).1 ≤ w ∧ w ≤ (cut range v).2) := by
      intro w hw
      rcases hout w hw with hmem | hnot
      · rcases List.mem_cons.mp hmem with rfl | hmem
        · exact .inr hcut
        · exact .inl hmem
      · exact .inr fun h => hnot ⟨by omega, by omega⟩
    have hend' : (cut range v).2 ∉ pending := by
      intro hmem
      rcases hnext with heq | heq
      · exact hend (heq ▸ hmem)
      · rcases hinner _ hmem with hlater | hnot
        · have hge := hsorted.1 _ hlater
          omega
        · exact hnot ⟨hle', le_refl _⟩
    obtain ⟨hlow', hhigh', hrest⟩ :=
      ih (cut range v) hsorted.2 (fun w hw => hsaves w (by simp [hw])) hinner hle' (by omega) hend'
    exact ⟨hlow.trans hlow', hhigh'.trans hhigh, hrest⟩

theorem validated_range (complete pending : Finset ℕ) (hzero : 0 ∉ pending) (hpos : 0 < p)
    (hp : p < 2 ^ 31) : ∃ low minVal maxVal, getFullValidatedRange complete p = some (low, p) ∧
      getValidatedRange complete pending p = some (minVal, maxVal) ∧
      (minVal = 0 ∧ maxVal = 0 ∨ minVal ≤ maxVal ∧ maxVal ≤ p ∧
        (∀ v ∈ pending, ¬ (minVal ≤ v ∧ v ≤ maxVal)) ∧
        ∀ s, minVal ≤ s → s ≤ maxVal → s < p → s ∈ complete) ∧
      (minVal = 0 ∧ maxVal = 0 → ∀ s, low ≤ s → s ≤ p → s ∈ pending) := by
  obtain ⟨low, hfull, hlow, hle, hall⟩ := getFullValidatedRange_spec complete hpos (by omega)
  by_cases hempty : pending = ∅
  · refine ⟨low, low, p, hfull, by simp [getValidatedRange, hfull, hempty], ?_, by omega⟩
    exact .inr ⟨hle, le_refl p, by simp [hempty], fun s hs _ => hall s hs⟩
  obtain ⟨hmax, hend, hbelow⟩ := lower_spec hzero p
  obtain ⟨hmin, habove⟩ := raise_spec pending low
  have hrange : getValidatedRange complete pending p =
      let range := (pending.sort (· ≤ ·)).foldl cut (raise pending low, lower pending p)
      some (if range.1 > range.2 then (0, 0) else range) := by
    simp [getValidatedRange, hfull, hempty, hpos.ne']
  by_cases hgood : ∃ s, low ≤ s ∧ s ≤ p ∧ s ∉ pending
  · obtain ⟨s, hs, hsp, hnot⟩ := hgood
    have hraise : raise pending low ≤ s := by
      by_contra hlt
      exact hnot (habove s hs (by omega))
    have hlower : s ≤ lower pending p := by
      by_contra hlt
      exact hnot (hbelow s (by omega) hsp)
    obtain ⟨hfirst, hlast, hle', hout⟩ := foldl_cut (pending.sort (· ≤ ·))
      (raise pending low, lower pending p) (pending.pairwise_sort _) (by simp)
      (fun v hv => .inl ((Finset.mem_sort _).mpr hv)) (hraise.trans hlower) (hmax.trans_lt hp) hend
    have hlow' := hmin.trans hfirst
    refine ⟨low, _, _, hfull, hrange.trans (congrArg some (if_neg (not_lt.mpr hle'))),
      .inr ⟨hle', hlast.trans hmax, hout, fun x hx _ => hall x (hlow'.trans hx)⟩, ?_⟩
    rintro ⟨hz, -⟩
    omega
  · push Not at hgood
    have hlt : lower pending p < low := by
      by_contra hge
      exact hend (hgood _ (not_lt.mp hge) hmax)
    refine ⟨low, 0, 0, hfull, ?_, .inl ⟨rfl, rfl⟩, fun _ => hgood⟩
    rw [hrange, List.foldl_fixed' fun v => if_neg (by simp only; omega)]
    exact congrArg some (if_pos (hlt.trans_le hmin))

theorem validated_range_eight : ∃ low minVal maxVal,
    getFullValidatedRange {5, 6, 7} 8 = some (low, 8) ∧
      getValidatedRange {5, 6, 7} {6} 8 = some (minVal, maxVal) ∧ ¬ (minVal ≤ 6 ∧ 6 ≤ maxVal) := by
  obtain ⟨low, minVal, maxVal, hfull, hrange, hsafe, -⟩ :=
    validated_range {5, 6, 7} {6} (by decide) (by decide : 0 < 8) (by decide)
  refine ⟨low, minVal, maxVal, hfull, hrange, ?_⟩
  rcases hsafe with ⟨rfl, rfl⟩ | ⟨-, -, hout, -⟩
  · decide
  · exact hout 6 (by decide)

end

end Ripple.App.ValidatedRange
