import Mathlib.Data.List.Sort
import Mathlib.Data.UInt
import Mathlib.Tactic.Common

/-!
# Ripple.TxQ.FeeMetrics

`TxQ::Setup` and `TxQ::FeeMetrics` of `app/misc/TxQ.h` and `TxQ.cpp`, with `mulDiv` of `basics`.

A `std::size_t` or `std::uint64_t` is a `Nat` below `2 ^ 64` with the reductions of the source
written out; the 32-bit settings keep their own types. Division by zero throws in
`boost::multiprecision`, and the value of a function that throws there is `none`.
-/

namespace Ripple

def uint64Max : Nat := 2 ^ 64 - 1

/-- `mulDiv` for a divisor that is not zero: the quotient, or the limit and `false`. -/
def mulDivClip (value mul div : Nat) : Bool × Nat :=
  let result := value * mul / div
  if result > uint64Max then (false, uint64Max) else (true, result)

def mulDiv (value mul div : Nat) : Option (Bool × Nat) :=
  if div = 0 then none else some (mulDivClip value mul div)

/-- `boost::algorithm::clamp`. The library asks for `lo ≤ hi`; where that fails, the tests are made in
the order in which it documents them: a value below `lo` gives `lo`, any other above `hi` gives `hi`.
-/
def clamp (val lo hi : Nat) : Nat :=
  if val < lo then lo else if hi < val then hi else val

theorem mulDivClip_snd (value mul div : Nat) :
    (mulDivClip value mul div).2 = min (value * mul / div) uint64Max := by
  simp only [mulDivClip]
  split <;> simp only <;> omega

theorem mulDiv_eq_none {value mul div : Nat} : mulDiv value mul div = none ↔ div = 0 := by
  simp [mulDiv]

variable {val lo hi : Nat}

/-- With the bounds the wrong way round the upper one wins. -/
theorem lo_le_clamp : lo ≤ clamp val lo hi ↔ lo ≤ hi ∨ val < lo := by
  simp only [clamp]
  split
  · simp_all
  · split <;> omega

theorem clamp_le {m : Nat} (hlo : lo ≤ m) (hhi : hi ≤ m) : clamp val lo hi ≤ m := by
  simp only [clamp]
  split
  · exact hlo
  · split <;> omega

namespace TxQ

def baseLevel : Nat := 256

structure Setup where
  ledgersInQueue : Nat := 20
  queueSizeMin : Nat := 2000
  retrySequencePercent : UInt32 := 25
  multiTxnPercent : Int32 := -90
  minimumEscalationMultiplier : Nat := baseLevel * 500
  minimumTxnInLedger : UInt32 := 5
  minimumTxnInLedgerSA : UInt32 := 1000
  targetTxnInLedger : UInt32 := 50
  maximumTxnInLedger : Option UInt32 := none
  normalConsensusIncreasePercent : UInt32 := 20
  slowConsensusDecreasePercent : UInt32 := 50
  maximumTxnPerAccount : UInt32 := 10
  minimumLastLedgerBuffer : UInt32 := 2
  zeroBaseFeeTransactionFeeLevel : Nat := 256000
  standAlone : Bool := false

/-- The settings under which the two percentages and the window of recent counts work as written. -/
structure Setup.Sound (setup : Setup) : Prop where
  window : 1 ≤ setup.ledgersInQueue
  alone : setup.standAlone → 1 ≤ setup.minimumTxnInLedgerSA
  growth : 100 + setup.normalConsensusIncreasePercent.toNat < 2 ^ 32

/-- The fee level of a transaction that pays `fee` drops where `refTxnCostDrops` are asked. -/
def getFeeLevelPaid (setup : Setup) (fee refTxnCostDrops : Nat) : Nat :=
  if refTxnCostDrops = 0 then setup.zeroBaseFeeTransactionFeeLevel
  else (mulDivClip fee baseLevel refTxnCostDrops).2

/-- The percentage is added in 32 bits, which is how a negative one lowers the level. -/
def increase (level : Nat) (increasePercent : UInt32) : Nat :=
  (mulDivClip level (100 + increasePercent).toNat 100).2

def pushBack (capacity : Nat) (buffer : List Nat) (x : Nat) : List Nat :=
  (buffer ++ [x]).drop (buffer.length + 1 - capacity)

structure FeeMetrics where
  minimumTxnCount_ : Nat
  targetTxnCount_ : Nat
  maximumTxnCount_ : Option Nat
  txnsExpected_ : Nat
  recentTxnCounts_ : List Nat
  escalationMultiplier_ : Nat

structure Snapshot where
  txnsExpected : Nat
  escalationMultiplier : Nat

namespace FeeMetrics

variable (setup : Setup)

def make : FeeMetrics :=
  let minimumTxnCount :=
    if setup.standAlone then setup.minimumTxnInLedgerSA.toNat else setup.minimumTxnInLedger.toNat
  let targetTxnCount :=
    if setup.targetTxnInLedger.toNat < minimumTxnCount then minimumTxnCount
    else setup.targetTxnInLedger.toNat
  { minimumTxnCount_ := minimumTxnCount
    targetTxnCount_ := targetTxnCount
    maximumTxnCount_ := setup.maximumTxnInLedger.map fun m =>
      if m.toNat < targetTxnCount then targetTxnCount else m.toNat
    txnsExpected_ := minimumTxnCount
    recentTxnCounts_ := []
    escalationMultiplier_ := setup.minimumEscalationMultiplier }

def cut (count : Nat) : Nat :=
  (mulDivClip count (100 - setup.slowConsensusDecreasePercent).toNat 100).2

def grow (size : Nat) : Nat :=
  (mulDivClip size (100 + setup.normalConsensusIncreasePercent).toNat 100).2

/-- The limit that follows from the greatest recent count: grow at once, shrink slowly. -/
def nextExpected (txnsExpected most : Nat) : Nat :=
  if most ≥ txnsExpected then most else (txnsExpected * 9 + most) % 2 ^ 64 / 10

def medianLevel (feeLevels : List Nat) : Nat :=
  let size := feeLevels.length
  (feeLevels.getD (size / 2) 0 + feeLevels.getD ((size - 1) / 2) 0 + 1) % 2 ^ 64 / 2

def newMultiplier (feeLevels : List Nat) : Nat :=
  if feeLevels.length = 0 then setup.minimumEscalationMultiplier
  else max (medianLevel feeLevels) setup.minimumEscalationMultiplier

variable (fm : FeeMetrics)

/-- The first half of `update`, on the number of transactions of the ledger. `none` when the
greatest of no counts would be read. -/
def updateExpected (setup : Setup) (size : Nat) (timeLeap : Bool) : Option FeeMetrics :=
  if timeLeap then
    some { fm with
      txnsExpected_ := clamp (cut setup size) fm.minimumTxnCount_ (cut setup fm.txnsExpected_)
      recentTxnCounts_ := [] }
  else if size > fm.txnsExpected_ ∨ size > fm.targetTxnCount_ then
    let counts := pushBack setup.ledgersInQueue fm.recentTxnCounts_ (grow setup size)
    counts.max?.map fun most =>
      let next := nextExpected fm.txnsExpected_ most
      { fm with
        txnsExpected_ := min next (fm.maximumTxnCount_.getD next)
        recentTxnCounts_ := counts }
  else some fm

/-- `update`, on the fee and the base fee of every transaction of the ledger. -/
def update (setup : Setup) (txs : List (Nat × Nat)) (timeLeap : Bool) : Option FeeMetrics :=
  let feeLevels := (txs.map fun tx => getFeeLevelPaid setup tx.1 tx.2).insertionSort (· ≤ ·)
  (fm.updateExpected setup txs.length timeLeap).map fun fm =>
    { fm with escalationMultiplier_ := newMultiplier setup feeLevels }

def getSnapshot : Snapshot :=
  { txnsExpected := fm.txnsExpected_, escalationMultiplier := fm.escalationMultiplier_ }

/-- `current` is the number of transactions in the open ledger. -/
def scaleFeeLevel (snapshot : Snapshot) (current : Nat) : Option Nat :=
  let target := snapshot.txnsExpected
  if current > target then
    (mulDiv snapshot.escalationMultiplier (current * current % 2 ^ 64)
      (target * target % 2 ^ 64)).map Prod.snd
  else some baseLevel

def sumOfFirstSquares (x : Nat) : Bool × Nat :=
  if x ≥ 2 ^ 21 then (false, uint64Max) else (true, x * (x + 1) * (2 * x + 1) / 6)

def escalatedSeriesFeeLevel (snapshot : Snapshot) (txCount extraCount seriesSize : Nat) :
    Option (Bool × Nat) :=
  let current := (txCount + extraCount) % 2 ^ 64
  let last := (current + seriesSize + (2 ^ 64 - 1)) % 2 ^ 64
  let target := snapshot.txnsExpected
  let sumNlast := sumOfFirstSquares last
  let sumNcurrent := sumOfFirstSquares ((current + (2 ^ 64 - 1)) % 2 ^ 64)
  if sumNlast.1 then
    mulDiv snapshot.escalationMultiplier ((sumNlast.2 + (2 ^ 64 - sumNcurrent.2)) % 2 ^ 64)
      (target * target % 2 ^ 64)
  else some sumNlast

/-! ## Whole runs -/

/-- The metrics reached by calls of `update` that all satisfy `P`. -/
inductive Run (setup : Setup) (P : FeeMetrics → List (Nat × Nat) → Bool → Prop) :
    FeeMetrics → Prop where
  | make : Run setup P (make setup)
  | update {fm fm' : FeeMetrics} {txs : List (Nat × Nat)} {timeLeap : Bool} :
      Run setup P fm → P fm txs timeLeap → fm.update setup txs timeLeap = some fm' →
        Run setup P fm'

/-- The calls of `update` that leave the floor alone: the cut of a slow consensus is no lower, or
the floor is taken; and the weighted sum of a slow shrink fits in 64 bits. -/
abbrev FloorKept (txs : List (Nat × Nat)) (timeLeap : Bool) : Prop :=
  if timeLeap then
    fm.minimumTxnCount_ ≤ cut setup fm.txnsExpected_ ∨ cut setup txs.length < fm.minimumTxnCount_
  else
    fm.targetTxnCount_ < txs.length → txs.length ≤ fm.txnsExpected_ →
      fm.txnsExpected_ * 10 ≤ 2 ^ 64

structure Ceiled (fm : FeeMetrics) : Prop where
  target : fm.minimumTxnCount_ ≤ fm.targetTxnCount_
  most : ∀ m ∈ fm.maximumTxnCount_, fm.targetTxnCount_ ≤ m
  upper : ∀ m ∈ fm.maximumTxnCount_, fm.txnsExpected_ ≤ m
  small : fm.minimumTxnCount_ ≤ uint64Max
  range : fm.txnsExpected_ ≤ uint64Max
  recent : ∀ c ∈ fm.recentTxnCounts_, c ≤ uint64Max

structure Floored (fm : FeeMetrics) : Prop where
  expected : fm.minimumTxnCount_ ≤ fm.txnsExpected_
  recent : ∀ c ∈ fm.recentTxnCounts_, fm.minimumTxnCount_ ≤ c

section Arithmetic

variable {setup : Setup}

theorem cut_le (hslow : setup.slowConsensusDecreasePercent ≤ 100) (count : Nat) :
    cut setup count ≤ count := by
  have hpct : (100 - setup.slowConsensusDecreasePercent).toNat ≤ 100 := by
    rw [UInt32.toNat_sub_of_le _ _ hslow]
    exact Nat.sub_le _ _
  rw [cut, mulDivClip_snd]
  have hdiv : count * (100 - setup.slowConsensusDecreasePercent).toNat / 100 ≤ count :=
    Nat.div_le_of_le_mul (by rw [Nat.mul_comm]; exact Nat.mul_le_mul_right _ hpct)
  omega

theorem grow_le (size : Nat) : grow setup size ≤ uint64Max := by
  rw [grow, mulDivClip_snd]
  exact min_le_right _ _

theorem le_grow (hset : setup.Sound) {size k : Nat} (hk : k ≤ size) (hmax : k ≤ uint64Max) :
    k ≤ grow setup size := by
  have hpct : 100 ≤ (100 + setup.normalConsensusIncreasePercent).toNat := by
    have hsum : UInt32.toNat 100 + setup.normalConsensusIncreasePercent.toNat < 2 ^ 32 := hset.growth
    rw [UInt32.toNat_add, Nat.mod_eq_of_lt hsum]
    exact Nat.le_add_right 100 _
  have hdiv : size ≤ size * (100 + setup.normalConsensusIncreasePercent).toNat / 100 :=
    (Nat.le_div_iff_mul_le (by decide)).2 (Nat.mul_le_mul_left _ hpct)
  rw [grow, mulDivClip_snd]
  exact le_min (hk.trans hdiv) hmax

variable {capacity txnsExpected most : Nat}

theorem mem_pushBack {x c : Nat} {buffer : List Nat} (h : c ∈ pushBack capacity buffer x) :
    c ∈ buffer ∨ c = x := by
  simpa using List.mem_of_mem_drop h

theorem self_mem_pushBack (h : 1 ≤ capacity) (buffer : List Nat) (x : Nat) :
    x ∈ pushBack capacity buffer x := by
  rw [pushBack, List.drop_append_of_le_length (by omega)]
  simp

theorem nextExpected_le (h : most ≤ uint64Max) : nextExpected txnsExpected most ≤ uint64Max := by
  simp only [nextExpected, uint64Max] at *
  split <;> omega

theorem le_nextExpected {lo : Nat} (he : lo ≤ txnsExpected) (hm : lo ≤ most)
    (hfit : most < txnsExpected → txnsExpected * 10 ≤ 2 ^ 64) :
    lo ≤ nextExpected txnsExpected most := by
  simp only [nextExpected]
  split
  · exact hm
  · have hten := hfit (by omega)
    rw [Nat.mod_eq_of_lt (by omega)]
    omega

end Arithmetic

/-! ## One call -/

section Step

variable {setup : Setup} {fm fm' : FeeMetrics} {txs : List (Nat × Nat)} {timeLeap : Bool}

theorem update_cases (h : fm.update setup txs timeLeap = some fm') :
    (timeLeap = true ∧ fm' = { fm with
        txnsExpected_ := clamp (cut setup txs.length) fm.minimumTxnCount_ (cut setup fm.txnsExpected_)
        recentTxnCounts_ := []
        escalationMultiplier_ := fm'.escalationMultiplier_ }) ∨
    (timeLeap = false ∧ (txs.length > fm.txnsExpected_ ∨ txs.length > fm.targetTxnCount_) ∧
      ∃ most, (pushBack setup.ledgersInQueue fm.recentTxnCounts_ (grow setup txs.length)).max? =
          some most ∧
        fm' = { fm with
          txnsExpected_ := min (nextExpected fm.txnsExpected_ most)
            (fm.maximumTxnCount_.getD (nextExpected fm.txnsExpected_ most))
          recentTxnCounts_ :=
            pushBack setup.ledgersInQueue fm.recentTxnCounts_ (grow setup txs.length)
          escalationMultiplier_ := fm'.escalationMultiplier_ }) ∨
    (timeLeap = false ∧ fm' = { fm with escalationMultiplier_ := fm'.escalationMultiplier_ }) := by
  simp only [update, updateExpected] at h
  cases timeLeap with
  | true =>
    simp only [if_true, Option.map_some, Option.some.injEq] at h
    subst h
    exact .inl ⟨rfl, rfl⟩
  | false =>
    simp only [Bool.false_eq_true, if_false] at h
    split at h
    · rename_i hsize
      obtain ⟨fm₁, hfm₁, rfl⟩ := Option.map_eq_some_iff.1 h
      obtain ⟨most, hmost, rfl⟩ := Option.map_eq_some_iff.1 hfm₁
      exact .inr (.inl ⟨rfl, hsize, most, hmost, rfl⟩)
    · simp only [Option.map_some, Option.some.injEq] at h
      subst h
      exact .inr (.inr ⟨rfl, rfl⟩)

theorem update_isSome (hwindow : 1 ≤ setup.ledgersInQueue) : (fm.update setup txs timeLeap).isSome := by
  simp only [update, updateExpected, Option.isSome_map]
  split
  · rfl
  · split
    · rw [Option.isSome_map, List.isSome_max?_iff]
      exact List.ne_nil_of_mem (self_mem_pushBack hwindow _ _)
    · rfl

theorem Ceiled.update (h : Ceiled fm) (hslow : setup.slowConsensusDecreasePercent ≤ 100)
    (hu : fm.update setup txs timeLeap = some fm') : Ceiled fm' := by
  have hcut := cut_le hslow fm.txnsExpected_
  obtain ⟨-, he⟩ | ⟨-, -, most, hmost, he⟩ | ⟨-, he⟩ := update_cases hu <;> rw [he]
  · refine { h with upper := fun m hm => ?_, range := ?_, recent := nofun }
    · exact clamp_le (h.target.trans (h.most m hm)) (hcut.trans (h.upper m hm))
    · exact clamp_le h.small (hcut.trans h.range)
  · have hcounts : ∀ c ∈ pushBack setup.ledgersInQueue fm.recentTxnCounts_
        (grow setup txs.length), c ≤ uint64Max := by
      intro c hc
      obtain hc | rfl := mem_pushBack hc
      · exact h.recent c hc
      · exact grow_le _
    refine { h with upper := fun m hm => ?_, range := ?_, recent := hcounts }
    · simp only [Option.mem_def] at hm
      simp only [hm, Option.getD_some]
      exact min_le_right _ _
    · exact (min_le_left _ _).trans (nextExpected_le (hcounts most (List.max?_mem hmost)))
  · exact { h with }

theorem Floored.update (h : Floored fm) (hc : Ceiled fm) (hset : setup.Sound)
    (hkept : FloorKept setup fm txs timeLeap)
    (hu : fm.update setup txs timeLeap = some fm') : Floored fm' := by
  obtain ⟨rfl, he⟩ | ⟨rfl, hsize, most, hmost, he⟩ | ⟨-, he⟩ := update_cases hu <;> rw [he]
  · exact { expected := lo_le_clamp.2 hkept, recent := nofun }
  · simp only [FloorKept, Bool.false_eq_true, if_false] at hkept
    -- a ledger larger than the limit puts a count no lower than the limit into the window
    have hgrow : grow setup txs.length ≤ most :=
      (List.max?_eq_some_iff.1 hmost).2 _ (self_mem_pushBack hset.window _ _)
    have hfloor : fm.minimumTxnCount_ ≤ grow setup txs.length := by
      have := h.expected
      have := hc.target
      exact le_grow hset (by omega) hc.small
    have hnext : fm.minimumTxnCount_ ≤ nextExpected fm.txnsExpected_ most := by
      refine le_nextExpected h.expected (hfloor.trans hgrow) fun hlt => ?_
      have hle : txs.length ≤ fm.txnsExpected_ := by
        by_contra hgt
        have := le_grow hset (Nat.le_of_not_le hgt) hc.range
        omega
      exact hkept (by omega) hle
    refine { expected := le_min hnext ?_, recent := fun c hcm => ?_ }
    · cases hm : fm.maximumTxnCount_ with
      | none => exact hnext
      | some m => exact hc.target.trans (hc.most m hm)
    · obtain hcm | rfl := mem_pushBack hcm
      · exact h.recent c hcm
      · exact hfloor
  · exact { h with }

end Step

theorem ceiled_make : Ceiled (make setup) := by
  have hmin : (make setup).minimumTxnCount_ < 2 ^ 32 := by
    simp only [make]
    split <;> exact UInt32.toNat_lt _
  have htarget : (make setup).minimumTxnCount_ ≤ (make setup).targetTxnCount_ := by
    simp only [make]
    split <;> split <;> omega
  have hmost : ∀ m ∈ (make setup).maximumTxnCount_, (make setup).targetTxnCount_ ≤ m := by
    intro m hm
    obtain ⟨k, -, rfl⟩ := Option.map_eq_some_iff.1 hm
    simp only [make]
    split <;> split <;> split <;> omega
  have hsmall : (make setup).minimumTxnCount_ ≤ uint64Max := by
    simp only [uint64Max]
    omega
  exact { target := htarget, most := hmost, upper := fun m hm => htarget.trans (hmost m hm)
          small := hsmall, range := hsmall, recent := nofun }

theorem floored_make : Floored (make setup) :=
  { expected := Nat.le_refl _, recent := nofun }

namespace Run

variable {setup : Setup} {P : FeeMetrics → List (Nat × Nat) → Bool → Prop} {fm : FeeMetrics}

theorem ceiled (hslow : setup.slowConsensusDecreasePercent ≤ 100) (h : Run setup P fm) :
    Ceiled fm := by
  induction h with
  | make => exact ceiled_make setup
  | update _ _ hu ih => exact ih.update hslow hu

theorem floored (hslow : setup.slowConsensusDecreasePercent ≤ 100) (hset : setup.Sound)
    (h : Run setup (FloorKept setup) fm) : Floored fm := by
  induction h with
  | make => exact floored_make setup
  | update hr hp hu ih => exact ih.update (hr.ceiled hslow) hset hp hu

theorem minimum_pos (hmin : 1 ≤ setup.minimumTxnInLedger) (hset : setup.Sound)
    (h : Run setup P fm) : 1 ≤ fm.minimumTxnCount_ := by
  induction h with
  | make =>
    simp only [FeeMetrics.make]
    split
    · exact UInt32.le_iff_toNat_le.1 (hset.alone ‹_›)
    · exact UInt32.le_iff_toNat_le.1 hmin
  | update _ _ hu ih =>
    obtain ⟨-, he⟩ | ⟨-, -, _, -, he⟩ | ⟨-, he⟩ := update_cases hu <;> rwa [he]

end Run

/-! ## Division by zero -/

theorem square_mod_eq_zero {t : Nat} : t * t % 2 ^ 64 = 0 ↔ 2 ^ 32 ∣ t := by
  rw [← Nat.dvd_iff_mod_eq_zero, ← Nat.pow_two, show (2 : Nat) ^ 64 = (2 ^ 32) ^ 2 by decide]
  exact Nat.pow_dvd_pow_iff (by decide)

variable {snapshot : Snapshot}

theorem scaleFeeLevel_ne_none :
    (∀ current, scaleFeeLevel snapshot current ≠ none) ↔ ¬ 2 ^ 32 ∣ snapshot.txnsExpected := by
  rw [← square_mod_eq_zero]
  constructor
  · intro h hzero
    refine h (snapshot.txnsExpected + 1) ?_
    simp only [scaleFeeLevel]
    rw [if_pos (Nat.lt_succ_self _), Option.map_eq_none_iff, mulDiv_eq_none]
    exact hzero
  · intro h current
    simp only [scaleFeeLevel]
    split
    · rw [Ne, Option.map_eq_none_iff, mulDiv_eq_none]
      exact h
    · exact Option.some_ne_none _

theorem escalatedSeriesFeeLevel_ne_none (h : ¬ 2 ^ 32 ∣ snapshot.txnsExpected)
    (txCount extraCount seriesSize : Nat) :
    escalatedSeriesFeeLevel snapshot txCount extraCount seriesSize ≠ none := by
  simp only [escalatedSeriesFeeLevel]
  split
  · rw [Ne, mulDiv_eq_none, square_mod_eq_zero]
    exact h
  · exact Option.some_ne_none _

theorem Run.le_multiplier {P : FeeMetrics → List (Nat × Nat) → Bool → Prop} (h : Run setup P fm) :
    setup.minimumEscalationMultiplier ≤ fm.escalationMultiplier_ := by
  cases h with
  | make => exact le_rfl
  | update _ _ hu =>
    obtain ⟨fm₁, -, rfl⟩ := Option.map_eq_some_iff.mp hu
    simp only [newMultiplier]
    split
    · exact le_rfl
    · exact le_max_right _ _

/-- The more transactions an open ledger has, the higher the level that gets one more into it. -/
theorem scaleFeeLevel_mono {P : FeeMetrics → List (Nat × Nat) → Bool → Prop} (h : Run setup P fm)
    (hmin : baseLevel ≤ setup.minimumEscalationMultiplier) {c d l k : Nat} (hc : c ≤ d)
    (hd : d < 2 ^ 32) (hl : scaleFeeLevel fm.getSnapshot c = some l)
    (hk : scaleFeeLevel fm.getSnapshot d = some k) : l ≤ k := by
  have hbase := hmin.trans h.le_multiplier
  have hsq : ∀ x ≤ d, x * x % 2 ^ 64 = x * x := by
    intro x hx
    have hlt := Nat.mul_lt_mul'' (hx.trans_lt hd) (hx.trans_lt hd)
    exact Nat.mod_eq_of_lt (by omega)
  simp only [scaleFeeLevel, getSnapshot, mulDiv] at hl hk
  by_cases htd : fm.txnsExpected_ < d
  · simp only [gt_iff_lt, htd, if_true, hsq d le_rfl, hsq _ htd.le] at hl hk
    split at hk
    · cases hk
    rename_i hpos
    rw [Option.map_some, Option.some.injEq, mulDivClip_snd] at hk
    rw [← hk]
    have hsquare := Nat.mul_self_le_mul_self htd.le
    split at hl
    · rw [hsq c hc, Option.map_some, Option.some.injEq, mulDivClip_snd] at hl
      rw [← hl]
      exact min_le_min_right _
        (Nat.div_le_div_right (Nat.mul_le_mul_left _ (Nat.mul_self_le_mul_self hc)))
    · cases hl
      refine le_min ?_ (by decide)
      rw [Nat.le_div_iff_mul_le (Nat.pos_of_ne_zero hpos)]
      exact Nat.mul_le_mul hbase hsquare
  · have ht : ¬fm.txnsExpected_ < c := by omega
    simp only [gt_iff_lt, ht, htd, if_false] at hl hk
    exact (Option.some.inj (hl.symm.trans hk)).le

theorem scaleFeeLevel_mono_sample :
    scaleFeeLevel (make {}).getSnapshot 60 = some 18432000 ∧ 256 ≤ 18432000 :=
  ⟨by decide, scaleFeeLevel_mono {} _ (P := fun _ _ _ => True) (c := 5) (d := 60) .make (by decide)
    (by decide) (by decide) rfl (by decide)⟩

/-- In every run whose calls keep the floor, the limit lies between floor and ceiling, the next call
is defined, the fee functions divide by zero only at multiples of `2 ^ 32`, and a slow ledger breaks
the floor exactly when `FloorKept` fails. -/
theorem txnsExpected_in_bounds (hmin : 1 ≤ setup.minimumTxnInLedger)
    (hslow : setup.slowConsensusDecreasePercent ≤ 100) (hset : setup.Sound) (fm : FeeMetrics)
    (h : Run setup (FloorKept setup) fm) :
    1 ≤ fm.minimumTxnCount_ ∧ fm.minimumTxnCount_ ≤ fm.txnsExpected_ ∧
    (∀ m ∈ fm.maximumTxnCount_, fm.txnsExpected_ ≤ m) ∧
    (∀ txs timeLeap, (fm.update setup txs timeLeap).isSome) ∧
    (∀ txs fm', fm.update setup txs true = some fm' →
      (fm'.minimumTxnCount_ ≤ fm'.txnsExpected_ ↔ FloorKept setup fm txs true)) ∧
    ((∀ current, scaleFeeLevel fm.getSnapshot current ≠ none ∧
        ∀ extraCount seriesSize,
          escalatedSeriesFeeLevel fm.getSnapshot current extraCount seriesSize ≠ none) ↔
      ¬ 2 ^ 32 ∣ fm.txnsExpected_) := by
  refine ⟨h.minimum_pos hmin hset, (h.floored hslow hset).expected, (h.ceiled hslow).upper,
    fun _ _ => update_isSome hset.window, fun txs fm' hu => ?_, fun hc => ?_, fun hdvd current => ?_⟩
  · obtain ⟨-, he⟩ | ⟨hf, -⟩ | ⟨hf, -⟩ := update_cases hu
    · rw [he]
      exact lo_le_clamp
    · cases hf
    · cases hf
  · exact scaleFeeLevel_ne_none.1 fun current => (hc current).1
  · exact ⟨scaleFeeLevel_ne_none.2 hdvd current,
      fun extraCount seriesSize => escalatedSeriesFeeLevel_ne_none hdvd current extraCount seriesSize⟩

def tenTxs : List (Nat × Nat) := List.replicate 10 (10, 10)

theorem sound_default : ({} : Setup).Sound :=
  { window := by decide, alone := nofun, growth := by decide }

/-- With the default settings, a ledger of ten transactions raises the limit to twelve, and a slow
ledger of ten then cuts it back to the floor. -/
theorem txnsExpected_in_bounds_sample :
    ∃ fm : FeeMetrics, Run {} (FloorKept {}) fm ∧ fm.txnsExpected_ = 5 ∧
      1 ≤ fm.minimumTxnCount_ ∧ fm.minimumTxnCount_ ≤ fm.txnsExpected_ := by
  have hrun : ∃ fm, Run {} (FloorKept {}) fm ∧ fm.txnsExpected_ = 5 :=
    ⟨_, @Run.update _ _ _ _ tenTxs true (@Run.update _ _ _ _ tenTxs false .make (by decide) rfl)
      (by decide) rfl, by decide⟩
  obtain ⟨fm, hfm, hfive⟩ := hrun
  have hall := txnsExpected_in_bounds {} (by decide) (by decide) sound_default fm hfm
  exact ⟨fm, hfm, hfive, hall.1, hall.2.1⟩

/-- Three slow ledgers of ten transactions take the limit from five to zero, and the fee divides by
it. -/
theorem slow_ledgers_break_floor :
    ∃ fm₁ fm₂ fm₃ : FeeMetrics, (make {}).update {} tenTxs true = some fm₁ ∧
      fm₁.update {} tenTxs true = some fm₂ ∧ fm₂.update {} tenTxs true = some fm₃ ∧
      fm₁.txnsExpected_ = 2 ∧ fm₁.minimumTxnCount_ = 5 ∧ fm₃.txnsExpected_ = 0 ∧
      scaleFeeLevel fm₃.getSnapshot 1 = none := by
  refine ⟨_, _, _, rfl, rfl, rfl, ?_⟩
  decide

end FeeMetrics

end TxQ

end Ripple
