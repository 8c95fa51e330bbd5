import Ripple.Misc.AmendmentTable

/-!
# Ripple.Misc.AmendmentRuns

Runs of flag ledgers: at each one the server votes, with its table and the validations of the moment,
and the actions are applied in the next ledger in some order.

* `Sound`: the two lists of the ledger entry are free of repetitions and of each other, and the
  server knows the amendments that have a majority.
-/

namespace Ripple.Misc

open Protocol Ledger List

/-- A flag ledger: the calls since the last one, the close times, the validations that count, and
the pseudo-transactions in order. -/
structure Round where
  calls : List TableCall
  parentCloseTime : Nat
  closeTime : Nat
  valSet : List Validation
  actions : List (Uint256 × UInt32)

structure Chain where
  table : AmendmentTable
  sle : Option Amendments

namespace Chain

def enabled (c : Chain) : List Uint256 := getEnabledAmendments c.sle

def majorities (c : Chain) : List Majority := (c.sle.getD {}).entries

def status (c : Chain) (a : Uint256) : Status := Misc.status c.sle a

def applyAction (parentCloseTime : Nat) (c : Chain) (action : Uint256 × UInt32) : Chain :=
  let result := applyAmendment c.table c.sle parentCloseTime action.1 action.2
  ⟨result.2.1, result.2.2⟩

def prepare (c : Chain) (r : Round) : Chain :=
  { c with table := r.calls.foldl TableCall.run c.table }

end Chain

section

variable (majorityTime_ majorityFraction_ : Nat)

def Round.HasMajority (r : Round) (a : Uint256) : Prop :=
  threshold majorityFraction_ r.valSet ≤ supportCount r.valSet a

instance (r : Round) (a : Uint256) : Decidable (r.HasMajority majorityFraction_ a) :=
  inferInstanceAs (Decidable (_ ≤ _))

/-- The votes of the flag ledger `r`, and what is recorded in the ledger after it, whose parent
close time is the close time of `r`. -/
structure Step (c : Chain) (r : Round) (c' : Chain) : Prop where
  nonzero : r.closeTime ≠ 0
  ordered : r.parentCloseTime ≤ r.closeTime
  voted : r.actions.Perm (doVoting majorityTime_ majorityFraction_ (c.prepare r).table
    r.parentCloseTime (getEnabledAmendments c.sle) (getMajorityAmendments c.sle) r.valSet).entries
  applied : c' = r.actions.foldl (Chain.applyAction r.closeTime) (c.prepare r)

structure Run (n : Nat) where
  chain : Nat → Chain
  round : Nat → Round
  step : ∀ i < n, Step majorityTime_ majorityFraction_ (chain i) (round i) (chain (i + 1))

end

/-! ## One round -/

inductive Status.Regular : Status → Prop where
  | absent : Regular ⟨0, []⟩
  | enabled : Regular ⟨1, []⟩
  | majority (start : Nat) : start ≠ 0 → Regular ⟨0, [start]⟩

section

variable (majorityTime_ majorityFraction_ : Nat)

inductive Turn (r : Round) (a : Uint256) : Status → Status → Prop where
  | stay {s : Status} : (s.since ≠ [] → r.HasMajority majorityFraction_ a) → Turn r a s s
  | got : r.HasMajority majorityFraction_ a → Turn r a ⟨0, []⟩ ⟨0, [r.closeTime]⟩
  | lost {start : Nat} : Turn r a ⟨0, [start]⟩ ⟨0, []⟩
  | held {start : Nat} : r.HasMajority majorityFraction_ a →
      start + majorityTime_ ≤ r.parentCloseTime → Turn r a ⟨0, [start]⟩ ⟨1, []⟩

end

variable {majorityTime_ majorityFraction_ : Nat} {c c' : Chain} {r : Round} {a b : Uint256}

theorem status_applyAction (time : Nat) (c : Chain) (action : Uint256 × UInt32) (b : Uint256) :
    (c.applyAction time action).status b =
      if b = action.1 then (c.status action.1).apply time action.2 else c.status b :=
  status_applyAmendment c.table c.sle time action.1 action.2 b

variable {actions : List (Uint256 × UInt32)} {time : Nat} {flags : UInt32}

theorem status_unnamed (c : Chain) (h : b ∉ actions.map Prod.fst) :
    (actions.foldl (Chain.applyAction time) c).status b = c.status b := by
  induction actions generalizing c with
  | nil => rfl
  | cons action actions ih =>
    obtain ⟨hhead, hrest⟩ : b ≠ action.1 ∧ b ∉ actions.map Prod.fst := by simpa using h
    rw [foldl_cons, ih _ hrest, status_applyAction, if_neg hhead]

theorem status_named (c : Chain) (hnodup : (actions.map Prod.fst).Nodup) (h : (b, flags) ∈ actions) :
    (actions.foldl (Chain.applyAction time) c).status b = (c.status b).apply time flags := by
  induction actions generalizing c with
  | nil => cases h
  | cons action actions ih =>
    obtain ⟨hfresh, hrest⟩ := nodup_cons.mp hnodup
    rw [foldl_cons]
    rcases mem_cons.mp h with rfl | hmem
    · rw [status_unnamed _ hfresh, status_applyAction, if_pos rfl]
    · have hother : b ≠ action.1 := by
        rintro rfl
        exact hfresh (mem_map.mpr ⟨_, hmem, rfl⟩)
      rw [ih _ hrest hmem, status_applyAction, if_neg hother]

theorem mem_table_prepare (ha : a ∈ c.table.amendmentMap_) :
    a ∈ (c.prepare r).table.amendmentMap_ :=
  List.foldlRecOn (motive := fun t : AmendmentTable => a ∈ t.amendmentMap_) _ _ ha
    fun _ ht call _ => call.mem_run ht

theorem Step.mem_table (h : Step majorityTime_ majorityFraction_ c r c')
    (ha : a ∈ (c.prepare r).table.amendmentMap_) : a ∈ c'.table.amendmentMap_ := by
  rw [h.applied]
  refine List.foldlRecOn (motive := fun c : Chain => a ∈ c.table.amendmentMap_) _ _ ha
    fun c hc action _ => ?_
  simp only [Chain.applyAction, applyAmendment]
  -- the table stays as it is, or the amendment is enabled
  repeat' split
  all_goals first | exact hc | exact AmendmentTable.mem_enable hc

theorem Chain.majorityTime_eq (c : Chain) (a : Uint256) :
    ((getMajorityAmendments c.sle).find? a).getD 0 = (c.status a).since.getLast?.getD 0 := by
  rw [find?_getMajorityAmendments]
  rfl

theorem voteOn_status (c : Chain) (r : Round) (a : Uint256) (state : AmendmentState) :
    voteOn majorityTime_ r.parentCloseTime (getEnabledAmendments c.sle) (getMajorityAmendments c.sle)
      (AmendmentSet.poll majorityFraction_ r.valSet) a state =
    if (c.status a).enabled ≠ 0 then none
    else
      let start := (c.status a).since.getLast?.getD 0
      if r.HasMajority majorityFraction_ a ∧ start = 0 ∧ !state.vetoed then some tfGotMajority
      else if ¬r.HasMajority majorityFraction_ a ∧ start ≠ 0 then some tfLostMajority
      else if start ≠ 0 ∧ start + majorityTime_ ≤ r.parentCloseTime ∧ !state.vetoed then some 0
      else none := by
  have hlisted : (c.status a).enabled ≠ 0 ↔ a ∈ getEnabledAmendments c.sle := by
    rw [Ne, Chain.status, count_eq_zero, not_not]
    rfl
  simp only [voteOn, c.majorityTime_eq, AmendmentSet.votes_poll, AmendmentSet.threshold_poll]
  by_cases hin : a ∈ getEnabledAmendments c.sle
  · rw [if_pos hin, if_pos (hlisted.mpr hin)]
  · rw [if_neg hin, if_neg fun h => hin (hlisted.mp h)]
    rfl

theorem Step.mem_actions (h : Step majorityTime_ majorityFraction_ c r c') :
    (a, flags) ∈ r.actions ↔ ∃ state, (c.prepare r).table.amendmentMap_.lookup a = some state ∧
      voteOn majorityTime_ r.parentCloseTime (getEnabledAmendments c.sle)
        (getMajorityAmendments c.sle) (AmendmentSet.poll majorityFraction_ r.valSet) a state =
          some flags := by
  rw [h.voted.mem_iff, OrderedMap.mem_entries_iff, doVoting,
    find?_recordActions _ _ (c.prepare r).table.amendmentMap_.nodupKeys, OrderedMap.find?_empty,
    Option.or_none]
  exact Option.bind_eq_some_iff

theorem Step.nodup_actions (h : Step majorityTime_ majorityFraction_ c r c') :
    (r.actions.map Prod.fst).Nodup := by
  rw [(h.voted.map Prod.fst).nodup_iff]
  exact (pairwise_map.mpr ((OrderedMap.sorted _).imp fun hlt => hlt.ne))

theorem Step.status_of_no_action (h : Step majorityTime_ majorityFraction_ c r c')
    (hnone : ¬∃ flags, (a, flags) ∈ r.actions) : c'.status a = c.status a := by
  have hunnamed : a ∉ r.actions.map Prod.fst := by
    intro hmem
    obtain ⟨⟨b, flags⟩, haction, rfl⟩ := mem_map.mp hmem
    exact hnone ⟨flags, haction⟩
  rw [h.applied, status_unnamed _ hunnamed]
  rfl

theorem Step.turn (h : Step majorityTime_ majorityFraction_ c r c') (hreg : (c.status a).Regular)
    (hknown : (c.status a).since ≠ [] → a ∈ c.table.amendmentMap_) :
    Turn majorityTime_ majorityFraction_ r a (c.status a) (c'.status a) := by
  have hprepared : (c.prepare r).status a = c.status a := rfl
  by_cases hacted : ∃ flags, (a, flags) ∈ r.actions
  · obtain ⟨flags, hflags⟩ := hacted
    rw [h.applied, status_named _ h.nodup_actions hflags, hprepared]
    obtain ⟨state, -, hvote⟩ := h.mem_actions.mp hflags
    rw [voteOn_status] at hvote
    generalize c.status a = s at *
    cases hreg with
    | absent =>
      obtain ⟨⟨hmaj, -⟩, rfl⟩ : (r.HasMajority majorityFraction_ a ∧ state.vetoed = false) ∧
          tfGotMajority = flags := by simpa using hvote
      exact .got hmaj
    | enabled => simp at hvote
    | majority start hstart =>
      by_cases hmaj : r.HasMajority majorityFraction_ a
      · obtain ⟨⟨helapsed, -⟩, rfl⟩ : (start + majorityTime_ ≤ r.parentCloseTime ∧
            state.vetoed = false) ∧ 0 = flags := by simpa [hstart, hmaj] using hvote
        exact .held hmaj helapsed
      · obtain rfl : tfLostMajority = flags := by simpa [hstart, hmaj] using hvote
        exact .lost
  · rw [h.status_of_no_action hacted]
    refine .stay fun hsince => ?_
    -- the amendment is in the table, so without the votes it would have lost its majority
    by_contra hmaj
    obtain ⟨state, hstate⟩ := AList.mem_iff_lookup.mp (mem_table_prepare (r := r) (hknown hsince))
    refine hacted ⟨tfLostMajority, h.mem_actions.mpr ⟨state, hstate, ?_⟩⟩
    rw [voteOn_status]
    generalize c.status a = s at *
    cases hreg with
    | absent | enabled => exact absurd rfl hsince
    | majority start hstart => simp [hstart, hmaj]

theorem Turn.regular {s s' : Status} (h : Turn majorityTime_ majorityFraction_ r a s s')
    (hreg : s.Regular) (hnonzero : r.closeTime ≠ 0) : s'.Regular := by
  cases h with
  | stay _ => exact hreg
  | got _ => exact .majority _ hnonzero
  | lost => exact .absent
  | held _ _ => exact .enabled

/-! ## Runs -/

structure Sound (c : Chain) : Prop where
  distinct : c.enabled.Nodup
  single : (c.majorities.map Majority.amendment).Nodup
  pending : ∀ m ∈ c.majorities, m.amendment ∉ c.enabled
  dated : ∀ m ∈ c.majorities, m.closeTime ≠ 0
  known : ∀ m ∈ c.majorities, m.amendment ∈ c.table.amendmentMap_

theorem Chain.mem_enabled : a ∈ c.enabled ↔ (c.status a).enabled ≠ 0 := by
  rw [Ne, Chain.status, count_eq_zero, not_not]
  rfl

theorem Chain.mem_since {start : Nat} :
    start ∈ (c.status a).since ↔ (⟨a, start⟩ : Majority) ∈ c.majorities := by
  simp only [Chain.status, Misc.status, mem_map, mem_filter, decide_eq_true_eq, Chain.majorities]
  constructor
  · rintro ⟨m, ⟨hm, rfl⟩, rfl⟩
    exact hm
  · intro h
    exact ⟨_, ⟨h, rfl⟩, rfl⟩

theorem Chain.length_since :
    (c.status a).since.length = (c.majorities.map Majority.amendment).count a := by
  rw [List.count, countP_map, countP_eq_length_filter, Chain.status, Misc.status, length_map]
  congr 1

theorem Sound.regular (h : Sound c) (a : Uint256) : (c.status a).Regular := by
  have hlen : (c.status a).since.length ≤ 1 := by
    rw [Chain.length_since]
    exact nodup_iff_count_le_one.mp h.single a
  have hcount : (c.status a).enabled ≤ 1 := nodup_iff_count_le_one.mp h.distinct a
  have hdated : ∀ start ∈ (c.status a).since, start ≠ 0 ∧ (c.status a).enabled = 0 := by
    intro start hstart
    have hmem := Chain.mem_since.mp hstart
    exact ⟨h.dated _ hmem, by_contra fun hne => h.pending _ hmem (Chain.mem_enabled.mpr hne)⟩
  generalize c.status a = s at *
  obtain ⟨enabled, since⟩ := s
  match since, hlen with
  | [], _ =>
    match enabled, hcount with
    | 0, _ => exact .absent
    | 1, _ => exact .enabled
  | [start], _ =>
    obtain ⟨hne, rfl⟩ := hdated start (mem_singleton_self start)
    exact .majority start hne

theorem sound_of_regular (hreg : ∀ a, (c.status a).Regular)
    (hknown : ∀ a, (c.status a).since ≠ [] → a ∈ c.table.amendmentMap_) : Sound c where
  distinct := by
    refine nodup_iff_count_le_one.mpr fun a => ?_
    have h := hreg a
    change (c.status a).enabled ≤ 1
    cases hs : c.status a
    rw [hs] at h
    cases h <;> simp
  single := by
    refine nodup_iff_count_le_one.mpr fun a => ?_
    rw [← Chain.length_since]
    have h := hreg a
    cases hs : c.status a
    rw [hs] at h
    cases h <;> simp
  pending m hm := by
    have hsince : m.closeTime ∈ (c.status m.amendment).since := Chain.mem_since.mpr hm
    have h := hreg m.amendment
    rw [Chain.mem_enabled, not_not]
    cases hs : c.status m.amendment
    rw [hs] at h hsince
    cases h with
    | absent => rfl
    | enabled => cases hsince
    | majority start hne => rfl
  dated m hm := by
    have hsince : m.closeTime ∈ (c.status m.amendment).since := Chain.mem_since.mpr hm
    have h := hreg m.amendment
    cases hs : c.status m.amendment
    rw [hs] at h hsince
    cases h with
    | absent | enabled => cases hsince
    | majority start hne =>
      rw [mem_singleton.mp hsince]
      exact hne
  known m hm := hknown m.amendment (ne_nil_of_mem (Chain.mem_since.mpr hm))

theorem Sound.known_of_since (h : Sound c) (hne : (c.status a).since ≠ []) :
    a ∈ c.table.amendmentMap_ := by
  obtain ⟨start, hstart⟩ := exists_mem_of_ne_nil _ hne
  exact h.known _ (Chain.mem_since.mp hstart)

theorem Step.turn_of_sound (h : Step majorityTime_ majorityFraction_ c r c') (hc : Sound c)
    (a : Uint256) : Turn majorityTime_ majorityFraction_ r a (c.status a) (c'.status a) :=
  h.turn (hc.regular a) hc.known_of_since

theorem Step.sound (h : Step majorityTime_ majorityFraction_ c r c') (hc : Sound c) : Sound c' := by
  refine sound_of_regular (fun a => (h.turn_of_sound hc a).regular (hc.regular a) h.nonzero) ?_
  intro a hne
  by_cases hacted : ∃ flags, (a, flags) ∈ r.actions
  · obtain ⟨flags, hflags⟩ := hacted
    obtain ⟨state, hstate, -⟩ := h.mem_actions.mp hflags
    exact h.mem_table (AList.mem_iff_lookup.mpr ⟨state, hstate⟩)
  · rw [h.status_of_no_action hacted] at hne
    exact h.mem_table (mem_table_prepare (hc.known_of_since hne))

namespace Run

variable {n : Nat} (run : Run majorityTime_ majorityFraction_ n)

/-- The majority of `a` before round `i` was recorded in round `k` or at the outset, and since then
`a` had its votes. -/
structure Held (a : Uint256) (start i k : Nat) : Prop where
  began : k < i ∧ (run.chain k).status a = ⟨0, []⟩ ∧ start = (run.round k).closeTime ∨
    k = 0 ∧ (⟨a, start⟩ : Majority) ∈ (run.chain 0).majorities
  recorded : ∀ j, k < j → j ≤ i → (⟨a, start⟩ : Majority) ∈ (run.chain j).majorities
  voted : ∀ j, k ≤ j → j < i → (run.round j).HasMajority majorityFraction_ a

variable {i : Nat}

theorem sound (h : Sound (run.chain 0)) (hi : i ≤ n) : Sound (run.chain i) := by
  induction i with
  | zero => exact h
  | succ i ih => exact (run.step i hi).sound (ih (Nat.le_of_succ_le hi))

theorem held (h : Sound (run.chain 0)) {start : Nat} (hi : i ≤ n)
    (hs : (run.chain i).status a = ⟨0, [start]⟩) : ∃ k ≤ i, run.Held a start i k := by
  induction i with
  | zero =>
    refine ⟨0, le_refl 0, .inr ⟨rfl, ?_⟩, fun j hj hj' => absurd hj (by omega), fun j _ hj => absurd hj (by omega)⟩
    rw [← Chain.mem_since, hs]
    exact mem_singleton_self start
  | succ i ih =>
    have hmem : (⟨a, start⟩ : Majority) ∈ (run.chain (i + 1)).majorities := by
      rw [← Chain.mem_since, hs]
      exact mem_singleton_self start
    have hturn := (run.step i hi).turn_of_sound (run.sound h (Nat.le_of_succ_le hi)) a
    rw [hs] at hturn
    generalize hbefore : (run.chain i).status a = s at hturn
    cases hturn with
    | stay hmaj =>
      obtain ⟨k, hk, hheld⟩ := ih (Nat.le_of_succ_le hi) hbefore
      refine ⟨k, by omega, ?_, fun j hj hj' => ?_, fun j hj hj' => ?_⟩
      · exact hheld.began.imp_left fun ⟨hlt, hrest⟩ => ⟨by omega, hrest⟩
      · rcases Nat.lt_or_ge i j with hlt | hle
        · obtain rfl : j = i + 1 := by omega
          exact hmem
        · exact hheld.recorded j hj hle
      · rcases Nat.lt_or_ge j i with hlt | hle
        · exact hheld.voted j hj hlt
        · obtain rfl : j = i := by omega
          exact hmaj (by simp)
    | got hmaj =>
      refine ⟨i, by omega, .inl ⟨by omega, hbefore, rfl⟩, fun j hj hj' => ?_, fun j hj hj' => ?_⟩
      · obtain rfl : j = i + 1 := by omega
        exact hmem
      · obtain rfl : j = i := by omega
        exact hmaj

theorem amendments_need_majority (run : Run majorityTime_ majorityFraction_ n)
    (h : Sound (run.chain 0)) :
    (∀ i ≤ n, (run.chain i).enabled.Nodup ∧
      ((run.chain i).majorities.map Majority.amendment).Nodup ∧
      ∀ m ∈ (run.chain i).majorities, m.amendment ∉ (run.chain i).enabled) ∧
    (∀ i < n, (run.chain i).enabled ⊆ (run.chain (i + 1)).enabled) ∧
    ∀ i < n, ∀ a ∈ (run.chain (i + 1)).enabled, a ∉ (run.chain i).enabled →
      ∃ start k, (⟨a, start⟩ : Majority) ∈ (run.chain i).majorities ∧
        start + majorityTime_ ≤ (run.round i).closeTime ∧ k ≤ i ∧ run.Held a start i k ∧
        (run.round i).HasMajority majorityFraction_ a := by
  have hturn : ∀ i < n, ∀ a, Turn majorityTime_ majorityFraction_ (run.round i) a
      ((run.chain i).status a) ((run.chain (i + 1)).status a) :=
    fun i hi => (run.step i hi).turn_of_sound (run.sound h (Nat.le_of_lt hi))
  refine ⟨fun i hi => ?_, fun i hi a ha => ?_, fun i hi a hafter hbefore => ?_⟩
  · have hsound := run.sound h hi
    exact ⟨hsound.distinct, hsound.single, hsound.pending⟩
  · rw [Chain.mem_enabled] at ha ⊢
    have hstep := hturn i hi a
    generalize (run.chain i).status a = s at *
    generalize (run.chain (i + 1)).status a = s' at *
    cases hstep with
    | stay _ => exact ha
    | got _ | lost | held _ _ => exact absurd rfl ha
  · rw [Chain.mem_enabled] at hafter hbefore
    have hstep := hturn i hi a
    generalize hs : (run.chain i).status a = s at hstep hbefore
    generalize (run.chain (i + 1)).status a = s' at *
    cases hstep with
    | stay _ => exact absurd hafter hbefore
    | got _ | lost => exact absurd rfl hafter
    | @held start hmaj helapsed =>
      obtain ⟨k, hk, hheld⟩ := run.held h (Nat.le_of_lt hi) hs
      refine ⟨start, k, ?_, helapsed.trans (run.step i hi).ordered, hk, hheld, hmaj⟩
      rw [← Chain.mem_since, hs]
      exact mem_singleton_self start

end Run

/-- One amendment, one trusted validation that names it, and a majority time of 10 seconds. -/
def sampleRun : Run 10 204 2 where
  chain
    | 0 => ⟨⟨AList.singleton 7 {}, false⟩, none⟩
    | 1 => ⟨⟨AList.singleton 7 {}, false⟩, some ⟨[], some [⟨7, 5⟩]⟩⟩
    | _ => ⟨⟨AList.singleton 7 { enabled := true }, true⟩, some ⟨[7], none⟩⟩
  round
    | 0 => ⟨[], 1, 5, [⟨true, some [7]⟩], [(7, tfGotMajority)]⟩
    | _ => ⟨[], 20, 21, [⟨true, some [7]⟩], [(7, 0)]⟩
  step i hi := by
    match i, hi with
    | 0, _ => exact ⟨by decide, by decide, .of_eq rfl, rfl⟩
    | 1, _ => exact ⟨by decide, by decide, .of_eq rfl, rfl⟩

theorem amendments_need_majority_sample : Sound (sampleRun.chain 0) ∧ 7 ∈ (sampleRun.chain 2).enabled ∧
    ∃ start k, sampleRun.Held 7 start 1 k := by
  have hsound : Sound (sampleRun.chain 0) := by
    refine ⟨nodup_nil, nodup_nil, ?_, ?_, ?_⟩ <;> intro m hm <;> cases hm
  have henabled : 7 ∈ (sampleRun.chain 2).enabled := mem_singleton_self 7
  obtain ⟨start, k, -, -, -, hheld, -⟩ :=
    (sampleRun.amendments_need_majority hsound).2.2 1 (by decide) 7 henabled (by decide)
  exact ⟨hsound, henabled, start, k, hheld⟩

/-- A majority of an amendment that the server does not know: there is no vote on it at the first
flag ledger, where nobody names it; before the second one a report adds it to the table. -/
def unknownRun : Run 10 204 2 where
  chain
    | 0 => ⟨⟨∅, false⟩, some ⟨[], some [⟨7, 5⟩]⟩⟩
    | 1 => ⟨⟨∅, false⟩, some ⟨[], some [⟨7, 5⟩]⟩⟩
    | _ => ⟨⟨AList.singleton 7 { enabled := true }, true⟩, some ⟨[7], none⟩⟩
  round
    | 0 => ⟨[], 10, 11, [⟨true, some []⟩], []⟩
    | _ => ⟨[.getJson 7], 20, 21, [⟨true, some [7]⟩], [(7, 0)]⟩
  step i hi := by
    match i, hi with
    | 0, _ => exact ⟨by decide, by decide, .of_eq rfl, rfl⟩
    | 1, _ => exact ⟨by decide, by decide, .of_eq rfl, rfl⟩

theorem unknown_majority_kept : (unknownRun.chain 0).enabled = [] ∧
    (unknownRun.chain 0).majorities = [⟨7, 5⟩] ∧ ¬ (unknownRun.round 0).HasMajority 204 7 ∧
    7 ∉ (unknownRun.chain 1).enabled ∧ 7 ∈ (unknownRun.chain 2).enabled ∧
    ¬ ∃ start k, k ≤ 1 ∧ unknownRun.Held 7 start 1 k := by
  have hvotes : ¬ (unknownRun.round 0).HasMajority 204 7 := by decide
  refine ⟨rfl, rfl, hvotes, by decide, mem_singleton_self 7, ?_⟩
  rintro ⟨start, k, hk, hheld⟩
  -- the majority was there at the outset, and the first flag ledger was without the votes
  obtain ⟨hlt, hstatus, -⟩ | ⟨rfl, -⟩ := hheld.began
  · obtain rfl : k = 0 := by omega
    cases hstatus
  · exact hvotes (hheld.voted 0 le_rfl (by decide))

end Ripple.Misc
