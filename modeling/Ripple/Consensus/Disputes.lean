import Ripple.Consensus.Peers
import Ripple.Consensus.Proposals
import Ripple.Consensus.Votes

/-!
# Ripple.Consensus.Disputes

The bookkeeping of disputes over whole runs.

`Booked` says of a result that it names its own set, which was acquired, that its disputes are kept
(`Kept`) and that the votes of all peers are recorded (`Recorded`). While the position of a peer is
being replaced, or a set arrives, the votes of some peers are missing for a moment; the lemmas for
these functions carry the exception along until `updateDisputes` has removed it.

Our own set only ever changes in disputed transactions (`updateVotes_spec`), which is why sets that
were compared before need not be compared again.
-/

namespace Ripple.Consensus

open AList
open TxSet (has ID Tx TxID txId)

variable {NodeID LedgerID S : Type} [TxSet S] [DecidableEq NodeID]

open ConsensusResult

/-- What is left of a dispute when our vote is forgotten. -/
def SameVotes (d d' : DisputedTx NodeID (Tx S)) : Prop :=
  d'.tx_ = d.tx_ ∧ d'.votes_ = d.votes_ ∧ d'.yays_ = d.yays_ ∧ d'.nays_ = d.nays_

omit [DecidableEq NodeID] in
theorem updateVote_spec (d : DisputedTx NodeID (Tx S)) (percentTime : Int)
    (proposing : Bool) (p : ConsensusParms) :
    SameVotes d (d.updateVote percentTime proposing p).2 ∧
    ((d.updateVote percentTime proposing p).1 = false →
      (d.updateVote percentTime proposing p).2.ourVote_ = d.ourVote_) := by
  rw [DisputedTx.updateVote]
  split
  · exact ⟨⟨rfl, rfl, rfl, rfl⟩, fun _ => rfl⟩
  split
  · exact ⟨⟨rfl, rfl, rfl, rfl⟩, fun _ => rfl⟩
  split
  · exact ⟨⟨rfl, rfl, rfl, rfl⟩, fun _ => rfl⟩
  · exact ⟨⟨rfl, rfl, rfl, rfl⟩, nofun⟩

/-- After part of the second loop of `updateOurPositions`, which started with the disputes `ds`. -/
structure Revised (ds : HashMap (TxID S) (DisputedTx NodeID (Tx S))) (txns : S)
    (x : HashMap (TxID S) (DisputedTx NodeID (Tx S)) × Option S) : Prop where
  votes : ∀ {i d}, x.1.lookup i = some d → ∃ d', ds.lookup i = some d' ∧ SameVotes d' d
  ourVote : ∀ {i d}, x.1.lookup i = some d → d.ourVote_ = has (x.2.getD txns) i
  mem : ∀ {i}, i ∈ ds → i ∈ x.1
  outside : ∀ {i}, i ∉ ds → has (x.2.getD txns) i = has txns i

omit [DecidableEq NodeID] in
theorem updateVoteAt_revised [LawfulTxSet S]
    {ds : HashMap (TxID S) (DisputedTx NodeID (Tx S))} {txns : S}
    {x : HashMap (TxID S) (DisputedTx NodeID (Tx S)) × Option S}
    (hds : ∀ {i d}, ds.lookup i = some d → txId d.tx_ = i) (percentTime : Int)
    (proposing : Bool) (p : ConsensusParms) (i : TxID S) (h : Revised ds txns x) :
    Revised ds txns (updateVoteAt percentTime proposing p txns x i) := by
  simp only [updateVoteAt]
  cases hl : x.1.lookup i with
  | none => exact h
  | some d =>
    obtain ⟨d₀, hd₀, hsame⟩ := h.votes hl
    obtain ⟨hsame', hour⟩ := updateVote_spec d percentTime proposing p
    simp only
    generalize d.updateVote percentTime proposing p = u at hsame' hour ⊢
    obtain ⟨changed, d'⟩ := u
    have htx : txId d'.tx_ = i := by
      rw [hsame'.1, hsame.1]
      exact hds hd₀
    -- the set follows our vote about `i` and agrees with the old one elsewhere
    have hset : ∀ j, has ((if changed then some (if d'.ourVote_ then
        TxSet.insert (x.2.getD txns) d'.tx_ else TxSet.erase (x.2.getD txns) i)
        else x.2).getD txns) j = if j = i then d'.ourVote_ else has (x.2.getD txns) j := by
      intro j
      cases changed with
      | true =>
        cases hv : d'.ourVote_ with
        | true =>
          simp only [if_true, Option.getD_some, LawfulTxSet.has_insert, htx]
          by_cases hj : j = i <;> simp [hj]
        | false =>
          simp only [if_true, Bool.false_eq_true, if_false, Option.getD_some,
            LawfulTxSet.has_erase]
          by_cases hj : j = i <;> simp [hj]
      | false =>
        simp only [Bool.false_eq_true, if_false]
        split
        · rename_i hj
          rw [hj, hour rfl, h.ourVote hl]
        · rfl
    constructor
    · intro j e he
      change (x.1.insert i d').lookup j = some e at he
      rw [lookup_insert_ite] at he
      split at he
      · rename_i hj
        cases he
        rw [hj]
        exact ⟨d₀, hd₀, hsame'.1.trans hsame.1, hsame'.2.1.trans hsame.2.1,
          hsame'.2.2.1.trans hsame.2.2.1, hsame'.2.2.2.trans hsame.2.2.2⟩
      · exact h.votes he
    · intro j e he
      change (x.1.insert i d').lookup j = some e at he
      rw [lookup_insert_ite] at he
      refine Eq.trans ?_ (hset j).symm
      split at he
      · rename_i hj
        cases he
        rw [if_pos hj]
      · rename_i hj
        rw [if_neg hj]
        exact h.ourVote he
    · intro j hj
      exact (mem_insert _).mpr (.inr (h.mem hj))
    · intro j hj
      refine (hset j).trans ?_
      rw [if_neg]
      · exact h.outside hj
      · rintro rfl
        exact hj (mem_iff_lookup.mpr ⟨d₀, hd₀⟩)

variable {peers : PeerPositions NodeID LedgerID S} {acquired : HashMap (ID S) S}
  {r : ConsensusResult NodeID LedgerID S} {s : Consensus NodeID LedgerID S}
  {A : ConsensusAdaptor NodeID LedgerID S}

omit [DecidableEq NodeID] in
theorem updateVotes_spec [LawfulTxSet S] (s : Consensus NodeID LedgerID S)
    (hk : Kept peers acquired r) : Revised r.disputes r.txns (updateVotes A s r) := by
  refine List.foldlRecOn _ _ ?_ fun x hx i _ => updateVoteAt_revised hk.tx _ _ _ i hx
  exact ⟨fun hd => ⟨_, hd, rfl, rfl, rfl, rfl⟩, hk.ourVote, id, fun _ => rfl⟩

section Revision

variable {x : HashMap (TxID S) (DisputedTx NodeID (Tx S)) × Option S}
  (position : ConsensusProposal NodeID LedgerID (ID S))

omit [DecidableEq NodeID] in
theorem Revised.kept (h : Revised r.disputes r.txns x) (hk : Kept peers acquired r) :
    Kept peers acquired
      { r with disputes := x.1, txns := x.2.getD r.txns, position := position } := by
  constructor
  · intro i d hd
    obtain ⟨d', hd', htx, -⟩ := h.votes hd
    rw [htx]
    exact hk.tx hd'
  · exact h.ourVote
  · intro i d hd
    obtain ⟨d', hd', -, hvotes, hyays, hnays⟩ := h.votes hd
    have ht := hk.tallied hd'
    rwa [DisputedTx.Tallied, ← hvotes, ← hyays, ← hnays] at ht
  · intro i d n hd hn
    obtain ⟨d', hd', -, hvotes, -⟩ := h.votes hd
    rw [hvotes] at hn
    exact hk.voters hd' hn
  · intro c hc
    obtain ⟨o, ho, hdiff⟩ := hk.compared hc
    refine ⟨o, ho, fun i hi => ?_⟩
    by_cases hmem : i ∈ r.disputes
    · exact h.mem hmem
    · exact h.mem (hdiff i fun heq => hi (heq.trans (h.outside hmem).symm))

theorem Revised.recorded {n : NodeID} (h : Revised r.disputes r.txns x)
    (hr : Recorded peers acquired r n) :
    Recorded peers acquired
      { r with disputes := x.1, txns := x.2.getD r.txns, position := position } n := by
  constructor
  · intro i d hd v hv
    obtain ⟨d', hd', -, hvotes, -⟩ := h.votes hd
    rw [hvotes]
    exact hr.voted hd' v hv
  · exact hr.compared

end Revision

/-- The bookkeeping of a result, with the votes of the nodes in `X` left out. -/
structure Booked (X : Set NodeID) (peers : PeerPositions NodeID LedgerID S)
    (acquired : HashMap (ID S) S) (r : ConsensusResult NodeID LedgerID S) : Prop where
  position : r.position.position_ = TxSet.id r.txns
  held : TxSet.id r.txns ∈ acquired
  kept : Kept peers acquired r
  recorded : ∀ n ∉ X, Recorded peers acquired r n

structure Disputed (X : Set NodeID) (s : Consensus NodeID LedgerID S) : Prop where
  keyed : ∀ {c o}, s.acquired_.lookup c = some o → TxSet.id o = c
  booked : ∀ {r}, s.result_ = some r → Booked X s.currPeerPositions_ s.acquired_ r

theorem setResult_disputed {x : Sharing NodeID LedgerID S}
    (hkeyed : ∀ {c o}, s.acquired_.lookup c = some o → TxSet.id o = c)
    (hid : r.position.position_ = TxSet.id r.txns) (hheld : TxSet.id r.txns ∈ s.acquired_)
    (hstand : SameStand r x.1) (hkept : Kept s.currPeerPositions_ s.acquired_ x.1)
    (hrec : ∀ n, Recorded s.currPeerPositions_ s.acquired_ x.1 n) :
    Disputed ∅ (setResult s x) := by
  refine ⟨hkeyed, ?_⟩
  rintro _ ⟨⟩
  refine ⟨?_, ?_, hkept, fun n _ => hrec n⟩
  · rw [hstand.1, hstand.2]
    exact hid
  · rw [hstand.1]
    exact hheld

variable {X : Set NodeID} {c : ID S} {o set : S}

theorem Disputed.of_none (h : Disputed X s) (hr : s.result_ = none) : Disputed ∅ s := by
  refine ⟨h.keyed, fun hr' => ?_⟩
  rw [hr] at hr'
  cases hr'

def proposers (s : Consensus NodeID LedgerID S) (c : ID S) : Set NodeID :=
  { n | ∃ p, s.currPeerPositions_.lookup n = some p ∧ p.position_ = c }

theorem disputeTxSet_disputed [LawfulTxSet S] {txSet : S}
    (hset : s.acquired_.lookup (TxSet.id txSet) = some txSet)
    (h : Disputed (proposers s (TxSet.id txSet)) s) : Disputed ∅ (disputeTxSet A s txSet) := by
  simp only [disputeTxSet]
  split
  · rename_i hr
    exact h.of_none hr
  · rename_i r hr
    have hb := h.booked hr
    have hmem : ∀ e, e ∈ A.order s.asked s.currPeerPositions_.entries ↔
        e ∈ s.currPeerPositions_.entries := fun e => (A.order_perm _ _).mem_iff
    obtain ⟨hkept, hrec⟩ := foldl_updateDisputesAt (x := (r, [])) hset
      (fun e he => lookup_of_mem_entries ((hmem e).mp he)) hb.kept
    refine setResult_disputed h.keyed hb.position hb.held (foldl_updateDisputesAt_sameStand _ _)
      hkept fun n => hrec n ?_
    by_cases hn : n ∈ proposers s (TxSet.id txSet)
    · obtain ⟨p, hp, hid⟩ := hn
      exact .inr ⟨⟨n, p⟩, (hmem _).mpr (mem_lookup_iff.mp hp), rfl, hid⟩
    · exact .inl (hb.recorded n hn)

omit [DecidableEq NodeID] in
theorem keyed_insert {k : ID S} (h : ∀ {c o}, acquired.lookup c = some o → TxSet.id o = c)
    (hk : TxSet.id set = k) (ho : (acquired.insert k set).lookup c = some o) : TxSet.id o = c := by
  rw [lookup_insert_ite] at ho
  split at ho
  · rename_i hc
    cases ho
    rw [hk, hc]
  · exact h ho

theorem Disputed.acquire {calls : List (Event NodeID LedgerID S)} {now : Nat}
    (hX : X ⊆ proposers s c) (hc : TxSet.id o = c) (hnew : c ∉ s.acquired_) (h : Disputed X s) :
    Disputed (proposers s c) { s with
      now_ := now
      acquired_ := s.acquired_.insert c o
      calls := calls } := by
  refine ⟨fun ho => keyed_insert h.keyed hc ho, fun hr => ?_⟩
  have hb := h.booked hr
  refine ⟨hb.position, (mem_insert _).mpr (.inr hb.held), hb.kept.acquire hnew, ?_⟩
  intro n hn
  exact (hb.recorded n fun hx => hn (hX hx)).acquire fun p hp hid => hn ⟨p, hp, hid⟩

theorem gotTxSet_disputed [LawfulTxSet S] (now : Nat) (txSet : S) (h : Disputed ∅ s) :
    Disputed ∅ (gotTxSet A now txSet s) := by
  rw [gotTxSet]
  split
  · exact h
  split
  · exact ⟨h.keyed, h.booked⟩
  · rename_i hnew
    exact disputeTxSet_disputed (lookup_insert _)
      (h.acquire (Set.empty_subset _) rfl hnew)

variable (p : ConsensusProposal NodeID LedgerID (ID S))

theorem storePosition_disputed (h : Disputed ∅ s) : Disputed {p.nodeID_} (storePosition p s) := by
  refine ⟨h.keyed, fun hr => ?_⟩
  have hb := h.booked hr
  exact ⟨hb.position, hb.held, hb.kept.insertPeer, fun n hn =>
    (hb.recorded n (Set.notMem_empty n)).congr (lookup_insert_ne hn)⟩

theorem followPosition_disputed [LawfulTxSet S]
    {p : ConsensusProposal NodeID LedgerID (ID S)}
    (hp : s.currPeerPositions_.lookup p.nodeID_ = some p) (h : Disputed {p.nodeID_} s) :
    Disputed ∅ (followPosition A p s) := by
  rw [followPosition]
  split
  · rename_i hnone
    -- without the set there is nothing to record for the node
    have hall : Disputed ∅ s := by
      refine ⟨h.keyed, fun hr => ?_⟩
      have hb := h.booked hr
      refine ⟨hb.position, hb.held, hb.kept, fun n _ => ?_⟩
      by_cases hn : n = p.nodeID_
      · subst hn
        constructor
        · intro i d hd v hv
          rw [peerVote, hp, Option.bind_some, hnone] at hv
          cases hv
        · intro q hq hacq
          rw [hp] at hq
          cases hq
          rw [mem_iff_lookup, hnone] at hacq
          obtain ⟨_, ⟨⟩⟩ := hacq
      · exact hb.recorded n hn
    split
    · exact gotTxSet_disputed _ _ ⟨hall.keyed, hall.booked⟩
    · exact ⟨hall.keyed, hall.booked⟩
  · rename_i set hset
    have hid : p.position_ = TxSet.id set := (h.keyed hset).symm
    split
    · rename_i hr
      exact h.of_none hr
    · rename_i r hr
      have hb := h.booked hr
      refine setResult_disputed h.keyed hb.position hb.held
        (updateDisputes_sameStand _ _ ⟨rfl, rfl⟩) ?_ fun n => ?_
      · exact updateDisputes_kept (hid ▸ hset) (mem_iff_lookup.mpr ⟨p, hp⟩) hb.kept
      · exact updateDisputes_recorded (hid ▸ hset) hp hid hb.kept fun hn => hb.recorded n hn

omit [DecidableEq NodeID] in
theorem emplaceTxSet_keyed {share : Bool}
    (h : ∀ {c o}, s.acquired_.lookup c = some o → TxSet.id o = c)
    (ho : (emplaceTxSet set share s).acquired_.lookup c = some o) : TxSet.id o = c := by
  rw [emplaceTxSet] at ho
  split at ho
  · exact h ho
  · exact keyed_insert h rfl ho

theorem createPeerDisputes_disputed [LawfulTxSet S]
    (hkeyed : ∀ {c o}, s.acquired_.lookup c = some o → TxSet.id o = c)
    (hid : r.position.position_ = TxSet.id r.txns) (hheld : TxSet.id r.txns ∈ s.acquired_)
    (hds : r.disputes = ∅) (hcs : r.compares = ∅) : Disputed ∅ (createPeerDisputes A r s) := by
  have hnone : ∀ {i d}, r.disputes.lookup i ≠ some d := by
    rw [hds]
    simp
  have hkept : Kept s.currPeerPositions_ s.acquired_ r :=
    ⟨fun h => absurd h hnone, fun h => absurd h hnone, fun h => absurd h hnone,
      fun h => absurd h hnone, by simp [hcs]⟩
  obtain ⟨hkept', hvoted, hcompared⟩ := foldl_createDisputesAt (x := (r, []))
    (l := A.order s.asked s.currPeerPositions_.entries) hkeyed hkept
  refine setResult_disputed hkeyed hid hheld (foldl_createDisputesAt_sameStand _) hkept' fun n =>
    ⟨hvoted n fun h => absurd h hnone, ?_⟩
  intro p hp hacq
  refine hcompared _ (.inr ⟨hacq, ⟨n, p⟩, ?_, rfl⟩)
  exact (A.order_perm _ _).mem_iff.mpr (mem_lookup_iff.mp hp)

theorem closeLedger_disputed [LawfulTxSet S] (h : Disputed ∅ s) : Disputed ∅ (closeLedger A s) := by
  simp only [closeLedger]
  generalize hc : A.onClose (s.asked + 1) s.previousLedger_ s.now_ s.mode_ = c
  have hid : TxSet.id c.1 = c.2.position_ := by
    rw [← hc]
    exact A.onClose_id
  refine createPeerDisputes_disputed ?_ hid.symm ?_ rfl rfl
  · intro c' o ho
    rw [propose_frame] at ho
    exact emplaceTxSet_keyed (by exact h.keyed) ho
  · rw [propose_frame]
    exact emplaceTxSet_acquired c.1 true

theorem propose_disputed (h : Disputed ∅ s) : Disputed ∅ (propose p s) := by
  rw [propose_frame]
  exact ⟨h.keyed, h.booked⟩

theorem changeOurPosition_disputed [LawfulTxSet S] {closeTime : Nat}
    (hkeyed : ∀ {c o}, s.acquired_.lookup c = some o → TxSet.id o = c)
    (hkept : ∀ position, Kept s.currPeerPositions_ s.acquired_
      { r with txns := set, position := position })
    (hrec : ∀ position n, Recorded s.currPeerPositions_ s.acquired_
      { r with txns := set, position := position } n) :
    Disputed ∅ (changeOurPosition A set closeTime r s) := by
  simp only [changeOurPosition]
  have hid : (r.position.changePosition (TxSet.id set) closeTime s.now_).position_ =
    TxSet.id set := rfl
  generalize r.position.changePosition (TxSet.id set) closeTime s.now_ = position at hid ⊢
  have hd : Disputed ∅ (if TxSet.id set ∉ s.acquired_ then
      disputeTxSet A { emplaceTxSet set (!position.isBowOut) s with
        result_ := some { r with txns := set, position := position } } set
      else { emplaceTxSet set (!position.isBowOut) s with
        result_ := some { r with txns := set, position := position } }) := by
    rw [emplaceTxSet]
    split
    · rename_i hnew
      refine disputeTxSet_disputed (lookup_insert _) ⟨fun ho => keyed_insert hkeyed rfl ho, ?_⟩
      rintro _ ⟨⟩
      refine ⟨hid, (mem_insert _).mpr (.inl rfl), (hkept position).acquire hnew, ?_⟩
      exact fun n hn => (hrec position n).acquire fun p hp hpos => hn ⟨p, hp, hpos⟩
    · rename_i hold
      rw [not_not] at hold
      rw [if_pos hold]
      refine ⟨hkeyed, ?_⟩
      rintro _ ⟨⟩
      exact ⟨hid, hold, hkept position, fun n _ => hrec position n⟩
  split
  · exact hd
  · exact propose_disputed position hd

theorem Disputed.erasePeer {n : NodeID} {dead : HashSet NodeID} {table : List (TableEvent NodeID)}
    (h : Disputed ∅ s) : Disputed ∅ { s with
      result_ := s.result_.map fun r => r.unVote n
      currPeerPositions_ := s.currPeerPositions_.erase n
      deadNodes_ := dead
      table := table } := by
  refine ⟨h.keyed, fun {r'} hr' => ?_⟩
  obtain ⟨r, hr, rfl⟩ := Option.map_eq_some_iff.mp hr'
  have hb := h.booked hr
  exact ⟨hb.position, hb.held, hb.kept.erasePeer, fun n hn => (hb.recorded n hn).erasePeer⟩

theorem dropStale_disputed (hs : Tabled s) (h : Disputed ∅ s) : Disputed ∅ (dropStale A s).2 := by
  have hstart : Disputed ∅ { s with asked := s.asked + 1 } := ⟨h.keyed, h.booked⟩
  refine List.foldlRecOn (motive := fun x : OrderedMap Nat Int × Consensus NodeID LedgerID S =>
    Disputed ∅ x.2) _ _ hstart fun x hx it hit => ?_
  rw [dropStaleAt]
  split
  · -- the votes are withdrawn under the node id of the position, which is its key
    have hmem := (A.order_perm _ _).mem_iff.mp hit
    rw [(hs.entry (lookup_of_mem_entries hmem)).2.1]
    exact hx.erasePeer
  · exact hx

theorem updateOurPositions_disputed [LawfulTxSet S] (hs : Tabled s) (h : Disputed ∅ s) :
    Disputed ∅ (updateOurPositions A s) := by
  have hd := dropStale_disputed (A := A) hs h
  simp only [updateOurPositions]
  generalize dropStale A s = x at hd ⊢
  split
  · exact hd
  · rename_i r hr
    have hb := hd.booked hr
    have hrev := updateVotes_spec (A := A) x.2 hb.kept
    generalize updateVotes A x.2 r = y at hrev ⊢
    have hkept := fun position => hrev.kept position hb.kept
    have hrec := fun position n => hrev.recorded position (hb.recorded n (Set.notMem_empty n))
    obtain ⟨ds, mutableSet⟩ := y
    cases mutableSet with
    | some set => exact changeOurPosition_disputed hd.keyed hkept hrec
    | none =>
      simp only
      split
      · exact changeOurPosition_disputed hd.keyed hkept hrec
      · refine ⟨hd.keyed, ?_⟩
        rintro _ ⟨⟩
        exact ⟨hb.position, hb.held, hkept r.position, fun n _ => hrec r.position n⟩

theorem leaveConsensus_disputed (h : Disputed ∅ s) : Disputed ∅ (leaveConsensus s) := by
  rw [leaveConsensus]
  split
  · split
    · exact ⟨h.keyed, h.booked⟩
    · rename_i r hr
      split
      · exact ⟨h.keyed, h.booked⟩
      · refine ⟨h.keyed, ?_⟩
        rintro _ ⟨⟩
        have hb := h.booked hr
        exact ⟨hb.position, hb.held, { hb.kept with }, fun n hn => { hb.recorded n hn with }⟩
  · exact h

theorem switchLedger_disputed (lgrId : LedgerID) (h : Disputed ∅ s) :
    Disputed ∅ (switchLedger lgrId s) := by
  refine ⟨h.keyed, fun {r'} hr' => ?_⟩
  obtain ⟨r, hr, rfl⟩ := Option.map_eq_some_iff.mp hr'
  have hb := h.booked hr
  have hpeers : (switchLedger lgrId s).currPeerPositions_ = ∅ := rfl
  rw [hpeers]
  refine ⟨hb.position, hb.held, ?_, fun n _ => ?_⟩
  · constructor
    all_goals simp
  · constructor
    · intro i d hd
      simp at hd
    · intro p hp
      simp at hp

theorem disputed_stable [LawfulTxSet S] [DecidableEq LedgerID]
    (A : ConsensusAdaptor NodeID LedgerID S) : Stable A fun s => Tabled s ∧ Disputed ∅ s where
  make i l := ⟨(tabled_stable A).make i l, by simp [make], nofun⟩
  quiet h hs := by
    refine ⟨(tabled_stable A).quiet h hs.1, ?_, fun {r'} hr' => ?_⟩
    · rw [h.acquired]
      exact hs.2.keyed
    · rw [h.acquired, h.peers]
      rcases h.result with hr | ⟨r, t, c, n, hr, hr''⟩
      · exact hs.2.booked (hr ▸ hr')
      · rw [hr''] at hr'
        cases hr'
        have hb := hs.2.booked hr
        exact ⟨hb.position, hb.held, { hb.kept with }, fun n hn => { hb.recorded n hn with }⟩
  peerBowsOut ha hs := ⟨(tabled_stable A).peerBowsOut ha hs.1, hs.2.erasePeer⟩
  takePosition ha hb hs := ⟨(tabled_stable A).takePosition ha hb hs.1,
    followPosition_disputed (lookup_insert _) (storePosition_disputed _ hs.2)⟩
  gotTxSet now txSet hs := ⟨(tabled_stable A).gotTxSet now txSet hs.1,
    gotTxSet_disputed now txSet hs.2⟩
  closeLedger hp hs := ⟨(tabled_stable A).closeLedger hp hs.1, closeLedger_disputed hs.2⟩
  updateOurPositions hp hs := ⟨(tabled_stable A).updateOurPositions hp hs.1,
    updateOurPositions_disputed hs.1 hs.2⟩
  leaveConsensus hs := ⟨(tabled_stable A).leaveConsensus hs.1, leaveConsensus_disputed hs.2⟩
  wrongLedger hs := ⟨(tabled_stable A).wrongLedger hs.1, hs.2.keyed, hs.2.booked⟩
  switchLedger lgrId hs := ⟨(tabled_stable A).switchLedger lgrId hs.1,
    switchLedger_disputed lgrId hs.2⟩
  beginRound now i l m hs := ⟨(tabled_stable A).beginRound now i l m hs.1, by simp [beginRound],
    nofun⟩

theorem disputes_kept [LawfulTxSet S] [DecidableEq LedgerID] (h : Reached A s)
    (hr : s.result_ = some r) :
    (r.position.position_ = TxSet.id r.txns ∧ TxSet.id r.txns ∈ s.acquired_) ∧
    (∀ i d, r.disputes.lookup i = some d →
      txId d.tx_ = i ∧ d.ourVote_ = has r.txns i ∧
      d.yays_ = d.votes_.values.count true ∧ d.nays_ = d.votes_.values.count false ∧
      ∀ n, n ∈ d.votes_ → n ∈ s.currPeerPositions_) ∧
    ∀ n p o, s.currPeerPositions_.lookup n = some p → s.acquired_.lookup p.position_ = some o →
      TxSet.id o = p.position_ ∧
      (∀ i, has o i ≠ has r.txns i → i ∈ r.disputes) ∧
      ∀ i d, r.disputes.lookup i = some d → d.votes_.lookup n = some (has o i) := by
  obtain ⟨-, hd⟩ := (disputed_stable A).reached h
  have hb := hd.booked hr
  refine ⟨⟨hb.position, hb.held⟩, fun i d hi => ?_, fun n p o hp ho => ?_⟩
  · exact ⟨hb.kept.tx hi, hb.kept.ourVote hi, (hb.kept.tallied hi).1, (hb.kept.tallied hi).2,
      fun n => hb.kept.voters hi⟩
  · obtain ⟨hvoted, hcompared⟩ := hb.recorded n (Set.notMem_empty n)
    obtain ⟨o', ho', hdiff⟩ :=
      hb.kept.compared (hcompared p hp (mem_iff_lookup.mpr ⟨o, ho⟩))
    obtain rfl : o' = o := Option.some.inj (ho'.symm.trans ho)
    refine ⟨hd.keyed ho, hdiff, fun i d hi => hvoted hi _ ?_⟩
    rw [peerVote, hp, Option.bind_some, ho]
    rfl

theorem disputes_kept_sample :
    ∃ r, sampleState.result_ = some r ∧ r.position.position_ = TxSet.id r.txns ∧
      r.disputes.keys.length = 2 ∧
      ∀ n p o, sampleState.currPeerPositions_.lookup n = some p →
        sampleState.acquired_.lookup p.position_ = some o →
        ∀ i d, r.disputes.lookup i = some d → d.votes_.lookup n = some (has o i) := by
  have hlen : sampleState.result_.map (fun r => r.disputes.keys.length) = some 2 := by
    decide +kernel
  obtain ⟨r, hr, hkeys⟩ := Option.map_eq_some_iff.mp hlen
  obtain ⟨hown, -, hpeer⟩ := disputes_kept sampleState_reached hr
  exact ⟨r, hr, hown.1, hkeys, fun n p o hp ho => (hpeer n p o hp ho).2.2⟩

end Ripple.Consensus
