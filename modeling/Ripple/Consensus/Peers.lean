import Ripple.Consensus.Runs

/-!
# Ripple.Consensus.Peers

The table of peer positions over whole runs.

* `Tabled`: the table is what its history says, its entries belong to the ledger we work on, and in
  the history a position only ever replaces an older one of a node that has not bowed out.
-/

namespace Ripple.Consensus

variable {NodeID LedgerID S : Type} [TxSet S] [DecidableEq NodeID]

section History

/-- The writes are given the newest first. -/
def stored (n : NodeID) : List (TableEvent NodeID) → Option UInt32
  | [] => none
  | .clear :: _ => none
  | .store m q :: es => if n = m then some q else stored n es
  | .drop m :: es => if n = m then none else stored n es
  | .bowOut m :: es => if n = m then none else stored n es

def bowedOut (n : NodeID) : List (TableEvent NodeID) → Bool
  | [] => false
  | .clear :: _ => false
  | .store _ _ :: es => bowedOut n es
  | .drop _ :: es => bowedOut n es
  | .bowOut m :: es => decide (n = m) || bowedOut n es

/-- Every write of a position is newer than what it replaces, and of a node that did not bow out. -/
def Ordered : List (TableEvent NodeID) → Prop
  | [] => True
  | .store n q :: es => (∀ p, stored n es = some p → p < q) ∧ bowedOut n es = false ∧ Ordered es
  | .clear :: es => Ordered es
  | .drop _ :: es => Ordered es
  | .bowOut _ :: es => Ordered es

variable {es : List (TableEvent NodeID)}

theorem Ordered.tail {e : TableEvent NodeID} (h : Ordered (e :: es)) : Ordered es := by
  cases e with
  | clear => exact h
  | store n q => exact h.2.2
  | drop n | bowOut n => exact h

theorem Ordered.of_append {later : List (TableEvent NodeID)} (h : Ordered (later ++ es)) :
    Ordered es := by
  induction later with
  | nil => exact h
  | cons e later ih => exact ih h.tail

end History

structure SameTable (s s' : Consensus NodeID LedgerID S) : Prop where
  prevLedgerID : s'.prevLedgerID_ = s.prevLedgerID_
  peers : s'.currPeerPositions_ = s.currPeerPositions_
  dead : s'.deadNodes_ = s.deadNodes_
  table : s'.table = s.table

omit [DecidableEq NodeID] in
theorem SameTable.trans {s s' s'' : Consensus NodeID LedgerID S} (h : SameTable s s')
    (h' : SameTable s' s'') : SameTable s s'' :=
  ⟨h'.prevLedgerID.trans h.prevLedgerID, h'.peers.trans h.peers, h'.dead.trans h.dead,
    h'.table.trans h.table⟩

section Frames

variable (A : ConsensusAdaptor NodeID LedgerID S) (s : Consensus NodeID LedgerID S)

theorem disputeTxSet_sameTable (txSet : S) : SameTable s (disputeTxSet A s txSet) := by
  rw [disputeTxSet]
  split
  · exact ⟨rfl, rfl, rfl, rfl⟩
  · exact ⟨rfl, rfl, rfl, rfl⟩

theorem gotTxSet_sameTable (now : Nat) (txSet : S) : SameTable s (gotTxSet A now txSet s) := by
  rw [gotTxSet]
  split
  · exact ⟨rfl, rfl, rfl, rfl⟩
  split
  · exact ⟨rfl, rfl, rfl, rfl⟩
  · exact { disputeTxSet_sameTable A _ txSet with }

theorem followPosition_sameTable (p : ConsensusProposal NodeID LedgerID (TxSet.ID S)) :
    SameTable s (followPosition A p s) := by
  rw [followPosition]
  split
  · split
    · exact { gotTxSet_sameTable A _ _ _ with }
    · exact ⟨rfl, rfl, rfl, rfl⟩
  · split
    · exact ⟨rfl, rfl, rfl, rfl⟩
    · exact ⟨rfl, rfl, rfl, rfl⟩

section

omit [DecidableEq NodeID]

theorem leaveConsensus_sameTable : SameTable s (leaveConsensus s) := by
  rw [leaveConsensus]
  split
  · split
    · exact ⟨rfl, rfl, rfl, rfl⟩
    · split
      · exact ⟨rfl, rfl, rfl, rfl⟩
      · exact ⟨rfl, rfl, rfl, rfl⟩
  · exact ⟨rfl, rfl, rfl, rfl⟩

theorem emplaceTxSet_sameTable (set : S) (share : Bool) : SameTable s (emplaceTxSet set share s) := by
  rw [emplaceTxSet]
  split
  · exact ⟨rfl, rfl, rfl, rfl⟩
  · exact ⟨rfl, rfl, rfl, rfl⟩

theorem propose_sameTable (position : ConsensusProposal NodeID LedgerID (TxSet.ID S)) :
    SameTable s (propose position s) := by
  rw [propose]
  split
  · exact ⟨rfl, rfl, rfl, rfl⟩
  · exact ⟨rfl, rfl, rfl, rfl⟩

end

theorem closeLedger_sameTable : SameTable s (closeLedger A s) := by
  simp only [closeLedger, createPeerDisputes]
  exact { (emplaceTxSet_sameTable _ _ _).trans (propose_sameTable _ _) with }

theorem changeOurPosition_sameTable (set : S) (closeTime : Nat)
    (r : ConsensusResult NodeID LedgerID S) :
    SameTable s (changeOurPosition A set closeTime r s) := by
  simp only [changeOurPosition]
  generalize r.position.changePosition (TxSet.id set) closeTime s.now_ = position
  have he : SameTable s { emplaceTxSet set (!position.isBowOut) s with
      result_ := some { r with txns := set, position := position } } :=
    (emplaceTxSet_sameTable s set _).trans ⟨rfl, rfl, rfl, rfl⟩
  split
  · split
    · exact he.trans (disputeTxSet_sameTable A _ set)
    · exact he
  · split
    · exact (he.trans (disputeTxSet_sameTable A _ set)).trans (propose_sameTable _ _)
    · exact he.trans (propose_sameTable _ _)

theorem updateOurPositions_sameTable : SameTable (dropStale A s).2 (updateOurPositions A s) := by
  simp only [updateOurPositions]
  split
  · exact ⟨rfl, rfl, rfl, rfl⟩
  · split
    · exact { changeOurPosition_sameTable A _ _ _ _ with }
    · split
      · exact { changeOurPosition_sameTable A _ _ _ _ with }
      · exact ⟨rfl, rfl, rfl, rfl⟩

end Frames

structure Tabled (s : Consensus NodeID LedgerID S) : Prop where
  entry : ∀ {n p}, s.currPeerPositions_.lookup n = some p →
    p.previousLedger_ = s.prevLedgerID_ ∧ p.nodeID_ = n ∧ p.isBowOut = false ∧ n ∉ s.deadNodes_
  stored_eq : ∀ n, stored n s.table =
    (s.currPeerPositions_.lookup n).map ConsensusProposal.proposeSeq_
  dead : ∀ n, n ∈ s.deadNodes_ ↔ bowedOut n s.table = true
  ordered : Ordered s.table

variable {s s' : Consensus NodeID LedgerID S}

theorem SameTable.tabled (h : SameTable s s') (hs : Tabled s) : Tabled s' := by
  constructor
  · rw [h.peers, h.prevLedgerID, h.dead]
    exact hs.entry
  · rw [h.table, h.peers]
    exact hs.stored_eq
  · rw [h.table, h.dead]
    exact hs.dead
  · rw [h.table]
    exact hs.ordered

theorem tabled_clear (h : Tabled s) (hp : s'.currPeerPositions_ = ∅) (hd : s'.deadNodes_ = ∅)
    (ht : s'.table = .clear :: s.table) : Tabled s' := by
  constructor
  · simp [hp]
  · simp [hp, ht, stored]
  · simp [hd, ht, bowedOut]
  · rw [ht]
    exact h.ordered

variable {p : ConsensusProposal NodeID LedgerID (TxSet.ID S)}

theorem storePosition_tabled (ha : Accepts p s) (hb : p.isBowOut = false) (h : Tabled s) :
    Tabled (storePosition p s) := by
  constructor
  · intro n q hq
    change (s.currPeerPositions_.insert p.nodeID_ p).lookup n = some q at hq
    rw [AList.lookup_insert_ite] at hq
    split at hq
    · rename_i hn
      cases hq
      exact ⟨ha.prevLedger, hn.symm, hb, hn ▸ ha.alive⟩
    · exact h.entry hq
  · intro n
    change (if n = p.nodeID_ then some p.proposeSeq_ else stored n s.table) =
      ((s.currPeerPositions_.insert p.nodeID_ p).lookup n).map _
    rw [AList.lookup_insert_ite, h.stored_eq]
    split
    · rfl
    · rfl
  · exact h.dead
  · refine ⟨?_, ?_, h.ordered⟩
    · intro q hq
      have hnew := ha.newer
      rw [h.stored_eq] at hq
      rw [outdated] at hnew
      cases hl : s.currPeerPositions_.lookup p.nodeID_ with
      | none => simp [hl] at hq
      | some old =>
        simp only [hl, Option.map_some, Option.some.injEq, decide_eq_false_iff_not] at hq hnew
        rw [← hq]
        exact UInt32.not_le.mp hnew
    · have := ha.alive
      rw [h.dead] at this
      simpa using this

theorem Tabled.entry_erase (h : Tabled s) {n m : NodeID}
    (hp : (s.currPeerPositions_.erase n).lookup m = some p) :
    m ≠ n ∧ p.previousLedger_ = s.prevLedgerID_ ∧ p.nodeID_ = m ∧ p.isBowOut = false ∧
      m ∉ s.deadNodes_ := by
  rw [AList.lookup_erase_ite] at hp
  split at hp
  · cases hp
  · rename_i hm
    exact ⟨hm, h.entry hp⟩

theorem Tabled.stored_erase (h : Tabled s) (n m : NodeID) :
    (if m = n then none else stored m s.table) =
      ((s.currPeerPositions_.erase n).lookup m).map ConsensusProposal.proposeSeq_ := by
  rw [AList.lookup_erase_ite, h.stored_eq]
  split
  · rfl
  · rfl

theorem peerBowsOut_tabled (n : NodeID) (h : Tabled s) : Tabled (peerBowsOut n s) := by
  constructor
  · intro m p hp
    obtain ⟨hm, hl, hid, hb, hd⟩ := h.entry_erase hp
    refine ⟨hl, hid, hb, ?_⟩
    change m ∉ s.deadNodes_.insert n ()
    simp [AList.mem_insert, hm, hd]
  · exact h.stored_erase n
  · intro m
    change m ∈ s.deadNodes_.insert n () ↔ (decide (m = n) || bowedOut m s.table) = true
    rw [AList.mem_insert, h.dead]
    simp
  · exact h.ordered

variable {A : ConsensusAdaptor NodeID LedgerID S}

theorem dropStale_tabled (h : Tabled s) : Tabled (dropStale A s).2 := by
  have hs : Tabled { s with asked := s.asked + 1 } := ⟨h.entry, h.stored_eq, h.dead, h.ordered⟩
  refine List.foldlRecOn (motive := fun x : OrderedMap Nat Int × Consensus NodeID LedgerID S =>
    Tabled x.2) _ _ hs fun _ hx it _ => ?_
  rw [dropStaleAt]
  split
  · exact ⟨fun hp => (hx.entry_erase hp).2, hx.stored_erase it.1, hx.dead, hx.ordered⟩
  · exact hx

theorem tabled_stable [DecidableEq LedgerID] (A : ConsensusAdaptor NodeID LedgerID S) :
    Stable A Tabled where
  make _ _ := by
    constructor
    · simp [make]
    · simp [make, stored]
    · simp [make, bowedOut]
    · trivial
  quiet h hs := SameTable.tabled ⟨h.prevLedgerID, h.peers, h.dead, h.table⟩ hs
  peerBowsOut _ hs := peerBowsOut_tabled _ hs
  takePosition ha hb hs :=
    (followPosition_sameTable A _ _).tabled (storePosition_tabled ha hb hs)
  gotTxSet now txSet hs := (gotTxSet_sameTable A _ now txSet).tabled hs
  closeLedger _ hs := (closeLedger_sameTable A _).tabled hs
  updateOurPositions _ hs := (updateOurPositions_sameTable A _).tabled (dropStale_tabled hs)
  leaveConsensus hs := (leaveConsensus_sameTable _).tabled hs
  wrongLedger hs := ⟨hs.entry, hs.stored_eq, hs.dead, hs.ordered⟩
  switchLedger _ hs := tabled_clear hs rfl rfl rfl
  beginRound _ _ _ _ hs := tabled_clear hs rfl rfl rfl

theorem peer_positions_ordered [DecidableEq LedgerID] (h : Reached A s) :
    (∀ n p, s.currPeerPositions_.lookup n = some p → p.previousLedger_ = s.prevLedgerID_ ∧
      p.nodeID_ = n ∧ p.isBowOut = false ∧ n ∉ s.deadNodes_) ∧
    (∀ n, stored n s.table = (s.currPeerPositions_.lookup n).map ConsensusProposal.proposeSeq_) ∧
    (∀ n, n ∈ s.deadNodes_ ↔ bowedOut n s.table = true) ∧
    ∀ later n q earlier, s.table = later ++ .store n q :: earlier →
      (∀ p, stored n earlier = some p → p < q) ∧ bowedOut n earlier = false := by
  have ht := (tabled_stable A).reached h
  refine ⟨fun n p => ht.entry, ht.stored_eq, ht.dead, ?_⟩
  intro later n q earlier he
  have ho := ht.ordered
  rw [he] at ho
  obtain ⟨hlt, hb, -⟩ := ho.of_append
  exact ⟨hlt, hb⟩

theorem peer_positions_ordered_sample :
    sampleState.table = [.bowOut 8, .store 7 1, .store 8 0, .store 7 0, .clear] ∧
    (∀ n p, sampleState.currPeerPositions_.lookup n = some p →
      p.previousLedger_ = sampleState.prevLedgerID_ ∧ p.nodeID_ = n ∧ p.isBowOut = false ∧
      n ∉ sampleState.deadNodes_) ∧
    ∀ p, stored 7 [.store 8 0, .store 7 0, .clear] = some p → p < 1 := by
  have ht : sampleState.table = [.bowOut 8, .store 7 1, .store 8 0, .store 7 0, .clear] := by
    decide +kernel
  obtain ⟨hentry, -, -, hordered⟩ := peer_positions_ordered sampleState_reached
  exact ⟨ht, hentry, (hordered [.bowOut 8] 7 1 _ ht).1⟩

end Ripple.Consensus
