import Ripple.Consensus.Timing
import Ripple.Lib.HashMap

/-!
# Ripple.Consensus.Basic

The values a consensus round works with: transaction sets, proposals, disputed transactions and the
result under construction, with the two functions that keep the disputes of a result,
`createDisputes` and `updateDisputes`.
-/

namespace Ripple

/-- What `Consensus` needs of `TxSet_t` and `MutableTxSet`; `txId` is the member `id` of `Tx`. -/
class TxSet (S : Type) where
  ID : Type
  TxID : Type
  Tx : Type
  [decID : DecidableEq ID]
  [decTxID : DecidableEq TxID]
  id : S → ID
  txId : Tx → TxID
  find : S → TxID → Option Tx
  insert : S → Tx → S
  erase : S → TxID → S
  compare : S → S → List (TxID × Bool)

instance {S : Type} [TxSet S] : DecidableEq (TxSet.ID S) := TxSet.decID

instance {S : Type} [TxSet S] : DecidableEq (TxSet.TxID S) := TxSet.decTxID

/-- `TxSet::exists`. -/
def TxSet.has {S : Type} [TxSet S] (s : S) (i : TxSet.TxID S) : Bool := (TxSet.find s i).isSome

open TxSet (has ID Tx TxID txId)

/-- The id of a set determines it, and `compare` is the symmetric difference, with the side. -/
class LawfulTxSet (S : Type) [TxSet S] : Prop where
  id_inj : ∀ {s t : S}, TxSet.id s = TxSet.id t → ∀ i, has s i = has t i
  txId_find : ∀ {s : S} {i : TxID S} {tx : Tx S}, TxSet.find s i = some tx →
    txId tx = i
  has_insert : ∀ (s : S) (tx : Tx S) (i : TxID S),
    has (TxSet.insert s tx) i = (decide (i = txId tx) || has s i)
  has_erase : ∀ (s : S) (j i : TxID S),
    has (TxSet.erase s j) i = (!decide (i = j) && has s i)
  mem_compare : ∀ {s t : S} {i : TxID S} {b : Bool},
    (i, b) ∈ TxSet.compare s t ↔ has s i ≠ has t i ∧ b = has s i

/-- Sets of `n` transactions, each with itself as its id. -/
instance (n : Nat) : TxSet (Fin n → Bool) where
  ID := Fin n → Bool
  TxID := Fin n
  Tx := Fin n
  id s := s
  txId i := i
  find s i := if s i then some i else none
  insert s i := Function.update s i true
  erase s i := Function.update s i false
  compare s t := ((List.finRange n).filter fun i => s i != t i).map fun i => (i, s i)

theorem has_fin {n : Nat} (s : Fin n → Bool) (i : Fin n) : has s i = s i := by
  simp only [has, TxSet.find]
  cases s i with
  | true => rfl
  | false => rfl

instance (n : Nat) : LawfulTxSet (Fin n → Bool) where
  id_inj := by
    rintro s t rfl i
    rfl
  txId_find {s i tx} h := by
    simp only [TxSet.find] at h
    split at h
    · exact (Option.some.inj h).symm
    · cases h
  has_insert s tx i := by
    rw [has_fin, has_fin]
    simp only [TxSet.insert, txId, Function.update_apply]
    split
    · simp_all
    · simp_all
  has_erase s j i := by
    rw [has_fin, has_fin]
    simp only [TxSet.erase, Function.update_apply]
    split
    · simp_all
    · simp_all
  mem_compare {s t i b} := by
    rw [has_fin, has_fin]
    simp only [TxSet.compare, List.mem_map, List.mem_filter, List.mem_finRange, true_and,
      bne_iff_ne, Prod.mk.injEq]
    constructor
    · rintro ⟨j, hj, rfl, rfl⟩
      exact ⟨hj, rfl⟩
    · rintro ⟨hi, rfl⟩
      exact ⟨i, hi, rfl, rfl⟩

/-- A proposal, ours or a peer's. The signature that wraps a peer's is of no concern here. -/
structure ConsensusProposal (NodeID LedgerID Position : Type) where
  previousLedger_ : LedgerID
  position_ : Position
  closeTime_ : Nat
  time_ : Nat
  proposeSeq_ : UInt32
  nodeID_ : NodeID
deriving DecidableEq

namespace ConsensusProposal

variable {NodeID LedgerID Position : Type}

def seqJoin : UInt32 := 0

def seqLeave : UInt32 := 0xffffffff

variable (p : ConsensusProposal NodeID LedgerID Position)

def isInitial : Bool := p.proposeSeq_ == seqJoin

def isBowOut : Bool := p.proposeSeq_ == seqLeave

def isStale (cutoff : Nat) : Bool :=
  p.time_ ≤ cutoff

def changePosition (newPosition : Position)
    (newCloseTime now : Nat) : ConsensusProposal NodeID LedgerID Position :=
  { p with
    position_ := newPosition
    closeTime_ := newCloseTime
    time_ := now
    proposeSeq_ := if p.proposeSeq_ ≠ seqLeave then p.proposeSeq_ + 1 else p.proposeSeq_ }

def bowOut (now : Nat) : ConsensusProposal NodeID LedgerID Position :=
  { p with time_ := now, proposeSeq_ := seqLeave }

end ConsensusProposal

structure DisputedTx (NodeID Tx : Type) where
  yays_ : Int := 0
  nays_ : Int := 0
  ourVote_ : Bool
  tx_ : Tx
  votes_ : HashMap NodeID Bool := ∅

namespace DisputedTx

variable {NodeID Tx : Type} [DecidableEq NodeID] (d : DisputedTx NodeID Tx)

def setVote (peer : NodeID) (votesYes : Bool) : DisputedTx NodeID Tx :=
  match d.votes_.lookup peer with
  | none =>
    if votesYes then { d with yays_ := d.yays_ + 1, votes_ := d.votes_.insert peer true }
    else { d with nays_ := d.nays_ + 1, votes_ := d.votes_.insert peer false }
  | some v =>
    if votesYes && !v then
      { d with
        nays_ := d.nays_ - 1
        yays_ := d.yays_ + 1
        votes_ := d.votes_.insert peer true }
    else if !votesYes && v then
      { d with
        nays_ := d.nays_ + 1
        yays_ := d.yays_ - 1
        votes_ := d.votes_.insert peer false }
    else d

def unVote (peer : NodeID) : DisputedTx NodeID Tx :=
  match d.votes_.lookup peer with
  | none => d
  | some true => { d with yays_ := d.yays_ - 1, votes_ := d.votes_.erase peer }
  | some false => { d with nays_ := d.nays_ - 1, votes_ := d.votes_.erase peer }

/-- What the votes ask us to vote after `percentTime` percent of the expected time. -/
def newPosition (percentTime : Int) (proposing : Bool) (p : ConsensusParms) : Bool :=
  if proposing then
    let weight := (d.yays_ * 100 + if d.ourVote_ then 100 else 0).tdiv (d.nays_ + d.yays_ + 1)
    asSize weight > neededWeight percentTime p
  else d.yays_ > d.nays_

def updateVote (percentTime : Int) (proposing : Bool)
    (p : ConsensusParms) : Bool × DisputedTx NodeID Tx :=
  if d.ourVote_ && d.nays_ == 0 then (false, d)
  else if !d.ourVote_ && d.yays_ == 0 then (false, d)
  else if d.newPosition percentTime proposing p = d.ourVote_ then (false, d)
  else (true, { d with ourVote_ := d.newPosition percentTime proposing p })

end DisputedTx

abbrev PeerPositions (NodeID LedgerID S : Type) [TxSet S] : Type :=
  HashMap NodeID (ConsensusProposal NodeID LedgerID (ID S))

structure ConsensusResult (NodeID LedgerID S : Type) [TxSet S] where
  txns : S
  position : ConsensusProposal NodeID LedgerID (ID S)
  disputes : HashMap (TxID S) (DisputedTx NodeID (Tx S)) := ∅
  compares : HashSet (ID S) := ∅
  roundTime : ConsensusTimer := {}
  state : ConsensusState := .no
  proposers : Nat := 0

namespace ConsensusResult

variable {NodeID LedgerID S : Type} [TxSet S] [DecidableEq NodeID]

/-- A result together with the transactions given to `adaptor_.share` so far, the last one first. -/
abbrev Sharing (NodeID LedgerID S : Type) [TxSet S] : Type :=
  ConsensusResult NodeID LedgerID S × List (Tx S)

def unVote (r : ConsensusResult NodeID LedgerID S) (peer : NodeID) :
    ConsensusResult NodeID LedgerID S :=
  { r with disputes := r.disputes.mapValues fun _ d => d.unVote peer }

variable (peers : PeerPositions NodeID LedgerID S) (acquired : HashMap (ID S) S)

/-- The dispute about `tx`, with the votes of the peers whose sets we have. -/
def makeDispute (ourVote : Bool) (tx : Tx S) : DisputedTx NodeID (Tx S) :=
  peers.entries.foldl (fun d e =>
    match acquired.lookup e.2.position_ with
    | some set => d.setVote e.1 (has set (txId tx))
    | none => d) { ourVote_ := ourVote, tx_ := tx }

/-- The body of the loop of `createDisputes`, for one difference between our set and `o`. -/
def addDispute (o : S)
    (x : Sharing NodeID LedgerID S) (id : TxID S × Bool) : Sharing NodeID LedgerID S :=
  match if id.2 then TxSet.find x.1.txns id.1 else TxSet.find o id.1 with
  -- the source asserts that the transaction is there
  | none => x
  | some tx =>
    let txID := txId tx
    if txID ∈ x.1.disputes then x
    else
      let dtx := makeDispute peers acquired (has x.1.txns txID) tx
      ({ x.1 with disputes := x.1.disputes.insert txID dtx }, tx :: x.2)

def createDisputes (o : S) (x : Sharing NodeID LedgerID S) : Sharing NodeID LedgerID S :=
  if TxSet.id o ∈ x.1.compares then x
  else
    let x := ({ x.1 with compares := x.1.compares.insert (TxSet.id o) () }, x.2)
    if TxSet.id x.1.txns = TxSet.id o then x
    else (TxSet.compare x.1.txns o).foldl (addDispute peers acquired o) x

/-- `setVote` of one peer in every dispute, with the votes of the set `other`. -/
def setVotes (r : ConsensusResult NodeID LedgerID S) (node : NodeID) (other : S) :
    ConsensusResult NodeID LedgerID S :=
  { r with
    disputes := r.disputes.mapValues fun _ d =>
      d.setVote node (has other (txId d.tx_)) }

def updateDisputes
    (node : NodeID) (other : S) (x : Sharing NodeID LedgerID S) : Sharing NodeID LedgerID S :=
  let x := if TxSet.id other ∈ x.1.compares then x else createDisputes peers acquired other x
  (x.1.setVotes node other, x.2)

/-- One peer of the loop of `closeLedger`. -/
def createDisputesAt
    (x : Sharing NodeID LedgerID S)
    (pit : (_ : NodeID) × ConsensusProposal NodeID LedgerID (ID S)) :
    Sharing NodeID LedgerID S :=
  match acquired.lookup pit.2.position_ with
  | some set => createDisputes peers acquired set x
  | none => x

/-- One peer of the loops of `gotTxSet` and `updateOurPositions` over those that propose `set`. -/
def updateDisputesAt
    (set : S) (x : Sharing NodeID LedgerID S)
    (it : (_ : NodeID) × ConsensusProposal NodeID LedgerID (ID S)) :
    Sharing NodeID LedgerID S :=
  if it.2.position_ = TxSet.id set then updateDisputes peers acquired it.1 set x else x

/-- Our own set and position are left alone. -/
def SameStand (r r' : ConsensusResult NodeID LedgerID S) : Prop :=
  r'.txns = r.txns ∧ r'.position = r.position

section Stand

variable {peers : PeerPositions NodeID LedgerID S} {acquired : HashMap (ID S) S}
  {r : ConsensusResult NodeID LedgerID S} {x : Sharing NodeID LedgerID S}

theorem addDispute_sameStand (o : S) (id : TxID S × Bool) (h : SameStand r x.1) :
    SameStand r (addDispute peers acquired o x id).1 := by
  simp only [addDispute]
  split
  · exact h
  · split
    · exact h
    · exact h

theorem createDisputes_sameStand (o : S) (h : SameStand r x.1) :
    SameStand r (createDisputes peers acquired o x).1 := by
  simp only [createDisputes]
  split
  · exact h
  · split
    · exact h
    · exact List.foldlRecOn (motive := fun y : Sharing NodeID LedgerID S => SameStand r y.1)
        _ _ h fun _ hy id _ => addDispute_sameStand o id hy

theorem updateDisputes_sameStand (node : NodeID) (other : S) (h : SameStand r x.1) :
    SameStand r (updateDisputes peers acquired node other x).1 := by
  simp only [updateDisputes]
  split
  · exact h
  · exact createDisputes_sameStand other h

theorem foldl_createDisputesAt_sameStand
    (l : List ((_ : NodeID) × ConsensusProposal NodeID LedgerID (ID S))) :
    SameStand r (l.foldl (createDisputesAt peers acquired) (r, [])).1 := by
  refine List.foldlRecOn (motive := fun y : Sharing NodeID LedgerID S => SameStand r y.1) _ _
    ⟨rfl, rfl⟩ fun y hy pit _ => ?_
  rw [createDisputesAt]
  split
  · exact createDisputes_sameStand _ hy
  · exact hy

theorem foldl_updateDisputesAt_sameStand (set : S)
    (l : List ((_ : NodeID) × ConsensusProposal NodeID LedgerID (ID S))) :
    SameStand r (l.foldl (updateDisputesAt peers acquired set) (r, [])).1 := by
  refine List.foldlRecOn (motive := fun y : Sharing NodeID LedgerID S => SameStand r y.1) _ _
    ⟨rfl, rfl⟩ fun y hy it _ => ?_
  rw [updateDisputesAt]
  split
  · exact updateDisputes_sameStand _ _ hy
  · exact hy

end Stand

end ConsensusResult

end Ripple
