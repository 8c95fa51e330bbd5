import Ripple.Consensus.Basic

/-!
# Ripple.Consensus.Round

The state of `consensus/Consensus.h` and the functions that change it.

The answers of the application come from a `ConsensusAdaptor`, as do the steady clock and the order
in which hash tables are iterated. Every question has a number, so that it may be answered
differently the next time. Two histories are kept beside the members of the source, the newest entry
first: `calls`, what was told to the adaptor, and `table`, what was done to `currPeerPositions_`.

`startRoundInternal` may come back to itself through the timer. It takes fuel and returns the state
that it had reached as an error when the fuel is used up.
-/

namespace Ripple

open TxSet (has ID Tx TxID txId)

structure RoundLedger (LedgerID : Type) where
  id : LedgerID
  seq : Nat
  closeTimeResolution : Nat
  closeAgree : Bool
  closeTime : Nat
  parentCloseTime : Nat

structure ConsensusCloseTimes where
  peers : OrderedMap Nat Int := OrderedMap.empty
  self : Nat := 0

/-- `++m[t]`. -/
def countTime (m : OrderedMap Nat Int) (t : Nat) : OrderedMap Nat Int :=
  m.insert t ((m.find? t).getD 0 + 1)

/-- The calls to the adaptor. `roundStart` marks a start of a round and `gotTxSet` a set from
outside. -/
inductive Event (NodeID LedgerID S : Type) [TxSet S] where
  | roundStart (mode : ConsensusMode)
  | gotTxSet (id : ID S)
  | onModeChange (before after : ConsensusMode)
  | shareTxSet (set : S)
  | shareTx (tx : Tx S)
  | sharePosition (pos : ConsensusProposal NodeID LedgerID (ID S))
  | propose (position : ConsensusProposal NodeID LedgerID (ID S))
  | onAccept (result : ConsensusResult NodeID LedgerID S) (prevLedger : RoundLedger LedgerID)
      (closeResolution : Nat) (rawCloseTimes : ConsensusCloseTimes) (mode : ConsensusMode)

/-- The writes to `currPeerPositions_`. A node that bows out also leaves the table. -/
inductive TableEvent (NodeID : Type) where
  | clear
  | store (node : NodeID) (seq : UInt32)
  | drop (node : NodeID)
  | bowOut (node : NodeID)
deriving DecidableEq

/-- The constructor of `ConsensusResult` asserts what `onClose_id` says. -/
structure ConsensusAdaptor (NodeID LedgerID S : Type) [TxSet S] where
  parms : ConsensusParms
  clock : Nat → Int
  acquireLedger : Nat → LedgerID → Option (RoundLedger LedgerID)
  acquireTxSet : Nat → ID S → Option S
  hasOpenTransactions : Nat → Bool
  proposersValidated : Nat → LedgerID → Nat
  proposersFinished : Nat → RoundLedger LedgerID → LedgerID → Nat
  getPrevLedger : Nat → LedgerID → RoundLedger LedgerID → ConsensusMode → LedgerID
  onClose : Nat → RoundLedger LedgerID → Nat → ConsensusMode →
    S × ConsensusProposal NodeID LedgerID (ID S)
  onClose_id : ∀ {k : Nat} {l : RoundLedger LedgerID} {t : Nat} {m : ConsensusMode},
    TxSet.id (onClose k l t m).1 = (onClose k l t m).2.position_
  order : {α : Type} → Nat → List α → List α
  order_perm : ∀ {α : Type} (k : Nat) (xs : List α), (order k xs).Perm xs

structure Consensus (NodeID LedgerID S : Type) [TxSet S] where
  phase_ : ConsensusPhase := .accepted
  mode_ : ConsensusMode := .observing
  firstRound_ : Bool := true
  haveCloseTimeConsensus_ : Bool := false
  convergePercent_ : Int := 0
  openTime_ : ConsensusTimer := {}
  closeResolution_ : Nat := ledgerDefaultTimeResolution
  prevRoundTime_ : Int := 0
  now_ : Nat := 0
  prevCloseTime_ : Nat := 0
  prevLedgerID_ : LedgerID
  previousLedger_ : RoundLedger LedgerID
  acquired_ : HashMap (ID S) S := ∅
  result_ : Option (ConsensusResult NodeID LedgerID S) := none
  rawCloseTimes_ : ConsensusCloseTimes := {}
  currPeerPositions_ : PeerPositions NodeID LedgerID S := ∅
  recentPeerPositions_ : HashMap NodeID (List (ConsensusProposal NodeID LedgerID (ID S))) := ∅
  prevProposers_ : Nat := 0
  deadNodes_ : HashSet NodeID := ∅
  calls : List (Event NodeID LedgerID S) := []
  table : List (TableEvent NodeID) := []
  /-- The number of questions asked so far. -/
  asked : Nat := 0

namespace Consensus

variable {NodeID LedgerID S : Type} [TxSet S] [DecidableEq NodeID] [DecidableEq LedgerID]
  (A : ConsensusAdaptor NodeID LedgerID S)

/-- `MonitoredMode::set`. -/
def setMode (mode : ConsensusMode) (s : Consensus NodeID LedgerID S) :
    Consensus NodeID LedgerID S :=
  { s with mode_ := mode, calls := .onModeChange s.mode_ mode :: s.calls }

def setResult (s : Consensus NodeID LedgerID S)
    (x : ConsensusResult.Sharing NodeID LedgerID S) : Consensus NodeID LedgerID S :=
  { s with result_ := some x.1, calls := x.2.map Event.shareTx ++ s.calls }

/-- The part of `gotTxSet` that comes after the set has been stored. -/
def disputeTxSet (s : Consensus NodeID LedgerID S) (txSet : S) : Consensus NodeID LedgerID S :=
  match s.result_ with
  | none => s
  | some r =>
    let peers := A.order s.asked s.currPeerPositions_.entries
    setResult { s with asked := s.asked + 1 } <|
      peers.foldl (ConsensusResult.updateDisputesAt s.currPeerPositions_ s.acquired_ txSet) (r, [])

def gotTxSet (now : Nat) (txSet : S) (s : Consensus NodeID LedgerID S) :
    Consensus NodeID LedgerID S :=
  if s.phase_ = .accepted then s
  else if TxSet.id txSet ∈ s.acquired_ then { s with now_ := now }
  else
    disputeTxSet A { s with
      now_ := now
      acquired_ := s.acquired_.insert (TxSet.id txSet) txSet
      calls := .gotTxSet (TxSet.id txSet) :: s.calls } txSet

/-- The branch of `peerProposalInternal` for a peer that bows out. -/
def peerBowsOut (peerID : NodeID) (s : Consensus NodeID LedgerID S) :
    Consensus NodeID LedgerID S :=
  { s with
    result_ := s.result_.map fun r => r.unVote peerID
    currPeerPositions_ := s.currPeerPositions_.erase peerID
    deadNodes_ := s.deadNodes_.insert peerID ()
    table := .bowOut peerID :: s.table }

variable (newPeerProp : ConsensusProposal NodeID LedgerID (ID S))

def storePosition (s : Consensus NodeID LedgerID S) : Consensus NodeID LedgerID S :=
  { s with
    currPeerPositions_ := s.currPeerPositions_.insert newPeerProp.nodeID_ newPeerProp
    rawCloseTimes_ :=
      if newPeerProp.isInitial then
        { s.rawCloseTimes_ with peers := countTime s.rawCloseTimes_.peers newPeerProp.closeTime_ }
      else s.rawCloseTimes_
    table := .store newPeerProp.nodeID_ newPeerProp.proposeSeq_ :: s.table }

/-- The end of `peerProposalInternal`: look at the set that the stored position names. -/
def followPosition (s : Consensus NodeID LedgerID S) : Consensus NodeID LedgerID S :=
  match s.acquired_.lookup newPeerProp.position_ with
  | none =>
    match A.acquireTxSet s.asked newPeerProp.position_ with
    | some set => gotTxSet A s.now_ set { s with asked := s.asked + 1 }
    | none => { s with asked := s.asked + 1 }
  | some set =>
    match s.result_ with
    | none => s
    | some r => setResult s (ConsensusResult.updateDisputes s.currPeerPositions_ s.acquired_
        newPeerProp.nodeID_ set (r, []))

def outdated (s : Consensus NodeID LedgerID S) : Bool :=
  match s.currPeerPositions_.lookup newPeerProp.nodeID_ with
  | some pos => newPeerProp.proposeSeq_ ≤ pos.proposeSeq_
  | none => false

def peerProposalInternal (now : Nat)
    (newPeerProp : ConsensusProposal NodeID LedgerID (ID S))
    (s : Consensus NodeID LedgerID S) : Bool × Consensus NodeID LedgerID S :=
  if s.phase_ = .accepted then (false, s)
  else
    let s := { s with now_ := now }
    if newPeerProp.previousLedger_ ≠ s.prevLedgerID_ then (false, s)
    else if newPeerProp.nodeID_ ∈ s.deadNodes_ then (false, s)
    else if outdated newPeerProp s then (false, s)
    else if newPeerProp.isBowOut then (true, peerBowsOut newPeerProp.nodeID_ s)
    else (true, followPosition A newPeerProp (storePosition newPeerProp s))

def peerProposal (now : Nat) (newPeerPos : ConsensusProposal NodeID LedgerID (ID S))
    (s : Consensus NodeID LedgerID S) : Bool × Consensus NodeID LedgerID S :=
  let props := (s.recentPeerPositions_.lookup newPeerPos.nodeID_).getD []
  let props := (if props.length ≥ 10 then props.tail else props) ++ [newPeerPos]
  peerProposalInternal A now newPeerPos
    { s with recentPeerPositions_ := s.recentPeerPositions_.insert newPeerPos.nodeID_ props }

def playbackAt (s : Consensus NodeID LedgerID S)
    (pos : ConsensusProposal NodeID LedgerID (ID S)) : Consensus NodeID LedgerID S :=
  if pos.previousLedger_ = s.prevLedgerID_ then
    let x := peerProposalInternal A s.now_ pos s
    if x.1 then { x.2 with calls := .sharePosition pos :: x.2.calls } else x.2
  else s

def playbackProposals (s : Consensus NodeID LedgerID S) : Consensus NodeID LedgerID S :=
  ((A.order s.asked s.recentPeerPositions_.entries).flatMap Sigma.snd).foldl (playbackAt A)
    { s with asked := s.asked + 1 }

def asCloseTime (s : Consensus NodeID LedgerID S) (raw : Nat) : Nat :=
  if A.parms.useRoundedCloseTime then roundCloseTime raw s.closeResolution_
  else effCloseTime raw s.closeResolution_ s.previousLedger_.closeTime

/-- `acquired_.emplace` of a set of ours, which is shared if it is new. -/
def emplaceTxSet (set : S) (share : Bool) (s : Consensus NodeID LedgerID S) :
    Consensus NodeID LedgerID S :=
  if TxSet.id set ∈ s.acquired_ then s
  else
    { s with
      acquired_ := s.acquired_.insert (TxSet.id set) set
      calls := if share then .shareTxSet set :: s.calls else s.calls }

def propose (position : ConsensusProposal NodeID LedgerID (ID S))
    (s : Consensus NodeID LedgerID S) : Consensus NodeID LedgerID S :=
  if s.mode_ = .proposing then { s with calls := .propose position :: s.calls } else s

/-- The loop of `closeLedger`: dispute the sets of the peers that we have. -/
def createPeerDisputes (r : ConsensusResult NodeID LedgerID S) (s : Consensus NodeID LedgerID S) :
    Consensus NodeID LedgerID S :=
  let peers := A.order s.asked s.currPeerPositions_.entries
  setResult { s with asked := s.asked + 1 } <|
    peers.foldl (ConsensusResult.createDisputesAt s.currPeerPositions_ s.acquired_) (r, [])

def closeLedger (s : Consensus NodeID LedgerID S) : Consensus NodeID LedgerID S :=
  let s := { s with
    phase_ := .establish
    rawCloseTimes_ := { s.rawCloseTimes_ with self := s.now_ }
    asked := s.asked + 1 }
  let c := A.onClose s.asked s.previousLedger_ s.now_ s.mode_
  createPeerDisputes A { txns := c.1, position := c.2, roundTime := ⟨A.clock s.asked, 0⟩ }
    (propose c.2 (emplaceTxSet c.1 true s))

/-- The first loop of `updateOurPositions`: drop a stale position, count a fresh close time. -/
def dropStaleAt (peerCutoff : Nat) (x : OrderedMap Nat Int × Consensus NodeID LedgerID S)
    (it : (_ : NodeID) × ConsensusProposal NodeID LedgerID (ID S)) :
    OrderedMap Nat Int × Consensus NodeID LedgerID S :=
  if it.2.isStale peerCutoff then
    (x.1, { x.2 with
      result_ := x.2.result_.map fun r => r.unVote it.2.nodeID_
      currPeerPositions_ := x.2.currPeerPositions_.erase it.1
      table := .drop it.1 :: x.2.table })
  else (countTime x.1 (asCloseTime A x.2 it.2.closeTime_), x.2)

def dropStale (s : Consensus NodeID LedgerID S) :
    OrderedMap Nat Int × Consensus NodeID LedgerID S :=
  let peerCutoff := asNetTime (s.now_ - A.parms.proposeFRESHNESS)
  (A.order s.asked s.currPeerPositions_.entries).foldl (dropStaleAt A peerCutoff)
    (OrderedMap.empty, { s with asked := s.asked + 1 })

/-- The second loop of `updateOurPositions`. The set is `mutableSet`, a copy of `txns`. -/
def updateVoteAt (percentTime : Int) (proposing : Bool) (parms : ConsensusParms) (txns : S)
    (x : HashMap (TxID S) (DisputedTx NodeID (Tx S)) × Option S)
    (i : TxID S) : HashMap (TxID S) (DisputedTx NodeID (Tx S)) × Option S :=
  match x.1.lookup i with
  | none => x
  | some d =>
    let (changed, d) := d.updateVote percentTime proposing parms
    let set := x.2.getD txns
    (x.1.insert i d,
      if changed then
        some (if d.ourVote_ then TxSet.insert set d.tx_ else TxSet.erase set i)
      else x.2)

def updateVotes (s : Consensus NodeID LedgerID S) (r : ConsensusResult NodeID LedgerID S) :
    HashMap (TxID S) (DisputedTx NodeID (Tx S)) × Option S :=
  (A.order s.asked r.disputes.keys).foldl
    (updateVoteAt s.convergePercent_ (s.mode_ = .proposing) A.parms r.txns) (r.disputes, none)

/-- Whether there is consensus about the close time, and which close time we take. -/
def chooseCloseTime (s : Consensus NodeID LedgerID S) (ours : Nat)
    (closeTimeVotes : OrderedMap Nat Int) : Bool × Nat :=
  let peers := s.currPeerPositions_.entries.length
  if peers = 0 then (true, asCloseTime A s ours)
  else
    let closeTimeVotes :=
      if s.mode_ = .proposing then countTime closeTimeVotes (asCloseTime A s ours)
      else closeTimeVotes
    let participants : Int := if s.mode_ = .proposing then peers + 1 else peers
    let threshVote := participantsNeeded participants (neededWeight s.convergePercent_ A.parms)
    let threshConsensus := participantsNeeded participants A.parms.avCT_CONSENSUS_PCT
    let (have_, closeTime, _) := closeTimeVotes.entries.foldl
      (fun (x : Bool × Nat × Int) it =>
        if it.2 ≥ x.2.2 then (x.1 || decide (it.2 ≥ threshConsensus), it.1, it.2) else x)
      (false, 0, threshVote)
    (have_, closeTime)

/-- The end of `updateOurPositions`, for a new position of ours. -/
def changeOurPosition (set : S) (closeTime : Nat) (r : ConsensusResult NodeID LedgerID S)
    (s : Consensus NodeID LedgerID S) : Consensus NodeID LedgerID S :=
  let position := r.position.changePosition (TxSet.id set) closeTime s.now_
  let isNew := TxSet.id set ∉ s.acquired_
  let s := emplaceTxSet set (!position.isBowOut) s
  let s := { s with result_ := some { r with txns := set, position := position } }
  let s := if isNew then disputeTxSet A s set else s
  if position.isBowOut then s else propose position s

def updateOurPositions (s : Consensus NodeID LedgerID S) : Consensus NodeID LedgerID S :=
  let ourCutoff := asNetTime (s.now_ - A.parms.proposeINTERVAL)
  let (closeTimeVotes, s) := dropStale A s
  match s.result_ with
  -- the source asserts that there is a result
  | none => s
  | some r =>
    let (disputes, mutableSet) := updateVotes A s r
    let (have_, closeTime) := chooseCloseTime A s r.position.closeTime_ closeTimeVotes
    let r := { r with disputes := disputes }
    let s := { s with
      result_ := some r
      haveCloseTimeConsensus_ := have_
      asked := s.asked + 1 }
    match mutableSet with
    | some set => changeOurPosition A set closeTime r s
    | none =>
      if closeTime ≠ asCloseTime A s r.position.closeTime_ ∨ r.position.isStale ourCutoff then
        changeOurPosition A r.txns closeTime r s
      else s

def haveConsensus (s : Consensus NodeID LedgerID S) : Bool × Consensus NodeID LedgerID S :=
  match s.result_ with
  | none => (false, s)
  | some r =>
    let peers := s.currPeerPositions_.entries
    let agree := peers.countP fun it => it.2.position_ = r.position.position_
    let currentFinished := A.proposersFinished s.asked s.previousLedger_ s.prevLedgerID_
    let state := checkConsensus s.prevProposers_ peers.length agree currentFinished
      s.prevRoundTime_ r.roundTime.read A.parms (s.mode_ = .proposing)
    (state ≠ .no, { s with result_ := some { r with state := state }, asked := s.asked + 1 })

/-- The end of `phaseEstablish`. -/
def accept (s : Consensus NodeID LedgerID S) : Consensus NodeID LedgerID S :=
  match s.result_ with
  | none => s
  | some r =>
    { s with
      prevProposers_ := s.currPeerPositions_.entries.length
      prevRoundTime_ := r.roundTime.read
      phase_ := .accepted
      calls := .onAccept r s.previousLedger_ s.closeResolution_ s.rawCloseTimes_ s.mode_ :: s.calls }

/-- The start of `phaseEstablish`: how long the round has taken, and how far it has come. -/
def tickRound (r : ConsensusResult NodeID LedgerID S) (s : Consensus NodeID LedgerID S) :
    Consensus NodeID LedgerID S :=
  let roundTime := r.roundTime.tick (A.clock s.asked)
  let percent := (roundTime.read * 100).tdiv (max s.prevRoundTime_ A.parms.avMIN_CONSENSUS_TIME)
  { s with
    result_ := some { r with
      roundTime := roundTime
      proposers := s.currPeerPositions_.entries.length }
    convergePercent_ := percent.bmod (2 ^ 32)
    asked := s.asked + 1 }

def phaseEstablish (s : Consensus NodeID LedgerID S) : Consensus NodeID LedgerID S :=
  match s.result_ with
  -- the source asserts that there is a result
  | none => s
  | some r =>
    if (r.roundTime.tick (A.clock s.asked)).read < A.parms.ledgerMIN_CONSENSUS then tickRound A r s
    else
      let (reached, s) := haveConsensus A (updateOurPositions A (tickRound A r s))
      if reached && s.haveCloseTimeConsensus_ then accept s else s

/-- Whether `phaseOpen` closes the ledger, after the timer of the open ledger has been read. -/
def isTimeToClose (s : Consensus NodeID LedgerID S) : Bool :=
  let ledger := s.previousLedger_
  let previousCloseCorrect := s.mode_ ≠ .wrongLedger ∧ ledger.closeAgree ∧
    ledger.closeTime ≠ ledger.parentCloseTime + 1
  let lastCloseTime := if previousCloseCorrect then ledger.closeTime else s.prevCloseTime_
  let sinceClose := ((s.now_ : Int) - lastCloseTime) * 1000
  let idleInterval := max A.parms.ledgerIDLE_INTERVAL
    (2 * ledger.closeTimeResolution % 2 ^ 32 * 1000 : Nat)
  shouldCloseLedger (A.hasOpenTransactions s.asked) s.prevProposers_
    s.currPeerPositions_.entries.length (A.proposersValidated s.asked s.prevLedgerID_)
    s.prevRoundTime_ sinceClose s.openTime_.read idleInterval A.parms

def phaseOpen (s : Consensus NodeID LedgerID S) : Consensus NodeID LedgerID S :=
  let s := { s with
    openTime_ := s.openTime_.tick (A.clock s.asked)
    asked := s.asked + 1 }
  if isTimeToClose A s then closeLedger A s else s

def leaveConsensus (s : Consensus NodeID LedgerID S) : Consensus NodeID LedgerID S :=
  if s.mode_ = .proposing then
    match s.result_ with
    | none => setMode .observing s
    | some r =>
      if r.position.isBowOut then setMode .observing s
      else
        let position := r.position.bowOut s.now_
        setMode .observing { s with
          result_ := some { r with position := position }
          calls := .propose position :: s.calls }
  else s

/-- The branch of `handleWrongLedger` that moves to another previous ledger. -/
def switchLedger (lgrId : LedgerID) (s : Consensus NodeID LedgerID S) :
    Consensus NodeID LedgerID S :=
  { s with
    prevLedgerID_ := lgrId
    result_ := s.result_.map fun r => { r with disputes := ∅, compares := ∅ }
    currPeerPositions_ := ∅
    rawCloseTimes_ := { s.rawCloseTimes_ with peers := OrderedMap.empty }
    deadNodes_ := ∅
    table := .clear :: s.table }

/-- The part of `startRoundInternal` that comes before the proposals are played back. -/
def beginRound (now : Nat) (prevLedgerID : LedgerID) (prevLedger : RoundLedger LedgerID)
    (mode : ConsensusMode) (s : Consensus NodeID LedgerID S) : Consensus NodeID LedgerID S :=
  { s with
    phase_ := .opened
    mode_ := mode
    now_ := now
    prevLedgerID_ := prevLedgerID
    previousLedger_ := prevLedger
    result_ := none
    convergePercent_ := 0
    haveCloseTimeConsensus_ := false
    openTime_ := s.openTime_.reset (A.clock s.asked)
    currPeerPositions_ := ∅
    acquired_ := ∅
    rawCloseTimes_ := {}
    deadNodes_ := ∅
    closeResolution_ := getNextLedgerTimeResolution prevLedger.closeTimeResolution
      prevLedger.closeAgree ((prevLedger.seq + 1) % 2 ^ 32)
    calls := .onModeChange s.mode_ mode :: .roundStart mode :: s.calls
    table := .clear :: s.table
    asked := s.asked + 1 }

/-- What a call leaves behind: the state after it, or the state in which its fuel was used up. -/
abbrev Outcome (NodeID LedgerID S : Type) [TxSet S] : Type :=
  Except (Consensus NodeID LedgerID S) (Consensus NodeID LedgerID S)

abbrev Restart (NodeID LedgerID S : Type) [TxSet S] : Type :=
  Nat → LedgerID → RoundLedger LedgerID → ConsensusMode → Consensus NodeID LedgerID S →
    Outcome NodeID LedgerID S

variable (restart : Restart NodeID LedgerID S)

def handleWrongLedger (lgrId : LedgerID)
    (s : Consensus NodeID LedgerID S) : Outcome NodeID LedgerID S :=
  let s := leaveConsensus s
  let s := if s.prevLedgerID_ ≠ lgrId then playbackProposals A (switchLedger lgrId s) else s
  if s.previousLedger_.id = s.prevLedgerID_ then .ok s
  else
    let s' := { s with asked := s.asked + 1 }
    match A.acquireLedger s.asked s.prevLedgerID_ with
    | some newLedger => restart s.now_ lgrId newLedger .switchedLedger s'
    | none => .ok (setMode .wrongLedger s')

def checkLedger (s : Consensus NodeID LedgerID S) : Outcome NodeID LedgerID S :=
  let netLgr := A.getPrevLedger s.asked s.prevLedgerID_ s.previousLedger_ s.mode_
  let s := { s with asked := s.asked + 1 }
  if netLgr ≠ s.prevLedgerID_ ∨ s.previousLedger_.id ≠ s.prevLedgerID_ then
    handleWrongLedger A restart netLgr s
  else .ok s

def runPhase (s : Consensus NodeID LedgerID S) : Consensus NodeID LedgerID S :=
  match s.phase_ with
  | .opened => phaseOpen A s
  | .establish => phaseEstablish A s
  | .accepted => s

def timerEntryWith (now : Nat) (s : Consensus NodeID LedgerID S) : Outcome NodeID LedgerID S :=
  if s.phase_ = .accepted then .ok s
  else (checkLedger A restart { s with now_ := now }).map (runPhase A)

def startRoundInternal : Nat → Restart NodeID LedgerID S
  | 0, _, _, _, _, s => .error s
  | fuel + 1, now, prevLedgerID, prevLedger, mode, s =>
    let s := playbackProposals A (beginRound A now prevLedgerID prevLedger mode s)
    -- a majority has already closed, so do not wait for the timer
    if s.currPeerPositions_.entries.length > s.prevProposers_ / 2 then
      timerEntryWith A (startRoundInternal fuel) s.now_ s
    else .ok s

def timerEntry (fuel : Nat) (now : Nat) (s : Consensus NodeID LedgerID S) :
    Outcome NodeID LedgerID S :=
  timerEntryWith A (startRoundInternal A fuel) now s

def startRound (fuel : Nat) (now : Nat) (prevLedgerID : LedgerID)
    (prevLedger : RoundLedger LedgerID) (nowUntrusted : List NodeID) (proposing : Bool)
    (s : Consensus NodeID LedgerID S) : Outcome NodeID LedgerID S :=
  let s := { s with
    prevRoundTime_ := if s.firstRound_ then A.parms.ledgerIDLE_INTERVAL else s.prevRoundTime_
    prevCloseTime_ := if s.firstRound_ then prevLedger.closeTime else s.rawCloseTimes_.self
    firstRound_ := false
    recentPeerPositions_ := nowUntrusted.foldl (fun m n => m.erase n) s.recentPeerPositions_ }
  let startMode := if proposing then ConsensusMode.proposing else .observing
  if prevLedger.id ≠ prevLedgerID then
    let s' := { s with asked := s.asked + 1 }
    match A.acquireLedger s.asked prevLedgerID with
    | some newLedger => startRoundInternal A fuel now prevLedgerID newLedger startMode s'
    | none => startRoundInternal A fuel now prevLedgerID prevLedger .wrongLedger s'
  else startRoundInternal A fuel now prevLedgerID prevLedger startMode s

end Consensus

end Ripple
