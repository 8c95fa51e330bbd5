import Ripple.Consensus.Round

/-!
# Ripple.Consensus.Runs

Runs of `Consensus`: any interleaving of its four calls, with any answers of the adaptor.

`Stable J` lists what has to be shown of a property `J` for it to hold in every state that a run
reaches, one field for each function that writes to the state. The nested calls between timer, wrong
ledger and new round are dealt with once, in `Stable.startRoundInternal`.
-/

namespace Ripple

variable {NodeID LedgerID S : Type} [TxSet S]

def Event.Minor : Event NodeID LedgerID S → Prop
  | .onModeChange _ _ | .shareTx _ | .sharePosition _ | .onAccept _ _ _ _ _ => True
  | .roundStart _ | .gotTxSet _ | .shareTxSet _ | .propose _ => False

namespace Consensus

variable [DecidableEq NodeID] [DecidableEq LedgerID]

inductive Call (NodeID LedgerID S : Type) [TxSet S] where
  | startRound (now : Nat) (prevLedgerID : LedgerID) (prevLedger : RoundLedger LedgerID)
      (nowUntrusted : List NodeID) (proposing : Bool)
  | peerProposal (now : Nat) (newPeerPos : ConsensusProposal NodeID LedgerID (TxSet.ID S))
  | gotTxSet (now : Nat) (txSet : S)
  | timerEntry (now : Nat)

variable (A : ConsensusAdaptor NodeID LedgerID S)

def Call.exec (fuel : Nat) (s : Consensus NodeID LedgerID S) :
    Call NodeID LedgerID S → Outcome NodeID LedgerID S
  | .startRound now prevLedgerID prevLedger nowUntrusted proposing =>
    Consensus.startRound A fuel now prevLedgerID prevLedger nowUntrusted proposing s
  | .peerProposal now newPeerPos => .ok (Consensus.peerProposal A now newPeerPos s).2
  | .gotTxSet now txSet => .ok (Consensus.gotTxSet A now txSet s)
  | .timerEntry now => Consensus.timerEntry A fuel now s

/-- The state after the constructor, which leaves the previous ledger to the first round. -/
def make (prevLedgerID : LedgerID) (previousLedger : RoundLedger LedgerID) :
    Consensus NodeID LedgerID S :=
  { prevLedgerID_ := prevLedgerID, previousLedger_ := previousLedger }

/-- The states between two calls. -/
inductive Run : Consensus NodeID LedgerID S → Prop where
  | make (prevLedgerID : LedgerID) (previousLedger : RoundLedger LedgerID) :
    Run (make prevLedgerID previousLedger)
  | call {s s' : Consensus NodeID LedgerID S} {fuel : Nat} {c : Call NodeID LedgerID S} :
    Run s → c.exec A fuel s = .ok s' → Run s'

/-- The states between two calls, and those in which a call is about to start one more round. -/
inductive Reached : Consensus NodeID LedgerID S → Prop where
  | returned {s : Consensus NodeID LedgerID S} : Run A s → Reached s
  | running {s s' : Consensus NodeID LedgerID S} {fuel : Nat} {c : Call NodeID LedgerID S} :
    Run A s → c.exec A fuel s = .error s' → Reached s'

/-- The step from `s` to `s'` is a matter of clocks and statistics. -/
structure Quiet (s s' : Consensus NodeID LedgerID S) : Prop where
  phase : s'.phase_ = s.phase_ ∨ s'.phase_ = .accepted
  mode : s'.mode_ = s.mode_
  prevLedgerID : s'.prevLedgerID_ = s.prevLedgerID_
  acquired : s'.acquired_ = s.acquired_
  peers : s'.currPeerPositions_ = s.currPeerPositions_
  dead : s'.deadNodes_ = s.deadNodes_
  table : s'.table = s.table
  calls : ∃ es, s'.calls = es ++ s.calls ∧ ∀ e ∈ es, e.Minor
  result : s'.result_ = s.result_ ∨ ∃ r t c n, s.result_ = some r ∧
    s'.result_ = some { r with roundTime := t, state := c, proposers := n }

omit [DecidableEq NodeID] [DecidableEq LedgerID] in
theorem Quiet.refl (s : Consensus NodeID LedgerID S) : Quiet s s :=
  ⟨.inl rfl, rfl, rfl, rfl, rfl, rfl, rfl, ⟨[], rfl, by simp⟩, .inl rfl⟩

structure Accepts (p : ConsensusProposal NodeID LedgerID (TxSet.ID S))
    (s : Consensus NodeID LedgerID S) : Prop where
  prevLedger : p.previousLedger_ = s.prevLedgerID_
  alive : p.nodeID_ ∉ s.deadNodes_
  newer : outdated p s = false

structure Stable (J : Consensus NodeID LedgerID S → Prop) : Prop where
  make : ∀ prevLedgerID previousLedger, J (make prevLedgerID previousLedger)
  quiet : ∀ {s s' : Consensus NodeID LedgerID S}, Quiet s s' → J s → J s'
  peerBowsOut : ∀ {s : Consensus NodeID LedgerID S}
    {p : ConsensusProposal NodeID LedgerID (TxSet.ID S)},
    Accepts p s → J s → J (peerBowsOut p.nodeID_ s)
  takePosition : ∀ {s : Consensus NodeID LedgerID S}
    {p : ConsensusProposal NodeID LedgerID (TxSet.ID S)},
    Accepts p s → p.isBowOut = false → J s → J (followPosition A p (storePosition p s))
  gotTxSet : ∀ {s : Consensus NodeID LedgerID S} (now : Nat) (txSet : S),
    J s → J (gotTxSet A now txSet s)
  closeLedger : ∀ {s : Consensus NodeID LedgerID S}, s.phase_ = .opened → J s → J (closeLedger A s)
  updateOurPositions : ∀ {s : Consensus NodeID LedgerID S}, s.phase_ = .establish →
    J s → J (updateOurPositions A s)
  leaveConsensus : ∀ {s : Consensus NodeID LedgerID S}, J s → J (leaveConsensus s)
  wrongLedger : ∀ {s : Consensus NodeID LedgerID S}, J s → J (setMode .wrongLedger s)
  switchLedger : ∀ {s : Consensus NodeID LedgerID S} (lgrId : LedgerID),
    J s → J (switchLedger lgrId s)
  beginRound : ∀ {s : Consensus NodeID LedgerID S} (now : Nat) (prevLedgerID : LedgerID)
    (prevLedger : RoundLedger LedgerID) (mode : ConsensusMode),
    J s → J (beginRound A now prevLedgerID prevLedger mode s)

def Outcome.Sat (J : Consensus NodeID LedgerID S → Prop) : Outcome NodeID LedgerID S → Prop
  | .ok s => J s
  | .error s => J s

variable {A} {J : Consensus NodeID LedgerID S → Prop} {s : Consensus NodeID LedgerID S}

namespace Stable

theorem peerProposalInternal (h : Stable A J) (now : Nat)
    (p : ConsensusProposal NodeID LedgerID (TxSet.ID S)) (hs : J s) :
    J (Consensus.peerProposalInternal A now p s).2 := by
  have hnow : J { s with now_ := now } := h.quiet { Quiet.refl s with } hs
  simp only [Consensus.peerProposalInternal]
  split
  · exact hs
  split
  · exact hnow
  split
  · exact hnow
  split
  · exact hnow
  rename_i hledger halive hnewer
  have ha : Accepts p { s with now_ := now } :=
    ⟨by simpa using hledger, halive, by simpa using hnewer⟩
  split
  · exact h.peerBowsOut ha hnow
  · rename_i hb
    exact h.takePosition ha (by simpa using hb) hnow

theorem peerProposal (h : Stable A J) (now : Nat)
    (p : ConsensusProposal NodeID LedgerID (TxSet.ID S)) (hs : J s) :
    J (Consensus.peerProposal A now p s).2 :=
  h.peerProposalInternal now p (h.quiet { Quiet.refl s with } hs)

theorem playbackAt (h : Stable A J) (pos : ConsensusProposal NodeID LedgerID (TxSet.ID S))
    (hs : J s) : J (Consensus.playbackAt A s pos) := by
  have hx := h.peerProposalInternal s.now_ pos hs
  simp only [Consensus.playbackAt]
  generalize Consensus.peerProposalInternal A s.now_ pos s = x at hx ⊢
  split
  · split
    · refine h.quiet { Quiet.refl x.2 with calls := ⟨[.sharePosition pos], rfl, ?_⟩ } hx
      simp [Event.Minor]
    · exact hx
  · exact hs

theorem playbackProposals (h : Stable A J) (hs : J s) : J (Consensus.playbackProposals A s) :=
  List.foldlRecOn _ _ (h.quiet { Quiet.refl s with } hs) fun _ hs pos _ => h.playbackAt pos hs

section Phases

omit [DecidableEq LedgerID]

theorem phaseOpen (h : Stable A J) (hphase : s.phase_ = .opened) (hs : J s) :
    J (Consensus.phaseOpen A s) := by
  have hs : J { s with
      openTime_ := s.openTime_.tick (A.clock s.asked)
      asked := s.asked + 1 } := h.quiet { Quiet.refl s with } hs
  simp only [Consensus.phaseOpen]
  split
  · exact h.closeLedger (by exact hphase) hs
  · exact hs

theorem haveConsensus (h : Stable A J) (hs : J s) : J (Consensus.haveConsensus A s).2 := by
  simp only [Consensus.haveConsensus]
  split
  · exact hs
  · rename_i r hr
    exact h.quiet { Quiet.refl s with result := .inr ⟨r, _, _, _, hr, rfl⟩ } hs

theorem accept (h : Stable A J) (hs : J s) : J (Consensus.accept s) := by
  simp only [Consensus.accept]
  split
  · exact hs
  · rename_i r hr
    refine h.quiet { Quiet.refl s with
      phase := .inr rfl
      calls := ⟨[.onAccept r s.previousLedger_ s.closeResolution_ s.rawCloseTimes_ s.mode_],
        rfl, ?_⟩ } hs
    simp [Event.Minor]

theorem phaseEstablish (h : Stable A J) (hphase : s.phase_ = .establish) (hs : J s) :
    J (Consensus.phaseEstablish A s) := by
  simp only [Consensus.phaseEstablish]
  split
  · exact hs
  · rename_i r hr
    have ht : J (tickRound A r s) :=
      h.quiet { Quiet.refl s with result := .inr ⟨r, _, _, _, hr, rfl⟩ } hs
    have hc := h.haveConsensus (h.updateOurPositions (by exact hphase) ht)
    split
    · exact ht
    · split
      · exact h.accept hc
      · exact hc

theorem runPhase (h : Stable A J) (hs : J s) : J (Consensus.runPhase A s) := by
  simp only [Consensus.runPhase]
  cases hp : s.phase_ with
  | opened => exact h.phaseOpen hp hs
  | establish => exact h.phaseEstablish hp hs
  | accepted => exact hs

end Phases

def Keeps (J : Consensus NodeID LedgerID S → Prop) (restart : Restart NodeID LedgerID S) : Prop :=
  ∀ {s : Consensus NodeID LedgerID S} (now : Nat) (prevLedgerID : LedgerID)
    (prevLedger : RoundLedger LedgerID) (mode : ConsensusMode),
    J s → (restart now prevLedgerID prevLedger mode s).Sat J

variable {restart : Restart NodeID LedgerID S}

section

variable (h : Stable A J)
include h

theorem handleWrongLedger (hk : Keeps J restart) (lgrId : LedgerID) (hs : J s) :
    (Consensus.handleWrongLedger A restart lgrId s).Sat J := by
  have hleft := h.leaveConsensus hs
  simp only [Consensus.handleWrongLedger]
  generalize hs' : (if (Consensus.leaveConsensus s).prevLedgerID_ ≠ lgrId then
    Consensus.playbackProposals A (Consensus.switchLedger lgrId (Consensus.leaveConsensus s))
    else Consensus.leaveConsensus s) = s'
  have hJ : J s' := by
    rw [← hs']
    split
    · exact h.playbackProposals (h.switchLedger lgrId hleft)
    · exact hleft
  have hJ' : J { s' with asked := s'.asked + 1 } := h.quiet { Quiet.refl s' with } hJ
  split
  · exact hJ
  · split
    · exact hk _ _ _ _ hJ'
    · exact h.wrongLedger hJ'

theorem checkLedger (hk : Keeps J restart) (hs : J s) :
    (Consensus.checkLedger A restart s).Sat J := by
  have hs : J { s with asked := s.asked + 1 } := h.quiet { Quiet.refl s with } hs
  simp only [Consensus.checkLedger]
  split
  · exact h.handleWrongLedger hk _ hs
  · exact hs

theorem timerEntryWith (hk : Keeps J restart) (now : Nat) (hs : J s) :
    (Consensus.timerEntryWith A restart now s).Sat J := by
  simp only [Consensus.timerEntryWith]
  split
  · exact hs
  · have hc : (Consensus.checkLedger A restart { s with now_ := now }).Sat J :=
      h.checkLedger hk (h.quiet { Quiet.refl s with } hs)
    cases hr : Consensus.checkLedger A restart { s with now_ := now } with
    | ok s' =>
      rw [hr] at hc
      exact h.runPhase hc
    | error s' =>
      rw [hr] at hc
      exact hc

theorem startRoundInternal (fuel : Nat) :
    Keeps J (Consensus.startRoundInternal A fuel) := by
  induction fuel with
  | zero => exact fun _ _ _ _ hs => hs
  | succ fuel ih =>
    intro s now prevLedgerID prevLedger mode hs
    have hp := h.playbackProposals (h.beginRound now prevLedgerID prevLedger mode hs)
    simp only [Consensus.startRoundInternal]
    split
    · exact h.timerEntryWith ih _ hp
    · exact hp

theorem startRound (fuel now : Nat) (prevLedgerID : LedgerID)
    (prevLedger : RoundLedger LedgerID) (nowUntrusted : List NodeID) (proposing : Bool)
    (hs : J s) :
    (Consensus.startRound A fuel now prevLedgerID prevLedger nowUntrusted proposing s).Sat J := by
  simp only [Consensus.startRound]
  split
  · split
    · exact h.startRoundInternal fuel _ _ _ _ (h.quiet { Quiet.refl s with } hs)
    · exact h.startRoundInternal fuel _ _ _ _ (h.quiet { Quiet.refl s with } hs)
  · exact h.startRoundInternal fuel _ _ _ _ (h.quiet { Quiet.refl s with } hs)

theorem exec (fuel : Nat) (c : Call NodeID LedgerID S) (hs : J s) :
    (c.exec A fuel s).Sat J := by
  cases c with
  | startRound now prevLedgerID prevLedger nowUntrusted proposing =>
    exact h.startRound fuel now prevLedgerID prevLedger nowUntrusted proposing hs
  | peerProposal now newPeerPos => exact h.peerProposal now newPeerPos hs
  | gotTxSet now txSet => exact h.gotTxSet now txSet hs
  | timerEntry now => exact h.timerEntryWith (h.startRoundInternal fuel) now hs

theorem run (hr : Run A s) : J s := by
  induction hr with
  | make prevLedgerID previousLedger => exact h.make prevLedgerID previousLedger
  | @call s s' fuel c _ hc ih =>
    have hx := h.exec fuel c ih
    rw [hc] at hx
    exact hx

theorem reached (hr : Reached A s) : J s := by
  cases hr with
  | returned hr => exact h.run hr
  | @running s s' fuel c hr hc =>
    have hx := h.exec fuel c (h.run hr)
    rw [hc] at hx
    exact hx

end

end Stable

def Call.execAll (A : ConsensusAdaptor NodeID LedgerID S) (fuel : Nat)
    (s : Consensus NodeID LedgerID S) : List (Call NodeID LedgerID S) → Consensus NodeID LedgerID S
  | [] => s
  | c :: cs =>
    match c.exec A fuel s with
    | .ok s => execAll A fuel s cs
    | .error s => s

theorem Run.execAll (h : Run A s) (fuel : Nat) (cs : List (Call NodeID LedgerID S)) :
    Reached A (Call.execAll A fuel s cs) := by
  induction cs generalizing s with
  | nil => exact .returned h
  | cons c cs ih =>
    rw [Call.execAll]
    cases hc : c.exec A fuel s with
    | ok s' => exact ih (h.call hc)
    | error s' => exact .running h hc

section Sample

/-- We propose transaction 0, every set can be acquired, and the clock advances by two seconds. -/
def sampleAdaptor : ConsensusAdaptor Nat Nat (Fin 2 → Bool) where
  parms := {}
  clock k := k * 2000000000
  acquireLedger _ _ := none
  acquireTxSet _ id := some id
  hasOpenTransactions _ := true
  proposersValidated _ _ := 0
  proposersFinished _ _ _ := 0
  getPrevLedger _ id _ _ := id
  onClose _ ledger now _ := (![true, false], ⟨ledger.id, ![true, false], now, now, 0, 0⟩)
  onClose_id := rfl
  order _ xs := xs
  order_perm _ _ := .refl _

/-- Two peers propose other sets, we close and give in, one peer follows and the other bows out. -/
def sampleState : Consensus Nat Nat (Fin 2 → Bool) :=
  Call.execAll sampleAdaptor 2 (make 1 ⟨1, 5, 30, true, 990, 960⟩)
    [.startRound 1000 1 ⟨1, 5, 30, true, 990, 960⟩ [] true,
      .peerProposal 1001 ⟨1, ![false, true], 1001, 1001, 0, 7⟩,
      .peerProposal 1001 ⟨1, ![false, false], 1001, 1001, 0, 8⟩,
      .timerEntry 1002,
      .timerEntry 1005,
      .peerProposal 1006 ⟨1, ![false, false], 1001, 1006, 1, 7⟩,
      .peerProposal 1007 ⟨1, ![false, false], 1001, 1007, ConsensusProposal.seqLeave, 8⟩]

theorem sampleState_reached : Reached sampleAdaptor sampleState :=
  (Run.make 1 ⟨1, 5, 30, true, 990, 960⟩).execAll 2 _

end Sample

end Consensus
end Ripple
