import Ripple.Lib.OrderedMap

/-!
# Ripple.Consensus.Timing

The parameters of `consensus/ConsensusParms.h` and the decisions that `Consensus.cpp` and
`LedgerTiming.h` base on them.

Network time is a 32-bit count of seconds; the steady clock counts nanoseconds and durations are in
milliseconds. The source mixes signed and unsigned operands; `asSize` and `asNetTime` are its
conversions.
-/

namespace Ripple

/-- An `int` or `int64_t` compared with a `std::size_t`. -/
def asSize (x : Int) : Nat := (x % 2 ^ 64).toNat

def asNetTime (x : Int) : Nat := (x % 2 ^ 32).toNat

structure ConsensusParms where
  proposeFRESHNESS : Int := 20
  proposeINTERVAL : Int := 12
  minCONSENSUS_PCT : Nat := 80
  ledgerIDLE_INTERVAL : Int := 15000
  ledgerMIN_CONSENSUS : Int := 1950
  ledgerMIN_CLOSE : Int := 2000
  avMIN_CONSENSUS_TIME : Int := 5000
  avINIT_CONSENSUS_PCT : Nat := 50
  avMID_CONSENSUS_TIME : Nat := 50
  avMID_CONSENSUS_PCT : Nat := 65
  avLATE_CONSENSUS_TIME : Nat := 85
  avLATE_CONSENSUS_PCT : Nat := 70
  avSTUCK_CONSENSUS_TIME : Nat := 200
  avSTUCK_CONSENSUS_PCT : Nat := 95
  avCT_CONSENSUS_PCT : Nat := 75
  useRoundedCloseTime : Bool := true

inductive ConsensusMode where
  | proposing
  | observing
  | wrongLedger
  | switchedLedger
deriving DecidableEq

/-- `opened` is the source's `open`. -/
inductive ConsensusPhase where
  | opened
  | establish
  | accepted
deriving DecidableEq

inductive ConsensusState where
  | no
  | movedOn
  | yes
deriving DecidableEq

structure ConsensusTimer where
  start_ : Int := 0
  dur_ : Int := 0
deriving DecidableEq

def ConsensusTimer.read (t : ConsensusTimer) : Int := t.dur_

def ConsensusTimer.reset (_ : ConsensusTimer) (tp : Int) : ConsensusTimer := ⟨tp, 0⟩

def ConsensusTimer.tick (t : ConsensusTimer) (tp : Int) : ConsensusTimer :=
  { t with dur_ := (tp - t.start_).tdiv 1000000 }

def shouldCloseLedger (anyTransactions : Bool) (prevProposers proposersClosed proposersValidated : Nat)
    (prevRoundTime timeSincePrevClose openTime idleInterval : Int) (parms : ConsensusParms) : Bool :=
  if prevRoundTime < -1000 ∨ prevRoundTime > 600000 ∨ timeSincePrevClose > 600000 then true
  else if proposersClosed + proposersValidated > prevProposers / 2 then true
  else if !anyTransactions then timeSincePrevClose ≥ idleInterval
  else if openTime < parms.ledgerMIN_CLOSE then false
  else if openTime < prevRoundTime.tdiv 2 then false
  else true

def checkConsensusReached (agreeing total : Nat) (countSelf : Bool) (minConsensusPct : Nat) : Bool :=
  if total = 0 then true
  else if countSelf then (agreeing + 1) * 100 / (total + 1) ≥ minConsensusPct
  else agreeing * 100 / total ≥ minConsensusPct

def checkConsensus (prevProposers currentProposers currentAgree currentFinished : Nat)
    (previousAgreeTime currentAgreeTime : Int) (parms : ConsensusParms) (proposing : Bool) :
    ConsensusState :=
  if currentAgreeTime ≤ parms.ledgerMIN_CONSENSUS then .no
  else if currentProposers < prevProposers * 3 / 4 ∧
      currentAgreeTime < previousAgreeTime + parms.ledgerMIN_CONSENSUS then .no
  else if checkConsensusReached currentAgree currentProposers proposing parms.minCONSENSUS_PCT then
    .yes
  else if checkConsensusReached currentFinished currentProposers false parms.minCONSENSUS_PCT then
    .movedOn
  else .no

def ledgerPossibleTimeResolutions : List Nat := [10, 20, 30, 60, 90, 120]

def ledgerDefaultTimeResolution : Nat := 30

def increaseLedgerTimeResolutionEvery : Nat := 8

def decreaseLedgerTimeResolutionEvery : Nat := 1

def getNextLedgerTimeResolution (previousResolution : Nat) (previousAgree : Bool) (ledgerSeq : Nat) :
    Nat :=
  match ledgerPossibleTimeResolutions.idxOf? previousResolution with
  | none => previousResolution
  | some i =>
    if !previousAgree && ledgerSeq % decreaseLedgerTimeResolutionEvery == 0 then
      (ledgerPossibleTimeResolutions[i + 1]?).getD previousResolution
    else if previousAgree && ledgerSeq % increaseLedgerTimeResolutionEvery == 0 && i != 0 then
      (ledgerPossibleTimeResolutions[i - 1]?).getD previousResolution
    else previousResolution

def roundCloseTime (closeTime closeResolution : Nat) : Nat :=
  if closeTime = 0 then closeTime
  else
    let t := (closeTime + closeResolution / 2) % 2 ^ 32
    t - t % closeResolution

def effCloseTime (closeTime resolution priorCloseTime : Nat) : Nat :=
  if closeTime = 0 then closeTime
  else max (roundCloseTime closeTime resolution) ((priorCloseTime + 1) % 2 ^ 32)

def participantsNeeded (participants percent : Int) : Int :=
  let result := (participants * percent + percent.tdiv 2).tdiv 100
  if result = 0 then 1 else result

def neededWeight (percentTime : Int) (p : ConsensusParms) : Nat :=
  if asSize percentTime < p.avMID_CONSENSUS_TIME then p.avINIT_CONSENSUS_PCT
  else if asSize percentTime < p.avLATE_CONSENSUS_TIME then p.avMID_CONSENSUS_PCT
  else if asSize percentTime < p.avSTUCK_CONSENSUS_TIME then p.avLATE_CONSENSUS_PCT
  else p.avSTUCK_CONSENSUS_PCT

end Ripple
