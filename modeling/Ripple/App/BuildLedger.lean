import Ripple.Protocol.TER
import Ripple.Ledger.ApplyView
import Ripple.Consensus.Timing
import Ripple.App.SkipList

/-!
# Ripple.App.BuildLedger

How a ledger is built on its parent, from `app/ledger/impl/BuildLedger.cpp`: once from the
transactions that consensus agreed on, in several passes, and once more from the transactions that a
finished ledger holds, in one pass.

What a transaction does is a parameter (`Env.attempt`). If it is applied, its record in the view
carries the number of transactions applied before it; the index has 32 bits.

A build also returns the transactions it applied, in order; the source only writes them to its log.
-/

namespace Ripple.App

open Protocol
open TER (isTefFailure isTemMalformed isTelLocal)
open Ripple.Ledger (Fault ApplyFlags tapRETRY)

/-! ## Ledgers -/

def sLCF_NoConsensusTime : UInt32 := 0x01

def sLCF_SHAMapV2 : UInt32 := 0x02

structure LedgerInfo where
  seq : UInt32 := 0
  parentCloseTime : Nat := 0
  hash : Uint256 := 0
  txHash : Uint256 := 0
  accountHash : Uint256 := 0
  parentHash : Uint256 := 0
  drops : Int := 0
  validated : Bool := false
  accepted : Bool := false
  closeFlags : UInt32 := 0
  closeTimeResolution : Nat := 0
  closeTime : Nat := 0

def getCloseAgree (info : LedgerInfo) : Bool := info.closeFlags &&& sLCF_NoConsensusTime == 0

/-- `Body` stands for the entries of all other types. -/
inductive SLE (Body : Type) where
  | ledgerHashes (hashes : List Uint256) (lastLedgerSequence : UInt32)
  | other (body : Body)

/-- The record of a transaction; `rest` is the result and what is said about the entries changed. -/
structure TxMeta (Rest : Type) where
  index : Nat
  rest : Rest

/-- The types that the model leaves open: entries, transactions, metadata, fees and rules. -/
structure Kinds where
  Entry : Type
  Txn : Type
  transactionID : Txn → Uint256
  Meta : Type
  Rules : Type

variable {K : Kinds}

abbrev StateMap (K : Kinds) := OrderedMap Uint256 (SLE K.Entry)

abbrev TxMap (K : Kinds) := OrderedMap Uint256 (K.Txn × TxMeta K.Meta)

structure Ledger (K : Kinds) where
  info : LedgerInfo
  stateMap : StateMap K
  txMap : TxMap K
  is_v2 : Bool
  rules : K.Rules

/-! ## Views -/

inductive Action where
  | erase
  | insert
  | replace
deriving DecidableEq

structure RawStateTable (K : Kinds) where
  items : OrderedMap Uint256 (Action × SLE K.Entry) := OrderedMap.empty
  dropsDestroyed : Int := 0

structure OpenView (K : Kinds) where
  base : Ledger K
  items : RawStateTable K := {}
  txs : TxMap K := OrderedMap.empty

def OpenView.txCount (view : OpenView K) : Nat := view.txs.entries.length

def OpenView.rawTxInsert (view : OpenView K) (tx : K.Txn) (metaData : TxMeta K.Meta) :
    Except Fault (OpenView K) :=
  match view.txs.find? (K.transactionID tx) with
  | some _ => .error .logicError
  | none => .ok { view with txs := view.txs.insert (K.transactionID tx) (tx, metaData) }

/-- What `preflight`, `preclaim` and `doApply` make of a transaction. -/
inductive Attempt (K : Kinds) where
  | throws
  | refused (ter : TER)
  | applied (items : RawStateTable K) (record : K.Meta)

structure Env (K : Kinds) where
  attempt : OpenView K → K.Txn → ApplyFlags → Attempt K
  /-- `setup`: the rules, with the fees, from the entries of the ledger. -/
  setup : StateMap K → K.Rules
  enabledSHAMapV2 : K.Rules → Bool
  stateHash : Bool → StateMap K → Uint256
  txHash : Bool → TxMap K → Uint256
  calculateLedgerHash : LedgerInfo → Uint256
  keylets : SkipList.Keylets Uint256

variable (env : Env K)

/-! ## Changes to a ledger -/

namespace Ledger

def next (prevLedger : Ledger K) (closeTime : Nat) : Ledger K :=
  let prev := prevLedger.info
  let seq := prev.seq + 1
  let closeTimeResolution :=
    getNextLedgerTimeResolution prev.closeTimeResolution (getCloseAgree prev) seq.toNat
  { info :=
      { seq
        parentCloseTime := prev.closeTime
        hash := (prev.hash + 1) % 2 ^ 256
        drops := prev.drops
        parentHash := prev.hash
        closeTimeResolution
        closeFlags := if prevLedger.is_v2 then sLCF_SHAMapV2 else 0
        closeTime :=
          if prev.closeTime = 0 then roundCloseTime closeTime closeTimeResolution
          else (prev.closeTime + closeTimeResolution) % 2 ^ 32 }
    stateMap := prevLedger.stateMap
    txMap := OrderedMap.empty
    is_v2 := prevLedger.is_v2
    rules := prevLedger.rules }

variable (l : Ledger K)

def make_v2 : Ledger K :=
  let info :=
    { l.info with
      validated := false
      accountHash := env.stateHash true l.stateMap
      txHash := env.txHash true l.txMap }
  { l with
    is_v2 := true
    info :=
      { info with
        hash := env.calculateLedgerHash info
        closeFlags := info.closeFlags ||| sLCF_SHAMapV2 } }

def rawDestroyXRP (fee : Int) : Ledger K :=
  { l with info := { l.info with drops := l.info.drops - fee } }

variable (key : Uint256)

def rawErase : Except Fault (Ledger K) :=
  match l.stateMap.find? key with
  | some _ => .ok { l with stateMap := l.stateMap.erase key }
  | none => .error .logicError

def rawInsert (sle : SLE K.Entry) : Except Fault (Ledger K) :=
  match l.stateMap.find? key with
  | some _ => .error .logicError
  | none => .ok { l with stateMap := l.stateMap.insert key sle }

def rawReplace (sle : SLE K.Entry) : Except Fault (Ledger K) :=
  match l.stateMap.find? key with
  | some _ => .ok { l with stateMap := l.stateMap.insert key sle }
  | none => .error .logicError

def rawTxInsert (item : K.Txn × TxMeta K.Meta) : Except Fault (Ledger K) :=
  match l.txMap.find? key with
  | some _ => .error .logicError
  | none => .ok { l with txMap := l.txMap.insert key item }

def txExists : Bool := (l.txMap.find? key).isSome

/-- Append the hash of the parent to the list under `key`, after `drop` made room. -/
def appendHash (drop : List Uint256 → List Uint256) : Except Fault (Ledger K) :=
  let lastLedgerSequence := l.info.seq - 1
  match l.stateMap.find? key with
  | some (.ledgerHashes hashes _) =>
    l.rawReplace key (.ledgerHashes (drop hashes ++ [l.info.parentHash]) lastLedgerSequence)
  -- an entry of another type is not peeked
  | _ => l.rawInsert key (.ledgerHashes (drop [] ++ [l.info.parentHash]) lastLedgerSequence)

def recordEvery256 (prevIndex : UInt32) : Except Fault (Ledger K) :=
  if prevIndex &&& 0xff = 0 then l.appendHash (env.keylets.skipAt (prevIndex >>> 16)) (fun hashes => hashes)
  else .ok l

def updateSkipList : Except Fault (Ledger K) :=
  if l.info.seq = 0 then .ok l
  else do
    let l ← l.recordEvery256 env (l.info.seq - 1)
    -- the list of the last 256 ledgers
    l.appendHash env.keylets.skip fun hashes => if hashes.length = 256 then hashes.tail else hashes

def setImmutable : Ledger K :=
  let info :=
    { l.info with
      txHash := env.txHash l.is_v2 l.txMap
      accountHash := env.stateHash l.is_v2 l.stateMap }
  { l with
    info := { info with hash := env.calculateLedgerHash info }
    rules := env.setup l.stateMap }

def setAccepted (closeTime closeResolution : Nat) (correctCloseTime : Bool) : Ledger K :=
  setImmutable env
    { l with
      info :=
        { l.info with
          closeTime
          closeTimeResolution := closeResolution
          closeFlags := if correctCloseTime then 0 else sLCF_NoConsensusTime } }

end Ledger

/-- `RawStateTable::apply`, for one item. -/
def RawStateTable.applyItem (ledger : Ledger K) (item : Uint256 × Action × SLE K.Entry) :
    Except Fault (Ledger K) :=
  match item.2.1 with
  | .erase => ledger.rawErase item.1
  | .insert => ledger.rawInsert item.1 item.2.2
  | .replace => ledger.rawReplace item.1 item.2.2

def RawStateTable.apply (table : RawStateTable K) (ledger : Ledger K) : Except Fault (Ledger K) :=
  table.items.entries.foldlM applyItem (ledger.rawDestroyXRP table.dropsDestroyed)

def OpenView.apply (view : OpenView K) (ledger : Ledger K) : Except Fault (Ledger K) := do
  let ledger ← view.items.apply ledger
  view.txs.entries.foldlM (fun ledger item => ledger.rawTxInsert item.1 item.2) ledger

/-! ## Transactions -/

def tapNONE : ApplyFlags := 0

inductive ApplyResult where
  | success
  | fail
  | retry
deriving DecidableEq

def applyTransaction (view : OpenView K) (txn : K.Txn) (retryAssured : Bool) (flags : ApplyFlags) :
    Except Fault (ApplyResult × OpenView K) :=
  let flags := if retryAssured then flags ||| tapRETRY else flags
  match env.attempt view txn flags with
  | .throws => .ok (.fail, view)
  | .refused ter =>
    if isTefFailure ter || isTemMalformed ter || isTelLocal ter then .ok (.fail, view)
    else .ok (.retry, view)
  | .applied items record => do
    let view ← view.rawTxInsert txn ⟨view.txCount % 2 ^ 32, record⟩
    return (.success, { view with items })

structure Applied (K : Kinds) where
  view : OpenView K
  txs : List (K.Txn) := []

/-! ## Consensus -/

structure Progress (K : Kinds) extends Applied K where
  failed : Finset Uint256
  changes : Nat := 0

def tryAll (pass : Nat) (certainRetry : Bool) :
    List (K.Txn) → Progress K → Except Fault (List (K.Txn) × Progress K)
  | [], p => .ok ([], p)
  | tx :: txns, p =>
    if pass = 0 ∧ p.view.base.txExists (K.transactionID tx) then tryAll pass certainRetry txns p
    else do
      let r ← applyTransaction env p.view tx certainRetry tapNONE
      match r.1 with
      | .success =>
        tryAll pass certainRetry txns
          { p with view := r.2, txs := p.txs ++ [tx], changes := p.changes + 1 }
      | .fail =>
        tryAll pass certainRetry txns
          { p with view := r.2, failed := insert (K.transactionID tx) p.failed }
      | .retry =>
        let rest ← tryAll pass certainRetry txns { p with view := r.2 }
        return (tx :: rest.1, rest.2)

def LEDGER_TOTAL_PASSES : Nat := 3

def LEDGER_RETRY_PASSES : Nat := 1

def passesFrom (pass : Nat) (certainRetry : Bool) (txns : List (K.Txn)) (p : Progress K) :
    Except Fault (List (K.Txn) × Progress K) :=
  if pass < LEDGER_TOTAL_PASSES then do
    let r ← tryAll env pass certainRetry txns { p with changes := 0 }
    -- a pass without retries made no change
    if r.2.changes = 0 ∧ certainRetry = false then return r
    let stop := r.2.changes = 0 ∨ pass ≥ LEDGER_RETRY_PASSES
    passesFrom (pass + 1) (if stop then false else certainRetry) r.1 r.2
  else .ok (txns, p)
termination_by LEDGER_TOTAL_PASSES - pass

def applyTransactions (txns : List (K.Txn)) (failed : Finset Uint256) (view : OpenView K) :
    Except Fault (List (K.Txn) × Progress K) :=
  passesFrom env 0 true txns { view, failed }

/-! ## The two builds -/

structure Built (K : Kinds) where
  ledger : Ledger K
  txs : List (K.Txn)

variable (parent : Ledger K)

def freshLedger (closeTime : Nat) : Ledger K :=
  let built := parent.next closeTime
  if env.enabledSHAMapV2 built.rules && !built.is_v2 then built.make_v2 env else built

def completeLedger (built : Ledger K) (accum : OpenView K) (closeTime : Nat) (closeTimeCorrect : Bool)
    (closeResolution : Nat) : Except Fault (Ledger K) := do
  let built ← accum.apply built
  let built ← built.updateSkipList env
  return built.setAccepted env closeTime closeResolution closeTimeCorrect

def buildLedgerImpl (closeTime : Nat) (closeTimeCorrect : Bool) (closeResolution : Nat)
    (applyTxs : OpenView K → Except Fault (Applied K)) : Except Fault (Built K) := do
  let built := freshLedger env parent closeTime
  let accum ← applyTxs { base := built }
  let ledger ← completeLedger env built accum.view closeTime closeTimeCorrect closeResolution
  return ⟨ledger, accum.txs⟩

/-- `CanonicalTXSet::Key`: the salted account, the sequence number and the id. -/
abbrev TxKey := Uint256 ×ₗ Nat ×ₗ Uint256

structure CanonicalTXSet (K : Kinds) where
  map_ : OrderedMap TxKey K.Txn := OrderedMap.empty

def CanonicalTXSet.txns (set : CanonicalTXSet K) : List (K.Txn) := set.map_.entries.map Prod.snd

/-- `buildLedger`, from the transactions of consensus. -/
def buildLedger (closeTime : Nat) (closeTimeCorrect : Bool) (closeResolution : Nat)
    (txns : CanonicalTXSet K) (failedTxns : Finset Uint256) : Except Fault (Built K) :=
  buildLedgerImpl env parent closeTime closeTimeCorrect closeResolution fun accum => do
    let r ← applyTransactions env txns.txns failedTxns accum
    return r.2.toApplied

structure LedgerReplay (K : Kinds) where
  parent : Ledger K
  replay : Ledger K
  orderedTxns : OrderedMap Nat (K.Txn)

def emplace (ordered : OrderedMap Nat (K.Txn)) (item : Uint256 × K.Txn × TxMeta K.Meta) :
    OrderedMap Nat (K.Txn) :=
  match ordered.find? item.2.2.index with
  | some _ => ordered
  | none => ordered.insert item.2.2.index item.2.1

def LedgerReplay.make (parent replay : Ledger K) : LedgerReplay K where
  parent
  replay
  orderedTxns := replay.txMap.entries.foldl emplace OrderedMap.empty

def replayTransactions (applyFlags : ApplyFlags) : List (K.Txn) → Applied K → Except Fault (Applied K)
  | [], a => .ok a
  | tx :: txns, a => do
    let r ← applyTransaction env a.view tx false applyFlags
    replayTransactions applyFlags txns ⟨r.2, if r.1 = .success then a.txs ++ [tx] else a.txs⟩

/-- `buildLedger`, by a replay. -/
def replayLedger (replayData : LedgerReplay K) (applyFlags : ApplyFlags) : Except Fault (Built K) :=
  let info := replayData.replay.info
  buildLedgerImpl env replayData.parent info.closeTime (info.closeFlags &&& sLCF_NoConsensusTime == 0)
    info.closeTimeResolution fun accum =>
      replayTransactions env applyFlags (replayData.orderedTxns.entries.map Prod.snd) { view := accum }

end Ripple.App
