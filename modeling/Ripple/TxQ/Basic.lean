import Ripple.Lib.HashMap
import Ripple.Lib.OrderedMap
import Ripple.Lib.Proc
import Ripple.Protocol.TER
import Ripple.TxQ.FeeMetrics

/-!
# Ripple.TxQ.Basic

The transaction queue of `app/misc/TxQ.h`: its entries, its two indexes and the operations that
erase an entry from both.

A `MaybeTx` lives in the node of a `std::map` and is linked by address into the intrusive multiset
`byFee_`. `heap` holds the entries that are alive under their addresses, so an iterator is an
address, and one that outlives its entry faults when it is followed. Addresses are not used again.

What the ledger and the transactors answer during a call is an `Env`.
-/

namespace Ripple

namespace TxQ

abbrev AccountID := Nat

abbrev Ptr := Nat

abbrev ApplyFlags := UInt32

def tapRETRY : ApplyFlags := 0x20
def tapPREFER_QUEUE : ApplyFlags := 0x40

inductive ConsequenceCategory where
  | normal
  | blocker
deriving DecidableEq

structure TxConsequences where
  category : ConsequenceCategory
  fee : Nat
  potentialSpend : Nat
deriving DecidableEq

/-- The fields of a transaction that the queue reads. The last two are what the static functions of
its transactor say of it. -/
structure STTx where
  account : AccountID
  sequence : Nat
  fee : Nat
  lastLedgerSequence : Option Nat := none
  hasPreviousTxnID : Bool := false
  hasAccountTxnID : Bool := false
  affectsSubsequentTransactionAuth : Bool := false
  maxSpend : Nat := 0

structure PreflightResult where
  ter : TER
  rules : Nat
  flags : ApplyFlags

def calculateConsequences (pfresult : PreflightResult) (tx : STTx) : TxConsequences :=
  if pfresult.ter ≠ TER.tesSUCCESS then { category := .blocker, fee := tx.fee, potentialSpend := 0 }
  else
    { category := if tx.affectsSubsequentTransactionAuth then .blocker else .normal
      fee := tx.fee
      potentialSpend := tx.maxSpend }

def retriesAllowed : Int := 10

structure MaybeTx where
  txn : STTx
  consequences : Option TxConsequences := none
  feeLevel : Nat
  account : AccountID
  lastValid : Option Nat
  sequence : Nat
  retriesRemaining : Int := retriesAllowed
  flags : ApplyFlags
  lastResult : Option TER := none
  pfresult : PreflightResult

structure TxQAccount where
  transactions : OrderedMap Nat Ptr := OrderedMap.empty
  retryPenalty : Bool := false
  dropPenalty : Bool := false

/-- The answers of the ledger and of the transactors during one call. The functions take the number
of the question. -/
structure Env where
  /-- `view.info().seq`. -/
  seq : Nat
  rules : Nat
  /-- `view.fees().accountReserve(0)`. -/
  reserve : Nat
  baseFee : Nat
  /-- The sequence and the balance of an account root. -/
  account : AccountID → Option (Nat × Nat)
  txExists : Bool
  txCount : Nat → Nat
  preflight : Nat → TER
  /-- What `preclaim` finds after the sequence: fee, signature and the checks of the type. -/
  claim : Nat → TER
  /-- What `preclaim` and `doApply` make of a transaction whose preflight succeeded. -/
  doApply : Nat → TER × Bool

/-- What no call may do. -/
inductive Fault where
  | dangling
  | unlinked
  | linkedTwice
  | destroyedLinked
  | noAccount
  | pastEnd
  | noRecentCounts
  | outOfFuel
deriving DecidableEq

end TxQ

open TxQ

structure TxQ where
  feeMetrics_ : FeeMetrics
  byFee_ : List Ptr := []
  byAccount_ : OrderedMap AccountID TxQAccount := OrderedMap.empty
  maxSize_ : Option Nat := none
  heap : HashMap Ptr MaybeTx := ∅
  nextPtr : Ptr := 0

namespace TxQ

def make (setup : Setup) : TxQ := { feeMetrics_ := FeeMetrics.make setup }

abbrev Op (R α : Type) := Proc Fault TxQ R α

variable {R : Type}

/-! ## Memory -/

def deref (p : Ptr) : Op R MaybeTx := do
  let s ← Proc.get
  Proc.expect .dangling (s.heap.lookup p)

def store (s : TxQ) (p : Ptr) (m : MaybeTx) : TxQ := { s with heap := s.heap.insert p m }

variable (account : AccountID)

/-- `byAccount_.at`, and what an iterator into `byAccount_` points to. -/
def accountAt : Op R TxQAccount := do
  let s ← Proc.get
  Proc.expect .noAccount (s.byAccount_.find? account)

def setAccount (s : TxQ) (account : AccountID) (q : TxQAccount) : TxQ :=
  { s with byAccount_ := s.byAccount_.insert account q }

def following (p : Ptr) (l : List Ptr) : Option Ptr := (l.dropWhile (· ≠ p)).tail.head?

def advance (p : Ptr) : Op R (Option Ptr) := do
  let s ← Proc.get
  if p ∈ s.byFee_ then pure (following p s.byFee_) else Proc.fault .unlinked

def unlink (p : Ptr) : Op R Unit := do
  let s ← Proc.get
  if p ∈ s.byFee_ then Proc.modify fun s => { s with byFee_ := s.byFee_.erase p }
  else Proc.fault .unlinked

/-- The place of a new element: behind those of the same or a higher level. -/
def placeByFee (level : Ptr → Nat) (p : Ptr) : List Ptr → List Ptr
  | [] => [p]
  | q :: l => if level q ≥ level p then q :: placeByFee level p l else p :: q :: l

def levelOf (s : TxQ) (p : Ptr) : Nat := ((s.heap.lookup p).map MaybeTx.feeLevel).getD 0

/-- `byFee_.insert`, which compares levels with entries that must be alive. -/
def link (p : Ptr) : Op R Unit := do
  let s ← Proc.get
  if p ∈ s.byFee_ then Proc.fault .linkedTwice
  else if ∀ q ∈ p :: s.byFee_, (s.heap.lookup q).isSome then
    Proc.modify fun s => { s with byFee_ := placeByFee s.levelOf p s.byFee_ }
  else Proc.fault .dangling

/-- `transactions.erase(sequence)` destroys the entry in the node. -/
def remove (sequence : Nat) : Op R Bool := do
  let q ← accountAt account
  match q.transactions.find? sequence with
  | none => pure false
  | some p =>
    let s ← Proc.get
    if p ∈ s.byFee_ then Proc.fault .destroyedLinked
    else
      Proc.modify fun s =>
        { s.setAccount account { q with transactions := q.transactions.erase sequence } with
          heap := s.heap.erase p }
      pure true

/-! ## Erasing from both indexes -/

def erase (candidateIter : Ptr) : Op R (Option Ptr) := do
  let m ← deref candidateIter
  let _ ← accountAt m.account
  let newCandidateIter ← advance candidateIter
  unlink candidateIter
  let _found ← remove m.account m.sequence
  pure newCandidateIter

def nextEntry (transactions : OrderedMap Nat Ptr) (k : Nat) : Option (Nat × Ptr) :=
  (transactions.entries.dropWhile fun e => e.1 ≤ k).head?

/-- Whether the next transaction of the account was skipped before and has to be tried again. -/
def useAccountNext (m : MaybeTx) (accountNextIter : Option (Nat × Ptr)) (feeNextIter : Option Ptr) :
    Op R (Option Ptr) :=
  match accountNextIter with
  | none => pure none
  | some (sequence, p) =>
    if sequence = (m.sequence + 1) % 2 ^ 32 then
      match feeNextIter with
      | none => pure (some p)
      | some f => do
        let accountNext ← deref p
        let feeNext ← deref f
        pure (if accountNext.feeLevel > feeNext.feeLevel then some p else none)
    else pure none

def eraseAndAdvance (candidateIter : Ptr) : Op R (Option Ptr) := do
  let m ← deref candidateIter
  let q ← accountAt m.account
  let _accountIter ← Proc.expect .pastEnd (q.transactions.find? m.sequence)
  let feeNextIter ← advance candidateIter
  let accountNext ← useAccountNext m (nextEntry q.transactions m.sequence) feeNextIter
  unlink candidateIter
  let _ ← remove m.account m.sequence
  match accountNext with
  | none => pure feeNextIter
  | some p => do
    -- `iterator_to` wants an element of the multiset
    let s ← Proc.get
    if p ∈ s.byFee_ then pure (some p) else Proc.fault .unlinked

/-- `erase` of a range of one account: first all of them from `byFee_`, then from the map. -/
def eraseRange (range : List (Nat × Ptr)) : Op R Unit := do
  Proc.forEach (fun e => unlink e.2) range
  Proc.forEach (fun e => do let _ ← remove account e.1) range

/-! ## Small questions -/

/-- `isFull<fillPercentage>`. The product is taken in 64 bits. -/
def isFull (s : TxQ) (fillPercentage : Nat) : Bool :=
  match s.maxSize_ with
  | none => false
  | some maxSize => s.byFee_.length ≥ maxSize * fillPercentage % 2 ^ 64 / 100

def canBeHeld (setup : Setup) (env : Env) (tx : STTx) (account : Option AccountID)
    (replacing : Bool) : Op R Bool :=
  if tx.hasPreviousTxnID || tx.hasAccountTxnID then pure false
  else if tx.lastLedgerSequence.any
      fun lastValid => lastValid < (env.seq + setup.minimumLastLedgerBuffer.toNat) % 2 ^ 32 then
    pure false
  else
    match account with
    | none => pure true
    | some account =>
      if replacing then pure true
      else do
        let q ← accountAt account
        if q.transactions.entries.length < setup.maximumTxnPerAccount.toNat then pure true
        else do
          let last ← Proc.expect .pastEnd q.transactions.entries.getLast?
          pure (tx.sequence < last.1)

/-- `MaybeTx::apply`: preflight again where the rules or the flags have changed, then the rest. -/
def MaybeTx.apply (m : MaybeTx) (env : Env) (n : Nat) : MaybeTx × TER × Bool :=
  let pfresult :=
    if m.pfresult.rules ≠ env.rules ∨ m.pfresult.flags ≠ m.flags then
      { ter := env.preflight n, rules := env.rules, flags := m.flags }
    else m.pfresult
  ({ m with pfresult := pfresult },
    if pfresult.ter ≠ TER.tesSUCCESS then (pfresult.ter, false) else env.doApply n)

/-- `Transactor::checkSeq` and what follows it. `Change` transactions are refused on an open ledger.
-/
def preclaim (env : Env) (tx : STTx) (sle : Option (Nat × Nat)) : TER :=
  if tx.account = 0 then TER.temINVALID
  else
    match sle with
    | none => TER.terNO_ACCOUNT
    | some (aSeq, _) =>
      if tx.sequence ≠ aSeq then
        if aSeq < tx.sequence then TER.terPRE_SEQ
        else if env.txExists then TER.tefALREADY else TER.tefPAST_SEQ
      else env.claim 0

def likelyToClaimFee (ter : TER) (flags : ApplyFlags) : Bool :=
  ter = TER.tesSUCCESS || (TER.isTecClaim ter && flags &&& tapRETRY = 0)

end TxQ

end Ripple
