import Ripple.TxQ.Basic

/-!
# Ripple.TxQ.Calls

The three calls that change the queue, `TxQ::apply`, `TxQ::accept` and `TxQ::processClosedLedger`,
with the helpers of `TxQ.cpp`. `apply` is cut at the numbered steps of its comment.

The reply `none` is an exception that leaves the call: a fee level that divides by zero.
-/

namespace Ripple.TxQ

/-! ## apply -/

abbrev Reply := Option (TER × Bool)

def refuse {α : Type} (ter : TER) : Op Reply α := Proc.ret (some (ter, false))

@[simp] theorem wp_refuse {α : Type} {ter : TER} {E : Fault → Prop} {P : Reply → TxQ → Prop}
    {Q : α → TxQ → Prop} {s : TxQ} :
    Proc.wp (refuse ter) E P Q s ↔ P (some (ter, false)) s :=
  Proc.wp_ret

def requiredFeeLevel (env : Env) (flags : ApplyFlags) : Op Reply Nat := do
  let s ← Proc.get
  match FeeMetrics.scaleFeeLevel s.feeMetrics_.getSnapshot (env.txCount 0) with
  | none => Proc.ret none
  | some feeLevel =>
    if flags &&& tapPREFER_QUEUE ≠ 0 then
      match s.byFee_ with
      | [] => pure feeLevel
      | p :: _ => do
        let m ← deref p
        pure (max feeLevel m.feeLevel)
    else pure feeLevel

def consequencesOf (p : Ptr) : Op Reply TxConsequences := do
  let m ← deref p
  match m.consequences with
  | some c => pure c
  | none => do
    let c := calculateConsequences m.pfresult m.txn
    Proc.modify fun s => s.store p { m with consequences := some c }
    pure c

/-- What `apply` remembers of the transaction it replaces: its address, and the consequences of the
new one if it had to look at them. -/
structure Replacement where
  replacedItemDeleteIter : Option Ptr := none
  consequences : Option TxConsequences := none

variable (setup : Setup)

/-- Step 2: is there a transaction of the account with the same sequence in the queue? -/
def replace (tx : STTx) (pfresult : PreflightResult)
    (feeLevelPaid requiredFeeLevel : Nat) (accountExists : Bool) : Op Reply Replacement := do
  if accountExists then do
    let q ← accountAt tx.account
    match q.transactions.find? tx.sequence with
    | none => pure {}
    | some p => do
      let existing ← deref p
      let requiredRetryLevel := increase existing.feeLevel setup.retrySequencePercent
      if feeLevelPaid > requiredRetryLevel ∨
          (existing.feeLevel < requiredFeeLevel ∧ feeLevelPaid ≥ requiredFeeLevel ∧
            q.transactions.entries.head?.map Prod.fst = some tx.sequence) then
        -- a normal transaction gives way to a blocker only at the end of the account's queue
        if (nextEntry q.transactions tx.sequence).isSome then do
          let c ← consequencesOf p
          if c.category = .normal then
            let consequences := calculateConsequences pfresult tx
            if consequences.category = .blocker then refuse TER.telCAN_NOT_QUEUE_BLOCKS
            else pure { replacedItemDeleteIter := some p, consequences := some consequences }
          else pure { replacedItemDeleteIter := some p }
        else pure { replacedItemDeleteIter := some p }
      else refuse TER.telCAN_NOT_QUEUE_FEE
  else pure {}

/-- What is in flight in front of a transaction: the fees, what may be spent besides, and whether
the fee of the transaction itself counts. -/
structure InFlight where
  fee : Nat := 0
  potentialSpend : Nat := 0
  includeCurrentFee : Bool := false

def checkMultiLevel (tx : STTx) (feeLevelPaid sequence : Nat) (p : Ptr) :
    Op Reply Unit := do
  -- only the transaction right in front sets a level to exceed
  if sequence = tx.sequence - 1 then do
    let m ← deref p
    if feeLevelPaid ≤ increase m.feeLevel setup.multiTxnPercent.toUInt32 then
      refuse TER.telINSUF_FEE_P
    else pure ()
  else pure ()

/-- The loop over the account's transactions from the sequence of the account root on. `none` when a
sequence is missing before `tx`. -/
def scan (setup : Setup) (tx : STTx) (feeLevelPaid : Nat) :
    List (Nat × Ptr) → Nat → InFlight → Op Reply (Option InFlight)
  | [], workingSeq, acc => pure (if workingSeq < tx.sequence then none else some acc)
  | (sequence, p) :: rest, workingSeq, acc => do
    if workingSeq < tx.sequence ∧ sequence ≠ workingSeq then pure none
    else do
      checkMultiLevel setup tx feeLevelPaid sequence p
      if sequence = tx.sequence then
        scan setup tx feeLevelPaid rest ((workingSeq + 1) % 2 ^ 32)
          { acc with includeCurrentFee := !rest.isEmpty }
      else do
        let c ← consequencesOf p
        if sequence < tx.sequence ∧ c.category = .blocker then refuse TER.telCAN_NOT_QUEUE_BLOCKED
        else
          scan setup tx feeLevelPaid rest ((workingSeq + 1) % 2 ^ 32)
            { acc with
              fee := acc.fee + c.fee, potentialSpend := acc.potentialSpend + c.potentialSpend }

structure MultiTxn where
  nextSeq : Nat
  nextTxIter : Ptr
  sandbox : Nat × Nat

variable (env : Env) (tx : STTx)

def heldAhead (aSeq : Nat) (replacing : Bool) : Op Reply Bool :=
  if aSeq < tx.sequence then canBeHeld setup env tx (some tx.account) replacing else pure false

/-- Step 3: account for the queued transactions in front of `tx`. -/
def multiTxn (feeLevelPaid : Nat) (accountExists : Bool)
    (replacing : Bool) : Op Reply (Option MultiTxn) := do
  if accountExists then
    match env.account tx.account with
    | none => pure none
    | some (aSeq, balance) => do
      let held ← heldAhead setup env tx aSeq replacing
      if held then do
        let q ← accountAt tx.account
        match q.transactions.find? aSeq with
        | none => pure none
        | some p => do
          let inFlight ← scan setup tx feeLevelPaid
            (q.transactions.entries.dropWhile fun e => e.1 < aSeq) aSeq {}
          match inFlight with
          | none => pure none
          | some acc =>
            let totalFee := if acc.includeCurrentFee then acc.fee + tx.fee else acc.fee
            if totalFee ≥ balance ∨ totalFee ≥ env.reserve then
              refuse TER.telCAN_NOT_QUEUE_BALANCE
            else
              let potentialTotalSpend :=
                acc.fee + min (balance - min balance env.reserve) acc.potentialSpend
              pure (some { nextSeq := aSeq, nextTxIter := p
                           sandbox := (tx.sequence, balance - potentialTotalSpend) })
      else pure none
  else pure none

def feeLevels {R : Type} : List Ptr → Op R (List Nat)
  | [] => pure []
  | p :: ps => do
    let m ← deref p
    let rest ← feeLevels ps
    pure (m.feeLevel :: rest)

/-- The loop of `tryClearAccountQueue`. Each transaction uses up a retry whether it succeeds or
not. -/
def applyAll (env : Env) : List Ptr → Nat → Op (TER × Bool) Unit
  | [], _ => pure ()
  | p :: ps, n => do
    let m ← deref p
    let result := m.apply env n
    Proc.modify fun s => s.store p { result.1 with
      retriesRemaining := m.retriesRemaining - 1, lastResult := some result.2.1 }
    if result.2.2 then applyAll env ps (n + 1) else Proc.ret (result.2.1, false)

def clearRange (range : List (Nat × Ptr)) : Op (TER × Bool) (TER × Bool) := do
  applyAll env (range.map Prod.snd) 1
  let result := env.doApply 0
  if result.2 then do
    eraseRange tx.account range
    let q ← accountAt tx.account
    match q.transactions.find? tx.sequence with
    | none => pure result
    | some p => do
      eraseRange tx.account [(tx.sequence, p)]
      pure result
  else pure result

/-- The sandbox view is new, so `view.txCount()` is zero there and `txExtraCount` is the count of
the open ledger. -/
def tryClearAccountQueue (aSeq feeLevelPaid : Nat) : Op Reply (TER × Bool) := do
  let s ← Proc.get
  match FeeMetrics.escalatedSeriesFeeLevel s.feeMetrics_.getSnapshot 0 (env.txCount 0)
      ((tx.sequence - aSeq + 1) % 2 ^ 32) with
  | none => Proc.ret none
  | some requiredTotalFeeLevel =>
    if requiredTotalFeeLevel.1 then do
      let q ← accountAt tx.account
      let range := q.transactions.entries.filter fun e => aSeq ≤ e.1 ∧ e.1 < tx.sequence
      let levels ← feeLevels (range.map Prod.snd)
      if levels.foldl (fun total level => (total + level) % 2 ^ 64) feeLevelPaid <
          requiredTotalFeeLevel.2 then
        pure (TER.telINSUF_FEE_P, false)
      else Proc.call (clearRange env tx range)
    else pure (TER.telINSUF_FEE_P, false)

variable (flags : ApplyFlags)

def clearFirst (feeLevelPaid required : Nat)
    (multi : MultiTxn) : Op Reply Unit := do
  if flags &&& tapPREFER_QUEUE = 0 then do
    let next ← deref multi.nextTxIter
    if next.retriesRemaining = retriesAllowed ∧ feeLevelPaid > required ∧ required > baseLevel ∧
        env.baseFee ≠ 0 then do
      let result ← tryClearAccountQueue env tx multi.nextSeq feeLevelPaid
      if result.2 then Proc.ret (some result) else pure ()
    else pure ()
  else pure ()

/-- Steps 5 and 6 for a transaction with nothing in front of it: into the open ledger if it pays
enough, and otherwise on if it can be held. -/
def applyOrHold (feeLevelPaid required : Nat)
    (accountExists : Bool) (replaced : Option Ptr) : Op Reply Unit := do
  if feeLevelPaid ≥ required then do
    let result := env.doApply 0
    if result.2 then
      match replaced with
      | none => Proc.ret (some result)
      | some p => do
        let _ ← erase p
        Proc.ret (some result)
    else Proc.ret (some result)
  else do
    let held ← canBeHeld setup env tx (if accountExists then some tx.account else none)
      replaced.isSome
    if held then pure () else refuse TER.telCAN_NOT_QUEUE

/-- The average level of an account with `size` transactions, quotients and remainders apart. -/
def averageLevel (levels : List Nat) : Nat :=
  let size := levels.length
  let endTotal := levels.foldl (fun (total : Nat × Nat) level =>
    let next := level / size
    let mod := level % size
    if total.1 ≥ uint64Max - next ∨ total.2 ≥ uint64Max - mod then (uint64Max, 0)
    else (total.1 + next, total.2 + mod)) (0, 0)
  (endTotal.1 + endTotal.2 / size) % 2 ^ 64

def endEffectiveFeeLevel (last : MaybeTx) (endAccount : TxQAccount) (feeLevelPaid : Nat) :
    Op Reply Nat :=
  if last.feeLevel > feeLevelPaid ∨ endAccount.transactions.entries.length = 1 then
    pure last.feeLevel
  else do
    let levels ← feeLevels (endAccount.transactions.entries.map Prod.snd)
    pure (averageLevel levels)

/-- Step 7: where the queue is full, drop the last transaction of the account with the lowest fee,
or refuse `tx`. -/
def makeRoom (feeLevelPaid : Nat) (replacing : Bool) : Op Reply Unit := do
  let s ← Proc.get
  if !replacing && s.isFull 100 then do
    let lastRIter ← Proc.expect .pastEnd s.byFee_.getLast?
    let last ← deref lastRIter
    if last.account = tx.account then refuse TER.telCAN_NOT_QUEUE_FULL
    else do
      let endAccount ← accountAt last.account
      let level ← endEffectiveFeeLevel last endAccount feeLevelPaid
      if feeLevelPaid > level then do
        let dropRIter ← Proc.expect .pastEnd endAccount.transactions.entries.getLast?
        let _ ← erase dropRIter.2
        pure ()
      else refuse TER.telCAN_NOT_QUEUE_FULL
  else pure ()

def addEntry (m : MaybeTx) : Op Reply Ptr := do
  let q ← accountAt m.account
  match q.transactions.find? m.sequence with
  | some p => pure p
  | none => do
    let s ← Proc.get
    Proc.modify fun s =>
      { s.setAccount m.account { q with transactions := q.transactions.insert m.sequence s.nextPtr } with
        heap := s.heap.insert s.nextPtr m, nextPtr := s.nextPtr + 1 }
    pure s.nextPtr

def MaybeTx.make (feeLevel : Nat) (flags : ApplyFlags) (pfresult : PreflightResult)
    (consequences : Option TxConsequences) : MaybeTx :=
  { txn := tx, consequences := consequences, feeLevel := feeLevel, account := tx.account
    lastValid := tx.lastLedgerSequence, sequence := tx.sequence, flags := flags, pfresult := pfresult }

def eraseReplaced (replaced : Option Ptr) : Op Reply Unit :=
  match replaced with
  | none => pure ()
  | some p => do
    let _ ← erase p
    pure ()

def createAccount (s : TxQ) (account : AccountID) : TxQ :=
  if (s.byAccount_.find? account).isSome then s else s.setAccount account {}

/-- Step 8: hold the transaction. -/
def enqueue (m : MaybeTx) (accountExists : Bool) (replaced : Option Ptr) : Op Reply Unit := do
  eraseReplaced replaced
  Proc.modify fun s => if accountExists then s else s.createAccount m.account
  let p ← addEntry m
  link p

def applyNow (feeLevelPaid required : Nat)
    (accountExists : Bool) (replaced : Option Ptr) (multi : Option MultiTxn) : Op Reply Unit :=
  match multi with
  | some m => clearFirst env tx flags feeLevelPaid required m
  | none => applyOrHold setup env tx feeLevelPaid required accountExists replaced

def claimRoot (multi : Option MultiTxn) : Option (Nat × Nat) :=
  match multi with
  | some m => some m.sandbox
  | none => env.account tx.account

/-- Step 4 and all that follow it. -/
def claimAndHold
    (pfresult : PreflightResult) (feeLevelPaid required : Nat) (accountExists : Bool)
    (replacement : Replacement) (multi : Option MultiTxn) : Op Reply Reply := do
  let ter := preclaim env tx (claimRoot env tx multi)
  if likelyToClaimFee ter flags then do
    applyNow setup env tx flags feeLevelPaid required accountExists
      replacement.replacedItemDeleteIter multi
    makeRoom tx feeLevelPaid replacement.replacedItemDeleteIter.isSome
    enqueue
      (MaybeTx.make tx feeLevelPaid (flags &&& ~~~tapRETRY &&& ~~~tapPREFER_QUEUE) pfresult
        replacement.consequences)
      accountExists replacement.replacedItemDeleteIter
    pure (some (TER.terQUEUED, false))
  else refuse ter

def apply : Op Reply Reply := do
  let pfresult : PreflightResult := { ter := env.preflight 0, rules := env.rules, flags := flags }
  if pfresult.ter ≠ TER.tesSUCCESS then refuse pfresult.ter
  else do
    let s ← Proc.get
    let feeLevelPaid := getFeeLevelPaid setup tx.fee env.baseFee
    let required ← requiredFeeLevel env flags
    let accountExists := (s.byAccount_.find? tx.account).isSome
    let replacement ← replace setup tx pfresult feeLevelPaid required accountExists
    let multi ← multiTxn setup env tx feeLevelPaid accountExists
      replacement.replacedItemDeleteIter.isSome
    claimAndHold setup env tx flags pfresult feeLevelPaid required accountExists replacement multi

/-! ## accept -/

def dropLast (account : AccountID) : Op (Option Bool) Unit := do
  let s ← Proc.get
  let q ← accountAt account
  -- the account was penalised and the queue is nearly full
  if q.dropPenalty && q.transactions.entries.length > 1 && s.isFull 95 then do
    let dropRIter ← Proc.expect .pastEnd q.transactions.entries.getLast?
    let _ ← erase dropRIter.2
    pure ()
  else pure ()

/-- What `accept` does with the entry at `p`, the first of its account, after the attempt `result`
to apply it. -/
def settle (p : Ptr) (m : MaybeTx) (q : TxQAccount) (result : TER × Bool) :
    Op (Option Bool) (Option Ptr) := do
  if result.2 then eraseAndAdvance p
  else if TER.isTefFailure result.1 || TER.isTemMalformed result.1 || m.retriesRemaining ≤ 0 then do
    Proc.modify fun s => s.setAccount m.account
      (if m.retriesRemaining ≤ 0 then { q with retryPenalty := true }
        else { q with dropPenalty := true })
    eraseAndAdvance p
  else do
    Proc.modify fun s => s.store p { m with
      retriesRemaining := if q.retryPenalty && m.retriesRemaining > 2 then 1
        else m.retriesRemaining - 1
      lastResult := some result.1 }
    dropLast m.account
    advance p

/-- The loop of `accept`. `n` numbers the rounds. -/
def acceptLoop (env : Env) (snapshot : Snapshot) :
    Nat → Nat → Option Ptr → Bool → Op (Option Bool) Bool
  | 0, _, _, _ => Proc.fault .outOfFuel
  | _ + 1, _, none, ledgerChanged => pure ledgerChanged
  | fuel + 1, n, some p, ledgerChanged => do
    let m ← deref p
    let q ← accountAt m.account
    let first ← Proc.expect .pastEnd q.transactions.entries.head?
    if m.sequence > first.1 then do
      let next ← advance p
      acceptLoop env snapshot fuel (n + 1) next ledgerChanged
    else
      match FeeMetrics.scaleFeeLevel snapshot (env.txCount n) with
      | none => Proc.ret none
      | some requiredFeeLevel =>
        if m.feeLevel ≥ requiredFeeLevel then do
          let result := m.apply env n
          Proc.modify fun s => s.store p result.1
          let next ← settle p result.1 q result.2
          acceptLoop env snapshot fuel (n + 1) next (ledgerChanged || result.2.2)
        -- the entries are in the order of their levels, so no later one pays enough
        else pure ledgerChanged

/-- Every round erases an entry or moves on, so these many rounds are enough. -/
def acceptFuel (size : Nat) : Nat := (size + 1) * (size + 1)

def accept : Op (Option Bool) (Option Bool) := do
  let s ← Proc.get
  let ledgerChanged ← acceptLoop env s.feeMetrics_.getSnapshot (acceptFuel s.byFee_.length) 0
    s.byFee_.head? false
  pure (some ledgerChanged)

/-! ## processClosedLedger -/

def expireLoop (ledgerSeq : Nat) : Nat → Option Ptr → Op Unit Unit
  | 0, _ => Proc.fault .outOfFuel
  | _ + 1, none => pure ()
  | fuel + 1, some p => do
    let m ← deref p
    if m.lastValid.any (· ≤ ledgerSeq) then do
      let q ← accountAt m.account
      Proc.modify fun s => s.setAccount m.account { q with dropPenalty := true }
      let next ← erase p
      expireLoop ledgerSeq fuel next
    else do
      let next ← advance p
      expireLoop ledgerSeq fuel next

/-- `txs` are the fee and the base fee of every transaction of the closed ledger. -/
def processClosedLedger (ledgerSeq : Nat) (txs : List (Nat × Nat)) (timeLeap : Bool) :
    Op Unit Unit := do
  let s ← Proc.get
  let feeMetrics ← Proc.expect .noRecentCounts (s.feeMetrics_.update setup txs timeLeap)
  Proc.modify fun s =>
    { s with
      feeMetrics_ := feeMetrics
      maxSize_ := if timeLeap then s.maxSize_
        else some (max (feeMetrics.txnsExpected_ * setup.ledgersInQueue % 2 ^ 64) setup.queueSizeMin) }
  expireLoop ledgerSeq (s.byFee_.length + 1) s.byFee_.head?
  Proc.modify fun s =>
    { s with byAccount_ := s.byAccount_.filter fun q => !q.transactions.entries.isEmpty }

end Ripple.TxQ
