import Mathlib.Logic.Function.Basic
import Ripple.Protocol.STAmount

/-!
# Ripple.App.LedgerMaster

How validated ledgers are published, from `app/ledger/impl/LedgerMaster.cpp`: the last validated and
the last published ledger, and the advance thread, which looks for the ledgers between them and hands
them to `pubLedger`. The thread lets go of the lock several times, and other threads may advance the
validated ledger there.

* `hashOfSeq`: the hash of an ancestor from the lists of hashes that a ledger holds.

Sequence numbers have 32 bits.
-/

namespace Ripple.App

open Protocol

/-! ## Ledgers and their hashes -/

/-- What ledgers say about themselves. They are identified by their hashes. -/
structure LedgerIds (L : Type) where
  seq : L → Nat
  hash : L → Uint256
  parentHash : L → Uint256
  /-- The entry at `keylet::skip()`: the hashes of the last ledgers, the latest at the end. -/
  skip : L → Option (List Uint256)
  /-- The entry at `keylet::skip(seq)`: a ledger and the hashes up to it, of every 256th ledger. -/
  skipAt : L → Nat → Option (Nat × List Uint256)
  hash_injective : Function.Injective hash
  hash_ne_zero : ∀ l, hash l ≠ 0

variable {L : Type}

section HashOfSeq

variable (ids : LedgerIds L)

def LedgerIds.nearHash (ledger : L) (diff : Nat) : Option Uint256 :=
  match ids.skip ledger with
  | some vec => if diff ≤ 256 ∧ vec.length ≥ diff then vec[vec.length - diff]? else none
  | none => none

def LedgerIds.farHash (ledger : L) (seq : Nat) : Option Uint256 :=
  match ids.skipAt ledger seq with
  | some (lastSeq, vec) =>
    let diff := (lastSeq - seq) / 256
    if vec.length > diff then vec[vec.length - diff - 1]? else none
  | none => none

def LedgerIds.hashOfSeq (ledger : L) (seq : Nat) : Option Uint256 :=
  if seq > ids.seq ledger then none
  else if seq = ids.seq ledger then some (ids.hash ledger)
  else if seq = ids.seq ledger - 1 then some (ids.parentHash ledger)
  else
    match ids.nearHash ledger (ids.seq ledger - seq) with
    | some hash => some hash
    | none => if seq % 256 ≠ 0 then none else ids.farHash ledger seq

end HashOfSeq

/-- A chain of ledgers by sequence number, each with the hashes of those before it. -/
structure LedgerChain (ids : LedgerIds L) where
  ledger : Nat → L
  seq_eq : ∀ n, n < 2 ^ 32 → ids.seq (ledger n) = n
  parent_eq : ∀ n, ids.parentHash (ledger (n + 1)) = ids.hash (ledger n)
  skip_eq : ∀ n vec, ids.skip (ledger n) = some vec → ∀ k, 0 < k → k ≤ vec.length →
    vec[vec.length - k]? = some (ids.hash (ledger (n - k)))
  skipAt_eq : ∀ n seq lastSeq vec, ids.skipAt (ledger n) seq = some (lastSeq, vec) →
    lastSeq % 256 = 0 ∧ seq ≤ lastSeq ∧ ∀ k, k < vec.length →
      vec[vec.length - k - 1]? = some (ids.hash (ledger (lastSeq - 256 * k)))

theorem LedgerChain.hashOfSeq_eq {ids : LedgerIds L} (chain : LedgerChain ids) {n seq : Nat} {hash : Uint256}
    (hn : n < 2 ^ 32) (h : ids.hashOfSeq (chain.ledger n) seq = some hash) :
    hash = ids.hash (chain.ledger seq) := by
  unfold LedgerIds.hashOfSeq at h
  rw [chain.seq_eq n hn] at h
  split at h
  · cases h
  · rename_i hle
    split at h
    · rename_i heq
      cases h
      rw [heq]
    · rename_i hne
      split at h
      · rename_i hpred
        cases h
        have hsucc : n = seq + 1 := by omega
        rw [hsucc, chain.parent_eq]
      · cases hnear : ids.nearHash (chain.ledger n) (n - seq) with
        | some near =>
          simp only [hnear] at h
          cases h
          unfold LedgerIds.nearHash at hnear
          split at hnear
          · rename_i vec hvec
            split at hnear
            · rename_i hlen
              rw [chain.skip_eq n vec hvec (n - seq) (by omega) hlen.2] at hnear
              cases hnear
              rw [Nat.sub_sub_self (by omega)]
            · cases hnear
          · cases hnear
        | none =>
          simp only [hnear] at h
          split at h
          · cases h
          · rename_i hmul
            unfold LedgerIds.farHash at h
            split at h
            · rename_i lastSeq vec hvec
              obtain ⟨hlast, hseq, hfar⟩ := chain.skipAt_eq n seq lastSeq vec hvec
              dsimp only at h
              split at h
              · rename_i hlen
                rw [hfar _ hlen] at h
                cases h
                have hpos : lastSeq - 256 * ((lastSeq - seq) / 256) = seq := by omega
                rw [hpos]
              · cases h
            · cases h

/-! ## The state -/

structure Search (L : Type) where
  valLedger : L
  seq : Nat
  pubSeq : Nat
  acqCount : Nat := 0
  ret : List L := []

/-- Where the advance thread is. The ledger in front is the validated one it started from. -/
inductive Advance (L : Type) where
  | idle
  | searching (s : Search L)
  /-- In `setFullLedger`, with the lock released. -/
  | filling (valLedger ledger : L) (rest : List L)
  /-- About to take the lock for `setPubLedger`. -/
  | marking (valLedger ledger : L) (rest : List L)
  /-- In `pubLedger`, with the lock released. -/
  | announcing (valLedger ledger : L) (rest : List L)

def Advance.publish (valLedger : L) : List L → Advance L
  | [] => .idle
  | ledger :: rest => .filling valLedger ledger rest

structure Publication (L : Type) where
  ledger : L
  valLedger : L

structure State (L : Type) where
  mValidLedger : Option L := none
  mValidLedgerSeq : Nat := 0
  mPubLedger : Option L := none
  mPubLedgerSeq : Nat := 0
  advance : Advance L := .idle
  /-- The calls of `pubLedger` so far, in order. -/
  published : List (Publication L) := []

def MAX_LEDGER_GAP : Nat := 100

section Steps

variable (ids : LedgerIds L) (st : State L)

def State.setValidLedger (l : L) : State L :=
  { st with mValidLedger := some l, mValidLedgerSeq := ids.seq l }

def State.setPubLedger (l : L) : State L :=
  { st with mPubLedger := some l, mPubLedgerSeq := ids.seq l }

def State.setFirstPubLedger (l : L) : State L :=
  match st.mPubLedger with
  | none => st.setPubLedger ids l
  | some _ => st

def State.setFullLedger (ledger : L) : State L :=
  let st := if ids.seq ledger > st.mValidLedgerSeq then st.setValidLedger ids ledger else st
  st.setFirstPubLedger ids ledger

def State.checkAccept (ledger : L) (canBeCurrent : Bool) (tvc minVal : Nat) : State L :=
  if !canBeCurrent then st
  else if ids.seq ledger ≤ st.mValidLedgerSeq then st
  else if tvc < minVal then st
  else (st.setValidLedger ids ledger).setFirstPubLedger ids ledger

/-- `findNewLedgersToPublish` up to where it lets go of the lock, or to its end. -/
def State.findNewLedgersToPublish : State L :=
  match st.mValidLedger with
  | none => { st with advance := .idle }
  | some valLedger =>
    match st.mPubLedger with
    | none => { st with advance := .publish valLedger [valLedger] }
    | some _ =>
      if st.mValidLedgerSeq > (st.mPubLedgerSeq + MAX_LEDGER_GAP) % 2 ^ 32 then
        { st.setPubLedger ids valLedger with advance := .publish valLedger [valLedger] }
      else if st.mValidLedgerSeq ≤ st.mPubLedgerSeq then { st with advance := .publish valLedger [] }
      else
        let pubSeq := (st.mPubLedgerSeq + 1) % 2 ^ 32
        { st with advance := .searching { valLedger, seq := pubSeq, pubSeq } }

end Steps

/-- How the lookups go in one round of the search: in the ledger history and by an acquisition. -/
structure Lookups (L : Type) where
  getLedgerByHash : Option L
  acquire : Option L

def Lookups.Honest (ids : LedgerIds L) (look : Lookups L) (hash : Uint256) : Prop :=
  (∀ l, look.getLedgerByHash = some l → ids.hash l = hash) ∧ ∀ l, look.acquire = some l → ids.hash l = hash

def Search.hash (ids : LedgerIds L) (s : Search L) : Uint256 := (ids.hashOfSeq s.valLedger s.seq).getD 0

section Round

variable (ids : LedgerIds L) (ledger_fetch_size : Nat) (s : Search L) (look : Lookups L)

def Search.known : Option L :=
  if s.seq = ids.seq s.valLedger then some s.valLedger
  else if s.hash ids = 0 then none
  else look.getLedgerByHash

def Search.nextAcqCount : Nat := if (s.known ids look).isNone then s.acqCount + 1 else s.acqCount

def Search.fetched : Option L :=
  if (s.known ids look).isNone ∧ s.nextAcqCount ids look < ledger_fetch_size then look.acquire
  else s.known ids look

def Search.round : Search L :=
  let next := { s with seq := (s.seq + 1) % 2 ^ 32, acqCount := s.nextAcqCount ids look }
  match s.fetched ids ledger_fetch_size look with
  | some l =>
    if ids.seq l = s.pubSeq then { next with ret := s.ret ++ [l], pubSeq := (s.pubSeq + 1) % 2 ^ 32 }
    else next
  | none => next

end Round

/-! ## Runs -/

/-- The states that the threads reach. Ledgers are on the chain, and their numbers satisfy `C`. -/
inductive Run {ids : LedgerIds L} (chain : LedgerChain ids) (ledger_fetch_size : Nat) (C : Nat → Prop) :
    State L → Prop
  | start : Run chain ledger_fetch_size C {}
  | accept {st} (n : Nat) (canBeCurrent : Bool) (tvc minVal : Nat) : Run chain ledger_fetch_size C st →
      0 < n → n < 2 ^ 32 → C n →
      Run chain ledger_fetch_size C (st.checkAccept ids (chain.ledger n) canBeCurrent tvc minVal)
  | full {st} (n : Nat) : Run chain ledger_fetch_size C st → 0 < n → n < 2 ^ 32 → C n →
      Run chain ledger_fetch_size C (st.setFullLedger ids (chain.ledger n))
  | find {st} : Run chain ledger_fetch_size C st → st.advance = .idle →
      Run chain ledger_fetch_size C (st.findNewLedgersToPublish ids)
  | round {st s} (look : Lookups L) : Run chain ledger_fetch_size C st → st.advance = .searching s →
      s.seq ≤ ids.seq s.valLedger → look.Honest ids (s.hash ids) →
      Run chain ledger_fetch_size C { st with advance := .searching (s.round ids ledger_fetch_size look) }
  /-- The search ends: the loop is done, or a lookup throws. -/
  | found {st s} : Run chain ledger_fetch_size C st → st.advance = .searching s →
      Run chain ledger_fetch_size C { st with advance := .publish s.valLedger s.ret }
  | fill {st v l rest} : Run chain ledger_fetch_size C st → st.advance = .filling v l rest →
      Run chain ledger_fetch_size C { st.setFullLedger ids l with advance := .marking v l rest }
  | mark {st v l rest} : Run chain ledger_fetch_size C st → st.advance = .marking v l rest →
      Run chain ledger_fetch_size C { st.setPubLedger ids l with advance := .announcing v l rest }
  | announce {st v l rest} : Run chain ledger_fetch_size C st → st.advance = .announcing v l rest →
      Run chain ledger_fetch_size C
        { st with published := st.published ++ [⟨l, v⟩], advance := .publish v rest }

end Ripple.App
