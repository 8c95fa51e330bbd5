import Ripple.LedgerTrie.Basic
import Ripple.Lib.HashMap

/-!
# Ripple.Validations.Basic

The tables of `consensus/Validations.h` and the calls that change them: `add`, `trustChanged`,
`expire`, and the refresh that comes before every use of the trie.

What the code cannot decide itself comes from the `Adaptor`: whether a ledger can be acquired, and
the order in which a hash table is iterated. Every question has a number, so that it may be answered
differently the next time.
-/

namespace Ripple

structure ValidationParms where
  validationCURRENT_WALL : Int := 5 * 60
  validationCURRENT_LOCAL : Int := 3 * 60
  validationCURRENT_EARLY : Int := 3 * 60
  validationSET_EXPIRES : Int := 10 * 60

/-- The largest sequence number that a node validated, and when. -/
structure SeqEnforcer where
  seq_ : Nat := 0
  when_ : Int := 0
deriving DecidableEq

/-- `operator()`: whether a validation for `s` may be issued now. -/
def SeqEnforcer.advance (e : SeqEnforcer) (now : Int) (s : Nat) (p : ValidationParms) :
    Bool × SeqEnforcer :=
  let seq := if now > e.when_ + p.validationSET_EXPIRES then 0 else e.seq_
  if s ≤ seq then (false, { e with seq_ := seq }) else (true, ⟨s, now⟩)

def SeqEnforcer.largest (e : SeqEnforcer) : Nat := e.seq_

/-- Times count from the epoch of the network clock, so time 0 means that the validation was not
seen on the network. -/
def isCurrent (p : ValidationParms) (now signTime seenTime : Int) : Bool :=
  signTime > now - p.validationCURRENT_EARLY && signTime < now + p.validationCURRENT_WALL &&
    (seenTime == 0 || seenTime < now + p.validationCURRENT_LOCAL)

inductive ValStatus where
  | current
  | stale
  | badSeq
deriving DecidableEq

structure Validation (ID : Type) where
  ledgerID : ID
  seq : Nat
  signTime : Int
  seenTime : Int
  trusted : Bool
  full : Bool := true
  loadFee : Option UInt32 := none
deriving DecidableEq

def Validation.ledger {ID : Type} (v : Validation ID) : Nat × ID := (v.seq, v.ledgerID)

structure Adaptor (L ID : Type) [Ledger L ID] where
  acquire : Nat → ID → Option L
  acquire_id : ∀ {k : Nat} {i : ID} {l : L}, acquire k i = some l → Ledger.id l = i
  order : {α : Type} → Nat → List α → List α
  order_perm : ∀ {α : Type} (k : Nat) (xs : List α), (order k xs).Perm xs

/-- The members of `Validations`. The entries of `byLedger_` carry the time of their last use, the
most recently used one first. -/
structure Validations (NodeID L ID : Type) where
  current_ : HashMap NodeID (Validation ID)
  localSeqEnforcer_ : SeqEnforcer
  seqEnforcers_ : HashMap NodeID SeqEnforcer
  byLedger_ : HashMap ID (Int × HashMap NodeID (Validation ID))
  trie_ : LedgerTrie L
  lastLedger_ : HashMap NodeID L
  acquiring_ : HashMap (Nat × ID) (HashSet NodeID)
  /-- The validations given to `adaptor_.onStale`. -/
  onStale : List (Validation ID)
  asked : Nat

namespace Validations

variable {NodeID L ID : Type} [Ledger L ID]

def make : Validations NodeID L ID :=
  ⟨∅, {}, ∅, ∅, LedgerTrie.make, ∅, ∅, [], 0⟩

variable [DecidableEq NodeID] [DecidableEq ID] (A : Adaptor L ID) (p : ValidationParms)
  (s : Validations NodeID L ID)

def removeTrie (nodeID : NodeID) (val : Validation ID) : Validations NodeID L ID :=
  let s := { s with acquiring_ := s.acquiring_.eraseFrom val.ledger nodeID }
  match s.lastLedger_.lookup nodeID with
  | some l =>
    if Ledger.id l = val.ledgerID then
      { s with trie_ := (s.trie_.remove l 1).2, lastLedger_ := s.lastLedger_.erase nodeID }
    else s
  | none => s

def updateTrieLedger (nodeID : NodeID) (ledger : L) : Validations NodeID L ID :=
  let trie := match s.lastLedger_.lookup nodeID with
    | some l => (s.trie_.remove l 1).2
    | none => s.trie_
  { s with lastLedger_ := s.lastLedger_.insert nodeID ledger, trie_ := trie.insert ledger 1 }

def checkAcquiredAt (key : Nat × ID) : Validations NodeID L ID :=
  match A.acquire s.asked key.2 with
  | some ledger =>
    let nodes := A.order s.asked ((s.acquiring_.lookup key).getD ∅).keys
    let s := nodes.foldl (fun s nodeID => s.updateTrieLedger nodeID ledger) s
    { s with acquiring_ := s.acquiring_.erase key, asked := s.asked + 1 }
  | none => { s with asked := s.asked + 1 }

def checkAcquired : Validations NodeID L ID :=
  (A.order s.asked s.acquiring_.keys).foldl (checkAcquiredAt A) { s with asked := s.asked + 1 }

/-- `updateTrie` for a validation. `prior` is the ledger of the validation that it replaces. -/
def updateTrie (nodeID : NodeID) (val : Validation ID)
    (prior : Option (Nat × ID)) : Validations NodeID L ID :=
  let s := match prior with
    | some key => { s with acquiring_ := s.acquiring_.eraseFrom key nodeID }
    | none => s
  let s := checkAcquired A s
  if val.ledger ∈ s.acquiring_ then
    { s with acquiring_ := s.acquiring_.insertInto val.ledger nodeID }
  else
    let s' := { s with asked := s.asked + 1 }
    match A.acquire s.asked val.ledgerID with
    | some ledger => s'.updateTrieLedger nodeID ledger
    | none => { s' with acquiring_ := s.acquiring_.insertInto val.ledger nodeID }

/-- One validation of the loop of `current`: drop it if it is stale, else let `f` see it. -/
def currentAt {α : Type} (f : α → NodeID → Validation ID → α) (t : Int)
    (r : α × Validations NodeID L ID) (nodeID : NodeID) : α × Validations NodeID L ID :=
  match r.2.current_.lookup nodeID with
  | some val =>
    if isCurrent p t val.signTime val.seenTime then (f r.1 nodeID val, r.2)
    else
      let s := r.2.removeTrie nodeID val
      (r.1, { s with
        current_ := s.current_.erase nodeID
        onStale := s.onStale ++ [val] })
  | none => r

def current {α : Type} (f : α → NodeID → Validation ID → α) (init : α) (t : Int)
    (s : Validations NodeID L ID) : α × Validations NodeID L ID :=
  (A.order s.asked s.current_.keys).foldl (currentAt p f t) (init, { s with asked := s.asked + 1 })

def refresh (t : Int) (s : Validations NodeID L ID) : Validations NodeID L ID :=
  checkAcquired A (current A p (fun _ _ _ => ()) () t s).2

def withTrie {α : Type} (f : LedgerTrie L → α × LedgerTrie L) (t : Int)
    (s : Validations NodeID L ID) : α × Validations NodeID L ID :=
  let s := refresh A p t s
  let r := f s.trie_
  (r.1, { s with trie_ := r.2 })

/-- `byLedger_[val.ledgerID()][nodeID] = val`. Only a new entry gets the current time. -/
def setByLedger (m : HashMap ID (Int × HashMap NodeID (Validation ID))) (now : Int)
    (nodeID : NodeID) (val : Validation ID) : HashMap ID (Int × HashMap NodeID (Validation ID)) :=
  match m.lookup val.ledgerID with
  | some (when_, vals) => m.replace val.ledgerID (when_, vals.insert nodeID val)
  | none => m.insert val.ledgerID (now, AList.singleton nodeID val)

/-- `t` is the network time and `now` that of the steady clock. -/
def add (t now : Int) (nodeID : NodeID) (val : Validation ID) (s : Validations NodeID L ID) :
    ValStatus × Validations NodeID L ID :=
  if !isCurrent p t val.signTime val.seenTime then (.stale, s)
  else
    let r := ((s.seqEnforcers_.lookup nodeID).getD {}).advance now val.seq p
    let s := { s with seqEnforcers_ := s.seqEnforcers_.insert nodeID r.2 }
    if !r.1 then (.badSeq, s)
    else
      let s := { s with byLedger_ := setByLedger s.byLedger_ now nodeID val }
      match s.current_.lookup nodeID with
      | some oldVal =>
        if val.signTime > oldVal.signTime then
          let s := { s with
            onStale := s.onStale ++ [oldVal]
            current_ := s.current_.insert nodeID val }
          (.current, if val.trusted then updateTrie A s nodeID val (some oldVal.ledger) else s)
        else (.stale, s)
      | none =>
        let s := { s with current_ := s.current_.insert nodeID val }
        (.current, if val.trusted then updateTrie A s nodeID val none else s)

/-- `beast::expire`: the least recently used entries go, up to the first that is still young. -/
def expire (now : Int) (s : Validations NodeID L ID) : Validations NodeID L ID :=
  { s with byLedger_ := s.byLedger_.dropOld fun e => e.1 ≤ now - p.validationSET_EXPIRES }

def retrust (added removed : HashSet NodeID) (nodeID : NodeID) (val : Validation ID) :
    Validation ID :=
  if nodeID ∈ added then { val with trusted := true }
  else if nodeID ∈ removed then { val with trusted := false }
  else val

def trustChangedAt (added removed : HashSet NodeID) (s : Validations NodeID L ID)
    (nodeID : NodeID) : Validations NodeID L ID :=
  match s.current_.lookup nodeID with
  | some val =>
    let val := retrust added removed nodeID val
    let s' := { s with current_ := s.current_.insert nodeID val }
    if nodeID ∈ added then updateTrie A s' nodeID val none
    else if nodeID ∈ removed then s'.removeTrie nodeID val
    else s
  | none => s

def trustChanged (added removed : HashSet NodeID) (s : Validations NodeID L ID) :
    Validations NodeID L ID :=
  let s := (A.order s.asked s.current_.keys).foldl (trustChangedAt A added removed)
    { s with asked := s.asked + 1 }
  { s with byLedger_ :=
      s.byLedger_.mapValues fun _ e => (e.1, e.2.mapValues (retrust added removed)) }

end Validations
end Ripple
