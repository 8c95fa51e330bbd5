import Ripple.Validations.Basic

/-!
# Ripple.Validations.Query

The queries of `consensus/Validations.h`. Most of them change the tables as well: they drop stale
validations, complete acquisitions, reorder the trie or touch entries of `byLedger_`.

`Call` lists the calls and `Run` the states that they lead to from the empty tables.
-/

namespace Ripple.Validations

variable {NodeID L ID : Type} [Ledger L ID] [DecidableEq NodeID] [LinearOrder ID]
variable (A : Adaptor L ID) (p : ValidationParms) (now : Int)

def canValidateSeq (seq : Nat) (s : Validations NodeID L ID) : Bool × Validations NodeID L ID :=
  let r := s.localSeqEnforcer_.advance now seq p
  (r.1, { s with localSeqEnforcer_ := r.2 })

/-- `std::max_element`: the first of the largest elements. -/
def maxElement {α : Type} (less : α → α → Bool) : List α → Option α
  | [] => none
  | x :: xs => some (xs.foldl (fun best y => if less best y then y else best) x)

def countLess (a b : Nat × ID) : Bool := a.1 < b.1 || (a.1 == b.1 && a.2 < b.2)

/-- The ledger that most nodes wait for. -/
def mostAcquiring (s : Validations NodeID L ID) : Option (Nat × ID) :=
  (maxElement (fun a b => countLess (a.2.keys.length, a.1.2) (b.2.keys.length, b.1.2))
    (A.order s.asked s.acquiring_.entries)).map Sigma.fst

def getPreferred (t : Int) (curr : L) (s : Validations NodeID L ID) :
    Option (Nat × ID) × Validations NodeID L ID :=
  let r := withTrie A p (fun trie => trie.getPreferred s.localSeqEnforcer_.largest) t s
  match r.1 with
  | none => (mostAcquiring A r.2, { r.2 with asked := r.2.asked + 1 })
  | some preferred =>
    -- A parent of the preferred ledger stays: it may be about to build that ledger.
    if preferred.seq = Ledger.seq curr + 1 ∧ preferred.ancestor (Ledger.seq curr) = Ledger.id curr then
      (some (Ledger.seq curr, Ledger.id curr), r.2)
    else if preferred.seq > Ledger.seq curr then (some (preferred.seq, preferred.id), r.2)
    else if Ledger.ancestor curr preferred.seq ≠ preferred.id then
      (some (preferred.seq, preferred.id), r.2)
    else (some (Ledger.seq curr, Ledger.id curr), r.2)

variable (t : Int)

/-- `getPreferred(curr, minValidSeq)`. -/
def getPreferredFrom (curr : L) (minValidSeq : Nat) (s : Validations NodeID L ID) :
    ID × Validations NodeID L ID :=
  let r := getPreferred A p t curr s
  match r.1 with
  | some preferred => (if preferred.1 ≥ minValidSeq then preferred.2 else Ledger.id curr, r.2)
  | none => (Ledger.id curr, r.2)

def getPreferredLCL (lcl : L) (minSeq : Nat) (peerCounts : HashMap ID UInt32)
    (s : Validations NodeID L ID) : ID × Validations NodeID L ID :=
  let r := getPreferred A p t lcl s
  match r.1 with
  | some preferred => (if preferred.1 ≥ minSeq then preferred.2 else Ledger.id lcl, r.2)
  | none =>
    let best := maxElement (fun a b => countLess (a.2.toNat, a.1) (b.2.toNat, b.1))
      (A.order r.2.asked peerCounts.entries)
    ((best.map Sigma.fst).getD (Ledger.id lcl), { r.2 with asked := r.2.asked + 1 })

def getNodesAfter (ledger : L) (ledgerID : ID) (s : Validations NodeID L ID) :
    Nat × Validations NodeID L ID :=
  if Ledger.id ledger = ledgerID then
    withTrie A p (fun trie =>
      ((trie.branchSupport ledger - trie.tipSupport ledger).toNat, trie)) t s
  else
    (s.lastLedger_.entries.countP fun e =>
      Ledger.seq e.2 > 0 && Ledger.ancestor e.2 (Ledger.seq e.2 - 1) == ledgerID, s)

def currentTrusted (s : Validations NodeID L ID) : List (Validation ID) × Validations NodeID L ID :=
  current A p (fun ret _ v => if v.trusted && v.full then ret ++ [v] else ret) [] t s

def getCurrentNodeIDs (s : Validations NodeID L ID) : HashSet NodeID × Validations NodeID L ID :=
  current A p (fun ret nodeID _ => ret.insert nodeID ()) ∅ t s

variable (ledgerID : ID) (s : Validations NodeID L ID)

/-- The validations for a ledger, in the order of iteration. Looking at them keeps them alive. -/
def byLedger : List (Validation ID) × Validations NodeID L ID :=
  match s.byLedger_.lookup ledgerID with
  | some (_, vals) =>
    ((A.order s.asked vals.entries).map Sigma.snd,
      { s with byLedger_ := s.byLedger_.insert ledgerID (now, vals), asked := s.asked + 1 })
  | none => ([], s)

def getTrustedForLedger : List (Validation ID) × Validations NodeID L ID :=
  let r := byLedger A now ledgerID s
  (r.1.filter fun v => v.trusted && v.full, r.2)

def numTrustedForLedger : Nat × Validations NodeID L ID :=
  let r := getTrustedForLedger A now ledgerID s
  (r.1.length, r.2)

def fees (baseFee : UInt32) (s : Validations NodeID L ID) : List UInt32 × Validations NodeID L ID :=
  let r := getTrustedForLedger A now ledgerID s
  (r.1.map fun v => v.loadFee.getD baseFee, r.2)

/-- The calls, `flush` at shutdown apart. -/
inductive Call (NodeID L ID : Type) where
  | add (nodeID : NodeID) (val : Validation ID)
  | trustChanged (added removed : HashSet NodeID)
  | expire
  | canValidateSeq (seq : Nat)
  | getPreferred (curr : L)
  | getPreferredFrom (curr : L) (minValidSeq : Nat)
  | getPreferredLCL (lcl : L) (minSeq : Nat) (peerCounts : HashMap ID UInt32)
  | getNodesAfter (ledger : L) (ledgerID : ID)
  | currentTrusted
  | getCurrentNodeIDs
  | numTrustedForLedger (ledgerID : ID)
  | getTrustedForLedger (ledgerID : ID)
  | fees (ledgerID : ID) (baseFee : UInt32)

/-- The tables after a call at network time `t` and steady time `now`. -/
def Call.exec (t now : Int) (s : Validations NodeID L ID) :
    Call NodeID L ID → Validations NodeID L ID
  | .add nodeID val => (Validations.add A p t now nodeID val s).2
  | .trustChanged added removed => Validations.trustChanged A added removed s
  | .expire => Validations.expire p now s
  | .canValidateSeq seq => (Validations.canValidateSeq p now seq s).2
  | .getPreferred curr => (Validations.getPreferred A p t curr s).2
  | .getPreferredFrom curr minValidSeq => (Validations.getPreferredFrom A p t curr minValidSeq s).2
  | .getPreferredLCL lcl minSeq peerCounts =>
    (Validations.getPreferredLCL A p t lcl minSeq peerCounts s).2
  | .getNodesAfter ledger ledgerID => (Validations.getNodesAfter A p t ledger ledgerID s).2
  | .currentTrusted => (Validations.currentTrusted A p t s).2
  | .getCurrentNodeIDs => (Validations.getCurrentNodeIDs A p t s).2
  | .numTrustedForLedger ledgerID => (Validations.numTrustedForLedger A now ledgerID s).2
  | .getTrustedForLedger ledgerID => (Validations.getTrustedForLedger A now ledgerID s).2
  | .fees ledgerID baseFee => (Validations.fees A now ledgerID baseFee s).2

def Call.trust (T : NodeID → Bool) : Call NodeID L ID → NodeID → Bool
  | .trustChanged added removed => fun n => n ∈ added || (T n && n ∉ removed)
  | _ => T

def Call.nodes : Call NodeID L ID → Finset NodeID
  | .add nodeID _ => {nodeID}
  | _ => ∅

/-- Calls that meet `C` lead to `s`; the nodes in `T` are trusted, and those in `N` had validations.
Both clocks may show any time. -/
inductive Run (C : Int → Call NodeID L ID → Validations NodeID L ID → Prop) :
    (NodeID → Bool) → Finset NodeID → Validations NodeID L ID → Prop where
  | make (T : NodeID → Bool) : Run C T ∅ make
  | call {T : NodeID → Bool} {N : Finset NodeID} {s : Validations NodeID L ID} (t now : Int)
      (c : Call NodeID L ID) : Run C T N s → C t c s →
      (∀ n v, c = .add n v → v.trusted = T n) →
      Run C (c.trust T) (N ∪ c.nodes) (c.exec A p t now s)

end Ripple.Validations
