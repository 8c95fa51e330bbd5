import Ripple.LedgerTrie.Recover

/-!
# Ripple.RCLValidations.Ledger

`RCLValidatedLedger` of `app/consensus/RCLValidations.{h,cpp}`, the ledger type that the validations
of the server use. It knows the ids of its parents from the ledger's skip list, at most 256 of
them, and answers id 0 for all others.

* `LawfulLedger` holds: `mismatch` stays within the bounds that the trie relies on.
* `ancestor_of_mismatch`: a ledger that matches another to its end has it as an ancestor.
* `remove_misses_support`: since a ledger only knows its last 256 parents, a child of the root may match
  a ledger that is held in another child behind it. `remove` then searches the first one and misses
  the support. It does happen, with four ledgers of one chain.
-/

namespace Ripple

/-- A validated ledger: its hash, its sequence number and the hashes of its recent parents, oldest
first. -/
structure RCLValidatedLedger where
  ledgerID_ : Nat
  ledgerSeq_ : Nat
  ancestors_ : List Nat
deriving DecidableEq

namespace RCLValidatedLedger

variable (l : RCLValidatedLedger)

/-- The lowest sequence number at which the ancestor is known. -/
def minSeq : Nat := l.ledgerSeq_ - min l.ledgerSeq_ l.ancestors_.length

/-- `operator[]`. -/
def ancestor (s : Nat) : Nat :=
  if l.minSeq ≤ s ∧ s ≤ l.ledgerSeq_ then
    if s = l.ledgerSeq_ then l.ledgerID_
    else l.ancestors_.getD (l.ancestors_.length - (l.ledgerSeq_ - s)) 0
  else 0

/-- The loop of `mismatch`, from `curr` down. -/
def searchDown (a b : RCLValidatedLedger) (lower : Nat) : Nat → Nat
  | 0 => 0
  | curr + 1 =>
    if a.ancestor (curr + 1) ≠ b.ancestor (curr + 1) ∧ lower ≤ curr + 1 then
      searchDown a b lower curr
    else curr + 1

/-- The earliest sequence number at which the ancestors may differ, 1 when nothing known agrees. -/
def mismatch (a b : RCLValidatedLedger) : Nat :=
  let lower := max a.minSeq b.minSeq
  let curr := searchDown a b lower (min a.ledgerSeq_ b.ledgerSeq_)
  if curr < lower then 1 else curr + 1

instance : Ledger RCLValidatedLedger Nat where
  makeGenesis := ⟨0, 0, []⟩
  seq := ledgerSeq_
  id := ledgerID_
  ancestor := ancestor
  mismatch := mismatch

theorem minSeq_le : l.minSeq ≤ l.ledgerSeq_ := Nat.sub_le _ _

@[simp] theorem ancestor_self : l.ancestor l.ledgerSeq_ = l.ledgerID_ := by
  simp [ancestor, l.minSeq_le]

theorem searchDown_le (a b : RCLValidatedLedger) (lower curr : Nat) :
    searchDown a b lower curr ≤ curr := by
  induction curr with
  | zero => simp [searchDown]
  | succ curr ih =>
    simp only [searchDown]
    split
    · omega
    · omega

theorem searchDown_eq {a b : RCLValidatedLedger} {lower curr : Nat} (hpos : 0 < curr)
    (hlow : lower ≤ curr) (h : searchDown a b lower curr = curr) :
    a.ancestor curr = b.ancestor curr := by
  cases curr with
  | zero => omega
  | succ curr =>
    simp only [searchDown] at h
    split at h
    · have := searchDown_le a b lower curr
      omega
    · rename_i hstop
      by_contra hne
      exact hstop ⟨hne, hlow⟩

theorem searchDown_self (a : RCLValidatedLedger) (lower curr : Nat) :
    searchDown a a lower curr = curr := by
  cases curr with
  | zero => rfl
  | succ curr => simp [searchDown]

theorem mismatch_le (a b : RCLValidatedLedger) : a.mismatch b ≤ min a.ledgerSeq_ b.ledgerSeq_ + 1 := by
  have := searchDown_le a b (max a.minSeq b.minSeq) (min a.ledgerSeq_ b.ledgerSeq_)
  simp only [mismatch]
  split
  · omega
  · omega

instance : LedgerTrie.LawfulLedger RCLValidatedLedger where
  genesis_seq := rfl
  mismatch_pos a b := by
    show 0 < a.mismatch b
    simp only [mismatch]
    split
    · omega
    · omega
  mismatch_le_left a b := (mismatch_le a b).trans (by simp [Ledger.seq])
  mismatch_le_right a b := (mismatch_le a b).trans (by simp [Ledger.seq])
  mismatch_self a := by
    have := a.minSeq_le
    show a.mismatch a = a.ledgerSeq_ + 1
    simp only [mismatch, searchDown_self, max_self, min_self]
    rw [if_neg (by omega)]

theorem ancestor_of_mismatch {a b : RCLValidatedLedger} (hpos : 0 < b.ledgerSeq_)
    (h : b.ledgerSeq_ + 1 ≤ a.mismatch b) : a.ancestor b.ledgerSeq_ = b.ledgerID_ := by
  have hle := searchDown_le a b (max a.minSeq b.minSeq) (min a.ledgerSeq_ b.ledgerSeq_)
  simp only [mismatch] at h
  split at h
  · omega
  · rename_i hlow
    have hmin : min a.ledgerSeq_ b.ledgerSeq_ = b.ledgerSeq_ := by omega
    rw [hmin] at h hle hlow
    have heq := searchDown_eq (a := a) (b := b) hpos (by omega)
      (show searchDown a b (max a.minSeq b.minSeq) b.ledgerSeq_ = b.ledgerSeq_ by omega)
    rw [heq, ancestor_self]

/-! ## The trie over these ledgers -/

open LedgerTrie

/-- Ledgers that were closed (the genesis ledger of the network has sequence number 1), named by
their sequence numbers and hashes. The number behind that of a ledger fits into 32 bits. -/
structure Closed (F : Set RCLValidatedLedger) : Prop where
  seq_pos : ∀ l ∈ F, 0 < l.ledgerSeq_
  seq_lt : ∀ l ∈ F, l.ledgerSeq_ + 1 < 2 ^ 32
  hash_inj : ∀ x ∈ F, ∀ y ∈ F, x.ledgerSeq_ = y.ledgerSeq_ → x.ledgerID_ = y.ledgerID_ → x = y

theorem Closed.family {F : Set RCLValidatedLedger} (h : Closed F) : Family F where
  identified x hx y hy hk := h.hash_inj x hx y hy (congrArg Prod.fst hk) (congrArg Prod.snd hk)
  ancestor_of_mismatch x hx _ hm := ancestor_of_mismatch (h.seq_pos x hx) hm

/-- A ledger that was inserted more often than removed is taken out by the next `remove` exactly if
it is not shadowed in the trie at that point. -/
theorem remove_recovers_iff {F : Set RCLValidatedLedger} (hF : Closed F)
    {ops : List (TrieOp RCLValidatedLedger)} {t : LedgerTrie RCLValidatedLedger}
    (h : Run F ops t) {l : RCLValidatedLedger} (hl : l ∈ F)
    (hmore : removed l ops < inserted l ops) :
    ((t.remove l 1).1 = true ∧
      (t.remove l 1).2.root.branchSupport.toNat + 1 = t.root.branchSupport.toNat) ↔
      Unshadowed t l :=
  h.remove_iff hF.family hl hmore

/-- The ledger at `s` of the chain whose hashes are `1000 + s`, with the skip list of the source. -/
def chainLedger (s : Nat) : RCLValidatedLedger :=
  ⟨1000 + s, s, (List.range (min 256 (s - 1))).map fun i => 1000 + (s - min 256 (s - 1) + i)⟩

def chain : Set RCLValidatedLedger := { l | ∃ s, 0 < s ∧ s + 1 < 2 ^ 32 ∧ l = chainLedger s }

theorem chain_closed : Closed chain where
  seq_pos := by
    rintro l ⟨s, hs, -, rfl⟩
    exact hs
  seq_lt := by
    rintro l ⟨s, -, hs, rfl⟩
    exact hs
  hash_inj := by
    rintro x ⟨s, -, -, rfl⟩ y ⟨s', -, -, rfl⟩ (hseq : s = s') -
    rw [hseq]

theorem chainLedger_mem {s : Nat} (hs : 0 < s) (hlt : s + 1 < 2 ^ 32) : chainLedger s ∈ chain :=
  ⟨s, hs, hlt, rfl⟩

/-- Ledger 1000 does not know ledger 1, so the root has two children. -/
def forked : LedgerTrie RCLValidatedLedger :=
  (((make : LedgerTrie RCLValidatedLedger).insert (chainLedger 1000) 1).insert
    (chainLedger 1) 1).insert (chainLedger 200) 1

def forkedOps : List (TrieOp RCLValidatedLedger) :=
  [.insert (chainLedger 1000), .insert (chainLedger 1), .insert (chainLedger 200)]

theorem forked_run : Run chain forkedOps forked :=
  .insert _ (.insert _ (.insert _ .make
    (chainLedger_mem (by decide) (by decide)) (by decide +kernel))
    (chainLedger_mem (by decide) (by decide)) (by decide +kernel))
    (chainLedger_mem (by decide) (by decide)) (by decide +kernel)

theorem remove_recovers_iff_forked : Unshadowed forked (chainLedger 200) ∧
    (forked.remove (chainLedger 200) 1).1 = true := by
  have hremove : (forked.remove (chainLedger 200) 1).1 = true ∧
      (forked.remove (chainLedger 200) 1).2.root.branchSupport.toNat + 1 =
        forked.root.branchSupport.toNat := by decide +kernel
  have hl : chainLedger 200 ∈ chain := chainLedger_mem (by decide) (by decide)
  have hiff := remove_recovers_iff chain_closed forked_run hl (by decide +kernel)
  exact ⟨hiff.1 hremove, hremove.1⟩

/-- Ledger 300 is inserted too and 1000 removed: 300 then stands in front of 1. -/
def shadowed : LedgerTrie RCLValidatedLedger :=
  ((forked.insert (chainLedger 300) 1).remove (chainLedger 1000) 1).2

def shadowedOps : List (TrieOp RCLValidatedLedger) :=
  forkedOps ++ [.insert (chainLedger 300)] ++ [.remove (chainLedger 1000)]

theorem shadowed_run : Run chain shadowedOps shadowed :=
  .remove _ (.insert _ forked_run (chainLedger_mem (by decide) (by decide)) (by decide +kernel))
    (chainLedger_mem (by decide) (by decide))

theorem remove_misses_support :
    Closed chain ∧ Run chain shadowedOps shadowed ∧ chainLedger 200 ∈ chain ∧
      removed (chainLedger 200) shadowedOps < inserted (chainLedger 200) shadowedOps ∧
      (shadowed.remove (chainLedger 200) 1).1 = false ∧
      (shadowed.remove (chainLedger 200) 1).2.root.branchSupport = shadowed.root.branchSupport :=
  ⟨chain_closed, shadowed_run, chainLedger_mem (by decide) (by decide), by decide +kernel, by decide +kernel,
    by decide +kernel⟩

end RCLValidatedLedger
end Ripple
