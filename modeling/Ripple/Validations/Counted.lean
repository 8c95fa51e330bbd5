import Ripple.LedgerTrie.PreferredWalk
import Ripple.Validations.Runs

/-!
# Ripple.Validations.Counted

Every trusted validation counts once: `validations_counted`.

The support counters of the trie have 32 bits. `crowd_uncounted` has `2^32` nodes validate one
ledger, and the trie ends with no support at all.
-/

namespace Ripple.Validations

open LedgerTrie
open Ledger (seq ancestor)

/-- The trie gives every ledger the support that it has in `M`, and there is no other support. -/
def Supports {L ID : Type} [Ledger L ID] [DecidableEq L] [DecidableEq ID] (t : LedgerTrie L)
    (M : Multiset L) : Prop :=
  (∀ l, (t.tipSupport l).toNat = M.count l) ∧ t.root.branchSupport.toNat = M.card

section Counted

variable {NodeID L ID : Type} [Ledger L ID] [DecidableEq NodeID] [DecidableEq L] [LinearOrder ID]
variable {T : NodeID → Bool} {N : Finset NodeID} {s : Validations NodeID L ID}
variable {A : Adaptor L ID} {p : ValidationParms}
variable {C : Int → Call NodeID L ID → Validations NodeID L ID → Prop}

theorem supports_of_reachable [ExactAncestry L] {t : LedgerTrie L} {M : Multiset L}
    (h : LedgerTrie.Reachable t M) : Supports t M := by
  have hm := h.models
  refine ⟨hm.tipSupport, ?_⟩
  have hsmall := hm.small
  rw [← hm.card_tips] at hsmall ⊢
  exact LedgerTrie.Node.branch_toNat hm.sums hsmall

/-- In every run the trie supports the ledgers of `lastLedger_`, a node waits for at most the ledger
of its validation, and a trusted validation is waited for or counted. -/
theorem validations_counted [ExactAncestry L] (h : Run A p C T N s) :
    (N.card < 2 ^ 32 → Supports s.trie_ s.lastLedger_.values) ∧
    (∀ n k, s.Waits k n → ∃ v, s.current_.lookup n = some v ∧ k = v.ledger) ∧
    (∀ n k k', s.Waits k n → s.Waits k' n → k = k') ∧
    ∀ n v, s.current_.lookup n = some v → v.trusted = true →
      s.Waits v.ledger n ∨ ∃ l, s.lastLedger_.lookup n = some l ∧ Ledger.id l = v.ledgerID := by
  have hi := h.inv
  have hwait : ∀ n k, s.Waits k n → ∃ v, s.current_.lookup n = some v ∧ k = v.ledger := by
    intro n k hk
    obtain ⟨v, hv, -, hkey⟩ := (hi.accounted n).waiting k hk
    exact ⟨v, hv, hkey⟩
  refine ⟨fun hc => supports_of_reachable (hi.backed.reach hc), hwait, fun n k k' hk hk' => ?_,
    fun n => (hi.accounted n).settled⟩
  obtain ⟨v, hv, rfl⟩ := hwait n k hk
  obtain ⟨v', hv', rfl⟩ := hwait n k' hk'
  rw [hv] at hv'
  cases hv'
  rfl

omit [DecidableEq L]

theorem add_new {t now : Int} {n : NodeID} {val : Validation ID} {e : SeqEnforcer}
    (hcur : isCurrent p t val.signTime val.seenTime = true)
    (hadv : ((s.seqEnforcers_.lookup n).getD {}).advance now val.seq p = (true, e))
    (hnew : s.current_.lookup n = none) (ht : val.trusted = true) :
    (add A p t now n val s).2 = updateTrie A { s with
      seqEnforcers_ := s.seqEnforcers_.insert n e
      byLedger_ := setByLedger s.byLedger_ now n val
      current_ := s.current_.insert n val } n val none := by
  simp [add, hcur, hadv, hnew, ht]

theorem updateTrie_acquired {n : NodeID} {val : Validation ID} {l : L}
    (hempty : s.acquiring_ = ∅) (hl : A.acquire (s.asked + 1) val.ledgerID = some l) :
    updateTrie A s n val none = { s with asked := s.asked + 2 }.updateTrieLedger n l := by
  have hnil : A.order s.asked ([] : List (Nat × ID)) = [] := (A.order_perm _ _).eq_nil
  have hcheck : checkAcquired A s = { s with asked := s.asked + 1 } := by
    rw [checkAcquired, hempty, AList.keys_empty, hnil]
    rfl
  rw [updateTrie_eq, clearPrior, hcheck, follow, hempty, if_neg (AList.notMem_empty _)]
  simp only [hl]

theorem exists_walk_isPrefix (M : Multiset L) (k : Nat) : ∃ x : L, walk M k <+: history x := by
  cases (steps_walkFrom _ _ : Steps M k _ (walk M k)).eq_or_support with
  | inl heq =>
    refine ⟨Ledger.makeGenesis, ?_⟩
    rw [walk, ← heq]
    exact hist_isPrefix_iff.mpr ⟨by omega, fun _ _ => rfl⟩
  | inr hpos =>
    obtain ⟨x, -, hx⟩ := Multiset.countP_pos.mp hpos
    exact ⟨x, hx⟩

omit [LinearOrder ID] in
theorem agree_succ_iff [ExactAncestry L] {x curr : L} {n : Nat} (hx : n ≤ seq x)
    (hn : n ≤ seq curr) :
    Agree x curr (n + 1) ↔ ancestor x n = ancestor curr n :=
  ⟨fun h => h n n.lt_succ_self, fun h _ hr =>
    ExactAncestry.agree_below hx hn h (Nat.lt_succ_iff.mp hr)⟩

/-- The walk over the ledgers `M` prefers a ledger. The working ledger stays if it has that one in its
history or is its parent. -/
def preferred (M : Multiset L) (largestIssued : Nat) (curr : L) : Option (Nat × ID) :=
  let path := walk M largestIssued
  if path <+: history curr ∨ path.dropLast = history curr then some (seq curr, Ledger.id curr)
  else path.getLast?.map (path.length - 1, ·)

theorem getPreferred_follows_walk [DecidableEq L] [ExactAncestry L] (h : Run A p C T N s) (hN : N.card < 2 ^ 32)
    (t : Int) (curr : L) : (getPreferred A p t curr s).1 =
      if (refresh A p t s).lastLedger_.values = 0 then mostAcquiring A (refresh A p t s)
      else preferred (refresh A p t s).lastLedger_.values s.localSeqEnforcer_.largest curr := by
  have hm := ((refresh_inv A p h.inv (t := t)).backed.reach hN).models
  rw [getPreferred, withTrie, preferred]
  generalize (refresh A p t s).lastLedger_.values = M at hm ⊢
  by_cases hM : M = 0
  · rw [if_pos hM, LedgerTrie.getPreferred, if_pos (hm.empty_iff.mpr hM)]
  obtain ⟨tip, htip, hpath, hid⟩ := hm.getPreferred s.localSeqEnforcer_.largest hM
  obtain ⟨x, hx⟩ := exists_walk_isPrefix M s.localSeqEnforcer_.largest
  rw [← hpath, SpanTip.path] at hx ⊢
  obtain ⟨hle, hagree⟩ := hist_isPrefix_iff.mp hx
  rw [hist_inj.mpr ⟨rfl, hagree⟩, if_neg hM]
  have hanc : ∀ r ≤ tip.seq, tip.ancestor r = ancestor x r := fun r hr => hagree r (by omega)
  have hon : hist x (tip.seq + 1) <+: history curr ↔
      tip.seq ≤ seq curr ∧ ancestor curr tip.seq = tip.id := by
    rw [history, hist_isPrefix_iff]
    grind [agree_succ_iff]
  have hparent : (hist x (tip.seq + 1)).dropLast = history curr ↔
      tip.seq = seq curr + 1 ∧ tip.ancestor (seq curr) = Ledger.id curr := by
    rw [hist_succ, List.dropLast_concat, history, hist_inj, ExactAncestry.id_eq_ancestor]
    grind [agree_succ_iff]
  have hlast : (hist x (tip.seq + 1)).getLast? = some tip.id := by
    rw [hist_succ, List.getLast?_concat, hid, hanc _ le_rfl]
  simp only [htip, hon, hparent, hlast, length_hist, Option.map_some, Nat.add_sub_cancel]
  grind

end Counted

def chainAdaptor (known : List Nat → Bool) : Adaptor Chain (List Nat) where
  acquire _ i := if known i then some ⟨i⟩ else none
  acquire_id h := by
    split at h
    · cases h
      rfl
    · cases h
  order _ xs := xs
  order_perm _ _ := .refl _

def chainValidation (ledgerID : List Nat) : Validation (List Nat) :=
  { ledgerID := ledgerID, seq := ledgerID.length, signTime := 100, seenTime := 100, trusted := true }

def crowd : Nat → Validations Nat Chain (List Nat)
  | 0 => make
  | k + 1 => (Call.add k (chainValidation [1])).exec (chainAdaptor fun _ => true) {} 100 0 (crowd k)

abbrev Anything (_ : Int) (_ : Call Nat Chain (List Nat)) (_ : Validations Nat Chain (List Nat)) :
    Prop := True

theorem crowd_run (k : Nat) : Run (chainAdaptor fun _ => true) {} Anything (fun _ => true)
    (Finset.range k) (crowd k) := by
  induction k with
  | zero => exact .make _
  | succ k ih =>
    have h := ih.call 100 0 (.add k (chainValidation [1])) trivial (by rintro n v h; cases h; rfl)
    rw [Finset.range_add_one, Finset.insert_eq, Finset.union_comm]
    exact h

theorem validations_counted_three : Supports (crowd 3).trie_ (crowd 3).lastLedger_.values :=
  (validations_counted (crowd_run 3)).1 (by decide)

theorem getPreferred_follows_walk_three :
    (getPreferred (chainAdaptor fun _ => true) {} 100 ⟨[2]⟩ (crowd 3)).1 =
      preferred (refresh (chainAdaptor fun _ => true) {} 100 (crowd 3)).lastLedger_.values 0 ⟨[2]⟩ :=
  (getPreferred_follows_walk (crowd_run 3) (by decide) 100 ⟨[2]⟩).trans (if_neg (by decide))

def soloTrie (c : UInt32) : LedgerTrie Chain :=
  ⟨⟨.genesis, 0, c, [⟨⟨1, 2, ⟨[1]⟩, by decide⟩, c, c, []⟩]⟩, ⟨[(1, c)], List.pairwise_singleton _ _⟩⟩

theorem soloTrie_insert (c : UInt32) : (soloTrie c).insert ⟨[1]⟩ 1 = soloTrie (c + 1) := rfl

theorem make_insert : (LedgerTrie.make : LedgerTrie Chain).insert ⟨[1]⟩ 1 = soloTrie 1 := rfl

structure Crowded (k : Nat) (s : Validations Nat Chain (List Nat)) : Prop where
  current : ∀ n ∈ s.current_, n < k
  enforcers : ∀ n ∈ s.seqEnforcers_, n < k
  last : ∀ n ∈ s.lastLedger_, n < k
  acquiring : s.acquiring_ = ∅
  card : s.lastLedger_.values.card = k
  trie : 0 < k → s.trie_ = soloTrie (UInt32.ofNat k)
  empty : k = 0 → s.trie_ = LedgerTrie.make

theorem Crowded.add {k : Nat} {s : Validations Nat Chain (List Nat)} (h : Crowded k s) :
    Crowded (k + 1)
      ((Call.add k (chainValidation [1])).exec (chainAdaptor fun _ => true) {} 100 0 s) := by
  have hnew : ∀ {V : Type} {m : HashMap Nat V}, (∀ n ∈ m, n < k) → k ∉ m :=
    fun hm hk => lt_irrefl k (hm k hk)
  have hins : ∀ {V : Type} {m : HashMap Nat V} {v : V}, (∀ n ∈ m, n < k) →
      ∀ n ∈ m.insert k v, n < k + 1 := by
    intro V m v hm n hn
    cases (AList.mem_insert _).mp hn with
    | inl heq => omega
    | inr hn => exact (hm n hn).trans (Nat.lt_succ_self k)
  have he := AList.lookup_eq_none.mpr (hnew h.enforcers)
  rw [Call.exec, add_new (e := ⟨1, 0⟩) rfl (by rw [he]; rfl)
    (AList.lookup_eq_none.mpr (hnew h.current)) rfl,
    updateTrie_acquired (l := ⟨[1]⟩) (by exact h.acquiring) rfl]
  have hl := AList.lookup_eq_none.mpr (hnew h.last)
  refine ⟨hins h.current, hins h.enforcers, hins h.last, h.acquiring, ?_, fun _ => ?_, fun h0 => ?_⟩
  · simp only [updateTrieLedger, AList.values_insert_of_notMem _ (hnew h.last), Multiset.card_cons,
      h.card]
  · simp only [updateTrieLedger, hl]
    cases Nat.eq_zero_or_pos k with
    | inl h0 =>
      rw [h.empty h0, h0]
      exact make_insert
    | inr hpos =>
      rw [h.trie hpos, soloTrie_insert, ← UInt32.ofNat_one, ← UInt32.ofNat_add]
  · cases h0

theorem crowd_crowded (k : Nat) : Crowded k (crowd k) := by
  induction k with
  | zero =>
    refine ⟨?_, ?_, ?_, rfl, rfl, fun h => absurd h (lt_irrefl 0), fun _ => rfl⟩
    · exact fun n hn => absurd hn (AList.notMem_empty n)
    · exact fun n hn => absurd hn (AList.notMem_empty n)
    · exact fun n hn => absurd hn (AList.notMem_empty n)
  | succ k ih => exact ih.add

/-- After `2^32` validations of one ledger the tables hold all of them and the trie none. -/
theorem crowd_uncounted : ∃ (T : Nat → Bool) (N : Finset Nat) (s : Validations Nat Chain (List Nat)),
    Run (chainAdaptor fun _ => true) {} Anything T N s ∧ N.card = 2 ^ 32 ∧
      s.lastLedger_.values.card = 2 ^ 32 ∧ s.trie_.root.branchSupport = 0 ∧
      ¬ Supports s.trie_ s.lastLedger_.values := by
  have h := crowd_crowded (2 ^ 32)
  have hroot : (crowd (2 ^ 32)).trie_.root.branchSupport = 0 := by
    rw [h.trie (by decide)]
    rfl
  refine ⟨_, _, _, crowd_run (2 ^ 32), Finset.card_range _, h.card, hroot, fun hs => ?_⟩
  have := hs.2
  rw [hroot, h.card] at this
  cases this

end Ripple.Validations
