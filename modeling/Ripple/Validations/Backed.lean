import Ripple.LedgerTrie.Refine
import Ripple.Validations.Accounts

/-!
# Ripple.Validations.Backed

`Backed`: the trie supports exactly the ledgers of `lastLedger_`, one for each node. The two tables
change together, in `updateTrieLedger` and in `removeTrie`; everything else is built from these.

The counters of the trie hold as long as there are fewer than `2^32` nodes.
-/

namespace Ripple.Validations

open LedgerTrie (Reachable)

variable {NodeID L ID : Type} [Ledger L ID]
variable {N : Finset NodeID} {s : Validations NodeID L ID} {n : NodeID}

theorem card_values_le [DecidableEq NodeID] {m : HashMap NodeID L} (h : ∀ n ∈ m, n ∈ N) :
    m.values.card ≤ N.card := by
  rw [AList.card_values, ← List.toFinset_card_of_nodup m.keys_nodup]
  refine Finset.card_le_card fun n hn => ?_
  exact h n (AList.mem_keys.mpr (List.mem_toFinset.mp hn))

variable [DecidableEq L]

structure Backed (N : Finset NodeID) (s : Validations NodeID L ID) : Prop where
  known : ∀ n ∈ s.lastLedger_, n ∈ N
  reach : N.card < 2 ^ 32 → Reachable s.trie_ s.lastLedger_.values

theorem Backed.mono {N' : Finset NodeID} (h : Backed N s) (hN : N ⊆ N') : Backed N' s :=
  ⟨fun n hn => hN (h.known n hn), fun hc => h.reach (lt_of_le_of_lt (Finset.card_le_card hN) hc)⟩

theorem Backed.congr {s' : Validations NodeID L ID} (h : Backed N s)
    (hl : s'.lastLedger_ = s.lastLedger_) (ht : s'.trie_ = s.trie_) : Backed N s' :=
  ⟨hl ▸ h.known, hl ▸ ht ▸ h.reach⟩

theorem backed_make : Backed N (make : Validations NodeID L ID) :=
  ⟨fun n hn => absurd hn (AList.notMem_empty n), fun _ => Reachable.make⟩

theorem reachable_insert_one {t : LedgerTrie L} {M : Multiset L} (h : Reachable t M) (l : L)
    (hc : M.card + 1 < 2 ^ 32) : Reachable (t.insert l 1) (l ::ₘ M) := by
  have h' := h.insert l 1 (by decide) hc
  rw [← Multiset.singleton_add, add_comm]
  exact h'

theorem reachable_remove_one {t : LedgerTrie L} {M : Multiset L} {l : L}
    (h : Reachable t (l ::ₘ M)) : Reachable (t.remove l 1).2 M := by
  have h' := h.remove l 1
  have hM : l ::ₘ M - Multiset.replicate (1 : UInt32).toNat l = M := by
    show l ::ₘ M - {l} = M
    rw [Multiset.sub_singleton, Multiset.erase_cons_head]
  rw [hM] at h'
  exact h'

variable [DecidableEq NodeID]

theorem updateTrieLedger_backed (h : Backed N s) (hn : n ∈ N) (l : L) :
    Backed N (s.updateTrieLedger n l) := by
  have hknown : ∀ m ∈ (s.updateTrieLedger n l).lastLedger_, m ∈ N := by
    intro m hm
    cases (AList.mem_insert _).mp hm with
    | inl heq => exact heq ▸ hn
    | inr hm => exact h.known m hm
  refine ⟨hknown, fun hc => ?_⟩
  have hle := card_values_le hknown
  rw [updateTrieLedger] at hle ⊢
  cases hl : s.lastLedger_.lookup n with
  | none =>
    have hnot := AList.lookup_eq_none.mp hl
    simp only [AList.values_insert_of_notMem l hnot, Multiset.card_cons] at hle ⊢
    exact reachable_insert_one (h.reach hc) l (by omega)
  | some l' =>
    have hr := h.reach hc
    rw [AList.values_erase hl] at hr
    simp only [AList.values_insert, Multiset.card_cons] at hle ⊢
    exact reachable_insert_one (reachable_remove_one hr) l (by omega)

variable [DecidableEq ID]

theorem removeTrie_backed (h : Backed N s) (val : Validation ID) : Backed N (s.removeTrie n val) := by
  rw [removeTrie]
  cases hl : s.lastLedger_.lookup n with
  | none => exact ⟨h.known, h.reach⟩
  | some l =>
    simp only
    split
    · refine ⟨fun m hm => h.known m (AList.mem_erase.mp hm).2, fun hc => ?_⟩
      have hr := h.reach hc
      rw [AList.values_erase hl] at hr
      exact reachable_remove_one hr
    · exact ⟨h.known, h.reach⟩

variable (A : Adaptor L ID)

theorem checkAcquiredAt_backed (h : Backed N s) (hw : ∀ k n, s.Waits k n → n ∈ N) (key : Nat × ID) :
    Backed N (checkAcquiredAt A s key) := by
  cases ha : A.acquire s.asked key.2 with
  | none =>
    simp only [checkAcquiredAt, ha]
    exact ⟨h.known, h.reach⟩
  | some l =>
    simp only [checkAcquiredAt, ha]
    have hnodes : ∀ m ∈ A.order s.asked ((s.acquiring_.lookup key).getD ∅).keys, m ∈ N := by
      intro m hm
      rw [(A.order_perm _ _).mem_iff, ← AList.mem_keys] at hm
      cases hset : s.acquiring_.lookup key with
      | none => simp [hset] at hm
      | some set => exact hw key m ⟨set, hset, by simpa [hset] using hm⟩
    have hfold : ∀ (nodes : List NodeID) (s : Validations NodeID L ID), (∀ m ∈ nodes, m ∈ N) →
        Backed N s → Backed N (nodes.foldl (fun s n => s.updateTrieLedger n l) s) := by
      intro nodes
      induction nodes with
      | nil => exact fun s _ h => h
      | cons m nodes ih =>
        intro s hin hs
        exact ih _ (fun m' hm' => hin m' (List.mem_cons_of_mem _ hm'))
          (updateTrieLedger_backed hs (hin m List.mem_cons_self) l)
    have h' := hfold _ s hnodes h
    exact ⟨h'.known, h'.reach⟩

theorem checkAcquired_backed (h : Backed N s) (hw : ∀ k n, s.Waits k n → n ∈ N) :
    Backed N (checkAcquired A s) := by
  have hfold : ∀ (keys : List (Nat × ID)) (s : Validations NodeID L ID), Backed N s →
      (∀ k n, s.Waits k n → n ∈ N) → Backed N (keys.foldl (checkAcquiredAt A) s) := by
    intro keys
    induction keys with
    | nil => exact fun s h _ => h
    | cons key keys ih =>
      intro s h hw
      exact ih _ (checkAcquiredAt_backed A h hw key) fun k n hk =>
        hw k n ((checkAcquiredAt_completed A s key n).waits k hk)
  exact hfold _ _ ⟨h.known, h.reach⟩ hw

theorem follow_backed (h : Backed N s) (hn : n ∈ N) (val : Validation ID) :
    Backed N (follow A s n val) := by
  rw [follow]
  split
  · exact ⟨h.known, h.reach⟩
  · cases A.acquire s.asked val.ledgerID with
    | none => exact ⟨h.known, h.reach⟩
    | some l =>
      have h' := updateTrieLedger_backed (s := { s with asked := s.asked + 1 }) ⟨h.known, h.reach⟩ hn l
      exact h'

theorem updateTrie_backed (h : Backed N s) (hn : n ∈ N) (hw : ∀ k n, s.Waits k n → n ∈ N)
    (val : Validation ID) (prior : Option (Nat × ID)) : Backed N (updateTrie A s n val prior) := by
  have hprior : Backed N (clearPrior s n prior) := by
    cases prior with
    | none => exact h
    | some key => exact ⟨h.known, h.reach⟩
  rw [updateTrie_eq]
  exact follow_backed A (checkAcquired_backed A hprior fun k m hk =>
    hw k m (clearPrior_waits.mp hk).1) hn val

variable (p : ValidationParms)

theorem current_backed {α : Type} {f : α → NodeID → Validation ID → α} {t : Int} (init : α)
    (h : Backed N s) : Backed N (current A p f init t s).2 := by
  have hfold : ∀ (nodes : List NodeID) (r : α × Validations NodeID L ID), Backed N r.2 →
      Backed N (nodes.foldl (currentAt p f t) r).2 := by
    intro nodes
    induction nodes with
    | nil => exact fun r h => h
    | cons n nodes ih =>
      intro r hr
      refine ih _ ?_
      rw [currentAt]
      cases r.2.current_.lookup n with
      | none => exact hr
      | some val =>
        simp only
        split
        · exact hr
        · have h' := removeTrie_backed (n := n) hr val
          exact ⟨h'.known, h'.reach⟩
  exact hfold _ _ ⟨h.known, h.reach⟩

end Ripple.Validations
