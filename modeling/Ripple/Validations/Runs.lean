import Ripple.Validations.Backed

/-!
# Ripple.Validations.Runs

No trusted validation is lost or counted twice, in any run.

`Inv` says what holds between two calls, and `Run.inv` proves it. `exec_reads` sorts the queries
by what they do to the tables: nothing, dropping stale validations, or a whole refresh.
-/

namespace Ripple.Validations

open LedgerTrie (Reachable)

variable {NodeID L ID : Type} [Ledger L ID] [DecidableEq NodeID] [DecidableEq L] [LinearOrder ID]
variable {T : NodeID → Bool} {N : Finset NodeID} {s s' : Validations NodeID L ID}

structure Agrees (s s' : Validations NodeID L ID) : Prop where
  current_eq : s'.current_ = s.current_
  acquiring_eq : s'.acquiring_ = s.acquiring_
  last_eq : s'.lastLedger_ = s.lastLedger_
  reach : ∀ M, Reachable s.trie_ M → Reachable s'.trie_ M

theorem Agrees.sameAt (h : Agrees s s') (n : NodeID) : SameAt s s' n :=
  ⟨by rw [h.current_eq], fun k => by rw [Waits, Waits, h.acquiring_eq], by rw [h.last_eq]⟩

omit [DecidableEq NodeID] [LinearOrder ID] in
theorem Agrees.backed (h : Agrees s s') (hb : Backed N s) : Backed N s' := by
  refine ⟨?_, fun hc => ?_⟩
  · rw [h.last_eq]
    exact hb.known
  · rw [h.last_eq]
    exact h.reach _ (hb.reach hc)

/-- What holds between two calls, when the server trusts the nodes in `T` and has had validations of
the nodes in `N`. -/
structure Inv (T : NodeID → Bool) (N : Finset NodeID) (s : Validations NodeID L ID) : Prop where
  flags : ∀ n v, s.current_.lookup n = some v → v.trusted = T n
  known : ∀ n v, s.current_.lookup n = some v → n ∈ N
  accounted : ∀ n, Accounted s n
  backed : Backed N s

variable {n : NodeID} {t : Int} {α : Type} {now : Int} {c : Call NodeID L ID}

theorem Inv.waits_known (h : Inv T N s) {k : Nat × ID} (hk : s.Waits k n) : n ∈ N := by
  obtain ⟨v, hv, -⟩ := (h.accounted n).waiting k hk
  exact h.known n v hv

theorem inv_make (T : NodeID → Bool) : Inv T ∅ (make : Validations NodeID L ID) := by
  have hempty : ∀ n, (make : Validations NodeID L ID).current_.lookup n = none :=
    fun n => AList.lookup_empty n
  have hwaits : ∀ k n, ¬ (make : Validations NodeID L ID).Waits k n := by
    rintro k n ⟨set, hset, -⟩
    rw [make, AList.lookup_empty] at hset
    cases hset
  refine ⟨fun n v hv => ?_, fun n v hv => ?_, fun n => accounted_of_idle (hwaits · n) ?_, backed_make⟩
  · rw [hempty] at hv
    cases hv
  · rw [hempty] at hv
    cases hv
  · intro v hv
    rw [hempty] at hv
    cases hv

theorem Agrees.inv (h : Agrees s s') (hi : Inv T N s) : Inv T N s' := by
  refine ⟨?_, ?_, fun n => (h.sameAt n).accounted (hi.accounted n), h.backed hi.backed⟩
  · rw [h.current_eq]
    exact hi.flags
  · rw [h.current_eq]
    exact hi.known

variable (A : Adaptor L ID) (p : ValidationParms)

/-! ## Queries -/

theorem current_inv {f : α → NodeID → Validation ID → α} (init : α) (h : Inv T N s) :
    Inv T N (current A p f init t s).2 where
  flags n v hv := h.flags n v (current_lookup A p init hv)
  known n v hv := h.known n v (current_lookup A p init hv)
  accounted n := current_accounted A p init (h.accounted n)
  backed := current_backed A p init h.backed

theorem checkAcquired_inv (h : Inv T N s) : Inv T N (checkAcquired A s) := by
  refine ⟨fun n v hv => ?_, fun n v hv => ?_, fun n => ?_, ?_⟩
  · rw [checkAcquired_current] at hv
    exact h.flags n v hv
  · rw [checkAcquired_current] at hv
    exact h.known n v hv
  · exact (checkAcquired_completed A s n).accounted (h.accounted n)
  · exact checkAcquired_backed A h.backed fun k n hk => h.waits_known hk

theorem refresh_inv (h : Inv T N s) : Inv T N (refresh A p t s) :=
  checkAcquired_inv A (current_inv A p () h)

theorem withTrie_agrees {f : LedgerTrie L → α × LedgerTrie L}
    (hf : ∀ trie M, Reachable trie M → Reachable (f trie).2 M) :
    Agrees (refresh A p t s) (withTrie A p f t s).2 :=
  ⟨rfl, rfl, rfl, fun M => hf _ M⟩

theorem reachable_getPreferred {t : LedgerTrie L} {M : Multiset L} (h : Reachable t M) (k : Nat) :
    Reachable (t.getPreferred k).2 M := by
  have hr := LedgerTrie.getPreferred_reorder t k
  rw [LedgerTrie.getPreferred] at hr ⊢
  split at hr
  · rw [if_pos (by assumption)]
    exact h
  · rw [if_neg (by assumption)]
    exact h.reorder hr

theorem getPreferred_agrees (curr : L) :
    Agrees (refresh A p t s) (getPreferred A p t curr s).2 := by
  have h := withTrie_agrees A p (s := s) (t := t)
    (f := fun trie => trie.getPreferred s.localSeqEnforcer_.largest) fun trie M hM =>
      reachable_getPreferred hM _
  rw [getPreferred]
  generalize withTrie A p (fun trie => trie.getPreferred s.localSeqEnforcer_.largest) t s = r at h ⊢
  obtain ⟨preferred, s'⟩ := r
  cases preferred with
  | none => exact ⟨h.current_eq, h.acquiring_eq, h.last_eq, h.reach⟩
  | some tip =>
    simp only
    split
    · exact h
    · split
      · exact h
      · split
        · exact h
        · exact h

def Call.dropsStale : Call NodeID L ID → Bool
  | .getPreferred _ => true
  | .getPreferredFrom _ _ => true
  | .getPreferredLCL _ _ _ => true
  | .getNodesAfter ledger ledgerID => Ledger.id ledger = ledgerID
  | .currentTrusted => true
  | .getCurrentNodeIDs => true
  | _ => false

/-- What a call other than `add` and `trustChanged` does to the tables. -/
inductive Reads (t : Int) (s s' : Validations NodeID L ID) : Bool → Prop where
  | nothing : Agrees s s' → Reads t s s' false
  | current {α : Type} (f : α → NodeID → Validation ID → α) (init : α) :
      Agrees (current A p f init t s).2 s' → Reads t s s' true
  | refresh : Agrees (refresh A p t s) s' → Reads t s s' true

omit [DecidableEq NodeID] in
theorem byLedger_agrees (ledgerID : ID) : Agrees s (byLedger A now ledgerID s).2 := by
  rw [byLedger]
  cases s.byLedger_.lookup ledgerID with
  | none | some e => exact ⟨rfl, rfl, rfl, fun _ h => h⟩

theorem exec_reads (t now : Int) (hadd : ∀ n v, c ≠ .add n v)
    (htrust : ∀ added removed, c ≠ .trustChanged added removed) :
    Reads A p t s (c.exec A p t now s) c.dropsStale := by
  cases c with
  | add n v => exact absurd rfl (hadd n v)
  | trustChanged added removed => exact absurd rfl (htrust added removed)
  | expire | canValidateSeq seq => exact .nothing ⟨rfl, rfl, rfl, fun _ h => h⟩
  | getPreferred curr => exact .refresh (getPreferred_agrees A p curr)
  | getPreferredFrom curr minValidSeq =>
    have h := getPreferred_agrees A p (s := s) (t := t) curr
    refine .refresh ?_
    rw [Call.exec, getPreferredFrom]
    cases hr : (getPreferred A p t curr s).1 with
    | none | some preferred => exact h
  | getPreferredLCL lcl minSeq peerCounts =>
    have h := getPreferred_agrees A p (s := s) (t := t) lcl
    refine .refresh ?_
    rw [Call.exec, getPreferredLCL]
    cases hr : (getPreferred A p t lcl s).1 with
    | none => exact ⟨h.current_eq, h.acquiring_eq, h.last_eq, h.reach⟩
    | some preferred => exact h
  | getNodesAfter ledger ledgerID =>
    rw [Call.exec, getNodesAfter, Call.dropsStale]
    by_cases hid : Ledger.id ledger = ledgerID
    · rw [if_pos hid, decide_eq_true hid]
      exact .refresh (withTrie_agrees A p fun _ _ h => h)
    · rw [if_neg hid, decide_eq_false hid]
      exact .nothing ⟨rfl, rfl, rfl, fun _ h => h⟩
  | currentTrusted | getCurrentNodeIDs => exact .current _ _ ⟨rfl, rfl, rfl, fun _ h => h⟩
  | numTrustedForLedger ledgerID | getTrustedForLedger ledgerID | fees ledgerID baseFee =>
    exact .nothing (byLedger_agrees A ledgerID)

theorem Reads.inv {b : Bool} (h : Reads A p t s s' b) (hi : Inv T N s) : Inv T N s' := by
  cases h with
  | nothing h => exact h.inv hi
  | current f init h => exact h.inv (current_inv A p init hi)
  | refresh h => exact h.inv (refresh_inv A p hi)

/-! ## `add` and `trustChanged` -/

theorem add_inv {val : Validation ID} (h : Inv T N s) (ht : val.trusted = T n) :
    Inv T (N ∪ {n}) (add A p t now n val s).2 := by
  have hN : N ⊆ N ∪ {n} := Finset.subset_union_left
  have hn : n ∈ N ∪ {n} := Finset.mem_union_right _ (Finset.mem_singleton_self n)
  have hacc : ∀ m, Accounted (add A p t now n val s).2 m :=
    add_accounted A p h.accounted fun v hv => (h.flags n v hv).trans ht.symm
  cases add_cases A p t now n val s with
  | inl hsame =>
    obtain ⟨hc, ha, hl, htr⟩ := hsame
    refine ⟨?_, ?_, hacc, ?_⟩
    · rw [hc]
      exact h.flags
    · rw [hc]
      exact fun m v hv => hN (h.known m v hv)
    · exact (h.backed.mono hN).congr hl htr
  | inr hset =>
    obtain ⟨s', he, heq⟩ := hset
    have hcur : ∀ m, (add A p t now n val s).2.current_.lookup m = s'.current_.lookup m := by
      intro m
      rw [heq]
      split
      · exact updateTrie_current A _ _ _ _ _
      · rfl
    have hb : Backed (N ∪ {n}) s' := (h.backed.mono hN).congr he.last_eq he.trie_eq
    refine ⟨fun m v hv => ?_, fun m v hv => ?_, hacc, ?_⟩
    · rw [hcur, he.current_eq, AList.lookup_insert_ite] at hv
      by_cases hm : m = n
      · subst hm
        rw [if_pos rfl] at hv
        cases hv
        exact ht
      · rw [if_neg hm] at hv
        exact h.flags m v hv
    · rw [hcur, he.current_eq, AList.lookup_insert_ite] at hv
      by_cases hm : m = n
      · exact hm ▸ hn
      · rw [if_neg hm] at hv
        exact hN (h.known m v hv)
    · rw [heq]
      split
      · exact updateTrie_backed A hb hn (fun k m hk => hN (h.waits_known (he.waits.mp hk))) _ _
      · exact hb

section TrustChanged

variable {added removed : HashSet NodeID}

theorem trustChangedAt_backed {n : NodeID} (ha : ∀ n, Accounted s n)
    (hk : ∀ n v, s.current_.lookup n = some v → n ∈ N) (hb : Backed N s) :
    Backed N (trustChangedAt A added removed s n) := by
  cases trustChangedAt_cases added removed A (s := s) (n := n) with
  | inl hsame =>
    rw [hsame.1]
    exact hb
  | inr hset =>
    obtain ⟨v, s', hv, he, hcase⟩ := hset
    have hb' := hb.congr he.last_eq he.trie_eq
    cases hcase with
    | inl hadd =>
      rw [hadd.2]
      refine updateTrie_backed A hb' (hk n v hv) (fun k m hw => ?_) _ _
      obtain ⟨v', hv', -⟩ := (ha m).waiting k (he.waits.mp hw)
      exact hk m v' hv'
    | inr hrem =>
      rw [hrem.2.2]
      exact removeTrie_backed hb' _

theorem trustChanged_inv (h : Inv T N s) :
    Inv (fun n => n ∈ added || (T n && n ∉ removed)) N (trustChanged A added removed s) := by
  -- The flags are in transition while the loop runs; the rest of `Inv` holds throughout.
  have hfold : ∀ (nodes : List NodeID) (s : Validations NodeID L ID), (∀ n, Accounted s n) →
      (∀ n v, s.current_.lookup n = some v → n ∈ N) → Backed N s →
      (∀ n, Accounted (nodes.foldl (trustChangedAt A added removed) s) n) ∧
        Backed N (nodes.foldl (trustChangedAt A added removed) s) := by
    intro nodes
    induction nodes with
    | nil => exact fun s ha _ hb => ⟨ha, hb⟩
    | cons n nodes ih =>
      intro s ha hk hb
      refine ih _ (trustChangedAt_accounted A added removed ha) (fun m v hv => ?_)
        (trustChangedAt_backed A ha hk hb)
      rw [trustChangedAt_current] at hv
      split at hv
      · obtain ⟨v', hv', -⟩ := Option.map_eq_some_iff.mp hv
        exact hk m v' hv'
      · exact hk m v hv
  have hstart : ∀ n, Accounted { s with asked := s.asked + 1 } n := fun n =>
    (h.accounted n).congr rfl rfl rfl
  obtain ⟨hacc, hback⟩ := hfold (A.order s.asked s.current_.keys) { s with asked := s.asked + 1 }
    hstart h.known ⟨h.backed.known, h.backed.reach⟩
  refine ⟨fun n v hv => ?_, fun n v hv => ?_, fun n => ?_, ⟨hback.known, hback.reach⟩⟩
  · rw [trustChanged_current] at hv
    obtain ⟨v', hv', rfl⟩ := Option.map_eq_some_iff.mp hv
    have := h.flags n v' hv'
    by_cases hadd : n ∈ added
    · simp [retrust, hadd]
    · by_cases hrem : n ∈ removed
      · simp [retrust, hadd, hrem]
      · simp [retrust, hadd, hrem, this]
  · rw [trustChanged_current] at hv
    obtain ⟨v', hv', -⟩ := Option.map_eq_some_iff.mp hv
    exact h.known n v' hv'
  · exact (hacc n).congr rfl rfl rfl

end TrustChanged

/-! ## Runs -/

variable {C : Int → Call NodeID L ID → Validations NodeID L ID → Prop}

theorem exec_inv (h : Inv T N s) (hflag : ∀ n v, c = .add n v → v.trusted = T n) :
    Inv (c.trust T) (N ∪ c.nodes) (c.exec A p t now s) := by
  by_cases hadd : ∃ n v, c = .add n v
  · obtain ⟨n, v, rfl⟩ := hadd
    exact add_inv A p h (hflag n v rfl)
  · by_cases htrust : ∃ added removed, c = .trustChanged added removed
    · obtain ⟨added, removed, rfl⟩ := htrust
      show Inv _ (N ∪ ∅) _
      rw [Finset.union_empty]
      exact trustChanged_inv A h
    · have hr := exec_reads A p (s := s) t now
        (fun n v hc => hadd ⟨n, v, hc⟩) (fun added removed hc => htrust ⟨added, removed, hc⟩)
      have hT : c.trust T = T := by
        cases c with
        | trustChanged added removed => exact absurd ⟨added, removed, rfl⟩ htrust
        | _ => rfl
      have hN : c.nodes = ∅ := by
        cases c with
        | add n v => exact absurd ⟨n, v, rfl⟩ hadd
        | _ => rfl
      rw [hT, hN, Finset.union_empty]
      exact hr.inv A p h

variable {A p} in
theorem Run.inv (h : Run A p C T N s) : Inv T N s := by
  induction h with
  | make T => exact inv_make T
  | call t now c _ _ hflag ih => exact exec_inv A p ih hflag

end Ripple.Validations
