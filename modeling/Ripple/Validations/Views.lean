import Ripple.Validations.Query

/-!
# Ripple.Validations.Views

What the calls do to the entries of one node: its validation in `current_`, the ledgers it waits for
in `acquiring_`, and its ledger in `lastLedger_`.

* `SameAt`: nothing changes for the node. Most steps only touch the node they are about.
* `current_cases`: what dropping the stale validations does.
-/

namespace Ripple.Validations

variable {NodeID L ID : Type} [DecidableEq NodeID]

variable (added removed : HashSet NodeID)

theorem retrust_ledger (n : NodeID) (v : Validation ID) :
    (retrust added removed n v).ledger = v.ledger := by
  rw [retrust]
  split
  · rfl
  · split
    · rfl
    · rfl

theorem retrust_retrust (n : NodeID) (v : Validation ID) :
    retrust added removed n (retrust added removed n v) = retrust added removed n v := by
  by_cases hadd : n ∈ added
  · simp [retrust, hadd]
  · by_cases hrem : n ∈ removed
    · simp [retrust, hadd, hrem]
    · simp [retrust, hadd, hrem]

section Ledgers

variable [Ledger L ID]

theorem updateTrieLedger_last (s : Validations NodeID L ID) (n m : NodeID) (l : L) :
    (s.updateTrieLedger n l).lastLedger_.lookup m =
      if m = n then some l else s.lastLedger_.lookup m :=
  AList.lookup_insert_ite _ _ _ _

theorem foldl_updateTrieLedger (s : Validations NodeID L ID) (l : L) (nodes : List NodeID) :
    (nodes.foldl (fun s n => s.updateTrieLedger n l) s).current_ = s.current_ ∧
    (nodes.foldl (fun s n => s.updateTrieLedger n l) s).acquiring_ = s.acquiring_ ∧
    ∀ m, (nodes.foldl (fun s n => s.updateTrieLedger n l) s).lastLedger_.lookup m =
      if m ∈ nodes then some l else s.lastLedger_.lookup m := by
  induction nodes generalizing s with
  | nil => simp
  | cons n nodes ih =>
    obtain ⟨hc, ha, hl⟩ := ih (s.updateTrieLedger n l)
    refine ⟨hc, ha, fun m => ?_⟩
    rw [List.foldl_cons, hl, updateTrieLedger_last]
    by_cases hm : m ∈ nodes
    · simp [hm]
    · simp [hm]

end Ledgers

variable [DecidableEq ID] {s s' s'' : Validations NodeID L ID} {n m : NodeID} {k : Nat × ID}

/-- The node is in the set of those that wait for the ledger `k`. -/
def Waits (s : Validations NodeID L ID) (k : Nat × ID) (n : NodeID) : Prop := s.acquiring_.Holds k n

structure SameAt (s s' : Validations NodeID L ID) (n : NodeID) : Prop where
  current_eq : s'.current_.lookup n = s.current_.lookup n
  waits : ∀ k, s'.Waits k n ↔ s.Waits k n
  last_eq : s'.lastLedger_.lookup n = s.lastLedger_.lookup n

theorem SameAt.refl (s : Validations NodeID L ID) (n : NodeID) : SameAt s s n :=
  ⟨rfl, fun _ => Iff.rfl, rfl⟩

theorem SameAt.trans (h : SameAt s s' n) (h' : SameAt s' s'' n) : SameAt s s'' n :=
  ⟨h'.current_eq.trans h.current_eq, fun k => (h'.waits k).trans (h.waits k),
    h'.last_eq.trans h.last_eq⟩

/-- The node has no validation that is stale at time `t`. -/
def Fresh (p : ValidationParms) (t : Int) (s : Validations NodeID L ID) (n : NodeID) : Prop :=
  ∀ v, s.current_.lookup n = some v → isCurrent p t v.signTime v.seenTime = true

theorem SameAt.fresh {p : ValidationParms} {t : Int} (h : SameAt s s' n) (hf : Fresh p t s n) : Fresh p t s' n :=
  fun v hv => hf v (by rw [← h.current_eq, hv])

structure Entered (s s' : Validations NodeID L ID) (n : NodeID) (val : Validation ID) : Prop where
  current_eq : s'.current_ = s.current_.insert n val
  acquiring_eq : s'.acquiring_ = s.acquiring_
  last_eq : s'.lastLedger_ = s.lastLedger_
  trie_eq : s'.trie_ = s.trie_

namespace Entered

variable {val : Validation ID}

omit [DecidableEq ID] in
theorem current_same (h : Entered s s' n val) : s'.current_.lookup n = some val := by
  rw [h.current_eq, AList.lookup_insert]

theorem waits (h : Entered s s' n val) : s'.Waits k m ↔ s.Waits k m := by
  rw [Waits, Waits, h.acquiring_eq]

theorem sameAt (h : Entered s s' n val) (hm : m ≠ n) : SameAt s s' m :=
  ⟨by rw [h.current_eq]; exact AList.lookup_insert_ne hm, fun _ => h.waits, by rw [h.last_eq]⟩

end Entered

def clearPrior (s : Validations NodeID L ID) (nodeID : NodeID) :
    Option (Nat × ID) → Validations NodeID L ID
  | some key => { s with acquiring_ := s.acquiring_.eraseFrom key nodeID }
  | none => s

theorem clearPrior_waits {prior : Option (Nat × ID)} :
    (clearPrior s n prior).Waits k m ↔ s.Waits k m ∧ ¬ (prior = some k ∧ m = n) := by
  cases prior with
  | none => simp [clearPrior]
  | some key =>
    rw [Waits, clearPrior, AList.holds_eraseFrom]
    simp [Waits, eq_comm]

theorem clearPrior_sameAt (prior : Option (Nat × ID)) (h : m ≠ n) :
    SameAt s (clearPrior s n prior) m := by
  refine ⟨?_, fun k => by simp [clearPrior_waits, h], ?_⟩
  · cases prior with
    | none => rfl
    | some key => rfl
  · cases prior with
    | none => rfl
    | some key => rfl

variable [Ledger L ID]

/-! ## Removing the support of a validation -/

variable (val : Validation ID)

@[simp] theorem removeTrie_current : (s.removeTrie n val).current_ = s.current_ := by
  rw [removeTrie]
  split
  · split
    · rfl
    · rfl
  · rfl

theorem removeTrie_waits :
    (s.removeTrie n val).Waits k m ↔ s.Waits k m ∧ ¬ (k = val.ledger ∧ m = n) := by
  have h : (s.removeTrie n val).acquiring_ = s.acquiring_.eraseFrom val.ledger n := by
    rw [removeTrie]
    split
    · split
      · rfl
      · rfl
    · rfl
  rw [Waits, h]
  exact AList.holds_eraseFrom

theorem removeTrie_last :
    (s.removeTrie n val).lastLedger_.lookup m =
      if m = n ∧ (s.lastLedger_.lookup n).map Ledger.id = some val.ledgerID then none
      else s.lastLedger_.lookup m := by
  rw [removeTrie]
  cases hl : s.lastLedger_.lookup n with
  | none => simp
  | some l =>
    by_cases hid : Ledger.id l = val.ledgerID
    · simp [hid, AList.lookup_erase_ite]
    · simp [hid]

theorem removeTrie_sameAt (h : m ≠ n) : SameAt s (s.removeTrie n val) m where
  current_eq := by rw [removeTrie_current]
  waits k := by simp [removeTrie_waits, h]
  last_eq := by simp [removeTrie_last, h]

/-! ## Completed acquisitions -/

structure Completed (s s' : Validations NodeID L ID) (n : NodeID) : Prop where
  current_eq : s'.current_.lookup n = s.current_.lookup n
  waits : ∀ k, s'.Waits k n → s.Waits k n
  last : s'.lastLedger_.lookup n = s.lastLedger_.lookup n ∨
    ∃ k l, s.Waits k n ∧ s'.lastLedger_.lookup n = some l ∧ Ledger.id l = k.2
  done : ∀ k, s.Waits k n → s'.Waits k n ∨
    ∃ k l, s.Waits k n ∧ s'.lastLedger_.lookup n = some l ∧ Ledger.id l = k.2

theorem SameAt.completed (h : SameAt s s' n) : Completed s s' n :=
  ⟨h.current_eq, fun k => (h.waits k).mp, .inl h.last_eq, fun k hw => .inl ((h.waits k).mpr hw)⟩

theorem Completed.trans (h : Completed s s' n) (h' : Completed s' s'' n) : Completed s s'' n := by
  -- A later acquisition may replace the ledger of an earlier one; both were waited for in `s`.
  have hlast : ∀ k l, s.Waits k n → s'.lastLedger_.lookup n = some l → Ledger.id l = k.2 →
      ∃ k l, s.Waits k n ∧ s''.lastLedger_.lookup n = some l ∧ Ledger.id l = k.2 := by
    intro k l hk hl hid
    cases h'.last with
    | inl heq => exact ⟨k, l, hk, heq.trans hl, hid⟩
    | inr hnew =>
      obtain ⟨k', l', hk', hl', hid'⟩ := hnew
      exact ⟨k', l', h.waits k' hk', hl', hid'⟩
  refine ⟨h'.current_eq.trans h.current_eq, fun k hk => h.waits k (h'.waits k hk), ?_, ?_⟩
  · cases h'.last with
    | inl heq =>
      cases h.last with
      | inl heq' => exact .inl (heq.trans heq')
      | inr hold =>
        obtain ⟨k, l, hk, hl, hid⟩ := hold
        exact .inr ⟨k, l, hk, heq.trans hl, hid⟩
    | inr hnew =>
      obtain ⟨k, l, hk, hl, hid⟩ := hnew
      exact .inr ⟨k, l, h.waits k hk, hl, hid⟩
  · intro k hk
    cases h.done k hk with
    | inl hk' =>
      refine (h'.done k hk').imp_right ?_
      rintro ⟨k', l, hk'', hl, hid⟩
      exact ⟨k', l, h.waits k' hk'', hl, hid⟩
    | inr hold =>
      obtain ⟨k', l, hk', hl, hid⟩ := hold
      exact .inr (hlast k' l hk' hl hid)

variable (A : Adaptor L ID)

theorem checkAcquiredAt_completed (s : Validations NodeID L ID) (key : Nat × ID) (n : NodeID) :
    Completed s (checkAcquiredAt A s key) n := by
  cases ha : A.acquire s.asked key.2 with
  | none =>
    simp only [checkAcquiredAt, ha]
    exact SameAt.completed ⟨rfl, fun _ => Iff.rfl, rfl⟩
  | some l =>
    simp only [checkAcquiredAt, ha]
    have hmem : ∀ m, m ∈ A.order s.asked ((s.acquiring_.lookup key).getD ∅).keys ↔ s.Waits key m := by
      intro m
      rw [(A.order_perm _ _).mem_iff, ← AList.mem_keys, Waits, AList.Holds]
      cases s.acquiring_.lookup key with
      | none => simp
      | some set => simp
    generalize A.order s.asked ((s.acquiring_.lookup key).getD ∅).keys = nodes at hmem
    obtain ⟨hc, hacq, hl⟩ := foldl_updateTrieLedger s l nodes
    generalize nodes.foldl (fun s n => s.updateTrieLedger n l) s = s' at hc hacq hl
    have hw : ∀ k, (s'.acquiring_.erase key).Holds k n ↔ s.Waits k n ∧ k ≠ key := by
      intro k
      rw [hacq, AList.holds_erase]
      rfl
    refine ⟨by rw [← hc], fun k hk => ((hw k).mp hk).1, ?_, ?_⟩
    · by_cases hn : n ∈ nodes
      · exact .inr ⟨key, l, (hmem n).mp hn, by simpa [hn] using hl n, A.acquire_id ha⟩
      · exact .inl (by simpa [hn] using hl n)
    · intro k hk
      by_cases hkey : k = key
      · subst hkey
        exact .inr ⟨k, l, hk, by simpa [(hmem n).mpr hk] using hl n, A.acquire_id ha⟩
      · exact .inl ((hw k).mpr ⟨hk, hkey⟩)

theorem checkAcquired_completed (s : Validations NodeID L ID) (n : NodeID) :
    Completed s (checkAcquired A s) n := by
  have hfold : ∀ (keys : List (Nat × ID)) (s' : Validations NodeID L ID), Completed s s' n →
      Completed s (keys.foldl (checkAcquiredAt A) s') n := by
    intro keys
    induction keys with
    | nil => exact fun _ h => h
    | cons key keys ih =>
      exact fun s' h => ih _ (h.trans (checkAcquiredAt_completed A s' key n))
  exact hfold _ _ (SameAt.completed ⟨rfl, fun _ => Iff.rfl, rfl⟩)

theorem checkAcquired_current (s : Validations NodeID L ID) (n : NodeID) :
    (checkAcquired A s).current_.lookup n = s.current_.lookup n :=
  (checkAcquired_completed A s n).current_eq

/-! ## Following a new validation -/

/-- The validation is accounted for by a set in `acquiring_` or by the ledger in `lastLedger_`. -/
def Settled (s : Validations NodeID L ID) (n : NodeID) (val : Validation ID) : Prop :=
  s.Waits val.ledger n ∨ ∃ l, s.lastLedger_.lookup n = some l ∧ Ledger.id l = val.ledgerID

def follow (s : Validations NodeID L ID) (nodeID : NodeID) (val : Validation ID) :
    Validations NodeID L ID :=
  if val.ledger ∈ s.acquiring_ then
    { s with acquiring_ := s.acquiring_.insertInto val.ledger nodeID }
  else
    let s' := { s with asked := s.asked + 1 }
    match A.acquire s.asked val.ledgerID with
    | some ledger => s'.updateTrieLedger nodeID ledger
    | none => { s' with acquiring_ := s.acquiring_.insertInto val.ledger nodeID }

theorem updateTrie_eq (s : Validations NodeID L ID) (n : NodeID) (val : Validation ID)
    (prior : Option (Nat × ID)) :
    updateTrie A s n val prior = follow A (checkAcquired A (clearPrior s n prior)) n val := by
  cases prior with
  | none => rfl
  | some key => rfl

theorem follow_spec (s : Validations NodeID L ID) (n : NodeID) (val : Validation ID) :
    (∀ m ≠ n, SameAt s (follow A s n val) m) ∧
      (follow A s n val).current_ = s.current_ ∧
      (∀ k, (follow A s n val).Waits k n → s.Waits k n ∨ k = val.ledger) ∧
      Settled (follow A s n val) n val := by
  have hins : ∀ (a : Nat), let s' := { s with
        acquiring_ := s.acquiring_.insertInto val.ledger n, asked := a }
      (∀ m ≠ n, SameAt s s' m) ∧ s'.current_ = s.current_ ∧
      (∀ k, s'.Waits k n → s.Waits k n ∨ k = val.ledger) ∧ Settled s' n val := by
    intro a s'
    have hw : ∀ k m, s'.Waits k m ↔ s.Waits k m ∨ (k = val.ledger ∧ m = n) :=
      fun k m => AList.holds_insertInto
    refine ⟨fun m hm => ⟨rfl, fun k => by simp [hw, hm], rfl⟩, rfl, fun k hk => ?_, ?_⟩
    · exact ((hw k n).mp hk).imp_right And.left
    · exact .inl ((hw _ _).mpr (.inr ⟨rfl, rfl⟩))
  rw [follow]
  split
  · exact hins s.asked
  · cases ha : A.acquire s.asked val.ledgerID with
    | none => exact hins (s.asked + 1)
    | some l =>
      refine ⟨fun m hm => ⟨rfl, fun k => Iff.rfl, ?_⟩, rfl, fun k hk => .inl hk, .inr ⟨l, ?_, ?_⟩⟩
      · simp [updateTrieLedger_last, hm]
      · simp [updateTrieLedger_last]
      · exact A.acquire_id ha

theorem add_cases (p : ValidationParms) (t now : Int) (n : NodeID) (val : Validation ID)
    (s : Validations NodeID L ID) :
    ((add A p t now n val s).2.current_ = s.current_ ∧
      (add A p t now n val s).2.acquiring_ = s.acquiring_ ∧
      (add A p t now n val s).2.lastLedger_ = s.lastLedger_ ∧
      (add A p t now n val s).2.trie_ = s.trie_) ∨
    ∃ s', Entered s s' n val ∧ (add A p t now n val s).2 = if val.trusted then
      updateTrie A s' n val ((s.current_.lookup n).map Validation.ledger) else s' := by
  rw [add]
  split
  · exact .inl ⟨rfl, rfl, rfl, rfl⟩
  · simp only
    split
    · exact .inl ⟨rfl, rfl, rfl, rfl⟩
    · cases hold : s.current_.lookup n with
      | none =>
        refine .inr ⟨{ s with
          seqEnforcers_ := _
          byLedger_ := _
          current_ := s.current_.insert n val }, ⟨rfl, rfl, rfl, rfl⟩, rfl⟩
      | some oldVal =>
        simp only
        split
        · refine .inr ⟨{ s with
            seqEnforcers_ := _
            byLedger_ := _
            onStale := _
            current_ := s.current_.insert n val }, ⟨rfl, rfl, rfl, rfl⟩, rfl⟩
        · exact .inl ⟨rfl, rfl, rfl, rfl⟩

theorem trustChangedAt_cases :
    trustChangedAt A added removed s n = s ∧
      (∀ v, s.current_.lookup n = some v → n ∉ added ∧ n ∉ removed) ∨
    ∃ v s', s.current_.lookup n = some v ∧ Entered s s' n (retrust added removed n v) ∧
      (n ∈ added ∧ trustChangedAt A added removed s n =
          updateTrie A s' n (retrust added removed n v) none ∨
        n ∉ added ∧ n ∈ removed ∧ trustChangedAt A added removed s n =
          s'.removeTrie n (retrust added removed n v)) := by
  cases hv : s.current_.lookup n with
  | none => exact .inl ⟨by simp [trustChangedAt, hv], fun v h => by cases h⟩
  | some v =>
    have he : Entered s { s with
        current_ := s.current_.insert n (retrust added removed n v) } n
        (retrust added removed n v) := ⟨rfl, rfl, rfl, rfl⟩
    by_cases hadd : n ∈ added
    · exact .inr ⟨v, _, rfl, he, .inl ⟨hadd, by simp [trustChangedAt, hv, hadd]⟩⟩
    · by_cases hrem : n ∈ removed
      · exact .inr ⟨v, _, rfl, he, .inr ⟨hadd, hrem, by simp [trustChangedAt, hv, hadd, hrem]⟩⟩
      · exact .inl ⟨by simp [trustChangedAt, hv, hadd, hrem], fun _ _ => ⟨hadd, hrem⟩⟩

/-! ## Dropping stale validations -/

structure DroppedAt (s s' : Validations NodeID L ID) (n : NodeID) (val : Validation ID) : Prop where
  current_eq : s'.current_.lookup n = none
  waits : ∀ k, s'.Waits k n ↔ s.Waits k n ∧ k ≠ val.ledger
  last_eq : s'.lastLedger_.lookup n =
    if (s.lastLedger_.lookup n).map Ledger.id = some val.ledgerID then none
    else s.lastLedger_.lookup n

section Current

variable {p : ValidationParms} {α : Type} {f : α → NodeID → Validation ID → α} {t : Int}
  {val : Validation ID}

theorem currentAt_droppedAt (r : α × Validations NodeID L ID) (hv : r.2.current_.lookup n = some val)
    (hs : isCurrent p t val.signTime val.seenTime = false) :
    DroppedAt r.2 (currentAt p f t r n).2 n val ∧
      ∀ m ≠ n, SameAt r.2 (currentAt p f t r n).2 m := by
  simp only [currentAt, hv, hs, Bool.false_eq_true, if_false]
  constructor
  · refine ⟨by simp, fun k => ?_, ?_⟩
    · have h := removeTrie_waits (s := r.2) (n := n) (m := n) (k := k) val
      rw [and_iff_left rfl] at h
      exact h
    · simpa using removeTrie_last (s := r.2) (n := n) (m := n) val
  · intro m hm
    have h := removeTrie_sameAt (s := r.2) val hm
    exact ⟨by rw [← h.current_eq]; exact AList.lookup_erase_ne hm, h.waits, h.last_eq⟩

theorem currentAt_sameAt (r : α × Validations NodeID L ID) (h : n ≠ m ∨ Fresh p t r.2 n) :
    SameAt r.2 (currentAt p f t r m).2 n := by
  cases hv : r.2.current_.lookup m with
  | none => simpa only [currentAt, hv] using SameAt.refl _ _
  | some v =>
    cases hcur : isCurrent p t v.signTime v.seenTime with
    | true => simpa [currentAt, hv, hcur] using SameAt.refl _ _
    | false =>
      refine (currentAt_droppedAt r hv hcur).2 n (h.elim id fun hfresh hnm => ?_)
      rw [hfresh v (hnm ▸ hv)] at hcur
      cases hcur

theorem foldl_currentAt_sameAt (nodes : List NodeID) (r : α × Validations NodeID L ID)
    (h : Fresh p t r.2 n) : SameAt r.2 (nodes.foldl (currentAt p f t) r).2 n := by
  induction nodes generalizing r with
  | nil => exact .refl _ _
  | cons m nodes ih =>
    have hm := currentAt_sameAt (f := f) (m := m) r (.inr h)
    exact hm.trans (ih _ (hm.fresh h))

theorem foldl_currentAt_droppedAt (nodes : List NodeID) (r : α × Validations NodeID L ID)
    (hn : n ∈ nodes) (hv : r.2.current_.lookup n = some val)
    (hs : isCurrent p t val.signTime val.seenTime = false) :
    DroppedAt r.2 (nodes.foldl (currentAt p f t) r).2 n val := by
  induction nodes generalizing r with
  | nil => cases hn
  | cons m nodes ih =>
    rw [List.foldl_cons]
    by_cases hm : n = m
    · subst hm
      -- Once dropped, the node has no validation and later visits leave it alone.
      have hd := (currentAt_droppedAt (f := f) r hv hs).1
      have hfresh : Fresh p t (currentAt p f t r n).2 n := by
        intro v hv'
        rw [hd.current_eq] at hv'
        cases hv'
      have hrest := foldl_currentAt_sameAt (f := f) nodes _ hfresh
      exact ⟨hrest.current_eq.trans hd.current_eq, fun k => (hrest.waits k).trans (hd.waits k),
        hrest.last_eq.trans hd.last_eq⟩
    · have hsame := currentAt_sameAt (p := p) (f := f) (t := t) (m := m) r (.inl hm)
      have hd := ih _ ((List.mem_cons.mp hn).resolve_left hm) (hsame.current_eq.trans hv)
      refine ⟨hd.current_eq, fun k => ?_, ?_⟩
      · rw [hd.waits, hsame.waits]
      · rw [hd.last_eq, hsame.last_eq]

theorem current_cases (p : ValidationParms) (f : α → NodeID → Validation ID → α) (init : α) (t : Int)
    (s : Validations NodeID L ID) (n : NodeID) :
    Fresh p t s n ∧ SameAt s (current A p f init t s).2 n ∨ ¬ Fresh p t s n ∧
      ∃ val, s.current_.lookup n = some val ∧ DroppedAt s (current A p f init t s).2 n val := by
  by_cases hf : Fresh p t s n
  · have h := foldl_currentAt_sameAt (f := f) (A.order s.asked s.current_.keys)
      (init, { s with asked := s.asked + 1 }) hf
    exact .inl ⟨hf, h.current_eq, h.waits, h.last_eq⟩
  · have hstale := hf
    simp only [Fresh, not_forall, Bool.not_eq_true] at hstale
    obtain ⟨val, hv, hs⟩ := hstale
    have hn : n ∈ A.order s.asked s.current_.keys := by
      rw [(A.order_perm _ _).mem_iff]
      exact AList.mem_iff_lookup.mpr ⟨val, hv⟩
    have h := foldl_currentAt_droppedAt (f := f) _ (init, { s with asked := s.asked + 1 }) hn hv hs
    exact .inr ⟨hf, val, hv, h.current_eq, h.waits, h.last_eq⟩

end Current

end Ripple.Validations
