import Ripple.Validations.Views

/-!
# Ripple.Validations.Accounts

`Accounted`: a node waits for the ledger of its trusted validation, or that ledger is its last one.
This is a statement about the entries of one node, so a call has to be looked at only for the nodes
that it touches.
-/

namespace Ripple.Validations

variable {NodeID L ID : Type} [Ledger L ID] [DecidableEq NodeID] [DecidableEq ID]
variable {s s' : Validations NodeID L ID} {n m : NodeID}

def Waiting (s : Validations NodeID L ID) (n : NodeID) : Prop :=
  ∀ k, s.Waits k n → ∃ v, s.current_.lookup n = some v ∧ v.trusted = true ∧ k = v.ledger

structure Accounted (s : Validations NodeID L ID) (n : NodeID) : Prop where
  waiting : Waiting s n
  settled : ∀ v, s.current_.lookup n = some v → v.trusted = true → Settled s n v

theorem SameAt.accounted (h : SameAt s s' n) (ha : Accounted s n) : Accounted s' n := by
  refine ⟨fun k hk => ?_, fun v hv ht => ?_⟩
  · rw [h.current_eq]
    exact ha.waiting k ((h.waits k).mp hk)
  · rw [h.current_eq] at hv
    refine (ha.settled v hv ht).imp (h.waits _).mpr ?_
    rintro ⟨l, hl, hid⟩
    exact ⟨l, h.last_eq.trans hl, hid⟩

theorem Accounted.congr (h : Accounted s n) (hc : s'.current_ = s.current_)
    (ha : s'.acquiring_ = s.acquiring_) (hl : s'.lastLedger_ = s.lastLedger_) : Accounted s' n :=
  SameAt.accounted ⟨by rw [hc], fun k => by rw [Waits, Waits, ha], by rw [hl]⟩ h

theorem Completed.waiting (h : Completed s s' n) (hw : Waiting s n) : Waiting s' n := by
  intro k hk
  rw [h.current_eq]
  exact hw k (h.waits k hk)

variable {v val : Validation ID} {prior : Option (Nat × ID)} {t : Int} {α : Type}
  {f : α → NodeID → Validation ID → α}

theorem Waiting.id_eq {k : Nat × ID} {l : L} (hw : Waiting s n) (hv : s.current_.lookup n = some v)
    (hk : s.Waits k n) (hid : Ledger.id l = k.2) : Ledger.id l = v.ledgerID := by
  obtain ⟨v', hv', _, rfl⟩ := hw k hk
  rw [hv] at hv'
  cases hv'
  exact hid

theorem Completed.accounted (h : Completed s s' n) (ha : Accounted s n) : Accounted s' n := by
  refine ⟨h.waiting ha.waiting, fun v hv ht => ?_⟩
  rw [h.current_eq] at hv
  cases ha.settled v hv ht with
  | inl hw =>
    refine (h.done _ hw).imp_right ?_
    rintro ⟨k, l, hk, hl, hid⟩
    exact ⟨l, hl, ha.waiting.id_eq hv hk hid⟩
  | inr hlast =>
    obtain ⟨l, hl, hid⟩ := hlast
    cases h.last with
    | inl heq => exact .inr ⟨l, heq.trans hl, hid⟩
    | inr hnew =>
      obtain ⟨k, l', hk, hl', hid'⟩ := hnew
      exact .inr ⟨l', hl', ha.waiting.id_eq hv hk hid'⟩

theorem accounted_of_idle (hw : ∀ k, ¬ s.Waits k n)
    (hc : ∀ v, s.current_.lookup n = some v → v.trusted = false) : Accounted s n := by
  refine ⟨fun k hk => absurd hk (hw k), fun v hv ht => ?_⟩
  rw [hc v hv] at ht
  cases ht

theorem DroppedAt.accounted (h : DroppedAt s s' n val) (ha : Accounted s n)
    (hv : s.current_.lookup n = some val) : Accounted s' n := by
  refine accounted_of_idle (fun k hk => ?_) fun v hv' => ?_
  · obtain ⟨hk, hne⟩ := (h.waits k).mp hk
    obtain ⟨v, hv', _, rfl⟩ := ha.waiting k hk
    rw [hv] at hv'
    cases hv'
    exact hne rfl
  · rw [h.current_eq] at hv'
    cases hv'

variable (A : Adaptor L ID) (p : ValidationParms)

theorem updateTrie_current (s : Validations NodeID L ID) (n m : NodeID) (val : Validation ID)
    (prior : Option (Nat × ID)) :
    (updateTrie A s n val prior).current_.lookup m = s.current_.lookup m := by
  rw [updateTrie_eq, (follow_spec A _ n val).2.1, checkAcquired_current]
  cases prior with
  | none => rfl
  | some key => rfl

theorem updateTrie_completed (hm : m ≠ n) : Completed s (updateTrie A s n val prior) m := by
  rw [updateTrie_eq]
  exact (clearPrior_sameAt prior hm).completed.trans ((checkAcquired_completed A _ m).trans
    ((follow_spec A _ n val).1 m hm).completed)

theorem updateTrie_accounted (hc : s.current_.lookup n = some val) (ht : val.trusted = true)
    (hw : ∀ k, (clearPrior s n prior).Waits k n → k = val.ledger) :
    Accounted (updateTrie A s n val prior) n := by
  have hcur := updateTrie_current A s n n val prior
  rw [updateTrie_eq] at hcur ⊢
  obtain ⟨-, -, hwaits, hset⟩ := follow_spec A (checkAcquired A (clearPrior s n prior)) n val
  refine ⟨fun k hk => ⟨val, hcur.trans hc, ht, ?_⟩, fun v hv _ => ?_⟩
  · exact (hwaits k hk).elim (fun hk' => hw k ((checkAcquired_completed A _ n).waits k hk')) id
  · rw [hcur, hc] at hv
    cases hv
    exact hset

/-! ## The calls -/

theorem add_accounted {now : Int} (h : ∀ n, Accounted s n)
    (hold : ∀ v, s.current_.lookup n = some v → v.trusted = val.trusted) (m : NodeID) :
    Accounted (add A p t now n val s).2 m := by
  cases add_cases A p t now n val s with
  | inl hsame =>
    obtain ⟨hc, ha, hl, -⟩ := hsame
    exact (h m).congr hc ha hl
  | inr hset =>
    obtain ⟨s', he, heq⟩ := hset
    rw [heq]
    cases ht : val.trusted with
    | true =>
      by_cases hm : m = n
      · subst hm
        refine updateTrie_accounted A he.current_same ht fun k hk => ?_
        obtain ⟨hk, hne⟩ := clearPrior_waits.mp hk
        obtain ⟨v, hv, -, rfl⟩ := (h m).waiting k (he.waits.mp hk)
        exact absurd ⟨by rw [hv]; rfl, rfl⟩ hne
      · exact (updateTrie_completed A hm).accounted ((he.sameAt hm).accounted (h m))
    | false =>
      by_cases hm : m = n
      · subst hm
        refine accounted_of_idle (fun k hk => ?_) fun v hv => ?_
        · obtain ⟨v, hv, htr, -⟩ := (h m).waiting k (he.waits.mp hk)
          rw [hold v hv, ht] at htr
          cases htr
        · rw [if_neg Bool.false_ne_true, he.current_same] at hv
          cases hv
          exact ht
      · exact (he.sameAt hm).accounted (h m)

variable (added removed : HashSet NodeID)

theorem trustChangedAt_accounted (h : ∀ n, Accounted s n)
    (m : NodeID) : Accounted (trustChangedAt A added removed s n) m := by
  cases trustChangedAt_cases added removed A (s := s) (n := n) with
  | inl hsame =>
    rw [hsame.1]
    exact h m
  | inr hset =>
    obtain ⟨v, s', hv, he, hcase⟩ := hset
    -- The node still waits only for the ledger of its validation.
    have hwait : ∀ k, s'.Waits k n → k = (retrust added removed n v).ledger := by
      intro k hk
      obtain ⟨v', hv', -, rfl⟩ := (h n).waiting k (he.waits.mp hk)
      rw [hv] at hv'
      cases hv'
      exact (retrust_ledger _ _ _ _).symm
    cases hcase with
    | inl hadd =>
      rw [hadd.2]
      by_cases hm : m = n
      · subst hm
        exact updateTrie_accounted A he.current_same (by simp [retrust, hadd.1]) hwait
      · exact (updateTrie_completed A hm).accounted ((he.sameAt hm).accounted (h m))
    | inr hrem =>
      obtain ⟨hadd, hrem, heq⟩ := hrem
      rw [heq]
      by_cases hm : m = n
      · subst hm
        refine accounted_of_idle (fun k hk => ?_) fun v' hv' => ?_
        · obtain ⟨hk, hne⟩ := (removeTrie_waits _).mp hk
          exact hne ⟨hwait k hk, rfl⟩
        · rw [removeTrie_current, he.current_same] at hv'
          cases hv'
          simp [retrust, hadd, hrem]
      · exact ((he.sameAt hm).trans (removeTrie_sameAt _ hm)).accounted (h m)

theorem trustChangedAt_current (n m : NodeID) :
    (trustChangedAt A added removed s n).current_.lookup m =
      if m = n then (s.current_.lookup m).map (retrust added removed m)
      else s.current_.lookup m := by
  cases trustChangedAt_cases added removed A (s := s) (n := n) with
  | inl hsame =>
    obtain ⟨heq, hnot⟩ := hsame
    rw [heq]
    by_cases hm : m = n
    · subst hm
      cases hv : s.current_.lookup m with
      | none => simp
      | some v => simp [retrust, hnot v hv]
    · rw [if_neg hm]
  | inr hset =>
    obtain ⟨v, s', hv, he, hcase⟩ := hset
    have hcur : (trustChangedAt A added removed s n).current_.lookup m = s'.current_.lookup m := by
      cases hcase with
      | inl hadd => rw [hadd.2, updateTrie_current]
      | inr hrem => rw [hrem.2.2, removeTrie_current]
    rw [hcur, he.current_eq, AList.lookup_insert_ite]
    by_cases hm : m = n
    · subst hm
      simp [hv]
    · rw [if_neg hm, if_neg hm]

theorem foldl_trustChangedAt_current (nodes : List NodeID) (s : Validations NodeID L ID)
    (m : NodeID) : (nodes.foldl (trustChangedAt A added removed) s).current_.lookup m =
      if m ∈ nodes then (s.current_.lookup m).map (retrust added removed m)
      else s.current_.lookup m := by
  induction nodes generalizing s with
  | nil => simp
  | cons n nodes ih =>
    rw [List.foldl_cons, ih, trustChangedAt_current]
    by_cases hm : m = n
    · subst hm
      cases s.current_.lookup m with
      | none => simp
      | some v => simp [retrust_retrust]
    · simp [hm]

theorem trustChanged_current (m : NodeID) :
    (trustChanged A added removed s).current_.lookup m =
      (s.current_.lookup m).map (retrust added removed m) := by
  have h := foldl_trustChangedAt_current A added removed (A.order s.asked s.current_.keys)
    { s with asked := s.asked + 1 } m
  refine h.trans ?_
  cases hv : s.current_.lookup m with
  | none => simp
  | some v =>
    have hm : m ∈ A.order s.asked s.current_.keys := by
      rw [(A.order_perm _ _).mem_iff]
      exact AList.mem_iff_lookup.mpr ⟨v, hv⟩
    rw [if_pos hm]

theorem current_accounted (init : α) (h : Accounted s n) :
    Accounted (current A p f init t s).2 n := by
  obtain ⟨-, hsame⟩ | ⟨-, v, hv, hd⟩ := current_cases A p f init t s n
  · exact hsame.accounted h
  · exact hd.accounted h hv

theorem current_lookup (init : α) (h : (current A p f init t s).2.current_.lookup n = some v) :
    s.current_.lookup n = some v := by
  obtain ⟨-, hsame⟩ | ⟨-, v', -, hd⟩ := current_cases A p f init t s n
  · rw [← hsame.current_eq, h]
  · rw [hd.current_eq] at h
    cases h

end Ripple.Validations
