import Ripple.TxQ.Indexes

/-!
# Ripple.TxQ.Loops

The loops of `accept` and `processClosedLedger`: from a queue whose indexes agree they come to an
end without following a dead iterator, and they make the queue shrink.
-/

namespace Ripple.TxQ

open Proc (wp wp_bind wp_ite wp_pure wp_modify wp_get wp_mono wp_post wp_expect_some)

/-! ## Attempts to apply a queued transaction -/

/-- The results of a preflight after which `accept` keeps a transaction only if it passed. -/
def GoodPreflight (ter : TER) : Prop :=
  ter = TER.tesSUCCESS ∨ TER.isTefFailure ter ∨ TER.isTemMalformed ter

theorem MaybeTx.Settled.category_congr {m m' : MaybeTx} (h : m.Settled) (h' : m'.Settled)
    (hc : m'.consequences = m.consequences) (ht : m'.txn = m.txn) : m'.category = m.category := by
  simp only [category, hc, ht]
  cases hm : m.consequences with
  | some c => rfl
  | none => simp [calculateConsequences, h hm, h' (hc.trans hm)]

section Attempts

variable {C : Prop} {env : Env} {m : MaybeTx} {n : Nat}

theorem apply_kept_of_settled {r : Int} {l : Option TER}
    (h : C → m.Settled → (m.apply env n).1.Settled) :
    Kept C m { (m.apply env n).1 with retriesRemaining := r, lastResult := l } where
  account := rfl
  sequence := rfl
  feeLevel := rfl
  calm hC hs := ⟨h hC hs, hs.category_congr (h hC hs) rfl rfl⟩

/-- An entry that fails to apply and is neither malformed nor hopeless has passed its preflight. -/
theorem apply_settled (hgood : GoodPreflight (env.preflight n))
    (hresult : ¬ (TER.isTefFailure (m.apply env n).2.1 ∨ TER.isTemMalformed (m.apply env n).2.1))
    (hs : m.Settled) : (m.apply env n).1.Settled := by
  intro hc
  simp only [MaybeTx.apply] at hresult ⊢
  split
  · rename_i hchanged
    rw [if_pos hchanged] at hresult
    obtain hok | hbad := hgood
    · exact hok
    · by_contra hne
      rw [if_pos hne] at hresult
      exact hresult hbad
  · exact hs hc

end Attempts

/-! ## One round of accept -/

theorem store_store (s : TxQ) (p : Ptr) (m m' : MaybeTx) :
    (s.store p m).store p m' = s.store p m' := by
  simp only [store, AList.insert_insert]

theorem head_lt_last {t : OrderedMap Nat Ptr} {first last : Nat × Ptr}
    (hfirst : t.entries.head? = some first) (hlast : t.entries.getLast? = some last)
    (hlen : t.entries.length > 1) : first.1 < last.1 := by
  have hsorted := t.sorted
  cases he : t.entries with
  | nil => simp [he] at hfirst
  | cons e es =>
    rw [he] at hfirst hlast hlen hsorted
    cases hfirst
    have hne : es ≠ [] := by
      rintro rfl
      simp at hlen
    have hmem : last ∈ es := by
      rw [List.getLast?_cons, Option.some.injEq] at hlast
      rw [← hlast, List.getLast?_eq_some_getLast hne]
      exact List.getLast_mem hne
    exact (List.pairwise_cons.1 hsorted).1 last hmem

section Round

variable {R : Type} {C : Prop} {s : TxQ} {p : Ptr} {m : MaybeTx} {q : TxQAccount} {env : Env} {n : Nat}
  {E : Fault → Prop}

variable {Q : Option Ptr → TxQ → Prop} {P : Option Bool → TxQ → Prop} {first : Nat × Ptr} {a : AccountID}

theorem wp_eraseAndAdvance_store {P : R → TxQ → Prop} {m₁ : MaybeTx} {q₁ : TxQAccount} (h : Agree s)
    (he : s.Held p m q) (hk : Kept False m m₁) (hq₁ : q₁.transactions = q.transactions)
    (hQ : ∀ it s', Shrinks C s s' → (∀ x, it = some x → x ∈ s'.byFee_) →
      s'.byFee_.length < s.byFee_.length → Q it s') :
    wp (eraseAndAdvance p) E P Q ((s.store p m₁).setAccount m.account q₁) := by
  have hstore := h.shrinks_store he.value hk
  have hagree : Agree ((s.store p m₁).setAccount m.account q₁) :=
    ((hstore.agree h).shrinks_setAccount (C := C)
      fun n x => hq₁ ▸ (stored_iff he.account).symm).agree (hstore.agree h)
  have he₁ : ((s.store p m₁).setAccount m.account q₁).Held p m₁ q₁ :=
    { value := (AList.lookup_insert_ite s.heap p p m₁).trans (if_pos rfl)
      account := hk.account ▸ (OrderedMap.find?_insert _ _ _ _).trans (if_pos rfl)
      node := by rw [hk.sequence, hq₁]; exact he.node }
  refine wp_eraseAndAdvance hagree he₁ fun it hit => ?_
  refine hQ it _ ?_ hit ?_
  · have hu := hagree.unfiled_dropped he₁
    refine h.shrinks_unfiled ⟨fun a k x => ?_, hu.freed, fun x hx => (hu.kept x hx).trans ?_,
      fun a ha => hu.accounts a (isSome_find?_setAccount ha), hu.nextPtr, hu.maxSize⟩
      List.erase_sublist hagree.mem_dropped
    · rw [hu.stored, stored_setAccount]
      split
      · rename_i heq
        rw [heq, stored_iff he.account, hq₁]
      · rfl
    · exact (AList.lookup_insert_ite s.heap p x m₁).trans (if_neg hx)
  · have hlen := length_dropped (m := m₁) (q := q₁) (hagree.live p m₁ he₁.value)
    exact Nat.lt_of_succ_le (Nat.le_of_eq hlen)

theorem Agree.top (h : Agree s) (hq : s.byAccount_.find? a = some q) (hne : q.transactions.entries ≠ []) :
    ∃ e m, q.transactions.entries.getLast? = some e ∧ s.Held e.2 m q ∧ m.account = a ∧ m.sequence = e.1 := by
  have he := List.getLast?_eq_some_getLast hne
  obtain ⟨m, q', hheld, hacc, hseq⟩ := h.held
    ((stored_iff hq).2 ((q.transactions.mem_entries_iff _ _).1 (List.mem_of_getLast? he)))
  cases (hacc ▸ hq).symm.trans hheld.account
  exact ⟨_, m, he, hheld, hacc, hseq⟩

theorem wp_dropLast {Q : Unit → TxQ → Prop} (h : Agree s) (he : s.Held p m q)
    (hfirst : q.transactions.entries.head? = some first) (hle : m.sequence ≤ first.1)
    (hsame : Q () s)
    (hQ : ∀ s', Shrinks C s s' → p ∈ s'.byFee_ → s'.byFee_.length < s.byFee_.length → Q () s') :
    wp (dropLast m.account) E P Q s := by
  simp only [dropLast, wp_bind, wp_get, wp_accountAt he.account]
  refine wp_ite (fun hcond => ?_) fun _ => wp_pure.2 hsame
  have hlen : q.transactions.entries.length > 1 := by simp_all
  have hne : q.transactions.entries ≠ [] := by
    intro hnil
    simp [hnil] at hlen
  obtain ⟨last, ml, hlast, hl, hacc, hseq⟩ := h.top he.account hne
  -- the last transaction is another one than the first
  have hlast_ne : p ≠ last.2 := by
    have hlt := head_lt_last hfirst hlast hlen
    rintro rfl
    cases he.value.symm.trans hl.value
    omega
  have hp : last.2 ∈ s.byFee_ := h.live _ ml hl.value
  rw [hlast]
  simp only [wp_bind, wp_expect_some, wp_pure]
  rw [wp_erase h hl]
  exact hQ _ (h.shrinks_dropped hl) ((h.mem_dropped p).2 ⟨h.live p m he.value, hlast_ne⟩)
    (Nat.lt_of_succ_le (Nat.le_of_eq (length_dropped hp)))

theorem wp_stay {m' : MaybeTx} (h : Agree s) (he : s.Held p m q) (hk : Kept C m m')
    (hfirst : q.transactions.entries.head? = some first) (hle : m.sequence ≤ first.1)
    (hQ : ∀ it s', Shrinks C s s' → (∀ x, it = some x → x ∈ s'.byFee_) →
      s'.byFee_.length < s.byFee_.length ∨
        s'.byFee_ = s.byFee_ ∧ it = following p s.byFee_ → Q it s') :
    wp (dropLast m.account) E P (fun _ s' => wp (advance p) E P Q s') (s.store p m') := by
  have hs₁ := h.shrinks_store he.value hk
  have he' : (s.store p m').Held p m' q :=
    { value := (AList.lookup_insert_ite s.heap p p _).trans (if_pos rfl)
      account := hk.account ▸ he.account, node := hk.sequence ▸ he.node }
  rw [← hk.account]
  refine wp_dropLast (C := C) (hs₁.agree h) he' hfirst (hk.sequence ▸ hle) ?_ ?_
  · rw [wp_advance (s := s.store p m') (h.live p m he.value)]
    exact hQ _ _ hs₁ (fun x hx => following_mem hx) (.inr ⟨rfl, rfl⟩)
  · intro s' hs' hp hlt
    rw [wp_advance hp]
    exact hQ _ s' (hs₁.trans hs') (fun x hx => following_mem hx) (.inl hlt)

theorem wp_settle (hgood : C → GoodPreflight (env.preflight n)) (h : Agree s) (he : s.Held p m q)
    (hfirst : q.transactions.entries.head? = some first) (hle : m.sequence ≤ first.1)
    (hQ : ∀ it s', Shrinks C s s' → (∀ x, it = some x → x ∈ s'.byFee_) →
      s'.byFee_.length < s.byFee_.length ∨
        s'.byFee_ = s.byFee_ ∧ it = following p s.byFee_ → Q it s') :
    wp (settle p (m.apply env n).1 q (m.apply env n).2) E P Q (s.store p (m.apply env n).1) := by
  have hk : Kept False m (m.apply env n).1 :=
    { account := rfl, sequence := rfl, feeLevel := rfl, calm := nofun }
  rw [settle]
  refine wp_ite (fun _ => ?_) fun _ => wp_ite (fun _ => ?_) fun hstay => ?_
  · rw [← setAccount_self (s := s.store p (m.apply env n).1) he.account]
    exact wp_eraseAndAdvance_store h he hk rfl fun it s' hs hit hlt => hQ it s' hs hit (.inl hlt)
  · simp only [wp_bind, wp_modify]
    refine wp_eraseAndAdvance_store (m := m) h he hk ?_
      fun it s' hs hit hlt => hQ it s' hs hit (.inl hlt)
    split <;> rfl
  · simp only [wp_bind, wp_modify, store_store]
    have hresult : ¬ (TER.isTefFailure (m.apply env n).2.1 ∨
        TER.isTemMalformed (m.apply env n).2.1) := by
      simp only [Bool.or_eq_true, not_or] at hstay ⊢
      exact hstay.1
    -- an entry that stays has passed its preflight, so its category does not change
    exact wp_stay (m := m) h he
      (apply_kept_of_settled fun hC hs => apply_settled (hgood hC) hresult hs) hfirst hle hQ

end Round

/-! ## The loop of accept -/

section Accept

variable {C : Prop} {env : Env}

/-- Every round lowers this: an entry goes, or the iterator has less in front of it. -/
def acceptMeasure (l : List Ptr) (it : Option Ptr) : Nat := l.length * (l.length + 1) + remaining l it

variable {l : List Ptr}

theorem acceptMeasure_erased {l' : List Ptr} {it it' : Option Ptr} (h : l'.length < l.length) :
    acceptMeasure l' it' < acceptMeasure l it := by
  have hle := remaining_le l' it'
  obtain ⟨k, hk⟩ : ∃ k, l.length = l'.length + 1 + k := ⟨l.length - l'.length - 1, by omega⟩
  simp only [acceptMeasure, hk]
  nlinarith

theorem acceptMeasure_following {p : Ptr} (hn : l.Nodup) (hp : p ∈ l) :
    acceptMeasure l (following p l) < acceptMeasure l (some p) := by
  have := (remaining_following hn hp).1
  simp only [acceptMeasure]
  omega

theorem wp_acceptLoop {snapshot : Snapshot} (hgood : C → ∀ n, GoodPreflight (env.preflight n)) :
    ∀ (fuel n : Nat) (it : Option Ptr) (changed : Bool) (s : TxQ), Agree s →
      (∀ x, it = some x → x ∈ s.byFee_) → acceptMeasure s.byFee_ it < fuel →
      wp (acceptLoop env snapshot fuel n it changed) (fun _ => False)
        (fun _ s' => Shrinks C s s') (fun _ s' => Shrinks C s s') s := by
  intro fuel
  induction fuel with
  | zero => intro n it changed s _ _ hfuel; exact absurd hfuel (Nat.not_lt_zero _)
  | succ fuel ih =>
    intro n it changed s h hit hfuel
    -- a later round shrinks what an earlier one has left
    have hlater : ∀ {it' s'} changed', Shrinks C s s' → (∀ x, it' = some x → x ∈ s'.byFee_) →
        acceptMeasure s'.byFee_ it' < acceptMeasure s.byFee_ it →
        wp (acceptLoop env snapshot fuel (n + 1) it' changed') (fun _ => False)
          (fun _ s'' => Shrinks C s s'') (fun _ s'' => Shrinks C s s'') s' := by
      intro it' s' changed' hs hit' hlt
      exact wp_mono (ih (n + 1) it' changed' s' (hs.agree h) hit' (by omega)) (fun _ he => he)
        (fun _ _ hs' => hs.trans hs') fun _ _ hs' => hs.trans hs'
    cases it with
    | none => exact wp_pure.2 h.shrinks_refl
    | some p =>
      have hp : p ∈ s.byFee_ := hit p rfl
      obtain ⟨m, q, he⟩ := h.entry hp
      have hmem := (q.transactions.mem_entries_iff m.sequence p).2 he.node
      obtain ⟨first, hfirst⟩ : ∃ first, q.transactions.entries.head? = some first := by
        cases hes : q.transactions.entries with
        | nil => rw [hes] at hmem; cases hmem
        | cons e es => exact ⟨e, rfl⟩
      simp only [acceptLoop, wp_bind, wp_deref he.value, wp_accountAt he.account, hfirst,
        wp_expect_some]
      refine wp_ite (fun _ => ?_) fun hle => ?_
      · rw [wp_bind, wp_advance hp]
        exact hlater changed h.shrinks_refl (fun x hx => following_mem hx)
          (acceptMeasure_following h.nodup hp)
      · cases FeeMetrics.scaleFeeLevel snapshot (env.txCount n) with
        | none => exact Proc.wp_ret.2 h.shrinks_refl
        | some required =>
          refine wp_ite (fun _ => ?_) fun _ => wp_pure.2 h.shrinks_refl
          simp only [wp_bind, wp_modify]
          refine wp_settle (fun hC => hgood hC n) h he hfirst (by omega) ?_
          rintro it' s' hs hit' (hlt | ⟨hfee, rfl⟩)
          · exact hlater _ hs hit' (acceptMeasure_erased hlt)
          · exact hlater _ hs hit' (by rw [hfee]; exact acceptMeasure_following h.nodup hp)

theorem wp_accept {s : TxQ} (hgood : C → ∀ n, GoodPreflight (env.preflight n)) (h : Agree s) :
    wp (accept env) (fun _ => False) (fun _ s' => Shrinks C s s') (fun _ s' => Shrinks C s s')
      s := by
  simp only [accept, wp_bind, wp_get, wp_pure]
  refine wp_acceptLoop hgood _ _ _ _ s h (fun x hx => List.mem_of_mem_head? hx) ?_
  have hle := remaining_le s.byFee_ s.byFee_.head?
  simp only [acceptMeasure, acceptFuel]
  nlinarith

end Accept

/-! ## The loop of processClosedLedger -/

section Expire

variable {C : Prop}

theorem wp_expireLoop {ledgerSeq : Nat} :
    ∀ (fuel : Nat) (it : Option Ptr) (s : TxQ), Agree s → (∀ x, it = some x → x ∈ s.byFee_) →
      remaining s.byFee_ it < fuel →
      wp (expireLoop ledgerSeq fuel it) (fun _ => False) (fun _ _ => False)
        (fun _ s' => Shrinks C s s') s := by
  intro fuel
  induction fuel with
  | zero => intro it s _ _ hfuel; exact absurd hfuel (Nat.not_lt_zero _)
  | succ fuel ih =>
    intro it s h hit hfuel
    cases it with
    | none => exact wp_pure.2 h.shrinks_refl
    | some p =>
      have hp : p ∈ s.byFee_ := hit p rfl
      obtain ⟨m, q, he⟩ := h.entry hp
      simp only [expireLoop, wp_bind, wp_deref he.value]
      refine wp_ite (fun _ => ?_) fun _ => ?_
      · simp only [wp_bind, wp_accountAt he.account, wp_modify]
        -- the penalty first, then the entry
        have hs₁ : Shrinks C s (s.setAccount m.account { q with dropPenalty := true }) :=
          h.shrinks_setAccount fun _ _ => (stored_iff he.account).symm
        have h₁ := hs₁.agree h
        have he₁ : (s.setAccount m.account { q with dropPenalty := true }).Held p m
            { q with dropPenalty := true } :=
          ⟨he.value, (OrderedMap.find?_insert _ _ _ _).trans (if_pos rfl), he.node⟩
        rw [wp_erase h₁ he₁]
        have hs₂ := h₁.shrinks_dropped (C := C) he₁
        have hrem := (remaining_following h.nodup hp).2
        refine wp_post (ih _ _ (hs₂.agree h₁) (fun x hx => ?_) ?_) fun _ _ hs' => (hs₁.trans hs₂).trans hs'
        · exact (h₁.mem_dropped x).2 ⟨following_mem hx, following_ne h.nodup hp hx⟩
        · show remaining (s.byFee_.erase p) (following p s.byFee_) < fuel
          omega
      · rw [wp_bind, wp_advance hp]
        have hrem := (remaining_following h.nodup hp).1
        exact ih _ s h (fun x hx => following_mem hx) (by omega)

end Expire

end Ripple.TxQ
