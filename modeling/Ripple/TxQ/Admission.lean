import Ripple.TxQ.Loops

/-!
# Ripple.TxQ.Admission

The steps of `TxQ::apply`, one rule each, and what the call as a whole can do: it makes the queue
shrink, or it adds one entry to a queue that has shrunk. The rules also say what an entry that is
added may find before and behind it in the queue of its account.
-/

namespace Ripple.TxQ

open List
open Proc (wp wp_bind wp_ite wp_pure wp_get wp_ret wp_modify wp_expect_some)

/-! ## Overwriting without erasing -/

/-- Entries are overwritten under their keys, and consequences that are known stay as they are. -/
structure Touched (s s' : TxQ) : Prop where
  byFee : s'.byFee_ = s.byFee_
  byAccount : s'.byAccount_ = s.byAccount_
  feeMetrics : s'.feeMetrics_ = s.feeMetrics_
  shrinks : Shrinks True s s'
  cached : ∀ x m, s.heap.lookup x = some m → m.consequences.isSome →
    ∃ m', s'.heap.lookup x = some m' ∧ m'.consequences = m.consequences

namespace Touched

variable {s s' s'' : TxQ}

theorem refl (h : Agree s) : Touched s s where
  byFee := rfl
  byAccount := rfl
  feeMetrics := rfl
  shrinks := h.shrinks_refl
  cached _ m hm _ := ⟨m, hm, rfl⟩

theorem trans (h : Touched s s') (h' : Touched s' s'') : Touched s s'' where
  byFee := h'.byFee.trans h.byFee
  byAccount := h'.byAccount.trans h.byAccount
  feeMetrics := h'.feeMetrics.trans h.feeMetrics
  shrinks := h.shrinks.trans h'.shrinks
  cached x m hm hc := by
    obtain ⟨m', hm', hc'⟩ := h.cached x m hm hc
    obtain ⟨m'', hm'', hc''⟩ := h'.cached x m' hm' (hc' ▸ hc)
    exact ⟨m'', hm'', hc''.trans hc'⟩

theorem stored (h : Touched s s') {a n x : Nat} : s'.Stored a n x ↔ s.Stored a n x := by
  simp only [Stored, h.byAccount]

theorem store (ha : Agree s) {p : Ptr} {m m' : MaybeTx} (hm : s.heap.lookup p = some m)
    (hk : Kept True m m') (hc : m.consequences.isSome → m'.consequences = m.consequences) :
    Touched s (s.store p m') where
  byFee := rfl
  byAccount := rfl
  feeMetrics := rfl
  shrinks := ha.shrinks_store hm hk
  cached x mx hx hcx := by
    simp only [TxQ.store, AList.lookup_insert_ite]
    split
    · rename_i he
      subst he
      rw [hm] at hx
      cases hx
      exact ⟨m', rfl, hc hcx⟩
    · exact ⟨mx, hx, rfl⟩

end Touched

def MaybeTx.noted (m : MaybeTx) : MaybeTx :=
  { m with consequences := some (m.consequences.getD (calculateConsequences m.pfresult m.txn)) }

theorem kept_noted {C : Prop} (m : MaybeTx) : Kept C m m.noted where
  account := rfl
  sequence := rfl
  feeLevel := rfl
  calm _ _ := ⟨nofun, rfl⟩

section Steps

variable {E : Fault → Prop} {s : TxQ} {p : Ptr} {m : MaybeTx}

variable {P : Reply → TxQ → Prop} {env : Env} {flags : ApplyFlags} {tx : STTx} {setup : Setup}
  {replacing : Bool} {R : Type} {pfresult : PreflightResult} {x : Ptr} {feeLevelPaid : Nat}
  {accountExists : Bool} {required : Nat} {Q : Unit → TxQ → Prop} {aSeq : Nat}
  {range : List (Nat × Ptr)} {a : AccountID} {q : TxQAccount}

theorem wp_consequencesOf {Q : TxConsequences → TxQ → Prop} (h : Agree s)
    (hm : s.heap.lookup p = some m)
    (hQ : ∀ c s', Touched s s' → s'.heap.lookup p = some m.noted → c.category = m.category → Q c s') :
    wp (consequencesOf p) E P Q s := by
  simp only [consequencesOf, wp_bind, wp_deref hm]
  cases hc : m.consequences with
  | some c =>
    refine wp_pure.2 (hQ c s (Touched.refl h) ?_ ?_)
    · rw [hm, MaybeTx.noted, hc, Option.getD_some, ← hc]
    · rw [MaybeTx.category, hc, Option.getD_some]
  | none =>
    have hnoted : { m with consequences := some (calculateConsequences m.pfresult m.txn) } = m.noted := by
      rw [MaybeTx.noted, hc, Option.getD_none]
    simp only [wp_bind, wp_modify, wp_pure, hnoted]
    refine hQ _ _ (Touched.store h hm (kept_noted m) fun hs => ?_) ?_ ?_
    · rw [hc] at hs
      cases hs
    · exact (AList.lookup_insert_ite s.heap p p m.noted).trans (if_pos rfl)
    · rw [MaybeTx.category, hc, Option.getD_none]

/-! ## The steps in front of the queue -/

theorem wp_requiredFeeLevel {Q : Nat → TxQ → Prop} (h : Agree s) (hP : P none s)
    (hQ : ∀ level, Q level s) : wp (requiredFeeLevel env flags) E P Q s := by
  simp only [requiredFeeLevel, wp_bind, wp_get]
  cases FeeMetrics.scaleFeeLevel s.feeMetrics_.getSnapshot (env.txCount 0) with
  | none => exact wp_ret.2 hP
  | some level =>
    refine wp_ite (fun _ => ?_) fun _ => wp_pure.2 (hQ _)
    cases hfee : s.byFee_ with
    | nil => exact wp_pure.2 (hQ _)
    | cons p l =>
      obtain ⟨m, -, hm, -⟩ := h.entry (p := p) (by rw [hfee]; exact mem_cons_self)
      simp only [wp_bind, wp_deref hm, wp_pure]
      exact hQ _

theorem wp_canBeHeld {account : Option AccountID} {P : R → TxQ → Prop} {Q : Bool → TxQ → Prop}
    (hlimit : ∀ e, ¬ 1 ≤ setup.maximumTxnPerAccount → E e)
    (haccount : ∀ a, account = some a → (s.byAccount_.find? a).isSome) (hQ : ∀ b, Q b s) :
    wp (canBeHeld setup env tx account replacing) E P Q s := by
  unfold canBeHeld
  have hpure : ∀ b, wp (pure b) E P Q s := fun b => wp_pure.2 (hQ b)
  refine wp_ite (fun _ => hpure _) fun _ => wp_ite (fun _ => hpure _) fun _ => ?_
  cases account with
  | none => exact hpure _
  | some a =>
    refine wp_ite (fun _ => hpure _) fun _ => ?_
    obtain ⟨q, hq⟩ := Option.isSome_iff_exists.1 (haccount a rfl)
    simp only [wp_bind, wp_accountAt hq]
    refine wp_ite (fun _ => hpure _) fun hfull => ?_
    rw [wp_bind]
    cases hlast : q.transactions.entries.getLast? with
    | some last => exact wp_expect_some.2 (hpure _)
    | none =>
      -- only a limit of zero is reached by an account without transactions
      refine Proc.wp_fault.2 (hlimit _ fun hset => hfull ?_)
      rw [getLast?_eq_none_iff.1 hlast]
      exact UInt32.le_iff_toNat_le.1 hset

def STTx.category (tx : STTx) : ConsequenceCategory :=
  if tx.affectsSubsequentTransactionAuth then .blocker else .normal

/-- What step 2 finds out: whether there is an entry under the key, and that it may be replaced. -/
structure Replaces (s : TxQ) (tx : STTx) (pfresult : PreflightResult) (r : Replacement) : Prop where
  stored : ∀ x, s.Stored tx.account tx.sequence x ↔ r.replacedItemDeleteIter = some x
  middle : ∀ x m n y, r.replacedItemDeleteIter = some x → s.heap.lookup x = some m →
    s.Stored tx.account n y → tx.sequence < n → m.category = .normal →
    (calculateConsequences pfresult tx).category ≠ .blocker
  consequences : ∀ c, r.consequences = some c → c = calculateConsequences pfresult tx

theorem replaces_none (h : ∀ x, ¬ s.Stored tx.account tx.sequence x) :
    Replaces s tx pfresult {} where
  stored x := iff_of_false (h x) nofun
  middle _ _ _ _ hx := by cases hx
  consequences _ hc := by cases hc

theorem replaces_some (hst : ∀ y, s.Stored tx.account tx.sequence y ↔ some x = some y)
    (hm : s.heap.lookup x = some m)
    (c : Option TxConsequences) (hc : ∀ d, c = some d → d = calculateConsequences pfresult tx)
    (hmiddle : ∀ n y, s.Stored tx.account n y → tx.sequence < n → m.category = .normal →
      (calculateConsequences pfresult tx).category ≠ .blocker) :
    Replaces s tx pfresult { replacedItemDeleteIter := some x, consequences := c } where
  stored := hst
  middle y m' n z hy hm' := by
    cases hy
    rw [hm] at hm'
    cases hm'
    exact hmiddle n z
  consequences := hc

theorem nextEntry_isSome {t : OrderedMap Nat Ptr} {k n : Nat} {y : Ptr} (hy : t.find? n = some y)
    (hlt : k < n) : (nextEntry t k).isSome := by
  rw [nextEntry, isSome_head?]
  intro hnil
  have hall := dropWhile_eq_nil_iff.1 hnil (n, y) ((t.mem_entries_iff n y).2 hy)
  simp only [decide_eq_true_eq] at hall
  omega

theorem wp_replace {Q : Replacement → TxQ → Prop} (h : Agree s)
    (haccount : accountExists = (s.byAccount_.find? tx.account).isSome)
    (hP : ∀ r s', Touched s s' → P r s')
    (hQ : ∀ r s', Touched s s' → Replaces s tx pfresult r → Q r s') :
    wp (replace setup tx pfresult feeLevelPaid required accountExists) E P Q s := by
  rw [replace]
  refine wp_ite (fun hexists => ?_) fun hnot => ?_
  · obtain ⟨q, hq⟩ := Option.isSome_iff_exists.1 (haccount ▸ hexists)
    simp only [wp_bind, wp_accountAt hq]
    cases ht : q.transactions.find? tx.sequence with
    | none =>
      refine wp_pure.2 (hQ {} s (Touched.refl h) (replaces_none fun x hx => ?_))
      rw [stored_iff hq, ht] at hx
      cases hx
    | some x =>
      obtain ⟨m, hm, -⟩ := h.filed _ _ _ ⟨q, hq, ht⟩
      -- the three ways to let the new transaction replace the old one
      have hrep := @replaces_some s m tx pfresult x (fun y => by rw [stored_iff hq, ht]) hm
      simp only [wp_bind, wp_deref hm]
      refine wp_ite (fun _ => ?_) fun _ => wp_refuse.2 (hP _ s (Touched.refl h))
      refine wp_ite (fun _ => ?_) fun hlast => ?_
      · rw [wp_bind]
        refine wp_consequencesOf h hm fun c s' htouch _ hcat => ?_
        refine wp_ite (fun hnormal => ?_) fun hblocker => ?_
        · refine wp_ite (fun _ => wp_refuse.2 (hP _ s' htouch)) fun hnew =>
            wp_pure.2 (hQ _ s' htouch ?_)
          exact hrep _ (fun d hd => (Option.some.inj hd).symm) fun _ _ _ _ _ => hnew
        · refine wp_pure.2 (hQ _ s' htouch (hrep none (by intro d hd; cases hd) fun _ _ _ _ hnormal => ?_))
          exact absurd (hcat.trans hnormal) hblocker
      · refine wp_pure.2 (hQ _ s (Touched.refl h) (hrep none (by intro d hd; cases hd) fun n y hy hlt _ => ?_))
        exact absurd (nextEntry_isSome ((stored_iff hq).1 hy) hlt) hlast
  · refine wp_pure.2 (hQ {} s (Touched.refl h) (replaces_none ?_))
    rintro x ⟨q, hq, -⟩
    rw [haccount, hq] at hnot
    exact hnot rfl

/-! ## The transactions in front -/

def Passable (s : TxQ) (x : Ptr) : Prop :=
  ∃ m, s.heap.lookup x = some m ∧ m.consequences.isSome ∧ m.category ≠ .blocker

theorem Touched.passable {s' : TxQ} (h : Touched s s') (hx : s.Passable x) : s'.Passable x := by
  obtain ⟨m, hm, hc, hcat⟩ := hx
  obtain ⟨m', hm', hc'⟩ := h.cached x m hm hc
  refine ⟨m', hm', hc' ▸ hc, ?_⟩
  obtain ⟨c, hcm⟩ := Option.isSome_iff_exists.1 hc
  rw [MaybeTx.category, hc', hcm, Option.getD_some]
  rwa [MaybeTx.category, hcm, Option.getD_some] at hcat

theorem wp_checkMultiLevel {sequence : Nat} (hm : s.heap.lookup p = some m) (hP : ∀ r, P r s)
    (hQ : Q () s) : wp (checkMultiLevel setup tx feeLevelPaid sequence p) E P Q s := by
  rw [checkMultiLevel]
  refine wp_ite (fun _ => ?_) fun _ => wp_pure.2 hQ
  simp only [wp_bind, wp_deref hm]
  exact wp_ite (fun _ => wp_refuse.2 (hP _)) fun _ => wp_pure.2 hQ

theorem wp_scan :
    ∀ (es : List (Nat × Ptr)) (workingSeq : Nat) (acc : InFlight) (s : TxQ) {Q : Option InFlight → TxQ → Prop},
      Agree s → (∀ e ∈ es, e.2 ∈ s.byFee_) → (∀ r s', Touched s s' → P r s') →
      (∀ s', Touched s s' → Q none s') →
      (∀ acc' s', Touched s s' → (∀ e ∈ es, e.1 < tx.sequence → s'.Passable e.2) → Q (some acc') s') →
      wp (scan setup tx feeLevelPaid es workingSeq acc) E P Q s := by
  intro es
  induction es with
  | nil =>
    intro workingSeq acc s Q h _ _ hnone hsome
    simp only [scan, wp_pure]
    split
    · exact hnone s (Touched.refl h)
    · exact hsome acc s (Touched.refl h) (by intro d hd; cases hd)
  | cons e rest ih =>
    intro workingSeq acc s Q h hmem hP hnone hsome
    obtain ⟨sequence, p⟩ := e
    obtain ⟨m, -, hm, -⟩ := h.entry (hmem _ mem_cons_self)
    -- the rest of the loop, from a queue in which this entry is settled
    have hrest : ∀ acc' s', Touched s s' → (sequence < tx.sequence → s'.Passable p) →
        wp (scan setup tx feeLevelPaid rest ((workingSeq + 1) % 2 ^ 32) acc') E P Q s' := by
      intro acc' s' ht hp
      refine ih _ acc' s' (ht.shrinks.agree h) (fun e he => ?_) (fun r s'' ht' => hP r s'' (ht.trans ht'))
        (fun s'' ht' => hnone s'' (ht.trans ht')) fun acc'' s'' ht' hpass => ?_
      · rw [ht.byFee]
        exact hmem e (mem_cons_of_mem _ he)
      · refine hsome acc'' s'' (ht.trans ht') fun e he hlt => ?_
        obtain rfl | he := mem_cons.1 he
        · exact ht'.passable (hp hlt)
        · exact hpass e he hlt
    simp only [scan]
    refine wp_ite (fun _ => wp_pure.2 (hnone s (Touched.refl h))) fun _ => ?_
    rw [wp_bind]
    refine wp_checkMultiLevel hm (fun r => hP r s (Touched.refl h)) ?_
    refine wp_ite (fun heq => hrest _ s (Touched.refl h) fun hlt => absurd heq hlt.ne) fun _ => ?_
    rw [wp_bind]
    refine wp_consequencesOf h hm fun c s' ht hnoted hcat => ?_
    refine wp_ite (fun _ => wp_refuse.2 (hP _ s' ht)) fun hpass => hrest _ s' ht fun hlt => ?_
    exact ⟨m.noted, hnoted, rfl, fun hblocker => hpass ⟨hlt, hcat.trans hblocker⟩⟩

/-- What step 3 finds out about the transactions from the sequence of the account root up to `tx`:
there is one for the account root, and none of them blocks. -/
structure Ahead (env : Env) (tx : STTx) (multi : MultiTxn) (s s' : TxQ) : Prop where
  lt : multi.nextSeq < tx.sequence
  next : s.Stored tx.account multi.nextSeq multi.nextTxIter
  sandbox : multi.sandbox.1 = tx.sequence
  passable : ∀ n x, multi.nextSeq ≤ n → n < tx.sequence → s.Stored tx.account n x → s'.Passable x

theorem mem_dropWhile_of_not {α : Type} {f : α → Bool} {l : List α} {e : α} (he : e ∈ l)
    (hf : f e = false) : e ∈ l.dropWhile f := by
  rw [← takeWhile_append_dropWhile (p := f) (l := l), mem_append] at he
  refine he.resolve_left fun htake => ?_
  rw [mem_takeWhile_imp htake] at hf
  cases hf

theorem wp_heldAhead {Q : Bool → TxQ → Prop} (hlimit : ∀ e, ¬ 1 ≤ setup.maximumTxnPerAccount → E e)
    (haccount : (s.byAccount_.find? tx.account).isSome) (hfalse : Q false s)
    (htrue : aSeq < tx.sequence → Q true s) :
    wp (heldAhead setup env tx aSeq replacing) E P Q s := by
  rw [heldAhead]
  refine wp_ite (fun hlt => ?_) fun _ => wp_pure.2 hfalse
  refine wp_canBeHeld hlimit (fun a ha => ?_) fun b => ?_
  · cases ha
    exact haccount
  · cases b with
    | false => exact hfalse
    | true => exact htrue hlt

theorem wp_multiTxn {Q : Option MultiTxn → TxQ → Prop} (h : Agree s)
    (hlimit : ∀ e, ¬ 1 ≤ setup.maximumTxnPerAccount → E e)
    (haccount : accountExists → (s.byAccount_.find? tx.account).isSome)
    (hP : ∀ r s', Touched s s' → P r s') (hnone : ∀ s', Touched s s' → Q none s')
    (hsome : ∀ multi s', Touched s s' → Ahead env tx multi s s' → Q (some multi) s') :
    wp (multiTxn setup env tx feeLevelPaid accountExists replacing) E P Q s := by
  have hsame : wp (pure none) E P Q s := wp_pure.2 (hnone s (Touched.refl h))
  rw [multiTxn]
  refine wp_ite (fun hexists => ?_) fun _ => hsame
  obtain ⟨q, hq⟩ := Option.isSome_iff_exists.1 (haccount hexists)
  cases env.account tx.account with
  | none => exact hsame
  | some root =>
    obtain ⟨aSeq, balance⟩ := root
    simp only [wp_bind]
    refine wp_heldAhead hlimit (haccount hexists) hsame fun hlt => ?_
    simp only [if_true, wp_bind, wp_accountAt hq]
    cases hfind : q.transactions.find? aSeq with
    | none => exact hsame
    | some p =>
      simp only [wp_bind]
      refine wp_scan _ _ _ s h (fun e he => ?_) hP (fun s' ht => wp_pure.2 (hnone s' ht))
        fun acc s' ht hpass => ?_
      · exact h.mem_of_stored ⟨q, hq, (q.transactions.mem_entries_iff _ _).1 ((dropWhile_sublist _).subset he)⟩
      · refine wp_ite (fun _ => wp_refuse.2 (hP _ s' ht)) fun _ =>
          wp_pure.2 (hsome _ s' ht ?_)
        refine { lt := hlt, next := ⟨q, hq, hfind⟩, sandbox := rfl, passable := ?_ }
        intro n x hle hn hx
        have hmem := (q.transactions.mem_entries_iff n x).2 ((stored_iff hq).1 hx)
        exact hpass (n, x) (mem_dropWhile_of_not hmem (by simpa using hle)) hn

/-! ## Clearing the queue of an account -/

theorem wp_feeLevels {P : R → TxQ → Prop} :
    ∀ (ps : List Ptr) {Q : List Nat → TxQ → Prop}, (∀ x ∈ ps, ∃ m, s.heap.lookup x = some m) →
      Q (ps.map s.levelOf) s → wp (feeLevels ps) E P Q s := by
  intro ps
  induction ps with
  | nil => intro Q _ hQ; exact wp_pure.2 hQ
  | cons x ps ih =>
    intro Q hlive hQ
    obtain ⟨m, hm⟩ := hlive x mem_cons_self
    simp only [feeLevels, wp_bind, wp_deref hm, wp_pure]
    refine ih (fun y hy => hlive y (mem_cons_of_mem _ hy)) ?_
    simpa [levelOf, hm] using hQ

theorem wp_applyAll {P : TER × Bool → TxQ → Prop} :
    ∀ (ps : List Ptr) (n : Nat) (s : TxQ) {Q : Unit → TxQ → Prop}, Agree s →
      (∀ x ∈ ps, ∃ m, s.heap.lookup x = some m ∧ m.consequences.isSome) →
      (∀ ter s', Touched s s' → P (ter, false) s') → (∀ s', Touched s s' → Q () s') →
      wp (applyAll env ps n) E P Q s := by
  intro ps
  induction ps with
  | nil => intro n s Q h _ _ hQ; exact wp_pure.2 (hQ s (Touched.refl h))
  | cons x ps ih =>
    intro n s Q h hcached hP hQ
    obtain ⟨m, hm, hc⟩ := hcached x mem_cons_self
    -- its consequences are known, so a failing preflight does not change its category
    have hsettled : (m.apply env n).1.Settled := by
      intro hnone
      rw [show (m.apply env n).1.consequences = m.consequences from rfl] at hnone
      rw [hnone] at hc
      cases hc
    simp only [applyAll, wp_bind, wp_deref hm, wp_modify]
    have ht := fun k l => Touched.store h hm
      (apply_kept_of_settled (r := k) (l := l) fun _ _ => hsettled) fun _ => rfl
    refine wp_ite (fun _ => ?_) fun _ => wp_ret.2 (hP _ _ (ht _ _))
    refine ih (n + 1) _ ((ht _ _).shrinks.agree h) (fun y hy => ?_)
      (fun ter s' ht' => hP ter s' ((ht _ _).trans ht')) fun s' ht' => hQ s' ((ht _ _).trans ht')
    obtain ⟨my, hmy, hcy⟩ := hcached y (mem_cons_of_mem _ hy)
    obtain ⟨my', hmy', hcy'⟩ := (ht _ _).cached y my hmy hcy
    exact ⟨my', hmy', hcy' ▸ hcy⟩

theorem Agree.nodup_range (h : Agree s) (hn : range.Nodup)
    (hrange : ∀ e ∈ range, s.Stored a e.1 e.2) : (range.map Prod.snd).Nodup := by
  refine hn.map_on fun e he e' he' heq => ?_
  have hst := hrange e' he'
  rw [← heq] at hst
  exact Prod.ext (h.stored_inj (hrange e he) hst).2 heq

theorem wp_clearRange {Q : TER × Bool → TxQ → Prop} (h : Agree s)
    (haccount : (s.byAccount_.find? tx.account).isSome) (hn : range.Nodup)
    (hrange : ∀ e ∈ range, s.Stored tx.account e.1 e.2 ∧ s.Passable e.2)
    (hfail : ∀ ter s', Touched s s' → Q (ter, false) s')
    (hok : ∀ ter s', Shrinks True s s' → Q (ter, true) s') :
    wp (clearRange env tx range) E Q Q s := by
  rw [clearRange, wp_bind]
  refine wp_applyAll _ _ s h (fun x hx => ?_) hfail fun s₁ ht => ?_
  · obtain ⟨e, he, rfl⟩ := mem_map.1 hx
    obtain ⟨m, hm, hc, -⟩ := (hrange e he).2
    exact ⟨m, hm, hc⟩
  have h₁ := ht.shrinks.agree h
  have hrange₁ : ∀ e ∈ range, s₁.Stored tx.account e.1 e.2 := fun e he => ht.stored.2 (hrange e he).1
  obtain ⟨ter, applied⟩ := env.doApply 0
  cases applied with
  | false => exact wp_pure.2 (hfail ter s₁ ht)
  | true =>
    simp only [if_true, wp_bind]
    refine wp_eraseRange (C := True) h₁ hrange₁ (h₁.nodup_range hn hrange₁) fun s₂ hs₂ => ?_
    have h₂ := hs₂.agree h₁
    have hs := ht.shrinks.trans hs₂
    obtain ⟨q, hq⟩ := Option.isSome_iff_exists.1 (hs.accounts tx.account haccount)
    rw [wp_accountAt hq]
    cases hfind : q.transactions.find? tx.sequence with
    | none => exact wp_pure.2 (hok ter s₂ hs)
    | some p =>
      rw [wp_bind]
      refine wp_eraseRange (C := True) h₂ (fun e he => ?_) (nodup_singleton _)
        fun s₃ hs₃ => wp_pure.2 (hok ter s₃ (hs.trans hs₃))
      rw [mem_singleton.1 he]
      exact ⟨q, hq, hfind⟩

theorem wp_tryClearAccountQueue {Q : TER × Bool → TxQ → Prop} (h : Agree s)
    (hq : s.byAccount_.find? tx.account = some q)
    (hpass : ∀ n x, aSeq ≤ n → n < tx.sequence → s.Stored tx.account n x → s.Passable x)
    (hP : P none s) (hfail : ∀ ter s', Touched s s' → Q (ter, false) s')
    (hok : ∀ ter s', Shrinks True s s' → Q (ter, true) s') :
    wp (tryClearAccountQueue env tx aSeq feeLevelPaid) E P Q s := by
  have haccount : (s.byAccount_.find? tx.account).isSome := by rw [hq]; rfl
  rw [tryClearAccountQueue, wp_bind, wp_get]
  split
  · exact wp_ret.2 hP
  · refine wp_ite (fun _ => ?_) fun _ => wp_pure.2 (hfail _ s (Touched.refl h))
    simp only [wp_bind, wp_accountAt hq]
    have hrange : ∀ e ∈ q.transactions.entries.filter fun e => aSeq ≤ e.1 ∧ e.1 < tx.sequence,
        s.Stored tx.account e.1 e.2 ∧ s.Passable e.2 := by
      intro e he
      obtain ⟨he, hle⟩ := mem_filter.1 he
      have hst : s.Stored tx.account e.1 e.2 := ⟨q, hq, (q.transactions.mem_entries_iff e.1 e.2).1 he⟩
      simp only [decide_eq_true_eq] at hle
      exact ⟨hst, hpass e.1 e.2 hle.1 hle.2 hst⟩
    refine wp_feeLevels _ (fun x hx => ?_) ?_
    · obtain ⟨e, he, rfl⟩ := mem_map.1 hx
      obtain ⟨m, hm, -⟩ := (hrange e he).2
      exact ⟨m, hm⟩
    · refine wp_ite (fun _ => wp_pure.2 (hfail _ s (Touched.refl h))) fun _ => ?_
      rw [Proc.wp_call]
      exact wp_clearRange h haccount (q.transactions.entries_nodup.filter _) hrange hfail hok

theorem wp_clearFirst {multi : MultiTxn} (h : Agree s)
    (hnext : s.Stored tx.account multi.nextSeq multi.nextTxIter)
    (hpass : ∀ n x, multi.nextSeq ≤ n → n < tx.sequence → s.Stored tx.account n x → s.Passable x)
    (hP : ∀ r s', Shrinks True s s' → P r s') (hQ : ∀ s', Touched s s' → Q () s') :
    wp (clearFirst env tx flags feeLevelPaid required multi) E P Q s := by
  have hsame : wp (pure ()) E P Q s := wp_pure.2 (hQ s (Touched.refl h))
  obtain ⟨m, hm, -, -⟩ := h.filed _ _ _ hnext
  obtain ⟨q, hq, -⟩ := hnext
  rw [clearFirst]
  refine wp_ite (fun _ => ?_) fun _ => hsame
  simp only [wp_bind, wp_deref hm]
  refine wp_ite (fun _ => ?_) fun _ => hsame
  rw [wp_bind]
  exact wp_tryClearAccountQueue h hq hpass (hP _ s h.shrinks_refl)
    (fun ter s' ht => wp_pure.2 (hQ s' ht)) fun ter s' hs => wp_ret.2 (hP _ s' hs)

theorem wp_applyOrHold {replaced : Option Ptr} (h : Agree s)
    (hlimit : ∀ e, ¬ 1 ≤ setup.maximumTxnPerAccount → E e)
    (haccount : accountExists → (s.byAccount_.find? tx.account).isSome)
    (hreplaced : ∀ x, replaced = some x → x ∈ s.byFee_) (hP : ∀ r s', Shrinks True s s' → P r s')
    (hQ : Q () s) :
    wp (applyOrHold setup env tx feeLevelPaid required accountExists replaced) E P Q s := by
  rw [applyOrHold]
  refine wp_ite (fun _ => ?_) fun _ => ?_
  · refine wp_ite (fun _ => ?_) fun _ => wp_ret.2 (hP _ s h.shrinks_refl)
    cases replaced with
    | none => exact wp_ret.2 (hP _ s h.shrinks_refl)
    | some x =>
      obtain ⟨m, q, he⟩ := h.entry (hreplaced x rfl)
      simp only [wp_bind, wp_ret]
      rw [wp_erase h he]
      exact hP _ _ (h.shrinks_dropped he)
  · rw [wp_bind]
    refine wp_canBeHeld hlimit (fun a ha => ?_) fun held => ?_
    · cases accountExists with
      | false => cases ha
      | true => cases ha; exact haccount rfl
    · cases held with
      | false => exact wp_refuse.2 (hP _ s h.shrinks_refl)
      | true => exact wp_pure.2 hQ

/-! ## Making room -/

/-- A full queue is not empty: `isFull` asks for at least one transaction. -/
def Roomy (s : TxQ) : Prop := ∀ maxSize ∈ s.maxSize_, 1 ≤ maxSize * 100 % 2 ^ 64 / 100

theorem length_lt_of_not_isFull {maxSize : Nat} (hmax : s.maxSize_ = some maxSize)
    (h : s.isFull 100 = false) : s.byFee_.length < maxSize := by
  simp only [isFull, hmax, ge_iff_le, decide_eq_false_iff_not, not_le] at h
  have hmod := Nat.mod_le (maxSize * 100) (2 ^ 64)
  have hdiv : maxSize * 100 % 2 ^ 64 / 100 ≤ maxSize :=
    Nat.div_le_of_le_mul (by rw [Nat.mul_comm 100]; exact hmod)
  omega

theorem Roomy.ne_nil (h : Roomy s) (hfull : s.isFull 100 = true) : s.byFee_ ≠ [] := by
  intro hnil
  cases hmax : s.maxSize_ with
  | none => simp [isFull, hmax] at hfull
  | some maxSize =>
    have := h maxSize hmax
    simp only [isFull, hmax, hnil, length_nil, decide_eq_true_eq] at hfull
    omega

theorem foldl_endTotal (size : Nat) (levels : List Nat) : ∀ {a b : Nat},
    b + (levels.map (· % size)).sum < uint64Max →
    let endTotal := levels.foldl (fun (total : Nat × Nat) level =>
      if total.1 ≥ uint64Max - level / size ∨ total.2 ≥ uint64Max - level % size then (uint64Max, 0)
      else (total.1 + level / size, total.2 + level % size)) (a, b)
    endTotal = (a + (levels.map (· / size)).sum, b + (levels.map (· % size)).sum) ∨
      endTotal = (uint64Max, 0) ∧ uint64Max ≤ a + (levels.map (· / size)).sum := by
  induction levels with
  | nil => exact fun _ => .inl rfl
  | cons level levels ih =>
    intro a b hb
    simp only [map_cons, sum_cons, foldl_cons, ← Nat.add_assoc] at hb ⊢
    split
    · next hover =>
      refine .inr ⟨foldl_fixed' (fun level => ?_) levels, by omega⟩
      exact if_pos (.inl (Nat.sub_le _ _))
    · exact ih hb

/-- The average is exact: neither sum wraps, and where the sum of the quotients is cut off all
levels are the largest one. -/
theorem averageLevel_eq {levels : List Nat} (hsize : levels.length ≤ 2 ^ 32)
    (hlevel : ∀ level ∈ levels, level ≤ uint64Max) : averageLevel levels = levels.sum / levels.length := by
  cases hn : levels.length with
  | zero => rw [length_eq_zero_iff.1 hn]; rfl
  | succ n =>
    have hsplit : levels.sum = (n + 1) * (levels.map (· / (n + 1))).sum + (levels.map (· % (n + 1))).sum := by
      rw [← sum_map_mul_left, ← sum_map_add]
      simp only [Nat.div_add_mod, map_id']
    have hmod : (levels.map (· % (n + 1))).sum ≤ (n + 1) * n := by
      have hle : ∀ mod ∈ levels.map (· % (n + 1)), mod ≤ n := by
        intro mod hmod
        obtain ⟨level, -, rfl⟩ := mem_map.1 hmod
        exact Nat.le_of_lt_succ (Nat.mod_lt _ n.succ_pos)
      simpa [hn] using sum_le_card_nsmul _ n hle
    have hsum : levels.sum ≤ (n + 1) * uint64Max := by
      simpa [hn] using sum_le_card_nsmul levels uint64Max hlevel
    have hbound : (n + 1) * n ≤ 2 ^ 32 * (2 ^ 32 - 1) := Nat.mul_le_mul (by omega) (by omega)
    have hquot := Nat.div_le_of_le_mul hsum
    have hmean : levels.sum / (n + 1) =
        (levels.map (· / (n + 1))).sum + (levels.map (· % (n + 1))).sum / (n + 1) := by
      rw [hsplit, Nat.mul_add_div n.succ_pos]
    simp only [averageLevel, hn]
    obtain h | ⟨h, hover⟩ := foldl_endTotal (n + 1) levels (a := 0) (b := 0)
      (by rw [uint64Max]; omega)
    · simp only [h, Nat.zero_add, ← hmean]
      exact Nat.mod_eq_of_lt (Nat.lt_succ_of_le hquot)
    · simp only [h, Nat.zero_div, Nat.add_zero]
      refine Nat.le_antisymm ?_ hquot
      rw [hmean]
      exact (Nat.zero_add _ ▸ hover).trans (Nat.le_add_right _ _)

def levelsAt (s : TxQ) (q : TxQAccount) : List Nat := q.transactions.entries.map fun e => s.levelOf e.2

def effectiveLevel (last : MaybeTx) (levels : List Nat) (feeLevelPaid : Nat) : Nat :=
  if last.feeLevel > feeLevelPaid ∨ levels.length = 1 then last.feeLevel else averageLevel levels

theorem wp_endEffectiveFeeLevel {last : MaybeTx} {Q : Nat → TxQ → Prop} (h : Agree s)
    (hq : s.byAccount_.find? a = some q) (hQ : Q (effectiveLevel last (s.levelsAt q) feeLevelPaid) s) :
    wp (endEffectiveFeeLevel last q feeLevelPaid) E P Q s := by
  rw [effectiveLevel, levelsAt, length_map] at hQ
  rw [endEffectiveFeeLevel]
  refine wp_ite (fun hc => ?_) fun hc => ?_
  · rw [if_pos hc] at hQ
    exact wp_pure.2 hQ
  · rw [if_neg hc] at hQ
    rw [wp_bind]
    refine wp_feeLevels _ (fun x hx => ?_) (wp_pure.2 (by rw [map_map]; exact hQ))
    obtain ⟨e, he, rfl⟩ := mem_map.1 hx
    obtain ⟨m, hm, -⟩ := h.filed a e.1 e.2 ⟨q, hq, (q.transactions.mem_entries_iff e.1 e.2).1 he⟩
    exact ⟨m, hm⟩

theorem Held.entries_ne (h : s.Held p m q) : q.transactions.entries ≠ [] :=
  ne_nil_of_mem ((q.transactions.mem_entries_iff _ _).2 h.node)

theorem wp_makeRoom_full {x : Ptr} {last me : MaybeTx} {e : Nat × Ptr} (h : Agree s)
    (hfull : s.isFull 100 = true) (hlast : s.byFee_.getLast? = some x) (hx : s.Held x last q)
    (he : q.transactions.entries.getLast? = some e) (hme : s.Held e.2 me q)
    (hdrop : tx.account ≠ last.account ∧ effectiveLevel last (s.levelsAt q) feeLevelPaid < feeLevelPaid →
      Q () (s.dropped e.2 me q))
    (hrefuse : ¬(tx.account ≠ last.account ∧
      effectiveLevel last (s.levelsAt q) feeLevelPaid < feeLevelPaid) →
      P (some (TER.telCAN_NOT_QUEUE_FULL, false)) s) :
    wp (makeRoom tx feeLevelPaid false) E P Q s := by
  rw [makeRoom, wp_bind, wp_get, if_pos (by simpa using hfull), hlast]
  simp only [wp_bind, wp_expect_some, wp_deref hx.value]
  refine wp_ite (fun heq => wp_refuse.2 (hrefuse fun hc => hc.1 heq.symm)) fun hne => ?_
  simp only [wp_bind, wp_accountAt hx.account]
  refine wp_endEffectiveFeeLevel h hx.account
    (wp_ite (fun hlt => ?_) fun hle => wp_refuse.2 (hrefuse fun hc => hle hc.2))
  rw [he]
  simp only [wp_bind, wp_expect_some, wp_pure]
  rw [wp_erase h hme]
  exact hdrop ⟨Ne.symm hne, hlt⟩

theorem wp_makeRoom (h : Agree s) (hE : ∀ e, ¬ Roomy s → E e) (hP : ∀ r, P r s)
    (hsame : replacing = true → Q () s) (hQ : ∀ s', replacing = false → Shrinks True s s' →
      (∀ maxSize ∈ s.maxSize_, s'.byFee_.length + 1 ≤ max s.byFee_.length maxSize) → Q () s') :
    wp (makeRoom tx feeLevelPaid replacing) E P Q s := by
  cases replacing with
  | true =>
    rw [makeRoom, wp_bind, wp_get]
    exact wp_pure.2 (hsame rfl)
  | false =>
    cases hfull : s.isFull 100 with
    | false =>
      rw [makeRoom, wp_bind, wp_get, hfull]
      refine wp_pure.2 (hQ s rfl h.shrinks_refl fun maxSize hmax => ?_)
      have := length_lt_of_not_isFull hmax hfull
      omega
    | true =>
      cases hlast : s.byFee_.getLast? with
      | none =>
        rw [makeRoom, wp_bind, wp_get, if_pos (by simpa using hfull), hlast, wp_bind]
        exact Proc.wp_fault.2 <| hE _ fun hroomy => hroomy.ne_nil hfull (getLast?_eq_none_iff.1 hlast)
      | some x =>
        obtain ⟨m, q, hx⟩ := h.entry (mem_of_getLast? hlast)
        obtain ⟨e, me, he, hme, -⟩ := h.top hx.account hx.entries_ne
        refine wp_makeRoom_full h hfull hlast hx he hme (fun _ => ?_) fun _ => hP _
        refine hQ _ rfl (h.shrinks_dropped hme) fun maxSize _ => ?_
        have hlen := length_dropped (m := me) (q := q) (h.live e.2 me hme.value)
        omega

end Steps

/-! ## Adding an entry -/

theorem placeByFee_perm (level : Ptr → Nat) (p : Ptr) (l : List Ptr) :
    (placeByFee level p l).Perm (p :: l) := by
  induction l with
  | nil => exact List.Perm.refl _
  | cons q l ih =>
    simp only [placeByFee]
    split
    · exact (ih.cons q).trans (List.Perm.swap p q l)
    · exact List.Perm.refl _

theorem placeByFee_sorted {level : Ptr → Nat} {p : Ptr} {l : List Ptr}
    (h : l.Pairwise fun x y => level y ≤ level x) :
    (placeByFee level p l).Pairwise fun x y => level y ≤ level x := by
  induction l with
  | nil => exact pairwise_singleton _ _
  | cons q l ih =>
    obtain ⟨hq, hl⟩ := pairwise_cons.1 h
    simp only [placeByFee]
    split
    · rename_i hle
      refine pairwise_cons.2 ⟨fun x hx => ?_, ih hl⟩
      obtain rfl | hx := mem_cons.1 ((placeByFee_perm level p l).subset hx)
      · exact hle
      · exact hq x hx
    · rename_i hlt
      refine pairwise_cons.2 ⟨fun x hx => ?_, h⟩
      obtain rfl | hx := mem_cons.1 hx
      · omega
      · have := hq x hx
        omega

def filedNew (s : TxQ) (m : MaybeTx) (q : TxQAccount) : TxQ :=
  { s.setAccount m.account { q with transactions := q.transactions.insert m.sequence s.nextPtr } with
    heap := s.heap.insert s.nextPtr m, nextPtr := s.nextPtr + 1 }

def added (s : TxQ) (m : MaybeTx) (q : TxQAccount) : TxQ :=
  { s.filedNew m q with byFee_ := placeByFee (s.filedNew m q).levelOf s.nextPtr s.byFee_ }

section Adding

variable {E : Fault → Prop} {P : Reply → TxQ → Prop} {s : TxQ} {m : MaybeTx} {q : TxQAccount}

theorem stored_added (hq : s.byAccount_.find? m.account = some q)
    (habsent : ∀ x, ¬ s.Stored m.account m.sequence x) {a n x : Nat} :
    (s.added m q).Stored a n x ↔
      s.Stored a n x ∨ a = m.account ∧ n = m.sequence ∧ x = s.nextPtr := by
  refine (stored_setAccount (s := s)).trans ?_
  split
  · rename_i ha
    subst ha
    rw [OrderedMap.find?_insert]
    split
    · rename_i hn
      subst hn
      simp [habsent x, eq_comm]
    · rename_i hn
      simp [hn, Stored, hq]
  · rename_i ha
    simp [ha]

variable {x : Ptr} {Q : Unit → TxQ → Prop} {replaced : Option Ptr}

theorem lookup_added :
    (s.added m q).heap.lookup x = if x = s.nextPtr then some m else s.heap.lookup x :=
  AList.lookup_insert_ite s.heap s.nextPtr x m

theorem mem_added : x ∈ (s.added m q).byFee_ ↔ x = s.nextPtr ∨ x ∈ s.byFee_ :=
  (placeByFee_perm _ _ _).mem_iff.trans mem_cons

theorem length_added : (s.added m q).byFee_.length = s.byFee_.length + 1 :=
  (placeByFee_perm _ _ _).length_eq

theorem Agree.nextPtr_notMem (h : Agree s) : s.nextPtr ∉ s.byFee_ := by
  intro hp
  obtain ⟨m, -, hm, -⟩ := h.entry hp
  exact Nat.lt_irrefl _ (h.fresh _ m hm)

theorem Agree.added (h : Agree s) (hq : s.byAccount_.find? m.account = some q)
    (habsent : ∀ x, ¬ s.Stored m.account m.sequence x) : Agree (s.added m q) where
  nodup := (placeByFee_perm _ _ _).nodup_iff.2 (nodup_cons.2 ⟨h.nextPtr_notMem, h.nodup⟩)
  linked p := by
    simp only [mem_added, stored_added hq habsent, h.linked]
    constructor
    · rintro (rfl | ⟨a, n, hs⟩)
      · exact ⟨m.account, m.sequence, .inr ⟨rfl, rfl, rfl⟩⟩
      · exact ⟨a, n, .inl hs⟩
    · rintro ⟨a, n, hs | ⟨-, -, hp⟩⟩
      · exact .inr ⟨a, n, hs⟩
      · exact .inl hp
  filed a n p hs := by
    rw [lookup_added]
    obtain hs | ⟨rfl, rfl, rfl⟩ := (stored_added hq habsent).1 hs
    · have hne : p ≠ s.nextPtr := fun he => h.nextPtr_notMem (he ▸ h.mem_of_stored hs)
      rw [if_neg hne]
      exact h.filed a n p hs
    · exact ⟨m, if_pos rfl, rfl, rfl⟩
  sorted := by
    refine placeByFee_sorted (h.sorted.imp_of_mem fun {x y} hx hy hle => ?_)
    -- the old entries keep their levels
    have hlevel : ∀ x ∈ s.byFee_, (s.added m q).levelOf x = s.levelOf x := by
      intro x hx
      have hne : x ≠ s.nextPtr := fun he => h.nextPtr_notMem (he ▸ hx)
      rw [levelOf, lookup_added, if_neg hne, levelOf]
    rwa [hlevel x hx, hlevel y hy]
  live p mp hp := by
    rw [lookup_added] at hp
    rw [mem_added]
    split at hp
    · exact .inl ‹_›
    · exact .inr (h.live p mp hp)
  fresh p mp hp := by
    rw [lookup_added] at hp
    show p < s.nextPtr + 1
    split at hp
    · rename_i he
      exact he ▸ Nat.lt_succ_self _
    · exact Nat.lt_succ_of_lt (h.fresh p mp hp)

theorem wp_addEntry_link (h : Agree s) (hq : s.byAccount_.find? m.account = some q)
    (habsent : ∀ x, ¬ s.Stored m.account m.sequence x) (hQ : Q () (s.added m q)) :
    wp (addEntry m) E P (fun p s' => wp (link p) E P Q s') s := by
  have hnone : q.transactions.find? m.sequence = none := by
    cases hf : q.transactions.find? m.sequence with
    | none => rfl
    | some x => exact absurd ⟨q, hq, hf⟩ (habsent x)
  rw [addEntry, wp_bind, wp_accountAt hq, hnone]
  simp only [wp_bind, wp_get, wp_modify, wp_pure, link]
  refine wp_ite (fun hp => absurd hp h.nextPtr_notMem) fun _ => wp_ite (fun _ => ?_) fun hdead => ?_
  · exact wp_modify.2 hQ
  · refine absurd (fun x hx => ?_) hdead
    refine Option.isSome_iff_exists.2 ?_
    rw [AList.lookup_insert_ite]
    split
    · exact ⟨m, rfl⟩
    · rename_i hne
      obtain ⟨mx, -, hmx, -⟩ := h.entry ((mem_cons.1 hx).resolve_left hne)
      exact ⟨mx, hmx⟩

theorem Agree.shrinks_createAccount {C : Prop} (h : Agree s) (a : AccountID) :
    Shrinks C s (s.createAccount a) := by
  rw [createAccount]
  split
  · exact h.shrinks_refl
  · rename_i hnone
    have hnone : s.byAccount_.find? a = none := by simpa using hnone
    refine h.shrinks_setAccount fun n x => ?_
    simp [Stored, hnone]

theorem find?_createAccount (a : AccountID) : ((s.createAccount a).byAccount_.find? a).isSome := by
  rw [createAccount]
  split
  · assumption
  · simp [setAccount, OrderedMap.find?_insert]

theorem byFee_createAccount (a : AccountID) : (s.createAccount a).byFee_ = s.byFee_ := by
  rw [createAccount]
  split <;> rfl

theorem wp_eraseReplaced (h : Agree s) (hreplaced : ∀ x, s.Stored m.account m.sequence x ↔ replaced = some x)
    (hQ : ∀ s', Shrinks True s s' → (∀ x, ¬ s'.Stored m.account m.sequence x) →
      s'.byFee_.length + (if replaced.isSome then 1 else 0) = s.byFee_.length → Q () s') :
    wp (eraseReplaced replaced) E P Q s := by
  cases replaced with
  | none => exact wp_pure.2 (hQ s h.shrinks_refl (fun x hx => nomatch (hreplaced x).1 hx) rfl)
  | some p =>
    obtain ⟨mp, q, he, -⟩ := h.held ((hreplaced p).2 rfl)
    simp only [eraseReplaced, wp_bind, wp_pure]
    rw [wp_erase h he]
    refine hQ _ (h.shrinks_dropped he) (fun x hx => ?_) (length_dropped (h.live p mp he.value))
    -- the node that held the replaced entry is gone
    obtain ⟨hx, hne⟩ := ((h.unfiled_dropped he).stored _ _ x).1 hx
    exact hne (Option.some.inj ((hreplaced x).1 hx)).symm

theorem wp_enqueue {accountExists : Bool} (h : Agree s)
    (haccount : accountExists → (s.byAccount_.find? m.account).isSome)
    (hreplaced : ∀ x, s.Stored m.account m.sequence x ↔ replaced = some x)
    (hQ : ∀ s' q, Shrinks True s s' → s'.byAccount_.find? m.account = some q →
      (∀ x, ¬ s'.Stored m.account m.sequence x) →
      s'.byFee_.length + (if replaced.isSome then 1 else 0) = s.byFee_.length → Q () (s'.added m q)) :
    wp (enqueue m accountExists replaced) E P Q s := by
  simp only [enqueue, wp_bind]
  refine wp_eraseReplaced h hreplaced fun s₁ hs₁ habs₁ hlen₁ => ?_
  have h₁ := hs₁.agree h
  rw [wp_modify]
  cases accountExists with
  | true =>
    obtain ⟨q, hq⟩ := Option.isSome_iff_exists.1 (hs₁.accounts _ (haccount rfl))
    exact wp_addEntry_link h₁ hq habs₁ (hQ s₁ q hs₁ hq habs₁ hlen₁)
  | false =>
    have hs₂ := h₁.shrinks_createAccount (C := True) m.account
    obtain ⟨q, hq⟩ := Option.isSome_iff_exists.1 (find?_createAccount (s := s₁) m.account)
    have habs₂ : ∀ x, ¬ (s₁.createAccount m.account).Stored m.account m.sequence x :=
      fun x hx => habs₁ x ((hs₂.stored _ _ x).1 hx).1
    refine wp_addEntry_link (hs₂.agree h₁) hq habs₂ (hQ _ q (hs₁.trans hs₂) hq habs₂ ?_)
    rw [← hlen₁, if_neg (by decide), byFee_createAccount]

end Adding

/-! ## The call -/

/-- A transaction has been queued: `s'` came from `s` by shrinking, with the transaction added. -/
structure Admitted (env : Env) (tx : STTx) (s s' : TxQ) : Prop where
  /-- The queue before and the entry that was added. -/
  entry : ∃ s₁ m q, Shrinks True s s₁ ∧ s₁.byAccount_.find? m.account = some q ∧
    (∀ x, ¬ s₁.Stored m.account m.sequence x) ∧ s' = s₁.added m q ∧ m.account = tx.account ∧
    m.sequence = tx.sequence ∧ m.Settled ∧ m.category = tx.category
  /-- A transaction in the middle is not replaced by a blocker. -/
  middle : ∀ x m n y, s.Stored tx.account tx.sequence x → s.heap.lookup x = some m →
    s.Stored tx.account n y → tx.sequence < n → m.category = .normal → tx.category ≠ .blocker
  /-- A transaction that replaces none comes next in its account, or behind transactions that do not
  block. -/
  ahead : (∀ x, ¬ s.Stored tx.account tx.sequence x) →
    (∃ balance, env.account tx.account = some (tx.sequence, balance)) ∨
    ∃ aSeq, aSeq < tx.sequence ∧ (∃ x, s.Stored tx.account aSeq x) ∧
      ∀ n x m, aSeq ≤ n → n < tx.sequence → s.Stored tx.account n x → s.heap.lookup x = some m →
        m.Settled → m.category ≠ .blocker
  size : ∀ maxSize ∈ s.maxSize_, s'.byFee_.length ≤ max s.byFee_.length maxSize

theorem sequence_of_likely {env : Env} {tx : STTx} {sle : Option (Nat × Nat)} {flags : ApplyFlags}
    (h : likelyToClaimFee (preclaim env tx sle) flags = true) :
    ∃ balance, sle = some (tx.sequence, balance) := by
  have hnot : ∀ ter : Int, ter < 0 → likelyToClaimFee ter flags ≠ true := by
    intro ter hlt
    have hne : ter ≠ TER.tesSUCCESS := Int.ne_of_lt hlt
    have hclaim : TER.isTecClaim ter = false :=
      decide_eq_false (Int.not_le.2 (hlt.trans (by decide)))
    simp [likelyToClaimFee, hne, hclaim]
  unfold preclaim at h
  split at h
  · exact absurd h (hnot _ (by decide))
  · cases sle with
    | none => exact absurd h (hnot TER.terNO_ACCOUNT (by decide))
    | some root =>
      obtain ⟨aSeq, balance⟩ := root
      by_cases hseq : tx.sequence = aSeq
      · exact ⟨balance, by rw [hseq]⟩
      · simp only [if_pos hseq] at h
        split at h
        · exact absurd h (hnot _ (by decide))
        · split at h <;> exact absurd h (hnot _ (by decide))

section Call

variable {s : TxQ} {setup : Setup} {env : Env} {tx : STTx} {flags : ApplyFlags}
  {pfresult : PreflightResult} {feeLevelPaid required : Nat} {accountExists : Bool}
  {replacement : Replacement} {multi : Option MultiTxn} {E : Fault → Prop}

theorem wp_claimAndHold {P Q : Reply → TxQ → Prop} (h : Agree s)
    (hlimit : ∀ e, ¬ 1 ≤ setup.maximumTxnPerAccount → E e) (hE : ∀ e, ¬ Roomy s → E e)
    (haccount : accountExists → (s.byAccount_.find? tx.account).isSome)
    (hreplaced : ∀ x, s.Stored tx.account tx.sequence x ↔ replacement.replacedItemDeleteIter = some x)
    (hmulti : ∀ mt, multi = some mt → s.Stored tx.account mt.nextSeq mt.nextTxIter ∧
      ∀ n x, mt.nextSeq ≤ n → n < tx.sequence → s.Stored tx.account n x → s.Passable x)
    (hP : ∀ r s', Shrinks True s s' → P r s')
    (hQ : ∀ r s₁ q m, likelyToClaimFee (preclaim env tx (claimRoot env tx multi)) flags = true →
      m = MaybeTx.make tx feeLevelPaid (flags &&& ~~~tapRETRY &&& ~~~tapPREFER_QUEUE) pfresult
        replacement.consequences →
      Shrinks True s s₁ → s₁.byAccount_.find? m.account = some q →
      (∀ x, ¬ s₁.Stored m.account m.sequence x) →
      (∀ maxSize ∈ s.maxSize_, s₁.byFee_.length + 1 ≤ max s.byFee_.length maxSize) →
      Q r (s₁.added m q)) :
    wp (claimAndHold setup env tx flags pfresult feeLevelPaid required accountExists replacement
      multi) E P Q s := by
  rw [claimAndHold]
  refine wp_ite (fun hlikely => ?_) fun _ => wp_refuse.2 (hP _ s h.shrinks_refl)
  simp only [wp_bind, wp_pure]
  -- from a queue in which only values have changed, the rest is the same in both cases
  have hrest : ∀ s₁, Touched s s₁ →
      wp (makeRoom tx feeLevelPaid replacement.replacedItemDeleteIter.isSome) E P
        (fun _ s₂ => wp (enqueue
          (MaybeTx.make tx feeLevelPaid (flags &&& ~~~tapRETRY &&& ~~~tapPREFER_QUEUE) pfresult
            replacement.consequences) accountExists replacement.replacedItemDeleteIter) E P
          (fun _ s₃ => Q (some (TER.terQUEUED, false)) s₃) s₂) s₁ := by
    intro s₁ ht
    have h₁ := ht.shrinks.agree h
    have hroomy : ¬ Roomy s₁ → ¬ Roomy s := fun hr hs => hr (by rwa [Roomy, ht.shrinks.maxSize])
    refine wp_makeRoom h₁ (fun e hr => hE e (hroomy hr)) (fun r => hP r s₁ ht.shrinks) ?_ ?_
    · intro hsome
      refine wp_enqueue h₁ (fun ha => ht.byAccount ▸ haccount ha)
        (fun x => ht.stored.trans (hreplaced x)) fun s₂ q hs hq habs hlen => ?_
      refine hQ _ s₂ q _ hlikely rfl (ht.shrinks.trans hs) hq habs fun maxSize _ => ?_
      rw [if_pos hsome, ht.byFee] at hlen
      omega
    · intro s₂ hnone hs₂ hroom
      have hnone : replacement.replacedItemDeleteIter = none := by simpa using hnone
      have hs := ht.shrinks.trans hs₂
      rw [hnone] at hreplaced ⊢
      refine wp_enqueue (hs₂.agree h₁) (fun ha => hs.accounts _ (haccount ha))
        (fun x => iff_of_false (fun hx => by cases (hreplaced x).1 ((hs.stored _ _ x).1 hx).1) (by simp))
        fun s₃ q hs₃ hq habs hlen => ?_
      refine hQ _ s₃ q _ hlikely rfl (hs.trans hs₃) hq habs fun maxSize hmax => ?_
      have hroom := hroom maxSize (by rw [ht.shrinks.maxSize]; exact hmax)
      rw [ht.byFee] at hroom
      have hlen : s₃.byFee_.length = s₂.byFee_.length := hlen
      omega
  rw [applyNow.eq_def]
  cases hm : multi with
  | none =>
    refine wp_applyOrHold h hlimit haccount (fun x hx => h.mem_of_stored ((hreplaced x).2 hx)) hP ?_
    exact hrest s (Touched.refl h)
  | some mt =>
    obtain ⟨hnext, hpass⟩ := hmulti mt hm
    exact wp_clearFirst h hnext hpass hP hrest

theorem category_calculate (hok : pfresult.ter = TER.tesSUCCESS) :
    (calculateConsequences pfresult tx).category = tx.category := by
  simp [calculateConsequences, hok, STTx.category]

theorem category_make (hok : pfresult.ter = TER.tesSUCCESS)
    (hc : ∀ c, replacement.consequences = some c → c = calculateConsequences pfresult tx) :
    (MaybeTx.make tx feeLevelPaid flags pfresult replacement.consequences).category = tx.category := by
  rw [MaybeTx.category, ← category_calculate hok]
  cases h : replacement.consequences with
  | none => rfl
  | some c =>
    rw [hc c h]
    rfl

theorem admitted_of {s₂ s₃ : TxQ} {q : TxQAccount} {m : MaybeTx} (ht : Touched s s₂)
    (hok : pfresult.ter = TER.tesSUCCESS) (hrep : Replaces s tx pfresult replacement)
    (hm : m = MaybeTx.make tx feeLevelPaid flags pfresult replacement.consequences)
    (hs : Shrinks True s₂ s₃) (hq : s₃.byAccount_.find? m.account = some q)
    (habs : ∀ x, ¬ s₃.Stored m.account m.sequence x)
    (hroom : ∀ maxSize ∈ s₂.maxSize_, s₃.byFee_.length + 1 ≤ max s₂.byFee_.length maxSize)
    (hahead : (∃ balance, env.account tx.account = some (tx.sequence, balance)) ∨
      ∃ aSeq, aSeq < tx.sequence ∧ (∃ x, s.Stored tx.account aSeq x) ∧
        ∀ n x m, aSeq ≤ n → n < tx.sequence → s.Stored tx.account n x → s.heap.lookup x = some m →
          m.Settled → m.category ≠ .blocker) :
    Admitted env tx s (s₃.added m q) where
  entry := by
    refine ⟨s₃, m, q, ht.shrinks.trans hs, hq, habs, rfl, ?_⟩
    rw [hm]
    exact ⟨rfl, rfl, fun _ => hok, category_make hok hrep.consequences⟩
  middle x mx n y hx hmx hy hlt hnormal := by
    rw [← category_calculate hok]
    exact hrep.middle x mx n y ((hrep.stored x).1 hx) hmx hy hlt hnormal
  ahead _ := hahead
  size maxSize hmax := by
    rw [length_added, ← ht.byFee]
    exact hroom maxSize (by rw [ht.shrinks.maxSize]; exact hmax)

theorem wp_apply (h : Agree s) :
    wp (apply setup env tx flags) (fun _ => ¬ (Roomy s ∧ 1 ≤ setup.maximumTxnPerAccount))
      (fun _ s' => Shrinks True s s') (fun _ s' => Admitted env tx s s') s := by
  rw [apply]
  refine wp_ite (fun _ => wp_refuse.2 h.shrinks_refl) fun hok => ?_
  have hok : env.preflight 0 = TER.tesSUCCESS := not_not.1 hok
  simp only [wp_bind, wp_get]
  refine wp_requiredFeeLevel h h.shrinks_refl fun required => ?_
  refine wp_replace h rfl (fun r s' ht => ht.shrinks) fun replacement s₁ ht₁ hrep => ?_
  have h₁ := ht₁.shrinks.agree h
  -- what has been found out about `s` still holds after the transactions in front are scanned
  have haccount : ∀ {s₂}, Touched s s₂ → (s.byAccount_.find? tx.account).isSome →
      (s₂.byAccount_.find? tx.account).isSome := fun ht ha => ht.byAccount ▸ ha
  have hroomy : ∀ {s₂}, Touched s s₂ → ¬ Roomy s₂ →
      ¬ (Roomy s ∧ 1 ≤ setup.maximumTxnPerAccount) := fun ht hr hs =>
    hr (by rw [Roomy, ht.shrinks.maxSize]; exact hs.1)
  have hlimit : Fault → ¬ 1 ≤ setup.maximumTxnPerAccount →
      ¬ (Roomy s ∧ 1 ≤ setup.maximumTxnPerAccount) := fun _ hl hs => hl hs.2
  have hreplaced : ∀ {s₂}, Touched s s₂ → ∀ x, s₂.Stored tx.account tx.sequence x ↔
      replacement.replacedItemDeleteIter = some x := fun ht x => ht.stored.trans (hrep.stored x)
  refine wp_multiTxn h₁ hlimit (haccount ht₁) (fun r s' ht => ht₁.shrinks.trans ht.shrinks) ?_ ?_
  · intro s₂ ht₂
    have ht := ht₁.trans ht₂
    refine wp_claimAndHold (ht.shrinks.agree h) hlimit (fun _ => hroomy ht) (haccount ht) (hreplaced ht)
      (by intro d hd; cases hd) (fun r s' hs => ht.shrinks.trans hs) ?_
    intro r s₃ q m hlikely hm hs hq habs hroom
    exact admitted_of ht hok hrep hm hs hq habs hroom (.inl (sequence_of_likely hlikely))
  · intro mt s₂ ht₂ hahead
    have ht := ht₁.trans ht₂
    refine wp_claimAndHold (ht.shrinks.agree h) hlimit (fun _ => hroomy ht) (haccount ht) (hreplaced ht)
      ?_ (fun r s' hs => ht.shrinks.trans hs) ?_
    · rintro _ ⟨⟩
      exact ⟨ht₂.stored.2 hahead.next,
        fun n x hle hlt hx => hahead.passable n x hle hlt (ht₂.stored.1 hx)⟩
    · intro r s₃ q m hlikely hm hs hq habs hroom
      refine admitted_of ht hok hrep hm hs hq habs hroom (.inr ⟨mt.nextSeq, hahead.lt,
        ⟨_, ht₁.stored.1 hahead.next⟩, fun n x mx hle hlt hx hmx hsettled => ?_⟩)
      -- the entry has the category that the scan has seen
      obtain ⟨mx', hmx', -, hcat⟩ := hahead.passable n x hle hlt (ht₁.stored.2 hx)
      obtain ⟨-, m₀, hm₀, hk⟩ := ht.shrinks.heap x mx' hmx'
      rw [hmx] at hm₀
      cases hm₀
      rw [← (hk.calm trivial hsettled).2]
      exact hcat

end Call

end Ripple.TxQ
