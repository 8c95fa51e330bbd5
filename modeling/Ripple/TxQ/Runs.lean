import Ripple.TxQ.Admission

/-!
# Ripple.TxQ.Runs

Sequences of calls of `apply`, `accept` and `processClosedLedger`. In every state they reach the two
indexes agree.
-/

namespace Ripple.TxQ

inductive Call where
  | apply (env : Env) (tx : STTx) (flags : ApplyFlags)
  | accept (env : Env)
  | processClosedLedger (ledgerSeq : Nat) (txs : List (Nat × Nat)) (timeLeap : Bool)

/-- The queue that a call leaves. An exception that leaves the call keeps what it has done. -/
def Call.exec (setup : Setup) : Call → TxQ → Except Fault TxQ
  | .apply env tx flags => Proc.exec (TxQ.apply setup env tx flags)
  | .accept env => Proc.exec (TxQ.accept env)
  | .processClosedLedger ledgerSeq txs timeLeap =>
    Proc.exec (TxQ.processClosedLedger setup ledgerSeq txs timeLeap)

/-- The queues reached by calls that all satisfy `C` of the queue before them. -/
inductive Reached (setup : Setup) (C : TxQ → Call → Prop) : TxQ → Prop where
  | make : Reached setup C (TxQ.make setup)
  | call {s s' : TxQ} {c : Call} :
      Reached setup C s → C s c → c.exec setup s = .ok s' → Reached setup C s'

/-! ## processClosedLedger -/

def remeasured (s : TxQ) (feeMetrics : FeeMetrics) (maxSize : Option Nat) : TxQ :=
  { s with feeMetrics_ := feeMetrics, maxSize_ := maxSize }

def withoutEmpty (s : TxQ) : TxQ :=
  { s with byAccount_ := s.byAccount_.filter fun q => !q.transactions.entries.isEmpty }

theorem stored_withoutEmpty {s : TxQ} {a n p : Nat} :
    s.withoutEmpty.Stored a n p ↔ s.Stored a n p := by
  simp only [Stored, withoutEmpty, OrderedMap.find?_filter, Option.filter_eq_some_iff]
  constructor
  · rintro ⟨q, ⟨hq, -⟩, ht⟩
    exact ⟨q, hq, ht⟩
  · rintro ⟨q, hq, ht⟩
    refine ⟨q, ⟨hq, ?_⟩, ht⟩
    have hmem := (q.transactions.mem_entries_iff n p).2 ht
    cases he : q.transactions.entries with
    | nil => rw [he] at hmem; cases hmem
    | cons e es => rfl

/-- What `processClosedLedger` does: new metrics, then entries go, then empty accounts. -/
def Closed (s s' : TxQ) : Prop :=
  ∃ feeMetrics maxSize s₁, Shrinks True (s.remeasured feeMetrics maxSize) s₁ ∧ s' = s₁.withoutEmpty

section Close

variable {s s' : TxQ}

theorem Agree.remeasured (h : Agree s) (feeMetrics : FeeMetrics) (maxSize : Option Nat) :
    Agree (s.remeasured feeMetrics maxSize) :=
  h.congr rfl rfl rfl fun _ _ _ => Iff.rfl

theorem Closed.agree (hc : Closed s s') (h : Agree s) : Agree s' := by
  obtain ⟨feeMetrics, maxSize, s₁, hs, rfl⟩ := hc
  exact (hs.agree (h.remeasured feeMetrics maxSize)).congr rfl rfl rfl fun _ _ _ => stored_withoutEmpty

theorem wp_processClosedLedger {setup : Setup} {ledgerSeq : Nat} {txs : List (Nat × Nat)}
    {timeLeap : Bool} (h : Agree s) :
    Proc.wp (processClosedLedger setup ledgerSeq txs timeLeap) (fun _ => ¬ 1 ≤ setup.ledgersInQueue)
      (fun _ _ => False) (fun _ s' => Closed s s') s := by
  simp only [processClosedLedger, Proc.wp_bind, Proc.wp_get]
  cases hu : s.feeMetrics_.update setup txs timeLeap with
  | none =>
    refine Proc.wp_fault.2 fun hwindow => ?_
    have hsome := @FeeMetrics.update_isSome setup s.feeMetrics_ txs timeLeap hwindow
    rw [hu] at hsome
    cases hsome
  | some feeMetrics =>
    simp only [Proc.wp_expect_some, Proc.wp_modify]
    have hle := remaining_le s.byFee_ s.byFee_.head?
    refine Proc.wp_mono (wp_expireLoop (C := True) _ _ _ (h.remeasured feeMetrics _)
      (fun x hx => List.mem_of_mem_head? hx) (Nat.lt_succ_of_le hle)) (by intro e he; cases he) (fun _ _ hr => hr)
      fun _ s₁ hs => ⟨feeMetrics, _, s₁, hs, rfl⟩

end Close

/-! ## The indexes agree -/

/-- The calls that keep the queue defined: where the queue has a size, `isFull` does not take an
empty queue for a full one. -/
def Call.Fits : Call → TxQ → Prop
  | .apply _ _ _, s => Roomy s
  | _, _ => True

theorem agree_make (setup : Setup) : Agree (TxQ.make setup) where
  nodup := List.nodup_nil
  linked p := by simp [TxQ.make, Stored]
  filed a n p hs := by simp [TxQ.make, Stored] at hs
  sorted := List.Pairwise.nil
  live p m hm := by simp [TxQ.make] at hm
  fresh p m hm := by simp [TxQ.make] at hm

theorem Admitted.agree {env : Env} {tx : STTx} {s s' : TxQ} (had : Admitted env tx s s')
    (h : Agree s) : Agree s' := by
  obtain ⟨s₁, m, q, hs, hq, habs, rfl, -⟩ := had.entry
  exact (hs.agree h).added hq habs

section Step

variable {setup : Setup} {s s' : TxQ} {c : Call}

theorem Agree.exec (h : Agree s) (hc : c.exec setup s = .ok s') : Agree s' := by
  cases c with
  | apply env tx flags =>
    obtain ⟨_, hs⟩ | ⟨_, had⟩ := Proc.exec_ok_of_wp (wp_apply h) hc
    · exact hs.agree h
    · exact had.agree h
  | accept env =>
    obtain ⟨_, hs⟩ | ⟨_, hs⟩ := Proc.exec_ok_of_wp (wp_accept (C := False) nofun h) hc
    · exact hs.agree h
    · exact hs.agree h
  | processClosedLedger ledgerSeq txs timeLeap =>
    obtain ⟨_, hf⟩ | ⟨_, hcl⟩ := Proc.exec_ok_of_wp (wp_processClosedLedger h) hc
    · exact hf.elim
    · exact hcl.agree h

theorem Agree.exec_ok (h : Agree s) (haccount : 1 ≤ setup.maximumTxnPerAccount)
    (hwindow : 1 ≤ setup.ledgersInQueue) (hfits : c.Fits s) : ∃ s', c.exec setup s = .ok s' := by
  cases hc : c.exec setup s with
  | ok s' => exact ⟨s', rfl⟩
  | error e =>
    exfalso
    cases c with
    | apply env tx flags => exact Proc.exec_error_of_wp (wp_apply h) hc ⟨hfits, haccount⟩
    | accept env => exact Proc.exec_error_of_wp (wp_accept (C := False) nofun h) hc
    | processClosedLedger ledgerSeq txs timeLeap =>
      exact Proc.exec_error_of_wp (wp_processClosedLedger h) hc hwindow

theorem Agree.stored_exec {a n x : Nat} (h : Agree s) (hc : c.exec setup s = .ok s')
    (hs' : s'.Stored a n x) : s.Stored a n x ∨
      ∃ env tx flags, c = .apply env tx flags ∧ a = tx.account ∧ n = tx.sequence := by
  cases c with
  | apply env tx flags =>
    obtain ⟨_, hs⟩ | ⟨_, had⟩ := Proc.exec_ok_of_wp (wp_apply h) hc
    · exact .inl ((hs.stored a n x).1 hs').1
    · obtain ⟨s₁, m, q, hs, hq, habs, rfl, hacc, hseq, -⟩ := had.entry
      obtain hs₁ | ⟨rfl, rfl, -⟩ := (stored_added hq habs).1 hs'
      · exact .inl ((hs.stored a n x).1 hs₁).1
      · exact .inr ⟨env, tx, flags, rfl, hacc, hseq⟩
  | accept env =>
    obtain ⟨_, hs⟩ | ⟨_, hs⟩ := Proc.exec_ok_of_wp (wp_accept (C := False) nofun h) hc
    · exact .inl ((hs.stored a n x).1 hs').1
    · exact .inl ((hs.stored a n x).1 hs').1
  | processClosedLedger ledgerSeq txs timeLeap =>
    obtain ⟨_, hf⟩ | ⟨_, _, _, s₁, hs, rfl⟩ := Proc.exec_ok_of_wp (wp_processClosedLedger h) hc
    · exact hf.elim
    · exact .inl ((hs.stored a n x).1 (stored_withoutEmpty.1 hs')).1

theorem Agree.length_apply (h : Agree s) {env : Env} {tx : STTx} {flags : ApplyFlags}
    (hc : (Call.apply env tx flags).exec setup s = .ok s') :
    ∀ maxSize ∈ s.maxSize_, s'.byFee_.length ≤ max s.byFee_.length maxSize := by
  intro maxSize hmax
  obtain ⟨_, hs⟩ | ⟨_, had⟩ := Proc.exec_ok_of_wp (wp_apply h) hc
  · exact hs.byFee.length_le.trans (le_max_left _ _)
  · exact had.size maxSize hmax

end Step

theorem Reached.agree {setup : Setup} {C : TxQ → Call → Prop} {s : TxQ} (h : Reached setup C s) :
    Agree s := by
  induction h with
  | make => exact agree_make setup
  | call _ _ hc ih => exact ih.exec hc

/-- What holds of the account and the sequence of every transaction applied in a run holds of every
entry in the queue, and the next call adds no entry but that of the transaction it applies. -/
theorem queued_was_applied {setup : Setup} {Q : AccountID → Nat → Prop} {s : TxQ}
    (h : Reached setup (fun _ c => ∀ env tx flags, c = .apply env tx flags →
      Q tx.account tx.sequence) s) :
    (∀ a n x, s.Stored a n x → Q a n) ∧
    ∀ c s', Call.exec setup c s = .ok s' → ∀ a n x, s'.Stored a n x → s.Stored a n x ∨
      ∃ env tx flags, c = .apply env tx flags ∧ a = tx.account ∧ n = tx.sequence := by
  refine ⟨?_, fun c s' hc a n x => h.agree.stored_exec hc⟩
  induction h with
  | make =>
    intro a n x hs
    simp [TxQ.make, Stored] at hs
  | call hr hQ hc ih =>
    intro a n x hs
    obtain hs | ⟨env, tx, flags, rfl, rfl, rfl⟩ := hr.agree.stored_exec hc hs
    · exact ih a n x hs
    · exact hQ env tx flags rfl

/-- A ledger with a hundred transactions in which every account has the sequence `aSeq`; everything
succeeds. -/
def sampleEnv (aSeq : Nat) : Env :=
  { seq := 5, rules := 1, reserve := 200, baseFee := 10, account := fun _ => some (aSeq, 100000)
    txExists := false, txCount := fun _ => 100, preflight := fun _ => TER.tesSUCCESS
    claim := fun _ => TER.tesSUCCESS, doApply := fun _ => (TER.tesSUCCESS, true) }

/-- A transaction of account 7 that pays the base fee. -/
def sampleTx (sequence : Nat) (blocker : Bool) (lastLedgerSequence : Option Nat) : STTx :=
  { account := 7, sequence := sequence, fee := 10, lastLedgerSequence := lastLedgerSequence
    affectsSubsequentTransactionAuth := blocker }

def sampleCall (tx : STTx) : Call := .apply (sampleEnv 5) tx 0

/-- Account 7 has two transactions in the queue, the second one with twice the fee. -/
theorem two_queued : ∃ s₁ s₂,
    (sampleCall (sampleTx 5 false none)).exec {} (TxQ.make {}) = .ok s₁ ∧ s₁.maxSize_ = none ∧
    (sampleCall { sampleTx 6 false none with fee := 20 }).exec {} s₁ = .ok s₂ ∧ s₂.byFee_ = [1, 0] ∧
    ∃ m₁ m₀ q, s₂.heap.entries = [⟨1, m₁⟩, ⟨0, m₀⟩] ∧
      (m₁.account = 7 ∧ m₁.sequence = 6 ∧ m₁.feeLevel = 512) ∧
      (m₀.account = 7 ∧ m₀.sequence = 5 ∧ m₀.feeLevel = 256) ∧
      s₂.byAccount_.find? 7 = some q ∧ q.transactions.entries = [(5, 0), (6, 1)] ∧
      s₂.byAccount_.find? 8 = none := by
  refine ⟨_, _, rfl, rfl, rfl, by decide, _, _, _, rfl, ⟨rfl, rfl, ?_⟩, ⟨rfl, rfl, ?_⟩, rfl, rfl, rfl⟩
  · decide
  · decide

theorem stored_of_entries {s : TxQ} {q : TxQAccount} (hq : s.byAccount_.find? 7 = some q)
    (hentries : q.transactions.entries = [(5, 0), (6, 1)]) : s.Stored 7 5 0 ∧ s.Stored 7 6 1 := by
  constructor
  · exact (stored_iff hq).2 ((q.transactions.mem_entries_iff 5 0).1 (by simp [hentries]))
  · exact (stored_iff hq).2 ((q.transactions.mem_entries_iff 6 1).1 (by simp [hentries]))

theorem queued_was_applied_sample : ∃ s, Stored s 7 5 0 ∧ Stored s 7 6 1 ∧
    (∀ a n x, Stored s a n x → a = 7 ∧ n < 7) ∧
    ∀ env s', (Call.accept env).exec {} s = .ok s' → ∀ a n x, s'.Stored a n x → s.Stored a n x := by
  obtain ⟨s₁, s₂, h₁, -, h₂, -, _, _, q, -, -, -, hq, hentries, -⟩ := two_queued
  have hreached : Reached {} (fun _ c => ∀ env tx flags, c = .apply env tx flags →
      tx.account = 7 ∧ tx.sequence < 7) s₂ := by
    refine .call (.call .make ?_ h₁) ?_ h₂
    · rintro _ _ _ ⟨⟩
      simp [sampleTx]
    · rintro _ _ _ ⟨⟩
      simp [sampleTx]
  obtain ⟨happlied, hnext⟩ := queued_was_applied (Q := fun a n => a = 7 ∧ n < 7) hreached
  refine ⟨s₂, (stored_of_entries hq hentries).1, (stored_of_entries hq hentries).2, happlied,
    fun env s' hc a n x hx => ?_⟩
  obtain hx | ⟨_, _, _, hcall, -⟩ := hnext _ _ hc a n x hx
  · exact hx
  · cases hcall

/-- In every run whose calls fit, the two indexes agree, keys are distinct, the next call that fits
is defined, and `apply` does not grow the queue beyond its size. -/
theorem indexes_agree (setup : Setup) (haccount : 1 ≤ setup.maximumTxnPerAccount)
    (hwindow : 1 ≤ setup.ledgersInQueue) (s : TxQ) (h : Reached setup (fun s c => c.Fits s) s) :
    Agree s ∧
    (∀ p p' m m', s.heap.lookup p = some m → s.heap.lookup p' = some m' →
      m.account = m'.account → m.sequence = m'.sequence → p = p') ∧
    (∀ c : Call, c.Fits s → ∃ s', c.exec setup s = .ok s' ∧ Agree s') ∧
    (∀ env tx flags s', (Call.apply env tx flags).exec setup s = .ok s' →
      ∀ maxSize ∈ s.maxSize_, s'.byFee_.length ≤ max s.byFee_.length maxSize) := by
  have hagree := h.agree
  refine ⟨hagree, fun p p' m m' hm hm' hacc hseq => ?_, fun c hfits => ?_,
    fun env tx flags s' hc => hagree.length_apply hc⟩
  · obtain ⟨m₀, q, he⟩ := hagree.entry (hagree.live p' m' hm')
    cases hm'.symm.trans he.value
    by_contra hne
    exact (hagree.stored_ne hm ⟨q, he.account, he.node⟩).2 (Ne.symm hne) ⟨hacc.symm, hseq.symm⟩
  · obtain ⟨s', hs'⟩ := hagree.exec_ok haccount hwindow hfits
    exact ⟨s', hs', hagree.exec hs'⟩

/-- With the default settings two transactions that pay the base fee or more are queued. -/
theorem indexes_agree_sample :
    ∃ s, Reached {} (fun s c => c.Fits s) s ∧ s.byFee_ = [1, 0] ∧ Agree s ∧
      ∃ s', (Call.accept (sampleEnv 5)).exec {} s = .ok s' ∧ Agree s' := by
  obtain ⟨s₁, s₂, h₁, hnone, h₂, hfee, -⟩ := two_queued
  have hreached : Reached {} (fun s c => c.Fits s) s₂ := by
    refine .call (.call .make ?_ h₁) ?_ h₂
    · intro maxSize hmax
      cases hmax
    · intro maxSize hmax
      rw [hnone] at hmax
      cases hmax
  obtain ⟨hagree, -, hnext, -⟩ := indexes_agree {} (by decide) (by decide) s₂ hreached
  exact ⟨s₂, hreached, hfee, hagree, hnext (.accept (sampleEnv 5)) trivial⟩

/-- A queue of `2 ^ 62` transactions counts as full when it is empty, since `100 * 2 ^ 62` wraps to
zero. -/
theorem empty_queue_is_full :
    ∃ s, (Call.processClosedLedger 10 [] false).exec { queueSizeMin := 2 ^ 62 }
        (TxQ.make { queueSizeMin := 2 ^ 62 }) = .ok s ∧
      s.maxSize_ = some (2 ^ 62) ∧ s.byFee_ = [] ∧
      (sampleCall (sampleTx 5 false none)).exec { queueSizeMin := 2 ^ 62 } s =
        .error .pastEnd := by
  refine ⟨_, rfl, ?_, ?_, ?_⟩
  · decide
  · decide
  · rfl

/-! ## Eviction -/

section Eviction

variable {s : TxQ} {x : Ptr} {last : MaybeTx} {q : TxQAccount} {feeLevelPaid : Nat}

/-- The levels have 64 bits and the sequences 32. -/
def InRange (s : TxQ) : Prop :=
  ∀ p m, s.heap.lookup p = some m → m.feeLevel < 2 ^ 64 ∧ m.sequence < 2 ^ 32

theorem rel_getLast? {α : Type} {R : α → α → Prop} {l : List α} {x y : α} (h : l.Pairwise R)
    (hx : l.getLast? = some x) (hrefl : R x x) (hy : y ∈ l) : R y x := by
  rw [List.getLast?_eq_some_getLast (List.ne_nil_of_mem hy)] at hx
  cases hx
  exact h.rel_getLast_of_rel_getLast_getLast hy hrefl

/-- The level to exceed is the average of all levels of the account, also where the code takes the
level of the last entry instead. -/
theorem effectiveLevel_lt_iff (feeLevelPaid : Nat) (h : Agree s) (hrange : InRange s)
    (hlast : s.byFee_.getLast? = some x) (hx : s.Held x last q) :
    effectiveLevel last (s.levelsAt q) feeLevelPaid < feeLevelPaid ↔
      (s.levelsAt q).sum / (s.levelsAt q).length < feeLevelPaid := by
  have hlevel : ∀ p m, s.heap.lookup p = some m → s.levelOf p = m.feeLevel := by
    intro p m hm
    rw [levelOf, hm]
    rfl
  have hentry : ∀ e ∈ q.transactions.entries, ∃ m, s.heap.lookup e.2 = some m ∧ m.sequence = e.1 := by
    intro e he
    obtain ⟨m, hm, -, hseq⟩ := h.filed _ _ _ ⟨q, hx.account, (q.transactions.mem_entries_iff _ _).1 he⟩
    exact ⟨m, hm, hseq⟩
  have hmem : last.feeLevel ∈ s.levelsAt q := by
    rw [← hlevel x last hx.value]
    exact List.mem_map.2 ⟨_, (q.transactions.mem_entries_iff _ _).2 hx.node, rfl⟩
  have hmin : ∀ level ∈ s.levelsAt q, last.feeLevel ≤ level := by
    intro level hl
    obtain ⟨e, he, rfl⟩ := List.mem_map.1 hl
    obtain ⟨m, hme, -⟩ := hentry e he
    rw [← hlevel x last hx.value]
    exact rel_getLast? (R := fun p q => s.levelOf q ≤ s.levelOf p) h.sorted hlast le_rfl (h.live _ m hme)
  have hmean : last.feeLevel ≤ (s.levelsAt q).sum / (s.levelsAt q).length := by
    rw [Nat.le_div_iff_mul_le (List.length_pos_of_mem hmem), Nat.mul_comm]
    exact List.card_nsmul_le_sum _ _ hmin
  rw [effectiveLevel]
  split
  · next hc =>
    rcases hc with hc | hone
    · omega
    · obtain ⟨level, hone⟩ := List.length_eq_one_iff.1 hone
      rw [hone, List.mem_singleton] at hmem
      simp [hone, hmem]
  · rw [averageLevel_eq]
    · rw [levelsAt, List.length_map]
      refine OrderedMap.length_le_of_keys_lt fun e he => ?_
      obtain ⟨m, hme, hseq⟩ := hentry e he
      exact hseq ▸ (hrange _ m hme).2
    · intro level hl
      obtain ⟨e, he, rfl⟩ := List.mem_map.1 hl
      obtain ⟨m, hme, -⟩ := hentry e he
      rw [hlevel _ m hme]
      exact Nat.le_of_lt_succ (hrange _ m hme).1

/-- A transaction that replaces nothing gets into a full queue if and only if its account is not that of
the last entry and it pays more than the exact average of that account, whose transaction with the
highest sequence goes. -/
theorem evicts_iff (h : Agree s) (hrange : InRange s)
    (hfull : s.isFull 100 = true) (hlast : s.byFee_.getLast? = some x) (hm : s.heap.lookup x = some last)
    {setup : Setup} {env : Env} {tx : STTx} {flags : ApplyFlags} (pfresult : PreflightResult)
    {required : Nat} {accountExists : Bool} (consequences : Option TxConsequences)
    {multi : Option MultiTxn} {s₀ : TxQ}
    (hclaim : likelyToClaimFee (preclaim env tx (claimRoot env tx multi)) flags = true)
    (hnow : applyNow setup env tx flags feeLevelPaid required accountExists none multi s₀ = .next () s)
    (haccount : accountExists → (s.byAccount_.find? tx.account).isSome)
    (habsent : ∀ y, ¬ s.Stored tx.account tx.sequence y) :
    ∃ q top reply s', s.byAccount_.find? last.account = some q ∧
      (∃ p, q.transactions.find? top = some p) ∧ (∀ n p, q.transactions.find? n = some p → n ≤ top) ∧
      Proc.result (claimAndHold setup env tx flags pfresult feeLevelPaid required accountExists
        ⟨none, consequences⟩ multi) s₀ = .ok (reply, s') ∧
      if tx.account ≠ last.account ∧ (s.levelsAt q).sum / (s.levelsAt q).length < feeLevelPaid then
        reply = some (TER.terQUEUED, false) ∧ ∀ a n, (∃ p, s'.Stored a n p) ↔
          (∃ p, s.Stored a n p) ∧ (a, n) ≠ (last.account, top) ∨ (a, n) = (tx.account, tx.sequence)
      else reply = some (TER.telCAN_NOT_QUEUE_FULL, false) ∧ s' = s := by
  obtain ⟨m, q, hx⟩ := h.entry (List.mem_of_getLast? hlast)
  cases hm.symm.trans hx.value
  obtain ⟨e, me, he, hme, hacc, hseq⟩ := h.top hx.account hx.entries_ne
  have hlevel := effectiveLevel_lt_iff feeLevelPaid h hrange hlast hx
  have hshrinks : Shrinks True s (s.dropped e.2 me q) := h.shrinks_dropped hme
  refine ⟨q, e.1, ?_⟩
  suffices hwp : Proc.wp _ (fun _ => False) _ _ s₀ by
    obtain ⟨reply, s', hrun, hpost⟩ := Proc.result_of_wp hwp
    refine ⟨reply, s', hx.account, ⟨e.2, hseq ▸ hme.node⟩, fun n p hn => ?_, hrun, hpost⟩
    exact rel_getLast? (R := fun a b => a.1 ≤ b.1) (q.transactions.sorted.imp le_of_lt) he le_rfl
      ((q.transactions.mem_entries_iff n p).2 hn)
  rw [claimAndHold, if_pos hclaim]
  simp only [Proc.wp_bind, Proc.wp_of_next hnow, Proc.wp_pure]
  refine wp_makeRoom_full h hfull hlast hx he hme (fun hc => ?_) fun hc => ?_
  · refine wp_enqueue (hshrinks.agree h) (fun ha => hshrinks.accounts _ (haccount ha))
      (fun y => iff_of_false (fun hy => habsent y ((hshrinks.stored _ _ y).1 hy).1) (by simp))
      fun s₂ q₂ hs₂ hq₂ habs hlen => ?_
    have hfee : s₂.byFee_ = (s.dropped e.2 me q).byFee_ := hs₂.byFee.eq_of_length hlen
    have hstored : ∀ a n p, s₂.Stored a n p ↔ s.Stored a n p ∧ (a, n) ≠ (last.account, e.1) := by
      intro a n p
      rw [hs₂.stored, hfee, and_iff_left_of_imp (hshrinks.agree h).mem_of_stored,
        (h.unfiled_dropped hme).stored]
      refine and_congr_right fun hs => (h.stored_ne hme.value hs).symm.trans ?_
      rw [hacc, hseq, Ne, Prod.mk.injEq]
    rw [if_pos ⟨hc.1, hlevel.1 hc.2⟩]
    refine ⟨trivial, fun a n => ?_⟩
    simp only [stored_added hq₂ habs, hstored, exists_or, exists_and_right, exists_and_left, exists_eq,
      and_true, Prod.mk.injEq]
    rfl
  · rw [if_neg fun hc' => hc ⟨hc'.1, hlevel.2 hc'.2⟩]
    exact ⟨rfl, rfl⟩

/-- A queue for two transactions holds two of account 7, with the levels 256 and 512, and account 8
pays more than their average. -/
theorem evicts_iff_sample : ∃ s s', Agree s ∧ s.isFull 100 = true ∧ s.Stored 7 5 0 ∧ s.Stored 7 6 1 ∧
    Proc.result (claimAndHold {} (sampleEnv 5) { account := 8, sequence := 5, fee := 20 } 0
      ⟨TER.tesSUCCESS, 1, 0⟩ 512 1000 false {} none) s = .ok (some (TER.terQUEUED, false), s') ∧
    (∃ p, s'.Stored 7 5 p) ∧ (∀ p, ¬ s'.Stored 7 6 p) ∧ ∃ p, s'.Stored 8 5 p := by
  obtain ⟨s₁, s, h₁, -, h₂, hfee, m₁, m₀, q, hheap, hm₁, hm₀, hq, hentries, hnone⟩ := two_queued
  have hlookup : ∀ p m, s.heap.lookup p = some m ↔ p = 1 ∧ m = m₁ ∨ p = 0 ∧ m = m₀ := by
    intro p m
    rw [← Option.mem_def, AList.mem_lookup_iff, hheap]
    simp
  have hrange : InRange s := by
    intro p m hm
    obtain ⟨-, rfl⟩ | ⟨-, rfl⟩ := (hlookup p m).1 hm
    · simp [hm₁]
    · simp [hm₀]
  have hlevels : (s.remeasured s.feeMetrics_ (some 2)).levelsAt q = [256, 512] := by
    simp [levelsAt, levelOf, remeasured, hentries, (hlookup 0 m₀).2, (hlookup 1 m₁).2, hm₀, hm₁]
  have hagree := (((agree_make {}).exec h₁).exec h₂).remeasured s.feeMetrics_ (some 2)
  have hfull : (s.remeasured s.feeMetrics_ (some 2)).isFull 100 = true := by
    simp [isFull, remeasured, hfee]
  have hlast : s.byFee_.getLast? = some 0 := by simp [hfee]
  have hclaim : likelyToClaimFee (preclaim (sampleEnv 5) { account := 8, sequence := 5, fee := 20 }
    (claimRoot (sampleEnv 5) { account := 8, sequence := 5, fee := 20 } none)) 0 = true := by decide
  have hnow : applyNow {} (sampleEnv 5) { account := 8, sequence := 5, fee := 20 } 0 512 1000 false none none
    (s.remeasured s.feeMetrics_ (some 2)) = .next () _ := rfl
  have habsent : ∀ y, ¬ s.Stored 8 5 y := by
    rintro y ⟨q', hq', -⟩
    cases hnone.symm.trans hq'
  obtain ⟨hfirst, hsecond⟩ := stored_of_entries hq hentries
  obtain ⟨q', top, reply, s', hq', ⟨p, hp⟩, htop, hrun, hpost⟩ := evicts_iff hagree hrange hfull hlast
    ((hlookup 0 m₀).2 (by simp)) ⟨TER.tesSUCCESS, 1, 0⟩ none hclaim hnow (by simp) habsent
  rw [hm₀.1] at hq' hpost
  cases hq.symm.trans hq'
  obtain rfl : top = 6 := by
    have hle := htop 6 1 ((q.transactions.mem_entries_iff 6 1).1 (by simp [hentries]))
    have hmem := (q.transactions.mem_entries_iff top p).2 hp
    simp only [hentries, List.mem_cons, Prod.mk.injEq, List.not_mem_nil, or_false] at hmem
    omega
  rw [hlevels, if_pos (by decide)] at hpost
  obtain ⟨rfl, hpost⟩ := hpost
  refine ⟨_, s', hagree, hfull, hfirst, hsecond, hrun, ?_, ?_, ?_⟩
  · exact (hpost 7 5).2 (.inl ⟨⟨0, hfirst⟩, by simp⟩)
  · intro p hp
    simpa using (hpost 7 6).1 ⟨p, hp⟩
  · exact (hpost 8 5).2 (.inr rfl)

end Eviction

end Ripple.TxQ
