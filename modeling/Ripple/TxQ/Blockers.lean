import Ripple.TxQ.Runs

/-!
# Ripple.TxQ.Blockers

Transactions that block: which calls can put something behind a blocker in the queue of an account,
and that nothing stands behind one in the runs that do without such calls.
-/

namespace Ripple.TxQ

/-- A blocker is the last of its account, and consequences that are not known yet will be those of
transactions that passed their preflight. -/
structure Unblocked (s : TxQ) : Prop where
  settled : ∀ p m, s.heap.lookup p = some m → m.Settled
  last : ∀ a n n' p p' m, s.Stored a n p → s.Stored a n' p' → n < n' → s.heap.lookup p = some m →
    m.category ≠ .blocker

/-- The calls that put nothing behind a blocker: a new blocker has no later transaction of its
account in the queue, and where a transaction comes next there is no earlier blocker left. A
preflight that is run again passes or fails for good. -/
def Call.KeepsOrder : Call → TxQ → Prop
  | .apply env tx _, s => (∀ x, ¬ s.Stored tx.account tx.sequence x) →
      (tx.category = .blocker → ∀ n x, s.Stored tx.account n x → n < tx.sequence) ∧
      ∀ balance, env.account tx.account = some (tx.sequence, balance) →
        ∀ n x m, s.Stored tx.account n x → n < tx.sequence → s.heap.lookup x = some m →
          m.category ≠ .blocker
  | .accept env, _ => ∀ n, GoodPreflight (env.preflight n)
  | .processClosedLedger _ _ _, _ => True

namespace Unblocked

variable {s s' : TxQ}

section

variable (h : Unblocked s)
include h

theorem shrinks (hs : Shrinks True s s') : Unblocked s' where
  settled p m' hm' := by
    obtain ⟨-, m, hm, hk⟩ := hs.heap p m' hm'
    exact (hk.calm trivial (h.settled p m hm)).1
  last a n n' p p' m' hp hp' hlt hm' := by
    obtain ⟨-, m, hm, hk⟩ := hs.heap p m' hm'
    rw [(hk.calm trivial (h.settled p m hm)).2]
    exact h.last a n n' p p' m ((hs.stored a n p).1 hp).1 ((hs.stored a n' p').1 hp').1 hlt hm

theorem closed (hc : Closed s s') : Unblocked s' := by
  obtain ⟨feeMetrics, maxSize, s₁, hs, rfl⟩ := hc
  have h₀ : Unblocked (s.remeasured feeMetrics maxSize) := { settled := h.settled, last := h.last }
  have h₁ := h₀.shrinks hs
  exact
    { settled := h₁.settled
      last := fun a n n' p p' m hp hp' =>
        h₁.last a n n' p p' m (stored_withoutEmpty.1 hp) (stored_withoutEmpty.1 hp') }

variable {m : MaybeTx} {flags : ApplyFlags} {env : Env} {tx : STTx} {n x : Nat}

theorem added (hagree : Agree s) {q : TxQAccount}
    (hq : s.byAccount_.find? m.account = some q) (habs : ∀ x, ¬ s.Stored m.account m.sequence x)
    (hm : m.Settled)
    (hbefore : ∀ n x mx, s.Stored m.account n x → n < m.sequence → s.heap.lookup x = some mx →
      mx.category ≠ .blocker)
    (hbehind : m.category = .blocker → ∀ n x, s.Stored m.account n x → ¬ m.sequence < n) :
    Unblocked (s.added m q) where
  settled p mp hp := by
    rw [lookup_added] at hp
    split at hp
    · cases hp
      exact hm
    · exact h.settled p mp hp
  last a n n' p p' mp hp hp' hlt hmp := by
    rw [lookup_added] at hmp
    obtain hp | ⟨rfl, rfl, rfl⟩ := (stored_added hq habs).1 hp
    · have hne : p ≠ s.nextPtr := fun he => hagree.nextPtr_notMem (he ▸ hagree.mem_of_stored hp)
      rw [if_neg hne] at hmp
      obtain hp' | ⟨rfl, rfl, rfl⟩ := (stored_added hq habs).1 hp'
      · exact h.last a n n' p p' mp hp hp' hlt hmp
      · exact hbefore n p mp hp hlt hmp
    · rw [if_pos rfl] at hmp
      cases hmp
      obtain hp' | ⟨-, rfl, -⟩ := (stored_added hq habs).1 hp'
      · exact fun hblocker => hbehind hblocker n' p' hp' hlt
      · exact absurd hlt (Nat.lt_irrefl _)

theorem before_admitted (had : Admitted env tx s s')
    (hkeeps : (Call.apply env tx flags).KeepsOrder s) (hx : s.Stored tx.account n x)
    (hlt : n < tx.sequence) (hm : s.heap.lookup x = some m) : m.category ≠ .blocker := by
  by_cases habs : ∀ y, ¬ s.Stored tx.account tx.sequence y
  · obtain ⟨balance, hroot⟩ | ⟨aSeq, -, ⟨y, hy⟩, hpass⟩ := had.ahead habs
    · exact (hkeeps habs).2 balance hroot n x m hx hlt hm
    · by_cases hle : aSeq ≤ n
      · exact hpass n x m hle hlt hx hm (h.settled x m hm)
      · -- an old transaction is in front of the one that the account root waits for
        exact h.last _ n aSeq x y m hx hy (Nat.lt_of_not_le hle) hm
  · simp only [not_forall, not_not] at habs
    obtain ⟨y, hy⟩ := habs
    exact h.last _ n tx.sequence x y m hx hy hlt hm

theorem behind_admitted (hagree : Agree s) (had : Admitted env tx s s')
    (hkeeps : (Call.apply env tx flags).KeepsOrder s) (hblocker : tx.category = .blocker)
    (hx : s.Stored tx.account n x) : ¬ tx.sequence < n := by
  intro hlt
  by_cases habs : ∀ y, ¬ s.Stored tx.account tx.sequence y
  · exact Nat.lt_asymm hlt ((hkeeps habs).1 hblocker n x hx)
  · simp only [not_forall, not_not] at habs
    obtain ⟨y, hy⟩ := habs
    obtain ⟨m, hm, -, -⟩ := hagree.filed _ _ _ hy
    have hnormal : m.category = .normal := by
      have hne := h.last _ _ n y x m hy hx hlt hm
      cases hc : m.category with
      | normal => rfl
      | blocker => exact absurd hc hne
    exact had.middle y m n x hy hm hx hlt hnormal hblocker

theorem admitted (hagree : Agree s) (had : Admitted env tx s s')
    (hkeeps : (Call.apply env tx flags).KeepsOrder s) : Unblocked s' := by
  obtain ⟨s₁, m, q, hs, hq, habs, rfl, hacc, hseq, hsettled, hcat⟩ := had.entry
  refine (h.shrinks hs).added (hs.agree hagree) hq habs hsettled (fun n x mx hx hlt hmx => ?_)
    fun hblocker n x hx => ?_
  · rw [hacc] at hx
    rw [hseq] at hlt
    obtain ⟨-, m₀, hm₀, hk⟩ := hs.heap x mx hmx
    rw [(hk.calm trivial (h.settled x m₀ hm₀)).2]
    exact h.before_admitted had hkeeps ((hs.stored _ n x).1 hx).1 hlt hm₀
  · rw [hacc] at hx
    rw [hseq]
    exact h.behind_admitted hagree had hkeeps (hcat ▸ hblocker) ((hs.stored _ n x).1 hx).1

theorem exec (hagree : Agree s) {setup : Setup} {c : Call} (hkeeps : c.KeepsOrder s)
    (hc : c.exec setup s = .ok s') : Unblocked s' := by
  cases c with
  | apply env tx flags =>
    obtain ⟨_, hs⟩ | ⟨_, had⟩ := Proc.exec_ok_of_wp (wp_apply hagree) hc
    · exact h.shrinks hs
    · exact h.admitted hagree had hkeeps
  | accept env =>
    obtain ⟨_, hs⟩ | ⟨_, hs⟩ := Proc.exec_ok_of_wp (wp_accept (fun _ => hkeeps) hagree) hc
    · exact h.shrinks hs
    · exact h.shrinks hs
  | processClosedLedger ledgerSeq txs timeLeap =>
    obtain ⟨_, hf⟩ | ⟨_, hcl⟩ := Proc.exec_ok_of_wp (wp_processClosedLedger hagree) hc
    · exact hf.elim
    · exact h.closed hcl

end

end Unblocked

theorem Reached.unblocked {setup : Setup} {s : TxQ} (h : Reached setup (fun s c => c.KeepsOrder s) s) :
    Unblocked s := by
  induction h with
  | make => exact { settled := fun p m hm => by simp [TxQ.make] at hm
                    last := fun a n n' p p' m hp => by simp [TxQ.make, Stored] at hp }
  | call hr hkeeps hc ih => exact ih.exec hr.agree hkeeps hc

/-- In every run whose calls all keep the order, a queued transaction with another one of its
account behind it is not a blocker. -/
theorem nothing_behind_blocker (setup : Setup) (s : TxQ)
    (h : Reached setup (fun s c => c.KeepsOrder s) s) (a : AccountID) (n n' : Nat) (p p' : Ptr)
    (m : MaybeTx) (hp : s.Stored a n p) (hp' : s.Stored a n' p') (hlt : n < n')
    (hm : s.heap.lookup p = some m) : m.category ≠ .blocker :=
  h.unblocked.last a n n' p p' m hp hp' hlt hm

theorem nothing_behind_blocker_sample :
    ∃ s p p' m, Reached {} (fun s c => c.KeepsOrder s) s ∧ s.Stored 7 5 p ∧ s.Stored 7 6 p' ∧
      s.heap.lookup p = some m ∧ m.category ≠ .blocker := by
  have hfirst : ∃ s, (Call.apply (sampleEnv 5) (sampleTx 5 false none) 0).exec {} (TxQ.make {}) = .ok s ∧
      ∃ q, s.byAccount_.find? 7 = some q ∧ q.transactions.entries = [(5, 0)] ∧
      ∃ s', (Call.apply (sampleEnv 5) (sampleTx 6 true none) 0).exec {} s = .ok s' ∧
      ∃ m, s'.Stored 7 5 0 ∧ s'.Stored 7 6 1 ∧ s'.heap.lookup 0 = some m :=
    ⟨_, rfl, _, rfl, rfl, _, rfl, _, ⟨_, rfl, rfl⟩, ⟨_, rfl, rfl⟩, rfl⟩
  obtain ⟨s, hs, q, hq, hentries, s', hs', m, h₅, h₆, hm⟩ := hfirst
  have hr : Reached {} (fun s c => c.KeepsOrder s) s := by
    refine .call .make (fun _ => ⟨nofun, fun _ _ n x mx hx => ?_⟩) hs
    simp [TxQ.make, Stored] at hx
  have hr' : Reached {} (fun s c => c.KeepsOrder s) s' := by
    refine .call hr (fun _ => ⟨fun _ n x hx => ?_, fun balance hroot => ?_⟩) hs'
    · have hmem := (q.transactions.mem_entries_iff n x).2 ((stored_iff hq).1 hx)
      rw [hentries, List.mem_singleton] at hmem
      cases hmem
      decide
    · cases hroot
  exact ⟨s', 0, 1, m, hr', h₅, h₆, hm,
    nothing_behind_blocker {} s' hr' 7 5 6 0 1 m h₅ h₆ (by decide) hm⟩

/-- Transactions 5 and 6 of an account are queued and 5 expires. A blocker with sequence 5 is then
queued in front of 6. -/
theorem blocker_fills_gap :
    ∃ s p p' m, Reached {} (fun _ _ => True) s ∧ s.Stored 7 5 p ∧ s.Stored 7 6 p' ∧
      s.heap.lookup p = some m ∧ m.category = .blocker := by
  have hrun : ∃ s₁ s₂ s₃ s₄ m,
      (Call.apply (sampleEnv 5) (sampleTx 5 false (some 10)) 0).exec {} (TxQ.make {}) = .ok s₁ ∧
      (Call.apply (sampleEnv 5) (sampleTx 6 false none) 0).exec {} s₁ = .ok s₂ ∧
      (Call.processClosedLedger 10 [] false).exec {} s₂ = .ok s₃ ∧
      (Call.apply (sampleEnv 5) (sampleTx 5 true none) 0).exec {} s₃ = .ok s₄ ∧
      s₄.Stored 7 5 2 ∧ s₄.Stored 7 6 1 ∧ s₄.heap.lookup 2 = some m ∧ m.category = .blocker :=
    ⟨_, _, _, _, _, rfl, rfl, rfl, rfl, ⟨_, rfl, rfl⟩, ⟨_, rfl, rfl⟩, rfl, rfl⟩
  obtain ⟨s₁, s₂, s₃, s₄, m, h₁, h₂, h₃, h₄, hp, hp', hm, hcat⟩ := hrun
  exact ⟨s₄, 2, 1, m, .call (.call (.call (.call .make trivial h₁) trivial h₂) trivial h₃) trivial h₄,
    hp, hp', hm, hcat⟩

end Ripple.TxQ
