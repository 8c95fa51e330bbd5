import Ripple.Validations.Counted

/-!
# Ripple.Validations.Grounded

Whether only nodes that are trusted and have a current validation count in the trie.

While the ledger of a node's new validation is being acquired, the trie keeps the ledger of the one
before. If the node goes stale or loses trust in that time, `removeTrie` compares the old ledger with
the new validation and leaves it in place.
-/

namespace Ripple.Validations

open LedgerTrie (Chain)

variable {NodeID L ID : Type} [Ledger L ID] [DecidableEq NodeID] [LinearOrder ID]
variable {s s' : Validations NodeID L ID} {n m : NodeID}

def Grounded (s : Validations NodeID L ID) (n : NodeID) : Prop :=
  ∀ l, s.lastLedger_.lookup n = some l → ∃ v, s.current_.lookup n = some v ∧ v.trusted = true

/-- The ledger of the node that counts is the one of its validation, not an earlier one. -/
def Follows (s : Validations NodeID L ID) (n : NodeID) : Prop :=
  ∀ v l, s.current_.lookup n = some v → s.lastLedger_.lookup n = some l → Ledger.id l = v.ledgerID

def Call.Drops (p : ValidationParms) (t : Int) (s : Validations NodeID L ID) (n : NodeID) :
    Call NodeID L ID → Prop
  | .trustChanged added removed => n ∉ added ∧ n ∈ removed
  | c => c.dropsStale = true ∧ ¬ Fresh p t s n

/-- No node that the call drops lags behind its validation. -/
def DropsCaughtUp (p : ValidationParms) (t : Int) (c : Call NodeID L ID)
    (s : Validations NodeID L ID) : Prop :=
  ∀ n, c.Drops p t s n → Follows s n

omit [Ledger L ID] in
theorem SameAt.grounded (h : SameAt s s' n) (hg : Grounded s n) : Grounded s' n := by
  intro l hl
  rw [h.current_eq]
  exact hg l (h.last_eq ▸ hl)

theorem SameAt.follows (h : SameAt s s' n) (hf : Follows s n) : Follows s' n := by
  intro v l hv hl
  exact hf v l (h.current_eq ▸ hv) (h.last_eq ▸ hl)

theorem Completed.grounded (h : Completed s s' n) (hw : Waiting s n) (hg : Grounded s n) :
    Grounded s' n := by
  intro l hl
  rw [h.current_eq]
  cases h.last with
  | inl heq => exact hg l (heq ▸ hl)
  | inr hnew =>
    obtain ⟨k, -, hk, -⟩ := hnew
    obtain ⟨v, hv, ht, -⟩ := hw k hk
    exact ⟨v, hv, ht⟩

theorem Completed.follows (h : Completed s s' n) (hw : Waiting s n) (hf : Follows s n) :
    Follows s' n := by
  intro v l hv hl
  rw [h.current_eq] at hv
  cases h.last with
  | inl heq => exact hf v l hv (heq ▸ hl)
  | inr hnew =>
    obtain ⟨k, l', hk, hl', hid⟩ := hnew
    rw [hl] at hl'
    cases hl'
    exact hw.id_eq hv hk hid

variable {val : Validation ID}

theorem DroppedAt.last_eq_none (h : DroppedAt s s' n val) (hv : s.current_.lookup n = some val) :
    s'.lastLedger_.lookup n = none ↔ Follows s n := by
  rw [h.last_eq]
  cases hl : s.lastLedger_.lookup n with
  | none => simp [Follows, hl]
  | some l => simp [Follows, hl, hv]

omit [Ledger L ID] [LinearOrder ID] in
theorem grounded_iff_of_current_none (h : s.current_.lookup n = none) :
    Grounded s n ↔ s.lastLedger_.lookup n = none := by
  cases hl : s.lastLedger_.lookup n with
  | none => simp [Grounded, hl]
  | some l => simp [Grounded, hl, h]

variable (A : Adaptor L ID) (p : ValidationParms) {t now : Int}

/-! ## Queries -/

theorem current_grounded_iff {α : Type} {f : α → NodeID → Validation ID → α} (init : α)
    (hg : Grounded s n) :
    Grounded (current A p f init t s).2 n ↔ (¬ Fresh p t s n → Follows s n) := by
  obtain ⟨hf, hsame⟩ | ⟨hstale, v, hv, hd⟩ := current_cases A p f init t s n
  · exact ⟨fun _ h => absurd hf h, fun _ => hsame.grounded hg⟩
  · rw [grounded_iff_of_current_none hd.current_eq, hd.last_eq_none hv]
    exact ⟨fun h _ => h, fun h => h hstale⟩

theorem checkAcquired_grounded_iff (hw : Waiting s n) :
    Grounded (checkAcquired A s) n ↔ Grounded s n := by
  have hc := checkAcquired_completed A s n
  refine ⟨fun hg l hl => ?_, hc.grounded hw⟩
  cases hv : s.current_.lookup n with
  | none =>
    have hnone := (grounded_iff_of_current_none (hc.current_eq.trans hv)).mp hg
    cases hc.last with
    | inl heq =>
      rw [← heq, hnone] at hl
      cases hl
    | inr hnew =>
      obtain ⟨k, -, hk, -⟩ := hnew
      obtain ⟨v, hv', -⟩ := hw k hk
      rw [hv] at hv'
      cases hv'
  | some v =>
    have hmem : ∃ l, (checkAcquired A s).lastLedger_.lookup n = some l := by
      cases hc.last with
      | inl heq => exact ⟨l, heq.trans hl⟩
      | inr hnew =>
        obtain ⟨-, l', -, hl', -⟩ := hnew
        exact ⟨l', hl'⟩
    obtain ⟨l', hl'⟩ := hmem
    obtain ⟨v', hv', ht⟩ := hg l' hl'
    rw [hc.current_eq, hv] at hv'
    exact ⟨v', hv', ht⟩

theorem refresh_grounded (ha : Accounted s n) (hg : Grounded s n) :
    Grounded (refresh A p t s) n ↔ (¬ Fresh p t s n → Follows s n) := by
  rw [refresh, checkAcquired_grounded_iff A (current_accounted A p () ha).waiting,
    current_grounded_iff A p () hg]

/-! ## `add` and `trustChanged` -/

theorem updateTrie_grounded {prior : Option (Nat × ID)} (hc : s.current_.lookup n = some val)
    (ht : val.trusted = true) (h : ∀ m ≠ n, Waiting s m ∧ Grounded s m) (m : NodeID) :
    Grounded (updateTrie A s n val prior) m := by
  by_cases hm : m = n
  · subst hm
    exact fun l _ => ⟨val, by rw [updateTrie_current, hc], ht⟩
  · exact (updateTrie_completed A hm).grounded (h m hm).1 (h m hm).2

theorem add_grounded (ha : ∀ n, Accounted s n) (hg : ∀ n, Grounded s n)
    (hold : ∀ v, s.current_.lookup n = some v → v.trusted = val.trusted) (m : NodeID) :
    Grounded (add A p t now n val s).2 m := by
  cases add_cases A p t now n val s with
  | inl hsame =>
    obtain ⟨hc, -, hl, -⟩ := hsame
    intro l hl'
    rw [hc]
    rw [hl] at hl'
    exact hg m l hl'
  | inr hset =>
    obtain ⟨s', he, heq⟩ := hset
    rw [heq]
    have hother : ∀ m ≠ n, Waiting s' m ∧ Grounded s' m := fun m hm =>
      ⟨((he.sameAt hm).accounted (ha m)).waiting, (he.sameAt hm).grounded (hg m)⟩
    cases ht : val.trusted with
    | true => exact updateTrie_grounded A he.current_same ht hother m
    | false =>
      by_cases hm : m = n
      · subst hm
        intro l hl
        have hl' : s.lastLedger_.lookup m = some l := he.last_eq ▸ hl
        obtain ⟨v, hv, htr⟩ := hg m l hl'
        rw [hold v hv, ht] at htr
        cases htr
      · exact (hother m hm).2

section TrustChanged

variable {added removed : HashSet NodeID}

structure Dropping (added removed : HashSet NodeID) (s : Validations NodeID L ID) : Prop where
  accounted : ∀ n, Accounted s n
  grounded : ∀ n, Grounded s n
  follows : ∀ n, n ∉ added → n ∈ removed → Follows s n

theorem trustChangedAt_dropping (h : Dropping added removed s) (n : NodeID) :
    Dropping added removed (trustChangedAt A added removed s n) := by
  have hacc := trustChangedAt_accounted A added removed (n := n) h.accounted
  cases trustChangedAt_cases added removed A (s := s) (n := n) with
  | inl hsame =>
    rw [hsame.1]
    exact h
  | inr hset =>
    obtain ⟨v, s', hv, he, hcase⟩ := hset
    have hother : ∀ m ≠ n, Waiting s' m ∧ Grounded s' m := fun m hm =>
      ⟨((he.sameAt hm).accounted (h.accounted m)).waiting, (he.sameAt hm).grounded (h.grounded m)⟩
    cases hcase with
    | inl hadd =>
      obtain ⟨hadd, heq⟩ := hadd
      refine ⟨hacc, fun m => ?_, fun m hm hm' => ?_⟩
      · rw [heq]
        exact updateTrie_grounded A he.current_same (by simp [retrust, hadd]) hother m
      · have hne : m ≠ n := fun hmn => hm (hmn ▸ hadd)
        rw [heq]
        exact (updateTrie_completed A hne).follows (hother m hne).1
          ((he.sameAt hne).follows (h.follows m hm hm'))
    | inr hrem =>
      obtain ⟨hadd, hrem, heq⟩ := hrem
      have hledger : (retrust added removed n v).ledgerID = v.ledgerID :=
        congrArg Prod.snd (retrust_ledger added removed n v)
      have hlast : (trustChangedAt A added removed s n).lastLedger_.lookup n = none := by
        rw [heq, removeTrie_last, he.last_eq, hledger]
        cases hl : s.lastLedger_.lookup n with
        | none => simp
        | some l => simp [h.follows n hadd hrem v l hv hl]
      refine ⟨hacc, fun m => ?_, fun m hm hm' => ?_⟩
      · by_cases hne : m = n
        · subst hne
          intro l hl
          rw [hlast] at hl
          cases hl
        · rw [heq]
          exact ((he.sameAt hne).trans (removeTrie_sameAt _ hne)).grounded (h.grounded m)
      · by_cases hne : m = n
        · subst hne
          intro v l _ hl
          rw [hlast] at hl
          cases hl
        · rw [heq]
          exact ((he.sameAt hne).trans (removeTrie_sameAt _ hne)).follows (h.follows m hm hm')

theorem trustChanged_grounded (h : Dropping added removed s) (n : NodeID) :
    Grounded (trustChanged A added removed s) n := by
  have hfold : ∀ (nodes : List NodeID) (s : Validations NodeID L ID), Dropping added removed s →
      Dropping added removed (nodes.foldl (trustChangedAt A added removed) s) := by
    intro nodes
    induction nodes with
    | nil => exact fun s h => h
    | cons n nodes ih => exact fun s h => ih _ (trustChangedAt_dropping A h n)
  exact (hfold (A.order s.asked s.current_.keys) { s with asked := s.asked + 1 }
    ⟨fun n => (h.accounted n).congr rfl rfl rfl, h.grounded, h.follows⟩).grounded n

end TrustChanged

/-! ## Runs -/

variable [DecidableEq L] {T : NodeID → Bool} {N : Finset NodeID}

theorem exec_grounded {c : Call NodeID L ID} (hi : Inv T N s) (hg : ∀ n, Grounded s n)
    (hc : DropsCaughtUp p t c s) (hflag : ∀ n v, c = .add n v → v.trusted = T n) (n : NodeID) :
    Grounded (c.exec A p t now s) n := by
  by_cases hadd : ∃ n v, c = .add n v
  · obtain ⟨m, v, rfl⟩ := hadd
    exact add_grounded A p hi.accounted hg (fun v' hv' =>
      (hi.flags m v' hv').trans (hflag m v rfl).symm) n
  · by_cases htrust : ∃ added removed, c = .trustChanged added removed
    · obtain ⟨added, removed, rfl⟩ := htrust
      exact trustChanged_grounded A ⟨hi.accounted, hg, fun m hm hm' => hc m ⟨hm, hm'⟩⟩ n
    · have hr := exec_reads A p (s := s) t now
        (fun n v hc => hadd ⟨n, v, hc⟩) (fun added removed hc => htrust ⟨added, removed, hc⟩)
      have hdrop : c.dropsStale = true → ¬ Fresh p t s n → Follows s n := by
        intro hs hf
        refine hc n ?_
        cases c with
        | trustChanged added removed => exact absurd ⟨added, removed, rfl⟩ htrust
        | _ => exact ⟨hs, hf⟩
      generalize c.dropsStale = b at hr hdrop
      cases hr with
      | nothing h => exact (h.sameAt n).grounded (hg n)
      | current f init h =>
        exact (h.sameAt n).grounded ((current_grounded_iff A p init (hg n)).mpr (hdrop rfl))
      | refresh h =>
        exact (h.sameAt n).grounded
          ((refresh_grounded A p (hi.accounted n) (hg n)).mpr (hdrop rfl))

variable {A p}

theorem Run.grounded (h : Run A p (DropsCaughtUp p) T N s) (n : NodeID) : Grounded s n := by
  induction h generalizing n with
  | make T =>
    intro l hl
    cases (AList.lookup_empty n).symm.trans hl
  | call t now c hrun hc hflag ih => exact exec_grounded A p hrun.inv ih hc hflag n

/-- If no call dropped a node that lagged behind, then after a refresh every node in `lastLedger_`
has a trusted validation exactly if the refresh drops no such node. -/
theorem refresh_grounded_iff (h : Run A p (DropsCaughtUp p) T N s) (t : Int) :
    (∀ n l, (refresh A p t s).lastLedger_.lookup n = some l →
      ∃ v, (refresh A p t s).current_.lookup n = some v ∧ v.trusted = true) ↔
    ∀ n, ¬ Fresh p t s n → Follows s n :=
  forall_congr' fun n => refresh_grounded A p (h.inv.accounted n) (h.grounded n)

/-- Node 0 has validated `[1]` at time 100, and node 1 has validated `[1, 2]` at time 250. -/
def apart : Validations Nat Chain (List Nat) :=
  (Call.add 1 { chainValidation [1, 2] with signTime := 250, seenTime := 250 }).exec
    (chainAdaptor fun _ => true) {} 250 0 (crowd 1)

theorem apart_run : Run (chainAdaptor fun _ => true) {} (DropsCaughtUp {}) (fun _ => true) {0, 1} apart := by
  have hfirst : Run (chainAdaptor fun _ => true) {} (DropsCaughtUp {}) (fun _ => true) {0} (crowd 1) :=
    .call 100 0 (.add 0 (chainValidation [1])) (.make _) (fun n hd => by cases hd.1)
      (by rintro n v h; cases h; rfl)
  exact .call 250 0 (.add 1 { chainValidation [1, 2] with signTime := 250, seenTime := 250 }) hfirst
    (fun n hd => by cases hd.1) (by rintro n v h; cases h; rfl)

theorem apart_follows (n : Nat) : Follows apart n := by
  have hcur : apart.current_.entries.map (fun e => (e.1, e.2.ledgerID)) = [(1, [1, 2]), (0, [1])] := by
    decide +kernel
  have hlast : apart.lastLedger_.entries = [⟨1, ⟨[1, 2]⟩⟩, ⟨0, ⟨[1]⟩⟩] := by decide +kernel
  intro v l hv hl
  have hv' : (n, v.ledgerID) ∈ apart.current_.entries.map (fun e => (e.1, e.2.ledgerID)) :=
    List.mem_map.2 ⟨⟨n, v⟩, AList.mem_lookup_iff.1 hv, rfl⟩
  have hl' := AList.mem_lookup_iff.1 hl
  rw [hcur] at hv'
  rw [hlast] at hl'
  simp only [List.mem_cons, Prod.mk.injEq, List.not_mem_nil, or_false] at hv' hl'
  rcases hv' with ⟨rfl, hid⟩ | ⟨rfl, hid⟩
  · obtain rfl : l = ⟨[1, 2]⟩ := by simpa using hl'
    exact hid.symm
  · obtain rfl : l = ⟨[1]⟩ := by simpa using hl'
    exact hid.symm

/-- At time 300 the refresh drops node 0, which is stale, and keeps node 1. -/
theorem refresh_grounded_iff_apart : ¬ Fresh {} 300 apart 0 ∧
    (refresh (chainAdaptor fun _ => true) {} 300 apart).lastLedger_.lookup 0 = none ∧
    ∃ v, (refresh (chainAdaptor fun _ => true) {} 300 apart).current_.lookup 1 = some v ∧
      v.trusted = true := by
  refine ⟨fun hf => ?_, by decide +kernel, (refresh_grounded_iff apart_run 300).mpr
    (fun n _ => apart_follows n) 1 ⟨[1, 2]⟩ (by decide +kernel)⟩
  have hstale := hf (chainValidation [1]) (by decide +kernel)
  revert hstale
  decide

/-- Node 0 has validated `[1]` and then `[1, 2]`, which cannot be acquired. -/
def lagging : Validations Nat Chain (List Nat) :=
  (Call.add 0 { chainValidation [1, 2] with signTime := 101 }).exec (chainAdaptor (· == [1])) {} 101 0
    ((Call.add 0 (chainValidation [1])).exec (chainAdaptor (· == [1])) {} 100 0 make)

theorem lagging_run :
    Run (chainAdaptor (· == [1])) {} Anything (fun _ => true) {0} lagging :=
  .call 101 0 (.add 0 _) (.call 100 0 (.add 0 _) (.make _) trivial (by rintro n v h; cases h; rfl))
    trivial (by rintro n v h; cases h; rfl)

def laggingStale : Validations Nat Chain (List Nat) :=
  refresh (chainAdaptor (· == [1])) {} 1000 lagging

def laggingUntrusted : Validations Nat Chain (List Nat) :=
  refresh (chainAdaptor (· == [1])) {} 101
    ((Call.trustChanged ∅ (AList.singleton 0 ())).exec (chainAdaptor (· == [1])) {} 101 0 lagging)

/-- In both cases the ledger `[1]` keeps its support. -/
theorem lagging_counted :
    Run (chainAdaptor (· == [1])) {} Anything (fun _ => true) {0} lagging ∧
    (laggingStale.lastLedger_.lookup 0 = some ⟨[1]⟩ ∧ laggingStale.trie_.tipSupport ⟨[1]⟩ = 1 ∧
      laggingStale.current_.lookup 0 = none) ∧
    (laggingUntrusted.lastLedger_.lookup 0 = some ⟨[1]⟩ ∧
      laggingUntrusted.trie_.tipSupport ⟨[1]⟩ = 1 ∧
      (laggingUntrusted.current_.lookup 0).map Validation.trusted = some false) :=
  ⟨lagging_run, by decide +kernel, by decide +kernel⟩

end Ripple.Validations
