import Mathlib.Data.List.Chain
import Mathlib.Logic.Relation
import Ripple.App.LedgerMaster

/-!
# Ripple.App.Publish

The ledgers handed to `pubLedger` form a chain.

* `Kept`: what every step of every thread keeps, in terms of positions on the chain.
* `published_chain`: the result, as long as the sequence numbers leave room for the gap.
-/

namespace Ripple.App

open Protocol

variable {L : Type} {ids : LedgerIds L}

/-! ## What every run keeps

Ledgers are named by their positions on the chain. -/

section Positions

variable (chain : LedgerChain ids)

/-- The validated ledger is number `n` and the published one number `p`; no gap overflows. -/
structure Placed (st : State L) (n p : Nat) : Prop where
  valid : st.mValidLedger = some (chain.ledger n)
  validSeq : st.mValidLedgerSeq = n
  pub : st.mPubLedger = some (chain.ledger p)
  pubSeq : st.mPubLedgerSeq = p
  pos : 0 < p
  le : p ≤ n
  small : n + MAX_LEDGER_GAP < 2 ^ 32

/-- After number `a` comes the next one, or the validated one, number `m`, over a gap. -/
def Follows (a k m : Nat) : Prop :=
  (m ≤ a + MAX_LEDGER_GAP → k = a + 1) ∧ (a + MAX_LEDGER_GAP < m → k = m)

structure Queued (last : Option Nat) (v l : L) (rest : List L) (n k m : Nat) : Prop where
  valLedger : v = chain.ledger m
  ledger : l = chain.ledger k
  rest : ∃ j, rest = (List.range' (k + 1) j).map chain.ledger ∧ k + j ≤ m ∧
    (j = 0 ∨ m ≤ k + MAX_LEDGER_GAP)
  valid : m ≤ n
  follows : ∀ a, last = some a → a < k ∧ Follows a k m

/-- What holds where the advance thread is. The last published number is `last`. -/
inductive Located (last : Option Nat) (n p : Nat) : Advance L → Prop
  | idle : (∀ a, last = some a → a = p) → Located last n p .idle
  | searching {s : Search L} {m j : Nat} : (∀ a, last = some a → a = p) → s.valLedger = chain.ledger m →
      m ≤ n → m ≤ p + MAX_LEDGER_GAP → s.ret = (List.range' (p + 1) j).map chain.ledger →
      s.pubSeq = p + 1 + j → p + j ≤ m → s.seq ≤ m + 1 → Located last n p (.searching s)
  | filling {v l rest k m} : Queued chain last v l rest n k m → p ≤ k →
      Located last n p (.filling v l rest)
  | marking {v l rest k m} : Queued chain last v l rest n k m → p ≤ k →
      Located last n p (.marking v l rest)
  | announcing {v l rest k m} : Queued chain last v l rest n k m → p = k →
      Located last n p (.announcing v l rest)

structure Logged (log : List (Nat × Nat)) (st : State L) (n : Nat) : Prop where
  published : st.published = log.map fun e => ⟨chain.ledger e.1, chain.ledger e.2⟩
  bounded : ∀ e ∈ log, e.1 ≤ e.2 ∧ e.2 ≤ n
  increasing : log.Pairwise fun a b => a.1 < b.1
  linked : log.IsChain fun a b => Follows a.1 b.1 b.2

def Kept (st : State L) : Prop :=
  (st.mValidLedger = none ∧ st.mValidLedgerSeq = 0 ∧ st.mPubLedger = none ∧ st.advance = .idle ∧
    st.published = []) ∨
  ∃ n p log, Placed chain st n p ∧ Logged chain log st n ∧
    Located chain (log.getLast?.map Prod.fst) n p st.advance

end Positions

section Steps

variable {chain : LedgerChain ids} {st : State L} {n p : Nat}

theorem Placed.seq_lt (h : Placed chain st n p) : n < 2 ^ 32 := by
  have hsmall := h.small
  omega

/-! ## The other threads -/

variable {last : Option Nat} {rest : List L} {m : Nat} {l : L} {k n' : Nat} {v : L} {a : Advance L}
  {log : List (Nat × Nat)} {s : Search L} {look : Lookups L} {size : Nat}

theorem Queued.mono (h : Queued chain last v l rest n k m) (hle : n ≤ n') :
    Queued chain last v l rest n' k m :=
  { h with valid := h.valid.trans hle }

theorem Located.mono (h : Located chain last n p a) (hle : n ≤ n') : Located chain last n' p a := by
  cases h with
  | idle hlast => exact .idle hlast
  | searching hlast hv hm hgap hret hpub hj hseq =>
    exact .searching hlast hv (hm.trans hle) hgap hret hpub hj hseq
  | filling hq hp => exact .filling (hq.mono hle) hp
  | marking hq hp => exact .marking (hq.mono hle) hp
  | announcing hq hp => exact .announcing (hq.mono hle) hp

theorem Logged.mono (h : Logged chain log st n) (hle : n ≤ n') : Logged chain log st n' :=
  { h with bounded := fun e he => ⟨(h.bounded e he).1, (h.bounded e he).2.trans hle⟩ }

theorem Placed.setFullLedger_eq (h : Placed chain st n p) (hl : ids.seq l ≤ n) :
    st.setFullLedger ids l = st := by
  have hnot : ¬ids.seq l > st.mValidLedgerSeq := by
    rw [h.validSeq]
    omega
  simp only [State.setFullLedger, if_neg hnot, State.setFirstPubLedger, h.pub]

theorem Kept.setFullLedger (h : Kept chain st) (hpos : 0 < k) (hsmall : k + MAX_LEDGER_GAP < 2 ^ 32) :
    Kept chain (st.setFullLedger ids (chain.ledger k)) := by
  have hseq : ids.seq (chain.ledger k) = k := chain.seq_eq k (by omega)
  rcases h with ⟨hvalid, hvalidSeq, hpub, hidle, hlog⟩ | ⟨n, p, log, hplaced, hlogged, hloc⟩
  · -- the first ledger is both validated and published
    right
    have hlater : ids.seq (chain.ledger k) > st.mValidLedgerSeq := by
      rw [hseq, hvalidSeq]
      exact hpos
    refine ⟨k, k, [], ?_, ?_, ?_⟩
    · simp only [State.setFullLedger, if_pos hlater, State.setFirstPubLedger, State.setValidLedger, hpub,
        State.setPubLedger]
      exact ⟨rfl, hseq, rfl, hseq, hpos, le_rfl, hsmall⟩
    · simp only [State.setFullLedger, if_pos hlater, State.setFirstPubLedger, State.setValidLedger, hpub,
        State.setPubLedger]
      exact ⟨hlog, by simp, .nil, .nil⟩
    · simp only [State.setFullLedger, if_pos hlater, State.setFirstPubLedger, State.setValidLedger, hpub,
        State.setPubLedger, hidle]
      exact .idle (by simp)
  · by_cases hlater : k > n
    · right
      have hgt : ids.seq (chain.ledger k) > st.mValidLedgerSeq := by
        rw [hseq, hplaced.validSeq]
        exact hlater
      have heq : st.setFullLedger ids (chain.ledger k) = st.setValidLedger ids (chain.ledger k) := by
        simp only [State.setFullLedger, if_pos hgt, State.setFirstPubLedger, State.setValidLedger,
          hplaced.pub]
      rw [heq]
      have hle := hplaced.le
      exact ⟨k, p, log, ⟨rfl, hseq, hplaced.pub, hplaced.pubSeq, hplaced.pos, by omega, hsmall⟩,
        ⟨hlogged.published, (hlogged.mono hlater.le).bounded, hlogged.increasing, hlogged.linked⟩,
        hloc.mono hlater.le⟩
    · rw [hplaced.setFullLedger_eq (by omega)]
      exact .inr ⟨n, p, log, hplaced, hlogged, hloc⟩

/-! ## The advance thread -/

theorem Search.ledger_eq (hv : s.valLedger = chain.ledger m) (hm : m < 2 ^ 32)
    (h : ids.hash l = s.hash ids) : l = chain.ledger s.seq := by
  unfold Search.hash at h
  rw [hv] at h
  cases hof : ids.hashOfSeq (chain.ledger m) s.seq with
  | none =>
    rw [hof] at h
    exact absurd h (ids.hash_ne_zero l)
  | some hash =>
    rw [hof] at h
    exact ids.hash_injective (h.trans (chain.hashOfSeq_eq hm hof))

theorem Search.fetched_eq (hv : s.valLedger = chain.ledger m) (hm : m < 2 ^ 32)
    (hlook : look.Honest ids (s.hash ids)) (h : s.fetched ids size look = some l) :
    l = chain.ledger s.seq := by
  unfold Search.fetched at h
  split at h
  · exact ledger_eq hv hm (hlook.2 l h)
  · unfold Search.known at h
    split at h
    · rename_i hlast
      cases h
      rw [hlast, hv, chain.seq_eq m hm]
    · split at h
      · cases h
      · exact ledger_eq hv hm (hlook.1 l h)

theorem Search.round_spec (size : Nat) (hv : s.valLedger = chain.ledger m) (hm : m + 1 < 2 ^ 32)
    (hseq : s.seq ≤ m) (hlook : look.Honest ids (s.hash ids)) :
    (s.round ids size look).valLedger = s.valLedger ∧ (s.round ids size look).seq = s.seq + 1 ∧
      ((s.round ids size look).ret = s.ret ∧ (s.round ids size look).pubSeq = s.pubSeq ∨
        s.pubSeq ≤ m ∧ (s.round ids size look).ret = s.ret ++ [chain.ledger s.pubSeq] ∧
          (s.round ids size look).pubSeq = s.pubSeq + 1) := by
  have hnext : (s.seq + 1) % 2 ^ 32 = s.seq + 1 := Nat.mod_eq_of_lt (by omega)
  unfold Search.round
  dsimp only
  split
  · rename_i l hl
    obtain rfl := fetched_eq hv (by omega) hlook hl
    rw [chain.seq_eq s.seq (by omega)]
    split
    · rename_i hpub
      have hpubNext : (s.pubSeq + 1) % 2 ^ 32 = s.pubSeq + 1 := Nat.mod_eq_of_lt (by omega)
      exact ⟨rfl, hnext, .inr ⟨by omega, by rw [hpub], hpubNext⟩⟩
    · exact ⟨rfl, hnext, .inl ⟨rfl, rfl⟩⟩
  · exact ⟨rfl, hnext, .inl ⟨rfl, rfl⟩⟩

theorem Located.publish {ret : List L} {j : Nat} (hlast : ∀ a, last = some a → a = p)
    (hv : v = chain.ledger m) (hm : m ≤ n) (hgap : m ≤ p + MAX_LEDGER_GAP)
    (hret : ret = (List.range' (p + 1) j).map chain.ledger) (hj : p + j ≤ m) :
    Located chain last n p (.publish v ret) := by
  cases j with
  | zero =>
    rw [hret]
    exact .idle hlast
  | succ j =>
    rw [hret, List.range'_succ, List.map_cons]
    refine .filling (k := p + 1) (m := m) ⟨hv, rfl, ⟨j, rfl, by omega, .inr (by omega)⟩, hm, ?_⟩ (by omega)
    intro a ha
    obtain rfl := hlast a ha
    exact ⟨by omega, fun _ => rfl, fun hfar => by omega⟩

theorem Kept.find (h : Kept chain st) (hidle : st.advance = .idle) :
    Kept chain (st.findNewLedgersToPublish ids) := by
  rcases h with ⟨hvalid, hvalidSeq, hpub, -, hlog⟩ | ⟨n, p, log, hplaced, hlogged, hloc⟩
  · left
    simp [State.findNewLedgersToPublish, hvalid, hvalidSeq, hpub, hlog]
  · right
    have hlast : ∀ a, log.getLast?.map Prod.fst = some a → a = p := by
      rw [hidle] at hloc
      cases hloc with | idle hlast => exact hlast
    have hle := hplaced.le
    have hsmall := hplaced.small
    have hpos := hplaced.pos
    simp only [State.findNewLedgersToPublish, hplaced.valid, hplaced.pub, hplaced.validSeq, hplaced.pubSeq]
    rw [Nat.mod_eq_of_lt (by omega : p + MAX_LEDGER_GAP < 2 ^ 32),
      Nat.mod_eq_of_lt (by unfold MAX_LEDGER_GAP at hsmall; omega : p + 1 < 2 ^ 32)]
    split
    · -- the gap is skipped
      rename_i hgap
      have hseq := chain.seq_eq n hplaced.seq_lt
      refine ⟨n, n, log, ⟨hplaced.valid, hplaced.validSeq, rfl, hseq, by omega, le_rfl, hsmall⟩,
        ⟨hlogged.published, hlogged.bounded, hlogged.increasing, hlogged.linked⟩, ?_⟩
      refine .filling (k := n) (m := n) ⟨rfl, rfl, ⟨0, rfl, le_rfl, .inl rfl⟩, le_rfl, ?_⟩ le_rfl
      intro a ha
      obtain rfl := hlast a ha
      exact ⟨by omega, fun hnear => by omega, fun _ => rfl⟩
    · rename_i hgap
      split
      · exact ⟨n, p, log, ⟨rfl, rfl, rfl, rfl, hpos, hle, hsmall⟩,
          ⟨hlogged.published, hlogged.bounded, hlogged.increasing, hlogged.linked⟩, .idle hlast⟩
      · refine ⟨n, p, log, ⟨rfl, rfl, rfl, rfl, hpos, hle, hsmall⟩,
          ⟨hlogged.published, hlogged.bounded, hlogged.increasing, hlogged.linked⟩, ?_⟩
        exact .searching (m := n) (j := 0) hlast rfl le_rfl (not_lt.mp hgap) rfl rfl hle (by dsimp only; omega)

theorem Kept.moved (hplaced : Placed chain st n p) (hlogged : Logged chain log st n)
    (hloc : Located chain (log.getLast?.map Prod.fst) n p a) :
    Kept chain { st with advance := a } :=
  .inr ⟨n, p, log,
    ⟨hplaced.valid, hplaced.validSeq, hplaced.pub, hplaced.pubSeq, hplaced.pos, hplaced.le, hplaced.small⟩,
    ⟨hlogged.published, hlogged.bounded, hlogged.increasing, hlogged.linked⟩, hloc⟩

theorem Kept.busy (h : Kept chain st) (hbusy : st.advance ≠ .idle) :
    ∃ n p log, Placed chain st n p ∧ Logged chain log st n ∧
      Located chain (log.getLast?.map Prod.fst) n p st.advance := by
  rcases h with ⟨-, -, -, hidle, -⟩ | h
  · exact absurd hidle hbusy
  · exact h

theorem Kept.round (h : Kept chain st) (hs : st.advance = .searching s)
    (hseq : s.seq ≤ ids.seq s.valLedger) (hlook : look.Honest ids (s.hash ids)) :
    Kept chain { st with advance := .searching (s.round ids size look) } := by
  obtain ⟨n, p, log, hplaced, hlogged, hloc⟩ := h.busy (by simp [hs])
  rw [hs] at hloc
  cases hloc with
  | @searching _ m j hlast hv hm hgap hret hpub hj hle =>
    have hsmall := hplaced.small
    unfold MAX_LEDGER_GAP at hsmall
    rw [hv, chain.seq_eq m (by omega)] at hseq
    obtain ⟨hv', hseq', hfound⟩ := s.round_spec size hv (by omega) hseq hlook
    refine Kept.moved hplaced hlogged ?_
    rcases hfound with ⟨hret', hpub'⟩ | ⟨hroom, hret', hpub'⟩
    · exact .searching hlast (hv'.trans hv) hm hgap (hret'.trans hret) (hpub'.trans hpub) hj (by omega)
    · have hmore : (s.round ids size look).ret = (List.range' (p + 1) (j + 1)).map chain.ledger := by
        rw [hret', hret, hpub, List.range'_concat]
        simp
      exact .searching hlast (hv'.trans hv) hm hgap hmore (by omega) (by omega) (by omega)

theorem Kept.found (h : Kept chain st) (hs : st.advance = .searching s) :
    Kept chain { st with advance := .publish s.valLedger s.ret } := by
  obtain ⟨n, p, log, hplaced, hlogged, hloc⟩ := h.busy (by simp [hs])
  rw [hs] at hloc
  cases hloc with
  | searching hlast hv hm hgap hret hpub hj hle =>
    exact Kept.moved hplaced hlogged (Located.publish hlast hv hm hgap hret hj)

theorem Queued.le (h : Queued chain last v l rest n k m) : k ≤ n := by
  obtain ⟨j, -, hj⟩ := h.rest
  have hvalid := h.valid
  omega

theorem Kept.fill (h : Kept chain st) (hs : st.advance = .filling v l rest) :
    Kept chain { st.setFullLedger ids l with advance := .marking v l rest } := by
  obtain ⟨n, p, log, hplaced, hlogged, hloc⟩ := h.busy (by simp [hs])
  rw [hs] at hloc
  cases hloc with
  | @filling _ _ _ k m hq hp =>
    have hk := hq.le
    have hlt := hplaced.seq_lt
    have hseq : ids.seq l = k := by rw [hq.ledger, chain.seq_eq k (by omega)]
    rw [hplaced.setFullLedger_eq (by omega)]
    exact Kept.moved hplaced hlogged (.marking hq hp)

theorem Kept.mark (h : Kept chain st) (hs : st.advance = .marking v l rest) :
    Kept chain { st.setPubLedger ids l with advance := .announcing v l rest } := by
  obtain ⟨n, p, log, hplaced, hlogged, hloc⟩ := h.busy (by simp [hs])
  rw [hs] at hloc
  cases hloc with
  | @marking _ _ _ k m hq hp =>
    have hk := hq.le
    have hlt := hplaced.seq_lt
    have hpos := hplaced.pos
    have hseq : ids.seq l = k := by rw [hq.ledger, chain.seq_eq k (by omega)]
    have hpub : Placed chain (st.setPubLedger ids l) n k :=
      ⟨hplaced.valid, hplaced.validSeq, congrArg some hq.ledger, hseq, by omega, hk, hplaced.small⟩
    refine Kept.moved hpub ?_ (.announcing hq rfl)
    exact ⟨hlogged.published, hlogged.bounded, hlogged.increasing, hlogged.linked⟩

theorem le_last (h : log.Pairwise fun a b => a.1 < b.1) {a : Nat}
    (hlast : log.getLast?.map Prod.fst = some a) : ∀ e ∈ log, e.1 ≤ a := by
  obtain ⟨last, hget, rfl⟩ := Option.map_eq_some_iff.mp hlast
  obtain ⟨init, rfl⟩ := List.getLast?_eq_some_iff.mp hget
  obtain ⟨-, -, hbefore⟩ := List.pairwise_append.mp h
  intro e he
  rcases List.mem_append.mp he with hinit | hend
  · exact (hbefore e hinit last (by simp)).le
  · rw [List.mem_singleton.mp hend]

theorem Logged.snoc (h : Logged chain log st n) (hv : v = chain.ledger m) (hl : l = chain.ledger k)
    (hk : k ≤ m) (hm : m ≤ n)
    (hfollows : ∀ a, log.getLast?.map Prod.fst = some a → a < k ∧ Follows a k m) :
    Logged chain (log ++ [(k, m)]) { st with published := st.published ++ [⟨l, v⟩], advance := a } n where
  published := by simp [h.published, hv, hl]
  bounded := by
    intro e he
    rcases List.mem_append.mp he with hold | hnew
    · exact h.bounded e hold
    · rw [List.mem_singleton.mp hnew]
      exact ⟨hk, hm⟩
  increasing := by
    refine List.pairwise_append.mpr ⟨h.increasing, by simp, fun e he e' he' => ?_⟩
    rw [List.mem_singleton.mp he']
    cases hlast : log.getLast?.map Prod.fst with
    | none =>
      rw [Option.map_eq_none_iff, List.getLast?_eq_none_iff] at hlast
      rw [hlast] at he
      cases he
    | some a => exact lt_of_le_of_lt (le_last h.increasing hlast e he) (hfollows a hlast).1
  linked := by
    refine List.isChain_append.mpr ⟨h.linked, by simp, fun e he e' he' => ?_⟩
    obtain rfl : (k, m) = e' := by simpa using he'
    exact (hfollows e.1 (by rw [Option.mem_def.mp he]; rfl)).2

theorem Kept.announce (h : Kept chain st) (hs : st.advance = .announcing v l rest) :
    Kept chain { st with published := st.published ++ [⟨l, v⟩], advance := .publish v rest } := by
  obtain ⟨n, p, log, hplaced, hlogged, hloc⟩ := h.busy (by simp [hs])
  rw [hs] at hloc
  cases hloc with
  | @announcing _ _ _ k m hq hp =>
    subst hp
    obtain ⟨j, hrest, hj, hnear⟩ := hq.rest
    right
    refine ⟨n, p, log ++ [(p, m)],
      ⟨hplaced.valid, hplaced.validSeq, hplaced.pub, hplaced.pubSeq, hplaced.pos, hplaced.le, hplaced.small⟩,
      hlogged.snoc hq.valLedger hq.ledger (by omega) hq.valid hq.follows, ?_⟩
    have hlast : ∀ a, (log ++ [(p, m)]).getLast?.map Prod.fst = some a → a = p := by
      intro a ha
      simpa [eq_comm] using ha
    rcases hnear with rfl | hnear
    · rw [hrest]
      exact .idle hlast
    · exact Located.publish hlast hq.valLedger hq.valid hnear hrest hj

theorem Run.kept (h : Run chain size (fun n => n + MAX_LEDGER_GAP < 2 ^ 32) st) :
    Kept chain st := by
  induction h with
  | start => exact .inl ⟨rfl, rfl, rfl, rfl, rfl⟩
  | accept n canBeCurrent tvc minVal _ hpos _ hsmall ih =>
    unfold State.checkAccept
    split
    · exact ih
    split
    · exact ih
    rename_i hlater
    split
    · exact ih
    · have hfull := ih.setFullLedger hpos hsmall
      rwa [State.setFullLedger, if_pos (not_le.mp hlater)] at hfull
  | full n _ hpos _ hsmall ih => exact ih.setFullLedger hpos hsmall
  | find _ hidle ih => exact ih.find hidle
  | round look _ hs hseq hlook ih => exact ih.round hs hseq hlook
  | found _ hs ih => exact ih.found hs
  | fill _ hs ih => exact ih.fill hs
  | mark _ hs ih => exact ih.mark hs
  | announce _ hs ih => exact ih.announce hs

end Steps

/-! ## The chain -/

def IsChild (ids : LedgerIds L) (a b : L) : Prop :=
  ids.parentHash b = ids.hash a ∧ ids.seq b = ids.seq a + 1

variable {chain : LedgerChain ids} {k : Nat}

theorem LedgerChain.child (hk : k + 1 < 2 ^ 32) :
    IsChild ids (chain.ledger k) (chain.ledger (k + 1)) := by
  refine ⟨chain.parent_eq k, ?_⟩
  rw [chain.seq_eq k (by omega), chain.seq_eq (k + 1) hk]

theorem LedgerChain.ancestor {n : Nat} (h : k ≤ n) (hn : n < 2 ^ 32) :
    Relation.ReflTransGen (IsChild ids) (chain.ledger k) (chain.ledger n) := by
  induction n, h using Nat.le_induction with
  | base => exact .refl
  | succ n _ ih => exact (ih (by omega)).tail (chain.child hn)

theorem published_chain {chain : LedgerChain ids} {size : Nat} {st : State L}
    (h : Run chain size (fun n => n + MAX_LEDGER_GAP < 2 ^ 32) st) :
    (st.published.Pairwise fun a b => ids.seq a.ledger < ids.seq b.ledger) ∧
    (∀ e ∈ st.published, Relation.ReflTransGen (IsChild ids) e.ledger e.valLedger ∧
      ∃ v, st.mValidLedger = some v ∧ Relation.ReflTransGen (IsChild ids) e.valLedger v) ∧
    st.published.IsChain fun a b =>
      (ids.seq b.valLedger ≤ ids.seq a.ledger + MAX_LEDGER_GAP → IsChild ids a.ledger b.ledger) ∧
      (ids.seq a.ledger + MAX_LEDGER_GAP < ids.seq b.valLedger → b.ledger = b.valLedger) := by
  rcases h.kept with ⟨-, -, -, -, hnone⟩ | ⟨n, p, log, hplaced, hlogged, -⟩
  · rw [hnone]
    exact ⟨.nil, by simp, .nil⟩
  · have hn := hplaced.seq_lt
    have hseq : ∀ e ∈ log, ids.seq (chain.ledger e.1) = e.1 ∧ ids.seq (chain.ledger e.2) = e.2 := by
      intro e he
      obtain ⟨h1, h2⟩ := hlogged.bounded e he
      exact ⟨chain.seq_eq _ (by omega), chain.seq_eq _ (by omega)⟩
    rw [hlogged.published]
    refine ⟨?_, ?_, ?_⟩
    · rw [List.pairwise_map]
      refine hlogged.increasing.imp_of_mem fun {a b} ha hb hlt => ?_
      dsimp only
      rw [(hseq a ha).1, (hseq b hb).1]
      exact hlt
    · intro e he
      obtain ⟨e', he', rfl⟩ := List.mem_map.mp he
      obtain ⟨h1, h2⟩ := hlogged.bounded e' he'
      exact ⟨chain.ancestor h1 (by omega), chain.ledger n, hplaced.valid, chain.ancestor h2 hn⟩
    · rw [List.isChain_map]
      refine hlogged.linked.imp_of_mem_imp fun a b ha hb hfollows => ?_
      obtain ⟨h1, h2⟩ := hlogged.bounded b hb
      dsimp only
      rw [(hseq a ha).1, (hseq b hb).2]
      refine ⟨fun hnear => ?_, fun hfar => by rw [hfollows.2 hfar]⟩
      rw [hfollows.1 hnear] at h1 ⊢
      exact chain.child (by omega)

def plainIds : LedgerIds Nat where
  seq l := l
  hash l := l + 1
  parentHash l := l
  skip _ := none
  skipAt _ _ := none
  hash_injective := by
    intro a b h
    simpa using h
  hash_ne_zero := by
    intro l
    exact Nat.succ_ne_zero l

def plainChain : LedgerChain plainIds where
  ledger n := n
  seq_eq _ _ := rfl
  parent_eq _ := rfl
  skip_eq := by
    intro n vec h
    cases h
  skipAt_eq := by
    intro n seq lastSeq vec h
    cases h

theorem published_chain_two : ∃ st, Run plainChain 8 (fun n => n + MAX_LEDGER_GAP < 2 ^ 32) st ∧
    st.published = [⟨2, 2⟩] ∧ ∃ v, st.mValidLedger = some v ∧
      Relation.ReflTransGen (IsChild plainIds) 2 v := by
  have hstart : Run plainChain 8 (fun n => n + MAX_LEDGER_GAP < 2 ^ 32) {} := .start
  have hfirst := hstart.accept 1 true 0 0 (by decide) (by decide) (by decide)
  have hsecond := hfirst.accept 2 true 0 0 (by decide) (by decide) (by decide)
  have hsearch := (hsecond.find rfl).round ⟨none, none⟩ rfl (by decide) ⟨by simp, by simp⟩
  have hdone := (((hsearch.found rfl).fill rfl).mark rfl).announce rfl
  refine ⟨_, hdone, rfl, ?_⟩
  obtain ⟨hanc, v, hv, hval⟩ := (published_chain hdone).2.1 ⟨2, 2⟩ (List.mem_singleton.mpr rfl)
  exact ⟨v, hv, hanc.trans hval⟩

/-- Close to the largest number every round takes the validated ledger for one beyond a gap. -/
theorem published_twice : ∃ st, Run plainChain 8 (fun _ => True) st ∧
    st.published = [⟨2 ^ 32 - 50, 2 ^ 32 - 50⟩, ⟨2 ^ 32 - 50, 2 ^ 32 - 50⟩] ∧
    ¬st.published.Pairwise fun a b => plainIds.seq a.ledger < plainIds.seq b.ledger := by
  have hstart : Run plainChain 8 (fun _ => True) {} := .start
  have hfirst := hstart.accept (2 ^ 32 - 50) true 0 0 (by decide) (by decide) trivial
  have honce := (((hfirst.find rfl).fill rfl).mark rfl).announce rfl
  have htwice := (((honce.find rfl).fill rfl).mark rfl).announce rfl
  refine ⟨_, htwice, rfl, fun hincreasing => ?_⟩
  exact lt_irrefl _ ((List.pairwise_cons.mp hincreasing).1 ⟨2 ^ 32 - 50, 2 ^ 32 - 50⟩ (List.mem_singleton.mpr rfl))

end Ripple.App
