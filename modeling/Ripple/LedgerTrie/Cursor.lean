import Ripple.LedgerTrie.Refine
import Ripple.LedgerTrie.Walk

/-!
# Ripple.LedgerTrie.Cursor

The parts of `getPreferred` that do not look at the tree: the choice of the two best children, and
the iterator over `seqSupport`.

* `sortTopTwo_top`: the first two children after the sort outrank all others.
* `advance_spec`: one call of the inner loop stands for all steps of the walk inside a span.
-/

namespace Ripple.LedgerTrie

open List
open Ledger (seq ancestor mismatch)

variable {L ID : Type} [Ledger L ID]

/-! ## The two best children -/

section TopTwo

variable [LinearOrder ID]

def Node.rank (n : Node L) : ℕ ×ₗ ID := toLex (n.branchSupport.toNat, n.span.startID)

theorem outranks_iff {a b : Node L} : outranks a b = true ↔ b.rank < a.rank := by
  rw [Prod.Lex.lt_iff]
  simp only [outranks, Node.rank, ofLex_toLex, gt_iff_lt, Bool.or_eq_true, decide_eq_true_eq,
    Bool.and_eq_true, beq_iff_eq, UInt32.lt_iff_toNat_lt, ← UInt32.toNat_inj]
  constructor
  · rintro (h | ⟨h1, h2⟩)
    · exact .inl h
    · exact .inr ⟨h1.symm, h2⟩
  · rintro (h | ⟨h1, h2⟩)
    · exact .inl h
    · exact .inr ⟨h1.symm, h2⟩

theorem scanTopTwo_top {hi lo : Node L} (h : lo.rank ≤ hi.rank) (xs : List (Node L)) :
    (scanTopTwo hi lo xs).2.1.rank ≤ (scanTopTwo hi lo xs).1.rank ∧
    lo.rank ≤ (scanTopTwo hi lo xs).2.1.rank ∧
      ∀ x ∈ (scanTopTwo hi lo xs).2.2, x.rank ≤ (scanTopTwo hi lo xs).2.1.rank := by
  induction xs generalizing hi lo with
  | nil => exact ⟨h, le_rfl, fun x hx => absurd hx not_mem_nil⟩
  | cons x xs ih =>
    simp only [scanTopTwo]
    split
    · rename_i hx
      obtain ⟨h1, h2, h3⟩ := ih (outranks_iff.mp hx).le
      refine ⟨h1, h.trans h2, fun y hy => ?_⟩
      rcases mem_cons.mp hy with rfl | hy
      · exact h.trans h2
      · exact h3 y hy
    · rename_i hx
      rw [outranks_iff, not_lt] at hx
      split
      · rename_i hl
        obtain ⟨h1, h2, h3⟩ := ih hx
        have hlo := (outranks_iff.mp hl).le
        refine ⟨h1, hlo.trans h2, fun y hy => ?_⟩
        rcases mem_cons.mp hy with rfl | hy
        · exact hlo.trans h2
        · exact h3 y hy
      · rename_i hl
        rw [outranks_iff, not_lt] at hl
        obtain ⟨h1, h2, h3⟩ := ih h
        refine ⟨h1, h2, fun y hy => ?_⟩
        rcases mem_cons.mp hy with rfl | hy
        · exact hl.trans h2
        · exact h3 y hy

theorem sortTopTwo_top (a b : Node L) (rest : List (Node L)) :
    (sortTopTwo a b rest).2.1.rank ≤ (sortTopTwo a b rest).1.rank ∧
      ∀ x ∈ (sortTopTwo a b rest).2.2, x.rank ≤ (sortTopTwo a b rest).2.1.rank := by
  rw [sortTopTwo]
  split
  · rename_i h
    have := scanTopTwo_top (outranks_iff.mp h).le rest
    exact ⟨this.1, this.2.2⟩
  · rename_i h
    rw [outranks_iff, not_lt] at h
    have := scanTopTwo_top h rest
    exact ⟨this.1, this.2.2⟩

end TopTwo

/-! ## The iterator over `seqSupport` -/

/-- The iterator `it` has passed exactly the entries below `b`, and `unc` is their sum. -/
def Cursor (m : OrderedMap Nat UInt32) (b : Nat) (unc : UInt32) (it : List (Nat × UInt32)) : Prop :=
  ∃ passed, m.entries = passed ++ it ∧ (∀ e ∈ passed, e.1 < b) ∧ (∀ e ∈ it, b ≤ e.1) ∧
    unc = (passed.map (·.2)).sum

theorem cursor_start (m : OrderedMap Nat UInt32) : Cursor m 0 0 m.entries :=
  ⟨[], rfl, fun _ he => absurd he not_mem_nil, fun _ _ => Nat.zero_le _, rfl⟩

variable {m : OrderedMap Nat UInt32} {it : List (Nat × UInt32)} {unc : UInt32} {b : Nat}
  {c : UInt32} {s : Nat} {T : Multiset Nat}

theorem Cursor.move {b' : Nat} (h : Cursor m b unc it) (hle : b ≤ b') (hit : ∀ e ∈ it, b' ≤ e.1) :
    Cursor m b' unc it := by
  obtain ⟨passed, h1, h2, _, h4⟩ := h
  exact ⟨passed, h1, fun e he => (h2 e he).trans_le hle, hit, h4⟩

theorem Cursor.lt_of_mem (h : Cursor m b unc ((s, c) :: it)) : ∀ e ∈ it, s < e.1 := by
  obtain ⟨passed, h1, _, _, _⟩ := h
  have hs := m.sorted
  rw [h1, pairwise_append] at hs
  exact fun e he => (pairwise_cons.mp hs.2.1).1 e he

theorem Cursor.next (h : Cursor m b unc ((s, c) :: it)) : Cursor m (s + 1) (unc + c) it := by
  have hlt := h.lt_of_mem
  obtain ⟨passed, h1, h2, h3, h4⟩ := h
  have hbs := h3 (s, c) mem_cons_self
  refine ⟨passed ++ [(s, c)], by rw [h1, append_assoc]; rfl, ?_, fun e he => hlt e he, ?_⟩
  · intro e he
    rcases mem_append.mp he with he | he
    · have := h2 e he
      simp only at hbs
      omega
    · rw [mem_singleton.mp he]
      exact Nat.lt_succ_self s
  · rw [h4, map_append, sum_append]
    simp

theorem skipBelow_cursor {bound : Nat} (it : List (Nat × UInt32)) :
    ∀ {b : Nat} {unc : UInt32}, Cursor m b unc it → b ≤ bound →
      Cursor m bound (skipBelow bound unc it).1 (skipBelow bound unc it).2 := by
  induction it with
  | nil => intro b unc h hle; exact h.move hle (fun e he => absurd he not_mem_nil)
  | cons e it ih =>
    obtain ⟨s, c⟩ := e
    intro b unc h hle
    rw [skipBelow]
    split
    · rename_i hs
      exact ih h.next hs
    · rename_i hs
      refine h.move hle (fun e he => ?_)
      rcases mem_cons.mp he with rfl | he
      · exact not_lt.mp hs
      · have := h.lt_of_mem e he
        omega

theorem countP_lt_eq_sum (T : Multiset Nat) (b : Nat) :
    T.countP (· < b) = ∑ s ∈ Finset.range b, T.count s := by
  induction T using Multiset.induction with
  | empty => simp
  | cons a T ih =>
    simp only [Multiset.countP_cons, Multiset.count_cons, Finset.sum_add_distrib, ih,
      Finset.sum_ite_eq', Finset.mem_range]

theorem sum_eq_ofNat (es : List (Nat × UInt32)) :
    (es.map (·.2)).sum = UInt32.ofNat (es.map (·.2.toNat)).sum := by
  induction es with
  | nil => rfl
  | cons e es ih =>
    rw [map_cons, sum_cons, map_cons, sum_cons, UInt32.ofNat_add,
      UInt32.ofNat_toNat, ih]

theorem Counts.toNat (h : Counts m T) (hlt : T.card < 2 ^ 32) (s : Nat) :
    ((m.find? s).map UInt32.toNat).getD 0 = T.count s := by
  rw [h s, seqEntry]
  split
  · rename_i h0
    rw [h0]
    rfl
  · exact UInt32.toNat_ofNat_of_lt' ((Multiset.count_le_card s T).trans_lt hlt)

theorem Cursor.toNat (h : Cursor m b unc it) (hm : Counts m T) (hlt : T.card < 2 ^ 32) :
    unc.toNat = T.countP (· < b) := by
  obtain ⟨passed, h1, h2, h3, rfl⟩ := h
  have hpassed : m.entries.filter (fun e => e.1 < b) = passed := by
    rw [h1, filter_append, filter_eq_self.mpr (fun e he => by simpa using h2 e he),
      filter_eq_nil_iff.mpr (fun e he => by simpa using h3 e he), append_nil]
  have hsum : (passed.map (·.2.toNat)).sum = T.countP (· < b) := by
    rw [countP_lt_eq_sum, ← hpassed, m.sum_lt_eq UInt32.toNat b]
    exact Finset.sum_congr rfl (fun s _ => hm.toNat hlt s)
  rw [sum_eq_ofNat, hsum]
  exact UInt32.toNat_ofNat_of_lt' ((Multiset.countP_le_card _ _).trans_lt hlt)

/-- What the inner loop of `getPreferred` returns, started at `nextSeq`. -/
structure Advanced (m : OrderedMap Nat UInt32) (T : Multiset Nat) (largestIssued spanEnd : Nat)
    (branch : UInt32) (nextSeq : Nat) (r : Nat × UInt32 × List (Nat × UInt32)) : Prop where
  ge : nextSeq ≤ r.1
  le_end : r.1 ≤ spanEnd
  cursor : Cursor m (max r.1 largestIssued) r.2.1 r.2.2
  passed : ∀ e, nextSeq ≤ e → e < r.1 → T.countP (· < max e largestIssued) < branch.toNat
  stopped : r.1 < spanEnd → branch ≤ r.2.1

theorem advance_spec (hm : Counts m T) (hlt : T.card < 2 ^ 32) {k spanEnd : Nat} {branch : UInt32}
    (it : List (Nat × UInt32)) :
    ∀ {nextSeq : Nat} {unc : UInt32}, Cursor m (max nextSeq k) unc it → nextSeq ≤ spanEnd →
      Advanced m T k spanEnd branch nextSeq (advance spanEnd branch nextSeq unc it) := by
  -- up to the entry at which the iterator stands the uncommitted support does not change
  have flat : ∀ {nextSeq unc it}, Cursor m (max nextSeq k) unc it → branch > unc →
      ∀ e, nextSeq ≤ e → (∀ x ∈ it, max e k ≤ x.1) → T.countP (· < max e k) < branch.toNat := by
    intro nextSeq unc it hc hgt e he hit
    have hmoved : Cursor m (max e k) unc it := hc.move (by omega) hit
    rw [← hmoved.toNat hm hlt]
    exact UInt32.lt_iff_toNat_lt.mp hgt
  have stay : ∀ {nextSeq unc it}, Cursor m (max nextSeq k) unc it → nextSeq ≤ spanEnd →
      ¬(nextSeq < spanEnd ∧ branch > unc) →
      Advanced m T k spanEnd branch nextSeq (nextSeq, unc, it) := by
    intro nextSeq unc it hc hle hstop
    refine ⟨le_rfl, hle, hc, fun e h1 h2 => absurd h1 (by simp only at h2; omega), fun h => ?_⟩
    exact UInt32.not_lt.mp (fun hgt => hstop ⟨h, hgt⟩)
  induction it with
  | nil =>
    intro nextSeq unc hc hle
    rw [advance]
    split
    · rename_i hgo
      refine ⟨hle, le_rfl, ?_, ?_, fun h => absurd h (lt_irrefl _)⟩
      · exact hc.move (by simp only; omega) (fun e he => absurd he not_mem_nil)
      · intro e h1 _
        exact flat hc hgo.2 e h1 (fun x hx => absurd hx not_mem_nil)
    · rename_i hstop
      exact stay hc hle hstop
  | cons e it ih =>
    obtain ⟨s, c⟩ := e
    intro nextSeq unc hc hle
    have hs : max nextSeq k ≤ s := hc.choose_spec.2.2.1 (s, c) mem_cons_self
    have hit : ∀ x ∈ (s, c) :: it, s ≤ x.1 := by
      intro x hx
      rcases mem_cons.mp hx with rfl | hx
      · exact le_rfl
      · exact (hc.lt_of_mem x hx).le
    rw [advance]
    split
    · rename_i hgo
      split
      · rename_i hlt'
        -- the next change of the support lies inside the span
        have hnext := hc.next
        rw [show s + 1 = max (s + 1) k by omega] at hnext
        have hr := ih hnext (by omega)
        refine ⟨by have := hr.ge; omega, hr.le_end, hr.cursor, ?_, hr.stopped⟩
        intro e h1 h2
        by_cases he : e ≤ s
        · exact flat hc hgo.2 e h1 (fun x hx => by have := hit x hx; omega)
        · exact hr.passed e (by omega) h2
      · rename_i hge
        refine ⟨hle, le_rfl, ?_, ?_, fun h => absurd h (lt_irrefl _)⟩
        · exact hc.move (by simp only; omega) (fun x hx => by have := hit x hx; simp only; omega)
        · intro e h1 h2
          simp only at h2
          exact flat hc hgo.2 e h1 (fun x hx => by have := hit x hx; omega)
    · rename_i hstop
      exact stay hc hle hstop

end Ripple.LedgerTrie
