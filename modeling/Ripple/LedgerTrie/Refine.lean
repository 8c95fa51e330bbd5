import Ripple.LedgerTrie.Invariant

/-!
# Ripple.LedgerTrie.Refine

The trie over ledgers with exact ancestry refines a multiset of ledgers.
-/

namespace Ripple.LedgerTrie

open Multiset
open Ledger (seq ancestor mismatch)

variable {L ID : Type} [Ledger L ID]

/-! ## The support at each sequence number -/

def seqEntry (n : Nat) : Option UInt32 := if n = 0 then none else some (UInt32.ofNat n)

def Counts (m : OrderedMap Nat UInt32) (T : Multiset Nat) : Prop :=
  ∀ s, m.find? s = seqEntry (T.count s)

theorem seqEntry_getD (n : Nat) : (seqEntry n).getD 0 = UInt32.ofNat n := by
  rw [seqEntry]
  split
  · rename_i h
    rw [h]
    rfl
  · rfl

variable {m : OrderedMap Nat UInt32} {s n : Nat} {T : Multiset Nat}

theorem find?_addSeq {count : UInt32} (h : m.find? s = seqEntry n) (hpos : count ≠ 0) (s' : Nat) :
    (addSeq m s count).find? s' = if s' = s then seqEntry (n + count.toNat) else m.find? s' := by
  have hne : count.toNat ≠ 0 := fun h0 => hpos (UInt32.toNat_inj.mp h0)
  have hentry : seqEntry (n + count.toNat) = some (UInt32.ofNat n + count) := by
    rw [seqEntry, if_neg (by omega), UInt32.ofNat_add, UInt32.ofNat_toNat]
  rw [addSeq, OrderedMap.find?_insert, h, seqEntry_getD, hentry]

theorem find?_subSeq {count : UInt32} (h : m.find? s = seqEntry n) (hle : count.toNat ≤ n)
    (hlt : n < 2 ^ 32) (s' : Nat) :
    (subSeq m s count).find? s' = if s' = s then seqEntry (n - count.toNat) else m.find? s' := by
  by_cases h0 : n = 0
  · -- no entry, and nothing to take away
    subst h0
    have hnone : m.find? s = none := h
    rw [subSeq, hnone, Nat.zero_sub]
    by_cases hs : s' = s
    · rw [if_pos hs, hs, ← h]
    · rw [if_neg hs]
  · have hsub : UInt32.ofNat n - count = UInt32.ofNat (n - count.toNat) := by
      rw [UInt32.ofNat_sub hle, UInt32.ofNat_toNat]
    have hz : UInt32.ofNat (n - count.toNat) = 0 ↔ n - count.toNat = 0 := by
      rw [← UInt32.toNat_inj, UInt32.toNat_ofNat_of_lt' ((Nat.sub_le _ _).trans_lt hlt)]
      rfl
    rw [subSeq, h, seqEntry, if_neg h0]
    simp only [hsub, hz, seqEntry]
    split
    · rw [OrderedMap.find?_erase]
    · rw [OrderedMap.find?_insert]

theorem counts_empty : Counts OrderedMap.empty 0 := fun s => by simp [seqEntry]

theorem Counts.addSeq (h : Counts m T) (s : Nat) {count : UInt32} (hpos : count ≠ 0) :
    Counts (addSeq m s count) (T + Multiset.replicate count.toNat s) := by
  intro s'
  rw [find?_addSeq (h s) hpos, count_add, count_replicate]
  by_cases hs : s' = s
  · rw [if_pos hs, if_pos hs.symm, hs]
  · rw [if_neg hs, if_neg (fun e => hs e.symm), add_zero, h s']

theorem Counts.subSeq (h : Counts m T) {count : UInt32} (hle : count.toNat ≤ T.count s)
    (hlt : T.card < 2 ^ 32) : Counts (subSeq m s count) (T - Multiset.replicate count.toNat s) := by
  intro s'
  rw [find?_subSeq (h s) hle ((count_le_card s T).trans_lt hlt), count_sub,
    count_replicate]
  by_cases hs : s' = s
  · rw [if_pos hs, if_pos hs.symm, hs]
  · rw [if_neg hs, if_neg (fun e => hs e.symm), Nat.sub_zero, h s']

theorem Counts.unique {m' : OrderedMap Nat UInt32} (h : Counts m T) (h' : Counts m' T) : m = m' :=
  OrderedMap.ext_find? (fun s => (h s).trans (h' s).symm)

/-! ## Reachable tries and what they stand for -/

section Reach

variable [DecidableEq L]

/-- Operations on the empty trie end in `t` and leave `M` supported, with a total below `2^32`.
Reordering stands for calls of `getPreferred`. -/
inductive Reachable : LedgerTrie L → Multiset L → Prop where
  | make : Reachable make 0
  | insert {t : LedgerTrie L} {M : Multiset L} (l : L) (count : UInt32) : Reachable t M →
      1 ≤ count → M.card + count.toNat < 2 ^ 32 →
      Reachable (t.insert l count) (M + Multiset.replicate count.toNat l)
  | remove {t : LedgerTrie L} {M : Multiset L} (l : L) (count : UInt32) : Reachable t M →
      Reachable (t.remove l count).2 (M - Multiset.replicate count.toNat l)
  | reorder {t : LedgerTrie L} {M : Multiset L} {root : Node L} : Reachable t M →
      t.root.Reorder root → Reachable { t with root := root } M

end Reach

structure Models (t : LedgerTrie L) (M : Multiset L) : Prop where
  rooted : t.root.Rooted
  good : t.root.All Node.Good
  sums : t.root.All Node.Sums
  tips : t.root.tips.map tipHistory = M.map history
  seqs : Counts t.seqSupport (M.map seq)
  small : M.card < 2 ^ 32

section Models

variable {t : LedgerTrie L} {M : Multiset L}

theorem Models.card_tips (h : Models t M) : t.root.tips.card = M.card := by
  have := congrArg Multiset.card h.tips
  rwa [card_map, card_map] at this

theorem Models.countP_tips (h : Models t M) (P : List ID → Prop) [DecidablePred P] :
    t.root.tips.countP (fun p => P (tipHistory p)) = M.countP (fun x => P (history x)) := by
  have := congrArg (Multiset.countP P) h.tips
  rwa [countP_map, countP_map, ← countP_eq_card_filter,
    ← countP_eq_card_filter] at this

theorem models_reorder (h : Models t M) {root : Node L} (hr : t.root.Reorder root) :
    Models { t with root := root } M := by
  exact ⟨hr.rooted h.rooted, hr.good h.good, hr.sums h.sums, by rw [hr.tips_eq]; exact h.tips,
    h.seqs, h.small⟩

theorem models_make : Models (make : LedgerTrie L) 0 := by
  have hleaf : (make : LedgerTrie L).root.All Node.Good :=
    good_leaf (by simp [Span.genesis])
  exact ⟨⟨rfl, rfl, hleaf.mono (fun _ hg => hg.1)⟩, hleaf,
    .mk rfl (fun c hc => absurd hc List.not_mem_nil), rfl, counts_empty, by simp⟩

variable [ExactAncestry L]

theorem tipHistory_eq_history {x l : L} {e : Nat} (he : e = seq l + 1) (h : e ≤ mismatch x l) :
    tipHistory (e, x) = history l :=
  hist_inj.mpr ⟨he, agree_of_le_mismatch h⟩

theorem models_insert (h : Models t M) (l : L) {count : UInt32} (hpos : 1 ≤ count)
    (hlt : M.card + count.toNat < 2 ^ 32) :
    Models (t.insert l count) (M + Multiset.replicate count.toNat l) := by
  have hne : count ≠ 0 := by
    rintro rfl
    exact absurd hpos (by decide)
  have hlt' : t.root.tips.card + count.toNat < 2 ^ 32 := by
    rw [h.card_tips]
    exact hlt
  obtain ⟨hroot, hsums⟩ := insert_rooted (l := l) h.rooted h.sums count
  refine ⟨hroot, insert_good h.rooted h.good hne hlt', hsums, ?_, ?_, ?_⟩
  · rw [insert_tips h.rooted hlt', map_add, map_add, h.tips,
      map_replicate, map_replicate,
      tipHistory_eq_history rfl (insertTarget_mismatch h.rooted)]
  · rw [map_add, map_replicate]
    exact h.seqs.addSeq (seq l) hne
  · rw [card_add, card_replicate]
    exact hlt

end Models

/-! ## Where the supported descendants of a ledger are -/

section Located

variable {root : Node L} {l : L} {r : Loc L × Nat}

section

variable (hf : Found l root r)
include hf

theorem Found.tips_split : root.tips = r.1.node.tips + (r.1.parents.map Frame.rest).sum := by
  rw [← hf.root_eq, Loc.root, tips_rebuild]

variable [ExactAncestry L]

theorem Found.outside (hr : root.Rooted) (hg : root.All Node.Good) {k : Nat}
    (hk : r.2 ≤ k) : ∀ p ∈ (r.1.parents.map Frame.rest).sum, ¬ hist l k <+: tipHistory p := by
  have hstart := hf.start_lt hr
  have hag := agree_of_le_mismatch (hf.le_mismatch hr)
  have hpass : ∀ f ∈ r.1.parents,
      ancestor f.span.ledger_ f.span.start_ = ancestor l f.span.start_ := fun f hm =>
    agree_of_le_mismatch ((Span.diff_eq_end_iff _ _).mp (hf.passed f hm)) _ f.span.nonempty
  rw [← hf.root_eq, Loc.root] at hg
  intro p hp hpre
  obtain ⟨hlen, hagr⟩ := hist_isPrefix_iff.mp hpre
  rcases outside_differs hg hpass (hag _ hstart) p hp with h | ⟨s, hs, _, hne⟩
  · omega
  · exact hne (hagr s (by omega)).symm

theorem Found.inside (hr : root.Rooted) (hg : root.All Node.Good)
    (hd : r.2 = seq l + 1) : ∀ p ∈ r.1.node.tips, history l <+: tipHistory p := by
  have hn := hf.all hg
  have hend := hf.le_end
  have hag := agree_of_le_mismatch (hf.le_mismatch hr)
  intro p hp
  obtain ⟨h1, _, h3⟩ := tips_descend hn p hp
  refine hist_isPrefix_iff.mpr ⟨by omega, ?_⟩
  rw [← hd]
  exact ((h3.mono hend).trans hag).symm

theorem Found.inside_partial (hr : root.Rooted) (hg : root.All Node.Good)
    (hd : r.2 < seq l + 1) : ∀ p ∈ r.1.node.tips, ¬ history l <+: tipHistory p := by
  have hn := hf.all hg
  have hstart := hf.start_lt hr
  intro p hp hpre
  obtain ⟨hlen, hagr⟩ := hist_isPrefix_iff.mp hpre
  rcases hf.le_end.eq_or_lt with he | he
  · -- matched to its end: the tip itself is too short, and each child starts with another id
    rcases Node.mem_tips.mp hp with ⟨-, rfl⟩ | ⟨c, hc, hpc⟩
    · simp only at hlen
      omega
    · obtain ⟨_, h2⟩ := tips_start (hn.child hc) hpc
      have hcs : c.span.start_ = r.2 := (hn.here.1 c hc).trans he.symm
      rw [hcs] at h2
      exact hf.child_differs hg he hd hc (h2.symm.trans (hagr r.2 hd).symm)
  · -- matched in part: the node itself has another id there
    have hmis : r.2 = mismatch r.1.node.span.ledger_ l := by
      rw [hf.pos_eq] at hstart he ⊢
      exact Span.diff_eq_mismatch hstart he
    have hreach := hn.here.2.reach
    obtain ⟨_, _, h3⟩ := tips_descend hn p hp
    have hdiff := ExactAncestry.differ_at (a := r.1.node.span.ledger_) (b := l)
      (by omega) (by omega)
    rw [← hmis] at hdiff
    exact hdiff ((h3 r.2 he).symm.trans (hagr r.2 hd).symm)

variable [DecidableEq ID]

theorem Found.countP_descends (hr : root.Rooted) (hg : root.All Node.Good) :
    root.tips.countP (fun p => history l <+: tipHistory p) =
      if r.2 = seq l + 1 then r.1.node.tips.card else 0 := by
  have hle := hf.le_seq hr
  have hout := countP_eq_zero.mpr (hf.outside hr hg hle)
  rw [hf.tips_split, countP_add]
  split
  · rename_i hd
    have hin := countP_eq_card.mpr (hf.inside hr hg hd)
    rw [hin]
    exact Nat.add_eq_left.mpr hout
  · rename_i hd
    have hin := countP_eq_zero.mpr (hf.inside_partial hr hg (by omega))
    rw [hin]
    exact (Nat.zero_add _).trans hout

theorem Found.countP_exact (hr : root.Rooted) (hg : root.All Node.Good) :
    root.tips.countP (fun p => tipHistory p = history l) =
      if r.2 = r.1.node.span.end_ ∧ seq l < r.2 then r.1.node.tipSupport.toNat else 0 := by
  have hn := hf.all hg
  have hle := hf.le_seq hr
  have hend := hf.le_end
  have hpre : ∀ p : Nat × L, tipHistory p = history l → history l <+: tipHistory p := by
    intro p h
    rw [h]
  have hout := countP_eq_zero.mpr
    (fun p hp h => hf.outside hr hg hle p hp (hpre p h))
  rw [hf.tips_split, countP_add]
  split
  · rename_i hd
    have hown : tipHistory (r.1.node.span.end_, r.1.node.span.ledger_) = history l :=
      tipHistory_eq_history (by omega) (by rw [← hd.1]; exact hf.le_mismatch hr)
    have hkids : (tipsOf r.1.node.children).countP (fun p => tipHistory p = history l) = 0 := by
      rw [countP_eq_zero]
      intro p hp h
      obtain ⟨c, hc, hpc⟩ := mem_tipsOf.mp hp
      have h1 := (tips_start (hn.child hc) hpc).1
      have h2 := hn.here.1 c hc
      have h3 := (hist_inj.mp h).1
      omega
    rw [Node.tips_eq, countP_add, hkids, countP_eq_card.mpr]
    · rw [card_replicate]
      exact Nat.add_eq_left.mpr hout
    · intro p hp
      rw [eq_of_mem_replicate hp]
      exact hown
  · rename_i hd
    rw [countP_eq_zero.mpr]
    · exact (Nat.zero_add _).trans hout
    · intro p hp h
      rcases hle.lt_or_eq with hlt | heq
      · exact hf.inside_partial hr hg hlt p hp (hpre p h)
      · -- the node reaches beyond the ledger
        have h1 := (tips_descend hn p hp).1
        have h3 := (hist_inj.mp h).1
        omega

end

end Located

/-! ## The queries -/

section Queries

variable {t : LedgerTrie L} {M : Multiset L}

theorem Models.node_branch {n : Node L} {fs : List (Frame L)} (h : Models t M)
    (hroot : rebuild n fs = t.root) : n.branchSupport.toNat = n.tips.card := by
  have hs := h.sums
  have hlt := h.small
  rw [← h.card_tips, ← hroot, tips_rebuild, card_add] at hlt
  rw [← hroot] at hs
  exact Node.branch_toNat (Node.All.of_rebuild hs) (by omega)

variable [ExactAncestry L] [DecidableEq ID]

theorem Models.countP_descends (h : Models t M) (l : L) : M.countP (Descends l) =
    if (t.find l).2 = seq l + 1 then (t.find l).1.node.tips.card else 0 := by
  rw [← (found_find t l).countP_descends h.rooted h.good, h.countP_tips (history l <+: ·)]
  exact countP_congr rfl (fun x _ => propext history_isPrefix_iff.symm)

theorem Models.branchSupport (h : Models t M) (l : L) :
    (t.branchSupport l).toNat = M.countP (Descends l) := by
  have hle := (found_find t l).le_seq h.rooted
  have hend := (found_find t l).le_end
  rw [h.countP_descends l, LedgerTrie.branchSupport]
  simp only [Bool.and_eq_true, decide_eq_true_eq, gt_iff_lt]
  by_cases hd : (t.find l).2 = seq l + 1
  · rw [if_pos hd, if_pos ⟨by omega, by omega⟩]
    exact h.node_branch (found_find t l).root_eq
  · rw [if_neg hd, if_neg (by omega)]
    rfl

variable [DecidableEq L]

theorem Models.count (h : Models t M) (l : L) : M.count l =
    if (t.find l).2 = (t.find l).1.node.span.end_ ∧ seq l < (t.find l).2
      then (t.find l).1.node.tipSupport.toNat else 0 := by
  rw [← (found_find t l).countP_exact h.rooted h.good, h.countP_tips (· = history l),
    Multiset.count]
  refine countP_congr rfl (fun x _ => propext ⟨fun e => by rw [e], fun e => ?_⟩)
  exact (history_injective e).symm

theorem Models.tipSupport (h : Models t M) (l : L) : (t.tipSupport l).toNat = M.count l := by
  rw [h.count l, LedgerTrie.tipSupport]
  simp only [exactMatch, Bool.and_eq_true, beq_iff_eq, decide_eq_true_eq, gt_iff_lt]
  split <;> rfl

theorem Models.removable (h : Models t M) (l : L) : Removable t l ↔ l ∈ M := by
  rw [← count_pos, h.count l, Removable]
  constructor
  · rintro ⟨h1, h2, h3⟩
    rw [if_pos ⟨h1, h2⟩]
    exact UInt32.lt_iff_toNat_lt.mp h3
  · intro hpos
    split at hpos
    · rename_i hd
      exact ⟨hd.1, hd.2, UInt32.lt_iff_toNat_lt.mpr hpos⟩
    · exact absurd hpos (lt_irrefl _)

theorem Models.removable_tip (h : Models t M) {l : L} (hrm : Removable t l) :
    (t.find l).1.node.tipSupport.toNat = M.count l := by
  rw [h.count l, if_pos ⟨hrm.1, hrm.2.1⟩]

theorem sub_replicate_min (M : Multiset L) (n : Nat) (l : L) :
    M - Multiset.replicate n l = M - Multiset.replicate (min n (M.count l)) l := by
  ext x
  rw [count_sub, count_sub, count_replicate, count_replicate]
  by_cases hx : l = x
  · subst hx
    rw [if_pos rfl, if_pos rfl]
    omega
  · rw [if_neg hx, if_neg hx]

theorem models_remove (h : Models t M) (l : L) (count : UInt32) :
    Models (t.remove l count).2 (M - Multiset.replicate count.toNat l) := by
  by_cases hrm : Removable t l
  · have htip := h.removable_tip hrm
    set m := min count (t.find l).1.node.tipSupport with hm
    have hmn : m.toNat = min count.toNat (M.count l) := by rw [hm, toNat_min, htip]
    have hle : Multiset.replicate m.toNat l ≤ M :=
      Multiset.le_count_iff_replicate_le.mp (by omega)
    have hM : M - Multiset.replicate count.toNat l + Multiset.replicate m.toNat l = M := by
      rw [sub_replicate_min, ← hmn]
      exact Multiset.sub_add_cancel hle
    obtain ⟨hroot, hsums⟩ := remove_rooted (l := l) h.rooted h.sums count
    refine ⟨hroot, remove_good h.good count, hsums, ?_, ?_, ?_⟩
    · have htips := congrArg (Multiset.map tipHistory) (remove_tips h.rooted h.sums hrm count)
      have hhist := congrArg (Multiset.map history) hM
      obtain ⟨hend, hmis⟩ := hrm.reaches h.rooted
      rw [Multiset.map_add, Multiset.map_replicate, ← hm, h.tips, hend,
        tipHistory_eq_history rfl hmis] at htips
      rw [Multiset.map_add, Multiset.map_replicate, ← htips] at hhist
      exact (Multiset.add_left_inj.mp hhist).symm
    · have hseq := congrArg (Multiset.map seq) hM
      rw [Multiset.map_add, Multiset.map_replicate] at hseq
      have hsub : (M - Multiset.replicate count.toNat l).map seq =
          M.map seq - Multiset.replicate m.toNat (seq l) := by
        rw [← hseq, Multiset.add_sub_cancel_right]
      rw [remove_of_removable hrm, hsub]
      refine h.seqs.subSeq (Multiset.le_count_iff_replicate_le.mpr ?_) ?_
      · have := Multiset.map_le_map (f := seq) hle
        rwa [Multiset.map_replicate] at this
      · rw [Multiset.card_map]
        exact h.small
    · exact (Multiset.card_le_card (Multiset.sub_le_self _ _)).trans_lt h.small
  · have h0 : M.count l = 0 := by
      rw [Multiset.count_eq_zero, ← h.removable l]
      exact hrm
    rw [remove_of_not_removable hrm, sub_replicate_min, h0]
    simpa using h

theorem Reachable.models (h : Reachable t M) : Models t M := by
  induction h with
  | make => exact models_make
  | insert l count _ hpos hlt ih => exact models_insert ih l hpos hlt
  | remove l count _ ih => exact models_remove ih l count
  | reorder _ hr ih => exact models_reorder ih hr

/-- The answers of a reachable trie are those of the multiset of supported ledgers. -/
theorem ledgerTrie_refines_multiset (h : Reachable t M) (l : L) :
    (t.tipSupport l).toNat = M.count l ∧
    (t.branchSupport l).toNat = M.countP (Descends l) ∧
    ∀ count : UInt32, ((t.remove l count).1 = true ↔ l ∈ M) ∧
      (l ∉ M → (t.remove l count).2 = t) := by
  have hm := h.models
  refine ⟨hm.tipSupport l, hm.branchSupport l, fun count => ⟨?_, fun hl => ?_⟩⟩
  · rw [remove_fst, hm.removable]
  · rw [remove_of_not_removable (mt (hm.removable l).mp hl)]

end Queries

/-- Two ledgers with the same parent, one of them inserted twice and removed once. -/
def forkedTrie : LedgerTrie Chain :=
  (((make.insert ⟨[1, 2]⟩ 2).insert ⟨[1, 3]⟩ 1).remove ⟨[1, 2]⟩ 1).2

theorem forkedTrie_reachable : Reachable forkedTrie ({⟨[1, 2]⟩, ⟨[1, 3]⟩} : Multiset Chain) := by
  have h := ((Reachable.make.insert (⟨[1, 2]⟩ : Chain) 2 (by decide) (by decide)).insert ⟨[1, 3]⟩ 1
    (by decide) (by decide)).remove ⟨[1, 2]⟩ 1
  have hM : (0 + Multiset.replicate (2 : UInt32).toNat (⟨[1, 2]⟩ : Chain) +
      Multiset.replicate (1 : UInt32).toNat ⟨[1, 3]⟩) -
      Multiset.replicate (1 : UInt32).toNat ⟨[1, 2]⟩ = {⟨[1, 2]⟩, ⟨[1, 3]⟩} := by decide
  rw [hM] at h
  exact h

theorem ledgerTrie_refines_multiset_forked :
    (forkedTrie.tipSupport ⟨[1, 2]⟩).toNat = 1 ∧ (forkedTrie.branchSupport ⟨[1]⟩).toNat = 2 ∧
      (forkedTrie.remove ⟨[1]⟩ 1).2 = forkedTrie :=
  ⟨(ledgerTrie_refines_multiset forkedTrie_reachable ⟨[1, 2]⟩).1,
    (ledgerTrie_refines_multiset forkedTrie_reachable ⟨[1]⟩).2.1,
    ((ledgerTrie_refines_multiset forkedTrie_reachable ⟨[1]⟩).2.2 1).2 (by decide)⟩

end Ripple.LedgerTrie
