import Ripple.LedgerTrie.Refine

/-!
# Ripple.LedgerTrie.Canonical

The shape of a reachable trie is determined by the supported ledgers.

* `checkInvariants_eq_true`: the invariants that the source can check hold.
* `sameShape_of_tips`: two nodes with the same supported histories have the same shape. The end of
  a span is where the histories below it stop being shared (`shared_iff`).
-/

namespace Ripple.LedgerTrie

open Multiset
open Ledger (seq ancestor mismatch)
open Node (Good Sums tips_eq mem_tips)

variable {L ID : Type} [Ledger L ID]

/-! ## `checkInvariants` -/

variable {cs : List (Node L)} {n : Node L} {t : LedgerTrie L} {M : Multiset L} {e : Nat}
  {m c : Node L}

theorem card_tipsOf (hs : ∀ c ∈ cs, c.All Sums) (hlt : (tipsOf cs).card < 2 ^ 32) :
    (cs.map (·.branchSupport.toNat)).sum = (tipsOf cs).card := by
  induction cs with
  | nil => rfl
  | cons c cs ih =>
    rw [tipsOf_cons, card_add] at hlt ⊢
    rw [List.map_cons, List.sum_cons, Node.branch_toNat (hs c List.mem_cons_self) (by omega),
      ih (fun d hd => hs d (List.mem_cons_of_mem _ hd)) (by omega)]

theorem sum_branch (hs : n.All Sums) (hlt : n.tips.card < 2 ^ 32) :
    n.tipSupport.toNat + (n.children.map (·.branchSupport.toNat)).sum = n.branchSupport.toNat := by
  rw [Node.branch_toNat hs hlt]
  rw [tips_eq, card_add, card_replicate] at hlt ⊢
  rw [card_tipsOf (fun c hc => hs.child hc) (by omega)]

def tipSeqs (T : Multiset (Nat × L)) : Multiset Nat := T.map (fun p => p.1 - 1)

def Node.Checks (isRoot : Bool) (n : Node L) : Prop :=
  ∀ e T, Counts e T → ∃ e', checkFrom isRoot n e = some e' ∧ Counts e' (T + tipSeqs n.tips)

theorem checkChildren_some (h : ∀ c ∈ cs, c.Checks false) :
    ∀ e T, Counts e T → ∃ e', checkChildren cs e = some e' ∧ Counts e' (T + tipSeqs (tipsOf cs)) := by
  induction cs with
  | nil => intro e T he; exact ⟨e, rfl, by simpa [tipSeqs] using he⟩
  | cons c cs ih =>
    intro e T he
    obtain ⟨e₁, h₁, he₁⟩ := ih (fun d hd => h d (List.mem_cons_of_mem _ hd)) e T he
    obtain ⟨e₂, h₂, he₂⟩ := h c List.mem_cons_self e₁ _ he₁
    refine ⟨e₂, by rw [checkChildren, h₁]; exact h₂, ?_⟩
    rw [tipsOf_cons, tipSeqs, map_add]
    rw [add_assoc, add_comm (tipSeqs (tipsOf cs))] at he₂
    exact he₂

theorem checkFrom_some (hg : n.All Good) (hs : n.All Sums) :
    n.tips.card < 2 ^ 32 → ∀ isRoot, (isRoot = false → n.Tight) → n.Checks isRoot := by
  induction hg with
  | @mk n hn _ ih =>
    intro hlt isRoot ht e T he
    have hsum := sum_branch hs hlt
    have hkids : ∀ c ∈ n.children, c.Checks false := by
      intro c hc
      have hle := card_le_card (tips_le_tipsOf hc)
      rw [tips_eq, card_add] at hlt
      exact ih c hc (hs.child hc) (by omega) false (fun _ => hn.2.tight c hc)
    have htest : (!isRoot && n.tipSupport == 0 && decide (n.children.length < 2)) = false := by
      cases isRoot with
      | true => rfl
      | false =>
        have := ht rfl
        rw [Node.Tight] at this
        by_cases h0 : n.tipSupport = 0
        · have := this h0
          simp only [Bool.not_false, Bool.true_and, Bool.and_eq_false_imp, decide_eq_false_iff_not]
          omega
        · simp [h0]
    have htips : tipSeqs n.tips =
        Multiset.replicate n.tipSupport.toNat (n.span.end_ - 1) + tipSeqs (tipsOf n.children) := by
      rw [tips_eq, tipSeqs, map_add, map_replicate]
      rfl
    obtain ⟨span, tip, branch, children⟩ := n
    simp only at hsum htest htips hkids
    rw [htips, ← add_assoc]
    simp only [checkFrom, htest, hsum, Bool.false_eq_true, if_false, ne_eq, not_true_eq_false]
    refine checkChildren_some hkids _ _ ?_
    split
    · rename_i hne
      exact he.addSeq _ hne
    · rename_i h0
      rw [not_not.mp h0]
      simpa using he

theorem Models.tipSeqs (h : Models t M) : LedgerTrie.tipSeqs t.root.tips = M.map seq := by
  have := congrArg (Multiset.map (fun s : List ID => s.length - 1)) h.tips
  rw [map_map, map_map] at this
  simp only [Function.comp_def, length_history, Nat.add_sub_cancel] at this
  rw [← this]
  exact map_congr rfl (fun p _ => by rw [tipHistory, length_hist])

theorem checkInvariants_eq_true (h : Models t M) : t.checkInvariants = true := by
  have hlt := h.small
  rw [← h.card_tips] at hlt
  obtain ⟨e, he, hc⟩ := checkFrom_some h.good h.sums hlt true (fun h => absurd h (by decide))
    OrderedMap.empty 0 counts_empty
  rw [zero_add, h.tipSeqs] at hc
  rw [checkInvariants, he]
  exact decide_eq_true (hc.unique h.seqs)

/-! ## Shape up to the order of children -/

def Span.ids (s : Span L) : List ID :=
  (List.range (s.end_ - s.start_)).map (fun i => ancestor s.ledger_ (s.start_ + i))

/-- The same spans and supports, with the children in any order. -/
inductive Node.SameShape : Node L → Node L → Prop where
  | mk {n m : Node L} {ds : List (Node L)} : n.span.start_ = m.span.start_ →
      n.span.ids = m.span.ids → n.tipSupport = m.tipSupport → n.branchSupport = m.branchSupport →
      List.Forall₂ SameShape n.children ds → ds.Perm m.children → SameShape n m

theorem ids_eq {a b : Span L} (hs : a.start_ = b.start_) (he : a.end_ = b.end_)
    (hag : Agree a.ledger_ b.ledger_ a.end_) : a.ids = b.ids := by
  rw [Span.ids, Span.ids, hs, he]
  refine List.map_congr_left (fun i hi => hag _ ?_)
  have := List.mem_range.mp hi
  omega

theorem exists_matching {α κ : Type} (key : α → κ) {as bs : List α} (ha : (as.map key).Nodup)
    (hb : (bs.map key).Nodup) (hab : ∀ a ∈ as, ∃ b ∈ bs, key b = key a)
    (hba : ∀ b ∈ bs, ∃ a ∈ as, key a = key b) :
    ∃ ds, List.Forall₂ (fun a d => a ∈ as ∧ d ∈ bs ∧ key d = key a) as ds ∧ ds.Perm bs := by
  choose! partner hmem hkey using hab
  refine ⟨as.map partner, ?_, ?_⟩
  · rw [List.forall₂_map_right_iff, List.forall₂_same]
    exact fun a h => ⟨h, hmem a h, hkey a h⟩
  · have hkeys : (as.map partner).map key = as.map key := by
      rw [List.map_map]
      exact List.map_congr_left hkey
    have hnd : (as.map partner).Nodup := List.Nodup.of_map key (hkeys ▸ ha)
    rw [List.perm_ext_iff_of_nodup hnd (List.Nodup.of_map key hb)]
    intro b
    constructor
    · intro h
      obtain ⟨a, ha', rfl⟩ := List.mem_map.mp h
      exact hmem a ha'
    · intro h
      obtain ⟨a, ha', hk⟩ := hba b h
      have := List.inj_on_of_nodup_map hb (hmem a ha') h ((hkey a ha').trans hk)
      exact List.mem_map.mpr ⟨a, ha', this⟩

/-! ## The histories below a node determine it -/

def Shared (e : Nat) (T : Multiset (Nat × L)) : Prop :=
  ∀ p ∈ T, ∀ q ∈ T, e ≤ p.1 ∧ Agree p.2 q.2 e

theorem shared_iff (hg : n.All Good) (ht : n.Tight) : Shared e n.tips ↔ e ≤ n.span.end_ := by
  constructor
  · intro hsh
    by_contra hlt
    by_cases h0 : n.tipSupport = 0
    · -- two children, with histories that differ right after the node
      have hlen := ht h0
      obtain ⟨c, d, rest, hcs⟩ : ∃ c d rest, n.children = c :: d :: rest := by
        match hcs : n.children with
        | [] => rw [hcs] at hlen; simp at hlen
        | [c] => rw [hcs] at hlen; simp at hlen
        | c :: d :: rest => exact ⟨c, d, rest, rfl⟩
      have hc : c ∈ n.children := by rw [hcs]; simp
      have hd : d ∈ n.children := by rw [hcs]; simp
      obtain ⟨p, hp⟩ := exists_mem_of_ne_zero (tips_tight (hg.child hc) (hg.here.2.tight c hc))
      obtain ⟨q, hq⟩ := exists_mem_of_ne_zero (tips_tight (hg.child hd) (hg.here.2.tight d hd))
      have hpid := (tips_start (hg.child hc) hp).2
      have hqid := (tips_start (hg.child hd) hq).2
      rw [hg.here.1 c hc] at hpid
      rw [hg.here.1 d hd] at hqid
      have hag := (hsh p (mem_tips.mpr (.inr ⟨c, hc, hp⟩)) q
        (mem_tips.mpr (.inr ⟨d, hd, hq⟩))).2 n.span.end_ (by omega)
      have hnd := hg.here.2.distinct
      rw [hcs, List.map_cons, List.map_cons, List.nodup_cons] at hnd
      exact hnd.1 (by rw [← hpid, hag, hqid]; exact List.mem_cons_self)
    · -- the node's own tip is too short
      have hown := mem_tips.mpr (.inl ⟨h0, rfl⟩)
      exact hlt (hsh _ hown _ hown).1
  · intro hle p hp q hq
    obtain ⟨hp1, _, hp3⟩ := tips_descend hg p hp
    obtain ⟨_, _, hq3⟩ := tips_descend hg q hq
    exact ⟨by omega, (hp3.trans hq3.symm).mono hle⟩

def Node.SameTips (n m : Node L) : Prop := n.tips.map tipHistory = m.tips.map tipHistory

theorem Node.SameTips.exists_tip (h : n.SameTips m) {p : Nat × L} (hp : p ∈ n.tips) :
    ∃ q ∈ m.tips, q.1 = p.1 ∧ Agree q.2 p.2 p.1 := by
  have hmem : tipHistory p ∈ m.tips.map tipHistory := h ▸ mem_map_of_mem _ hp
  obtain ⟨q, hq, he⟩ := mem_map.mp hmem
  obtain ⟨h1, h2⟩ := hist_inj.mp he
  exact ⟨q, hq, h1, h1 ▸ h2⟩

theorem Node.SameTips.shared (h : n.SameTips m) (hs : Shared e m.tips) : Shared e n.tips := by
  intro p hp q hq
  obtain ⟨p', hp', hp1, hp2⟩ := h.exists_tip hp
  obtain ⟨q', hq', hq1, hq2⟩ := h.exists_tip hq
  obtain ⟨h1, h2⟩ := hs p' hp' q' hq'
  have h3 := (hs q' hq' p' hp').1
  exact ⟨by omega, (hp2.symm.mono (by omega)).trans (h2.trans (hq2.mono (by omega)))⟩

theorem Node.SameTips.end_eq (h : n.SameTips m) (hn : n.All Good) (hm : m.All Good)
    (htn : n.Tight) (htm : m.Tight) : n.span.end_ = m.span.end_ :=
  le_antisymm
    ((shared_iff hm htm).mp (Node.SameTips.shared h.symm ((shared_iff hn htn).mpr le_rfl)))
    ((shared_iff hn htn).mp (h.shared ((shared_iff hm htm).mpr le_rfl)))

theorem Node.SameTips.agree (h : n.SameTips m) (hn : n.All Good) (hm : m.All Good)
    (he : n.span.end_ = m.span.end_) (hne : n.tips ≠ 0) :
    Agree n.span.ledger_ m.span.ledger_ n.span.end_ := by
  obtain ⟨p, hp⟩ := exists_mem_of_ne_zero hne
  obtain ⟨q, hq, hq1, hq2⟩ := h.exists_tip hp
  obtain ⟨hp1, _, hp3⟩ := tips_descend hn p hp
  obtain ⟨_, _, hq3⟩ := tips_descend hm q hq
  rw [← he] at hq3
  exact hp3.symm.trans ((hq2.symm.mono hp1).trans hq3)

theorem tip_eq_countP (hg : n.All Good) :
    n.tipSupport.toNat = (n.tips.map tipHistory).countP (fun h => h.length = n.span.end_) := by
  have hkids : ((tipsOf n.children).map tipHistory).countP (fun h => h.length = n.span.end_) = 0 := by
    rw [countP_eq_zero]
    intro h hh
    obtain ⟨p, hp, rfl⟩ := mem_map.mp hh
    obtain ⟨c, hc, hpc⟩ := mem_tipsOf.mp hp
    have h1 := (tips_start (hg.child hc) hpc).1
    have h2 := hg.here.1 c hc
    rw [tipHistory, length_hist]
    omega
  rw [tips_eq, map_add, countP_add, hkids, map_replicate,
    countP_eq_card.mpr, card_replicate, add_zero]
  intro h hh
  rw [eq_of_mem_replicate hh, tipHistory, length_hist]

theorem child_tips [DecidableEq ID] (hg : n.All Good) (hc : c ∈ n.children) :
    c.tips.map tipHistory =
      (n.tips.map tipHistory).filter (fun h => h[n.span.end_]? = some c.span.startID) := by
  have hnext : ∀ b ∈ n.children, ∀ h ∈ b.tips.map tipHistory,
      h[n.span.end_]? = some b.span.startID := by
    intro b hb h hh
    obtain ⟨p, hp, rfl⟩ := mem_map.mp hh
    obtain ⟨h1, h2⟩ := tips_start (hg.child hb) hp
    rw [hg.here.1 b hb] at h1 h2
    rw [tipHistory, getElem?_hist, if_pos h1, h2]
  obtain ⟨front, back, hcs⟩ := List.append_of_mem hc
  have hnd := hg.here.2.distinct
  rw [hcs, List.map_append, List.map_cons, List.nodup_middle, List.nodup_cons,
    ← List.map_append] at hnd
  have hother : ((tipsOf (front ++ back)).map tipHistory).filter
      (fun h => h[n.span.end_]? = some c.span.startID) = 0 := by
    rw [filter_eq_nil]
    intro h hh heq
    obtain ⟨p, hp, rfl⟩ := mem_map.mp hh
    obtain ⟨b, hb, hpb⟩ := mem_tipsOf.mp hp
    have hb' : b ∈ n.children := by
      rw [hcs]
      rcases List.mem_append.mp hb with hb | hb
      · exact List.mem_append.mpr (.inl hb)
      · exact List.mem_append.mpr (.inr (List.mem_cons_of_mem _ hb))
    rw [hnext b hb' _ (mem_map_of_mem _ hpb), Option.some.injEq] at heq
    exact hnd.1 (heq ▸ List.mem_map_of_mem hb)
  have hown : ((Multiset.replicate n.tipSupport.toNat (n.span.end_, n.span.ledger_)).map
      tipHistory).filter (fun h => h[n.span.end_]? = some c.span.startID) = 0 := by
    rw [map_replicate, filter_eq_nil]
    intro h hh
    rw [eq_of_mem_replicate hh, tipHistory, getElem?_hist, if_neg (lt_irrefl _)]
    simp
  have hperm : tipsOf n.children = c.tips + tipsOf (front ++ back) := by
    rw [hcs, ← tipsOf_cons]
    exact tipsOf_perm List.perm_middle
  rw [tips_eq n, hperm, map_add, map_add, filter_add,
    filter_add, hother, hown, filter_eq_self.mpr (hnext c hc), zero_add, add_zero]

theorem Node.SameTips.exists_child (h : n.SameTips m) (hn : n.All Good) (hm : m.All Good)
    (he : n.span.end_ = m.span.end_) (hc : c ∈ n.children) :
    ∃ d ∈ m.children, d.span.startID = c.span.startID := by
  obtain ⟨p, hp⟩ := exists_mem_of_ne_zero (tips_tight (hn.child hc) (hn.here.2.tight c hc))
  obtain ⟨hp1, hp2⟩ := tips_start (hn.child hc) hp
  obtain ⟨q, hq, hq1, hq2⟩ := h.exists_tip (mem_tips.mpr (.inr ⟨c, hc, hp⟩))
  have hstart := hn.here.1 c hc
  rcases mem_tips.mp hq with ⟨-, rfl⟩ | ⟨d, hd, hqd⟩
  · -- the tip of `m` itself is too short
    simp only at hq1
    omega
  · have hd2 := (tips_start (hm.child hd) hqd).2
    have hds : d.span.start_ = c.span.start_ := by
      rw [hm.here.1 d hd, hstart, he]
    refine ⟨d, hd, ?_⟩
    rw [← hd2, ← hp2, hds]
    exact hq2 _ hp1

theorem sameShape_of_tips (hn : n.All Good) (hns : n.All Sums) :
    ∀ {m : Node L}, m.All Good → m.All Sums → n.SameTips m →
      n.span.start_ = m.span.start_ → n.span.end_ = m.span.end_ →
      Agree n.span.ledger_ m.span.ledger_ n.span.end_ → n.SameShape m := by
  classical
  induction hn with
  | @mk n hgn hkids ih =>
    intro m hm hms h hs he hag
    have hn : n.All Good := .mk hgn hkids
    have hcard : n.tips.card = m.tips.card := by
      have := congrArg Multiset.card h
      rwa [card_map, card_map] at this
    obtain ⟨ds, hds, hperm⟩ := exists_matching (fun c : Node L => c.span.startID) hgn.2.distinct
      hm.here.2.distinct (fun c hc => h.exists_child hn hm he hc)
      (fun d hd => Node.SameTips.exists_child h.symm hm hn he.symm hd)
    refine .mk hs (ids_eq hs he hag) (UInt32.toNat_inj.mp ?_) ?_ (hds.imp ?_) hperm
    · rw [tip_eq_countP hn, tip_eq_countP hm, he, h]
    · rw [Node.branch_eq_card hns, Node.branch_eq_card hms, hcard]
    · -- matched children have the same histories below them
      rintro c d ⟨hc, hd, hid⟩
      have hsame : c.SameTips d := by
        rw [Node.SameTips, child_tips hn hc, child_tips hm hd, h, he, hid]
      have hct := hgn.2.tight c hc
      have hce := hsame.end_eq (hkids c hc) (hm.child hd) hct (hm.here.2.tight d hd)
      refine ih c hc (hns.child hc) (hm.child hd) (hms.child hd) hsame ?_ hce ?_
      · rw [hgn.1 c hc, hm.here.1 d hd, he]
      · exact hsame.agree (hkids c hc) (hm.child hd) hce
          (tips_tight (hkids c hc) hct)

section Reachable

variable [ExactAncestry L] [DecidableEq L] [DecidableEq ID] {t : LedgerTrie L} {M : Multiset L}

/-- The compressed trie is well formed, and its shape depends on the supported ledgers only. -/
theorem ledgerTrie_canonical (h : Reachable t M) :
    t.checkInvariants = true ∧
    t.root.All (fun n => ∀ c ∈ n.children, c.span.start_ = n.span.end_) ∧
    t.root.All (fun n => (n.children.map (·.span.startID)).Nodup) ∧
    (t.root.span.start_ = 0 ∧ t.root.span.end_ = 1) ∧
    ∀ t' : LedgerTrie L, Reachable t' M →
      t.root.SameShape t'.root ∧ t.seqSupport = t'.seqSupport := by
  have hm := h.models
  refine ⟨checkInvariants_eq_true hm, hm.rooted.linked, hm.good.mono (fun _ hg => hg.2.distinct),
    ⟨hm.rooted.start_eq, hm.rooted.end_eq⟩, ?_⟩
  intro t' h'
  have hm' := h'.models
  have he : t.root.span.end_ = t'.root.span.end_ := by rw [hm.rooted.end_eq, hm'.rooted.end_eq]
  refine ⟨sameShape_of_tips hm.good hm.sums hm'.good hm'.sums (hm.tips.trans hm'.tips.symm) ?_ he ?_,
    hm.seqs.unique hm'.seqs⟩
  · rw [hm.rooted.start_eq, hm'.rooted.start_eq]
  · -- the root spans the common genesis ledger
    intro s hs
    rw [hm.rooted.end_eq, Nat.lt_one_iff] at hs
    rw [hs]
    exact ExactAncestry.common_genesis _ _

end Reachable

/-- The ledgers of `forkedTrie`, inserted once each and in the other order. -/
def forkedTrie' : LedgerTrie Chain := (make.insert ⟨[1, 3]⟩ 1).insert ⟨[1, 2]⟩ 1

theorem forkedTrie'_reachable : Reachable forkedTrie' ({⟨[1, 2]⟩, ⟨[1, 3]⟩} : Multiset Chain) := by
  have h := (Reachable.make.insert (⟨[1, 3]⟩ : Chain) 1 (by decide) (by decide)).insert ⟨[1, 2]⟩ 1
    (by decide) (by decide)
  have hM : 0 + Multiset.replicate (1 : UInt32).toNat (⟨[1, 3]⟩ : Chain) +
      Multiset.replicate (1 : UInt32).toNat ⟨[1, 2]⟩ = {⟨[1, 2]⟩, ⟨[1, 3]⟩} := by decide
  rw [hM] at h
  exact h

theorem ledgerTrie_canonical_forked :
    forkedTrie.checkInvariants = true ∧ forkedTrie.root.SameShape forkedTrie'.root :=
  ⟨(ledgerTrie_canonical forkedTrie_reachable).1,
    ((ledgerTrie_canonical forkedTrie_reachable).2.2.2.2 _ forkedTrie'_reachable).1⟩

/-- The counters are `uint32_t`: at a total of `2^32` a supported node can have tip support `0`. -/
theorem checkInvariants_overflow :
    (((make : LedgerTrie Chain).insert ⟨[1]⟩ (2 ^ 31)).insert ⟨[1]⟩ (2 ^ 31)).checkInvariants =
      false := by
  decide

end Ripple.LedgerTrie
