import Ripple.LedgerTrie.Cursor

/-!
# Ripple.LedgerTrie.PreferredWalk

`getPreferred` on the compressed trie is the walk over the supported ledgers.

* `Models.support_node`: the support of what continues the history of a node.
* `Models.walkStep_span`, `Models.walkStep_topTwo`: one step of the walk, inside a span and at its end.
* `preferFrom_spec`: the loop of `getPreferred` takes the steps of the walk and stops where it
  stops.
-/

namespace Ripple.LedgerTrie

open List Multiset
open Ledger (seq ancestor mismatch)

variable {L ID : Type} [Ledger L ID]

/-! ## The nodes above a node -/

theorem frames_agree {fs : List (Frame L)} :
    ∀ {n : Node L}, (rebuild n fs).All Node.Good → ∀ f ∈ fs,
      f.span.end_ ≤ n.span.start_ ∧ Agree f.span.ledger_ n.span.ledger_ f.span.end_ := by
  induction fs with
  | nil => intro n _ f hf; exact absurd hf not_mem_nil
  | cons g gs ih =>
    intro n hg f hf
    obtain ⟨hl, hfit⟩ := hg.of_rebuild_cons.here
    have hstart : n.span.start_ = g.span.end_ := hl n (Frame.mem_plug.mpr (.inl rfl))
    have hext : Agree n.span.ledger_ g.span.ledger_ g.span.end_ :=
      hfit.extend n (Frame.mem_plug.mpr (.inl rfl))
    have hne := g.span.nonempty
    rcases mem_cons.mp hf with rfl | hf
    · exact ⟨hstart.ge, hext.symm⟩
    · obtain ⟨h1, h2⟩ := ih (n := g.plug n) hg f hf
      rw [Frame.plug_span] at h1 h2
      exact ⟨by omega, h2.trans (hext.symm.mono (by omega))⟩

theorem hist_succ (x : L) (e : Nat) : hist x (e + 1) = hist x e ++ [ancestor x e] := by
  rw [hist, List.range_succ, List.map_append]
  rfl

theorem child_path {n c : Node L} (hn : n.All Node.Good) (hc : c ∈ n.children) :
    hist n.span.ledger_ n.span.end_ ++ [c.span.startID] =
      hist c.span.ledger_ (c.span.start_ + 1) := by
  have hstart := hn.here.1 c hc
  rw [hist_succ, hstart, Span.startID, hstart, hist_inj.mpr ⟨rfl, (hn.here.2.extend c hc).symm⟩]

section Located

variable {t : LedgerTrie L} {M : Multiset L} {n : Node L} {fs : List (Frame L)} {e : Nat}

section

variable (h : Models t M)
variable (hroot : rebuild n fs = t.root)
include h hroot

theorem Models.node_good : n.All Node.Good := by
  have := h.good
  rw [← hroot] at this
  exact Node.All.of_rebuild this

variable {unc : UInt32} {best second : Node L}

omit hroot in
theorem Models.uncommitted_eq {k b : Nat} {it : List (Nat × UInt32)}
    (hc : Cursor t.seqSupport (max b k) unc it) : uncommitted M k b = unc.toNat := by
  rw [hc.toNat h.seqs (by rw [Multiset.card_map]; exact h.small), Multiset.countP_map,
    uncommitted, Multiset.countP_eq_card_filter]

variable [LinearOrder ID]

theorem Models.support_node {path : List ID}
    (h1 : n.span.start_ < e) (hpath : hist n.span.ledger_ e <+: path) :
    support M path = n.tips.countP (fun p => path <+: tipHistory p) := by
  have hg := h.good
  rw [← hroot] at hg
  have hpass : ∀ f ∈ fs,
      ancestor f.span.ledger_ f.span.start_ = ancestor n.span.ledger_ f.span.start_ :=
    fun f hf => (frames_agree hg f hf).2 _ f.span.nonempty
  have hout : ∀ p ∈ (fs.map Frame.rest).sum, ¬ path <+: tipHistory p := by
    intro p hp hpre
    obtain ⟨hlen, hag⟩ := hist_isPrefix_iff.mp (hpath.trans hpre)
    rcases outside_differs hg hpass rfl p hp with hp | ⟨s, hs, _, hne⟩
    · omega
    · exact hne (hag s (by omega)).symm
  rw [support, ← h.countP_tips (path <+: ·), ← hroot, tips_rebuild, countP_add,
    countP_eq_zero.mpr hout]
  rfl

theorem Models.support_hist (h1 : n.span.start_ < e) (h2 : e ≤ n.span.end_) :
    support M (hist n.span.ledger_ e) = n.branchSupport.toNat := by
  have hn := h.node_good hroot
  rw [h.support_node hroot h1 prefix_rfl, h.node_branch hroot, countP_eq_card]
  intro p hp
  obtain ⟨hle, _, hag⟩ := tips_descend hn p hp
  exact hist_isPrefix_iff.mpr ⟨by omega, (hag.mono h2).symm⟩

theorem Models.ranks_span (hne : n.tips ≠ 0)
    (h1 : n.span.start_ < e) (h2 : e < n.span.end_) :
    ranks M (hist n.span.ledger_ e) = {toLex (n.branchSupport.toNat, ancestor n.span.ledger_ e)} := by
  have hn := h.node_good hroot
  have hpos : 0 < n.branchSupport.toNat := by
    rw [h.node_branch hroot]
    exact card_pos.mpr hne
  have hnext : nextIds M (hist n.span.ledger_ e) = {ancestor n.span.ledger_ e} := by
    ext i
    rw [← support_append_pos, Finset.mem_singleton]
    constructor
    · intro hi
      rw [h.support_node hroot h1 (prefix_append _ _), countP_pos] at hi
      obtain ⟨p, hp, hpre⟩ := hi
      obtain ⟨hle, _, hag⟩ := tips_descend hn p hp
      have hown : hist n.span.ledger_ (e + 1) <+: tipHistory p :=
        hist_isPrefix_iff.mpr ⟨by omega, (hag.mono h2).symm⟩
      have := prefix_of_prefix_length_le hpre hown (by simp)
      rw [hist_succ] at this
      simpa using this.eq_of_length (by simp)
    · rintro rfl
      rw [← hist_succ, h.support_hist hroot (by omega) h2]
      exact hpos
  rw [ranks, hnext, Finset.image_singleton, ← hist_succ, h.support_hist hroot (by omega) h2]

theorem Models.support_child {c : Node L}
    (hc : c ∈ n.children) : support M (hist n.span.ledger_ n.span.end_ ++ [c.span.startID]) =
      c.branchSupport.toNat ∧ 0 < c.branchSupport.toNat := by
  have hn := h.node_good hroot
  obtain ⟨f, rfl⟩ := exists_frame hc
  have hroot' : rebuild c (f :: fs) = t.root := hroot
  have htips := tips_tight (hn.child hc) (hn.here.2.tight c hc)
  rw [child_path hn hc, h.support_hist hroot' (Nat.lt_succ_self _) c.span.nonempty,
    h.node_branch hroot']
  exact ⟨rfl, card_pos.mpr htips⟩

theorem Models.exists_child {i : ID}
    (hi : i ∈ nextIds M (hist n.span.ledger_ n.span.end_)) :
    ∃ c ∈ n.children, c.span.startID = i := by
  have hn := h.node_good hroot
  rw [← support_append_pos, h.support_node hroot n.span.nonempty (prefix_append _ _),
    countP_pos] at hi
  obtain ⟨p, hp, hpre⟩ := hi
  have hlen := hpre.length_le
  rw [length_append, length_hist, tipHistory, length_hist, length_singleton] at hlen
  rcases Node.mem_tips.mp hp with ⟨-, rfl⟩ | ⟨c, hc, hpc⟩
  · -- the tip of the node itself does not reach that far
    simp only at hlen
    omega
  · obtain ⟨hle, _, hag⟩ := tips_descend (hn.child hc) p hpc
    have hne := c.span.nonempty
    have hown : hist c.span.ledger_ (c.span.start_ + 1) <+: tipHistory p :=
      hist_isPrefix_iff.mpr ⟨by omega, (hag.mono hne).symm⟩
    rw [← child_path hn hc] at hown
    have := prefix_of_prefix_length_le hown hpre (by simp)
    exact ⟨c, hc, by simpa using this.eq_of_length (by simp)⟩

theorem Models.ranks_children :
    ranks M (hist n.span.ledger_ n.span.end_) = (n.children.map Node.rank).toFinset := by
  ext r
  rw [List.mem_toFinset, List.mem_map]
  constructor
  · intro hr
    obtain ⟨i, hi, rfl⟩ := Finset.mem_image.mp hr
    obtain ⟨c, hc, rfl⟩ := h.exists_child hroot hi
    exact ⟨c, hc, by rw [(h.support_child hroot hc).1, Node.rank]⟩
  · rintro ⟨c, hc, rfl⟩
    obtain ⟨hsup, hpos⟩ := h.support_child hroot hc
    rw [← hsup] at hpos
    have := mem_ranks (support_append_pos.mp hpos)
    rwa [hsup] at this

/-! ## One step of the walk -/

variable {k : Nat}

theorem Models.walkStep_span (hne : n.tips ≠ 0)
    (h1 : n.span.start_ < e) (h2 : e < n.span.end_) :
    walkStep M k (hist n.span.ledger_ e) =
      if uncommitted M k e < n.branchSupport.toNat then some (hist n.span.ledger_ (e + 1))
      else none := by
  have hpos : 0 < n.branchSupport.toNat := by
    rw [h.node_branch hroot]
    exact card_pos.mpr hne
  rw [walkStep, h.ranks_span hroot hne h1 h2, Finset.sort_singleton, length_hist, hist_succ]
  simp only [lead, ofLex_toLex, gt_iff_lt]
  -- no uncommitted support at all is less than the support of the node
  refine if_congr ⟨fun h => ?_, .inl⟩ rfl rfl
  omega

theorem Models.walkStep_leaf
    (hcs : n.children = []) : walkStep M k (hist n.span.ledger_ n.span.end_) = none := by
  rw [walkStep, h.ranks_children hroot, hcs]
  simp [lead]

theorem Models.walkStep_only
    (hcs : n.children = [best]) (hunc : uncommitted M k n.span.end_ = unc.toNat) :
    walkStep M k (hist n.span.ledger_ n.span.end_) =
      if (decide (best.branchSupport > unc) || unc == 0) = true then
        some (hist best.span.ledger_ (best.span.start_ + 1))
      else none := by
  rw [walkStep, h.ranks_children hroot, hcs, length_hist, hunc,
    ← child_path (h.node_good hroot) (by rw [hcs]; exact List.mem_singleton_self _)]
  simp [lead, Node.rank, UInt32.lt_iff_toNat_lt, ← UInt32.toNat_inj]

omit hroot in
omit h in
theorem margin_toNat (hle : second.rank ≤ best.rank) (hpos : 0 < second.branchSupport.toNat) :
    (margin best second).toNat =
      best.branchSupport.toNat - second.branchSupport.toNat +
        (if second.span.startID < best.span.startID then 1 else 0) := by
  have hle' : second.branchSupport.toNat ≤ best.branchSupport.toNat := by
    rw [Prod.Lex.le_iff] at hle
    rcases hle with h | h
    · exact h.le
    · exact h.1.le
  have hlt := best.branchSupport.toNat_lt
  have hsub : (best.branchSupport - second.branchSupport).toNat =
      best.branchSupport.toNat - second.branchSupport.toNat :=
    UInt32.toNat_sub_of_le _ _ (UInt32.le_iff_toNat_le.mpr hle')
  rw [margin]
  split
  · rw [UInt32.toNat_add, hsub, Nat.mod_eq_of_lt]
    · rfl
    · simp only [UInt32.reduceToNat]
      omega
  · rw [hsub, add_zero]

theorem Models.walkStep_topTwo {rest : List (Node L)} (hcs : n.children = best :: second :: rest)
    (htop : second.rank ≤ best.rank) (hrest : ∀ x ∈ rest, x.rank ≤ second.rank)
    (hunc : uncommitted M k n.span.end_ = unc.toNat) :
    walkStep M k (hist n.span.ledger_ n.span.end_) =
      if (decide (margin best second > unc) || unc == 0) = true then
        some (hist best.span.ledger_ (best.span.start_ + 1))
      else none := by
  have hn := h.node_good hroot
  have hbest : best ∈ n.children := by rw [hcs]; exact List.mem_cons_self
  have hsecond : second ∈ n.children := by
    rw [hcs]; exact List.mem_cons_of_mem _ List.mem_cons_self
  have hne : second.rank ≠ best.rank := by
    intro heq
    have hd := hn.here.2.distinct
    rw [hcs, List.map_cons, List.map_cons, List.nodup_cons] at hd
    have hid : second.span.startID = best.span.startID := congrArg (fun r => (ofLex r).2) heq
    exact hd.1 (by rw [← hid]; exact List.mem_cons_self)
  have hmem : ∀ x, x ∈ (n.children.map Node.rank).toFinset ↔
      x = best.rank ∨ x = second.rank ∨ ∃ c ∈ rest, c.rank = x := by
    intro x
    rw [hcs, List.mem_toFinset, List.map_cons, List.map_cons, List.mem_cons, List.mem_cons,
      List.mem_map]
  obtain ⟨tail, hsort⟩ := sort_topTwo (S := (n.children.map Node.rank).toFinset)
    ((hmem _).mpr (.inl rfl)) ((hmem _).mpr (.inr (.inl rfl))) hne
    (by
      intro x hx
      rcases (hmem x).mp hx with rfl | rfl | ⟨c, hc, rfl⟩
      · exact le_rfl
      · exact htop
      · exact (hrest c hc).trans htop)
    (by
      intro x hx hxb
      rcases (hmem x).mp hx with rfl | rfl | ⟨c, hc, rfl⟩
      · exact absurd rfl hxb
      · exact le_rfl
      · exact hrest c hc)
  rw [walkStep, h.ranks_children hroot, hsort, length_hist, hunc, ← child_path hn hbest]
  have hm := margin_toNat htop (h.support_child hroot hsecond).2
  simp only [lead, Node.rank, ofLex_toLex, gt_iff_lt, Bool.or_eq_true, decide_eq_true_eq,
    beq_iff_eq, UInt32.lt_iff_toNat_lt, ← UInt32.toNat_inj, hm]
  rfl

theorem Models.steps_span (hne : n.tips ≠ 0)
    (h1 : n.span.start_ < e) {e' : Nat} (hle : e ≤ e') (h2 : e' ≤ n.span.end_)
    (hmove : ∀ s, e ≤ s → s < e' → uncommitted M k s < n.branchSupport.toNat) :
    Steps M k (hist n.span.ledger_ e) (hist n.span.ledger_ e') := by
  induction e', hle using Nat.le_induction with
  | base => exact .refl
  | succ e' hle ih =>
    refine (ih (by omega) (fun s hs hs' => hmove s hs (by omega))).tail ?_
    rw [h.walkStep_span hroot hne (by omega) (by omega), if_pos (hmove e' hle (Nat.lt_succ_self _))]

end

end Located

/-! ## The loop of `getPreferred` -/

def SpanTip.path (tip : SpanTip L ID) : List ID := hist tip.ledger (tip.seq + 1)

theorem tip_path (s : Span L) : s.tip.path = hist s.ledger_ s.end_ := by
  have := s.nonempty
  rw [SpanTip.path, Span.tip, Nat.sub_add_cancel (by omega)]

section Loop

variable [LinearOrder ID] {M : Multiset L} {k : Nat} {m : OrderedMap Nat UInt32}

/-- The result of the loop: the walk leads from `path` to the tip and stops there. -/
structure Prefers (M : Multiset L) (k : Nat) (path : List ID) (tip : SpanTip L ID) : Prop where
  steps : Steps M k path tip.path
  stop : walkStep M k tip.path = none
  id_eq : tip.id = tip.ancestor tip.seq

theorem prefers_tip {path : List ID} {s : Span L} (hs : Steps M k path (hist s.ledger_ s.end_))
    (hstop : walkStep M k (hist s.ledger_ s.end_) = none) : Prefers M k path s.tip := by
  rw [← tip_path] at hs hstop
  exact ⟨hs, hstop, rfl⟩

theorem Models.advanced_steps {curr : Node L} {parents : List (Frame L)}
    {r : Nat × UInt32 × List (Nat × UInt32)} (hM : Models ⟨rebuild curr parents, m⟩ M)
    (hne : curr.tips ≠ 0) (hadv : Advanced m (M.map seq) k curr.span.end_ curr.branchSupport
      (curr.span.start_ + 1) r) :
    Steps M k (hist curr.span.ledger_ (curr.span.start_ + 1)) (hist curr.span.ledger_ r.1) ∧
      uncommitted M k r.1 = r.2.1.toNat ∧
      (r.1 < curr.span.end_ → walkStep M k (hist curr.span.ledger_ r.1) = none) := by
  have hunc : uncommitted M k r.1 = r.2.1.toNat := hM.uncommitted_eq hadv.cursor
  have hge := hadv.ge
  refine ⟨hM.steps_span rfl hne (Nat.lt_succ_self _) hge hadv.le_end ?_, hunc, ?_⟩
  · intro s h1 h2
    have := hadv.passed s h1 h2
    rwa [Multiset.countP_map, ← Multiset.countP_eq_card_filter] at this
  · intro hlt
    rw [hM.walkStep_span rfl hne (by omega) hlt, if_neg]
    rw [hunc, not_lt]
    exact UInt32.le_iff_toNat_le.mp (hadv.stopped hlt)

theorem preferFrom_spec (curr : Node L) :
    ∀ (parents : List (Frame L)) (unc : UInt32) (it : List (Nat × UInt32)) (b : Nat),
      Models ⟨rebuild curr parents, m⟩ M → curr.tips ≠ 0 → Cursor m b unc it →
      b ≤ max (curr.span.start_ + 1) k →
      Prefers M k (hist curr.span.ledger_ (curr.span.start_ + 1))
        (preferFrom k parents curr unc it).1 := by
  induction curr using Node.induct with
  | h curr ih =>
    intro parents unc it b hM hne hc hb
    have hn := hM.node_good rfl
    have hskip := skipBelow_cursor it hc hb
    have hadv : Advanced m (M.map seq) k curr.span.end_ curr.branchSupport (curr.span.start_ + 1) _ :=
      advance_spec hM.seqs (by rw [Multiset.card_map]; exact hM.small) _ hskip curr.span.nonempty
    rw [preferFrom]
    generalize skipBelow (max (curr.span.start_ + 1) k) unc it = skipped at hadv ⊢
    obtain ⟨unc₁, it₁⟩ := skipped
    simp only at hadv ⊢
    generalize advance curr.span.end_ curr.branchSupport (curr.span.start_ + 1) unc₁ it₁ = r
      at hadv ⊢
    obtain ⟨nextSeq, unc₂, it₂⟩ := r
    obtain ⟨hsteps, hunc, hstop⟩ := hM.advanced_steps hne hadv
    have hge := hadv.ge
    have hcur := hadv.cursor
    simp only at hsteps hunc hstop hge hcur ⊢
    -- the walk goes on at a child: the same argument from there
    have down : ∀ c ∈ curr.children, ∀ f : Frame L, (rebuild curr parents).Reorder
        (rebuild c (f :: parents)) → nextSeq = curr.span.end_ →
        Steps M k (hist curr.span.ledger_ (curr.span.start_ + 1))
          (hist c.span.ledger_ (c.span.start_ + 1)) →
        Prefers M k (hist curr.span.ledger_ (curr.span.start_ + 1))
          (preferFrom k (f :: parents) c unc₂ it₂).1 := by
      intro c hcm f hr hend hst
      have hstart := hn.here.1 c hcm
      have htips := tips_tight (hn.child hcm) (hn.here.2.tight c hcm)
      have hp := ih c hcm (f :: parents) unc₂ it₂ _ (models_reorder hM hr) htips hcur (by omega)
      exact ⟨hst.trans hp.steps, hp.stop, hp.id_eq⟩
    rcases hadv.le_end.lt_or_eq with hlt | hend
    · simp only at hlt
      rw [if_pos hlt, Span.before_eq_some (by omega) hlt.le, Option.getD_some]
      exact prefers_tip hsteps (hstop hlt)
    · simp only at hend
      subst hend
      rw [if_neg (lt_irrefl _)]
      split
      · rename_i hcs
        exact prefers_tip hsteps (hM.walkStep_leaf rfl hcs)
      · rename_i best hcs
        have hstep := hM.walkStep_only rfl hcs hunc
        split
        · rename_i hgo
          rw [if_pos hgo] at hstep
          refine down best (by rw [hcs]; exact List.mem_singleton_self _) _ ?_ rfl
            (hsteps.tail hstep)
          exact (Node.Reorder.of_perm (by rw [hcs]; exact .refl _)).rebuild
        · rename_i hstay
          rw [if_neg hstay] at hstep
          exact prefers_tip hsteps hstep
      · rename_i a b rest hcs
        have hperm := sortTopTwo_perm a b rest
        obtain ⟨htop, hrest⟩ := sortTopTwo_top a b rest
        generalize sortTopTwo a b rest = sorted at hperm htop hrest ⊢
        obtain ⟨best, second, others⟩ := sorted
        simp only at hperm htop hrest ⊢
        rw [← hcs] at hperm
        have hr : (rebuild curr parents).Reorder _ := (Node.Reorder.of_perm hperm.symm).rebuild
        have hstep := (models_reorder hM hr).walkStep_topTwo rfl rfl htop hrest hunc
        split
        · rename_i hgo
          rw [if_pos hgo] at hstep
          exact down best (hperm.mem_iff.mp List.mem_cons_self) _ hr rfl (hsteps.tail hstep)
        · rename_i hstay
          rw [if_neg hstay] at hstep
          exact prefers_tip hsteps hstep

end Loop

section Preferred

variable {t : LedgerTrie L} {M : Multiset L}

theorem Models.empty_iff (h : Models t M) : t.empty = true ↔ M = 0 := by
  have hb : t.root.branchSupport.toNat = M.card := by
    rw [h.node_branch (show rebuild t.root [] = t.root from rfl), h.card_tips]
  rw [empty, beq_iff_eq, ← UInt32.toNat_inj, hb, ← card_eq_zero]
  rfl

variable [ExactAncestry L] [LinearOrder ID]

theorem Models.getPreferred (h : Models t M) (k : Nat) (hM : M ≠ 0) :
    ∃ tip, (t.getPreferred k).1 = some tip ∧ tip.path = walk M k ∧
      tip.id = tip.ancestor tip.seq := by
  have htips : t.root.tips ≠ 0 := by
    rw [← card_pos, h.card_tips]
    exact card_pos.mpr hM
  have hp := preferFrom_spec (m := t.seqSupport) (k := k) t.root [] 0 t.seqSupport.entries 0 h htips
    (cursor_start _) (Nat.zero_le _)
  rw [LedgerTrie.getPreferred, if_neg (mt h.empty_iff.mp hM)]
  refine ⟨_, rfl, (walk_eq ?_ hp.stop).symm, hp.id_eq⟩
  have hroot : hist t.root.span.ledger_ (t.root.span.start_ + 1) =
      hist (Ledger.makeGenesis : L) 1 := by
    rw [h.rooted.start_eq]
    refine hist_inj.mpr ⟨rfl, fun s hs => ?_⟩
    have hs0 : s = 0 := by omega
    rw [hs0]
    exact ExactAncestry.common_genesis _ _
  rw [← hroot]
  exact hp.steps

/-- `getPreferred` follows the walk over the supported ledgers, so its result depends on these
alone. -/
theorem getPreferred_eq_walk [DecidableEq L] (h : Reachable t M) (largestIssued : Nat) :
    ((t.getPreferred largestIssued).1 = none ↔ M = 0) ∧
    (∀ tip ∈ (t.getPreferred largestIssued).1, tip.path = walk M largestIssued ∧
      tip.seq + 1 = (walk M largestIssued).length ∧
      some tip.id = (walk M largestIssued).getLast?) ∧
    walkStep M largestIssued (walk M largestIssued) = none := by
  have hm := h.models
  by_cases hM : M = 0
  · have hnone : (t.getPreferred largestIssued).1 = none := by
      rw [LedgerTrie.getPreferred, if_pos (hm.empty_iff.mpr hM)]
    rw [hnone]
    exact ⟨⟨fun _ => hM, fun _ => rfl⟩, fun tip htip => by simp at htip, walkStep_walk M _⟩
  · obtain ⟨tip, hsome, hpath, hid⟩ := hm.getPreferred largestIssued hM
    rw [hsome]
    refine ⟨⟨fun h => by simp at h, fun h => absurd h hM⟩, fun tip' htip => ?_, walkStep_walk M _⟩
    rw [Option.mem_some_iff] at htip
    subst htip
    refine ⟨hpath, ?_, ?_⟩
    · rw [← hpath, SpanTip.path, length_hist]
    · rw [← hpath, SpanTip.path, hist_succ, getLast?_concat, hid]
      rfl

end Preferred

theorem getPreferred_eq_walk_forked :
    (forkedTrie.getPreferred 0).1 ≠ none ∧
      ∀ tip ∈ (forkedTrie.getPreferred 0).1, tip.path =
        walk ({⟨[1, 2]⟩, ⟨[1, 3]⟩} : Multiset Chain) 0 :=
  ⟨mt (getPreferred_eq_walk forkedTrie_reachable 0).1.mp (by decide),
    fun tip h => ((getPreferred_eq_walk forkedTrie_reachable 0).2.1 tip h).1⟩

/-! ## Overtaking

The preferred branch cannot be overtaken by the support that is still uncommitted.

A ledger off the preferred branch is compared with it where the two part. Further up the other
branch the comparison may fail (`overtake_after_fork`), since by then more support counts as
uncommitted although it has been decided at the fork. -/

theorem take_hist (x : L) {d e : Nat} (h : d ≤ e) : (hist x e).take d = hist x d := by
  rw [hist, ← map_take, take_range, min_eq_left h]
  rfl

theorem exists_fork [ExactAncestry L] {q x : L} {s : Nat} (h : ancestor q s ≠ ancestor x s) :
    ∃ d, 1 ≤ d ∧ d ≤ s ∧ ancestor q d ≠ ancestor x d ∧ ∀ r < d, ancestor q r = ancestor x r := by
  classical
  have hex : ∃ d, ancestor q d ≠ ancestor x d := ⟨s, h⟩
  have hd := Nat.find_spec hex
  refine ⟨Nat.find hex, ?_, Nat.find_min' hex h, hd, fun r hr => not_not.mp (Nat.find_min hex hr)⟩
  rw [Nat.one_le_iff_ne_zero]
  intro h0
  rw [h0] at hd
  exact hd (ExactAncestry.common_genesis _ _)

variable [LinearOrder ID] {M : Multiset L} {k : Nat}

theorem steps_walkFrom (fuel : Nat) : ∀ p : List ID, Steps M k p (walkFrom M k fuel p) := by
  induction fuel with
  | zero => intro p; exact .refl
  | succ fuel ih =>
    intro p
    rw [walkFrom]
    cases h : walkStep M k p with
    | none => exact .refl
    | some q => exact .head h (ih q)

theorem Steps.walkStep_take {p q : List ID} (h : Steps M k p q) :
    ∀ d, p.length ≤ d → d < q.length → walkStep M k (q.take d) = some (q.take (d + 1)) := by
  induction h with
  | refl => intro d h1 h2; omega
  | @tail q r _ hstep ih =>
    intro d h1 h2
    obtain ⟨i, _, rfl⟩ := walkStep_some hstep
    rw [length_append, length_singleton] at h2
    rcases Nat.lt_or_ge d q.length with hd | hd
    · rw [take_append_of_le_length hd.le, take_append_of_le_length hd]
      exact ih d h1 hd
    · have hd' : d = q.length := by omega
      subst hd'
      rw [take_left, take_of_length_le (by simp)]
      exact hstep

theorem Beaten.mono {u a a' : Nat} {i : ID} {b : ℕ ×ₗ ID} (h : Beaten u (toLex (a, i)) b)
    (hle : a' ≤ a) : Beaten u (toLex (a', i)) b := by
  have hlex : ∀ {x y : Nat}, x ≤ y → toLex (x, i) ≤ (toLex (y, i) : ℕ ×ₗ ID) := by
    intro x y hxy
    exact Prod.Lex.toLex_mono (Prod.mk_le_mk.mpr ⟨hxy, le_rfl⟩)
  rcases h with h | ⟨h0, h⟩
  · exact .inl ((hlex (Nat.add_le_add_right hle u)).trans_lt h)
  · exact .inr ⟨h0, (hlex hle).trans_lt h⟩

theorem support_mono {p q : List ID} (h : p <+: q) : support M q ≤ support M p := by
  rw [support, support, countP_eq_card_filter, countP_eq_card_filter]
  exact card_le_card (monotone_filter_right _ (fun x hx => h.trans hx))

variable [ExactAncestry L] {t : LedgerTrie L}

theorem Models.walkStep_preferred (h : Models t M) {tip : SpanTip L ID}
    (htip : (t.getPreferred k).1 = some tip) {d : Nat} (h1 : 1 ≤ d) (h2 : d ≤ tip.seq) :
    walkStep M k (hist tip.ledger d) = some (hist tip.ledger d ++ [ancestor tip.ledger d]) := by
  have hM : M ≠ 0 := by
    intro h0
    rw [LedgerTrie.getPreferred, if_pos (h.empty_iff.mpr h0)] at htip
    exact absurd htip (by simp)
  obtain ⟨tip', htip', hpath, _⟩ := h.getPreferred k hM
  rw [htip, Option.some.injEq] at htip'
  subst htip'
  have hsteps := steps_walkFrom (M := M) (k := k) (maxSeq M) (hist (Ledger.makeGenesis : L) 1)
  have := hsteps.walkStep_take d (by rw [length_hist]; exact h1)
    (by rw [← walk, ← hpath, SpanTip.path, length_hist]; omega)
  rwa [← walk, ← hpath, SpanTip.path, take_hist _ (by omega), take_hist _ (by omega),
    hist_succ] at this

/-- A ledger that forks from the preferred tip at `d`, with all uncommitted support there added,
still ranks below the preferred branch at `d`. -/
theorem preferred_not_overtaken [DecidableEq L] (h : Reachable t M) (largestIssued : Nat)
    {tip : SpanTip L ID} (htip : (t.getPreferred largestIssued).1 = some tip) (q : L)
    (hq : seq q ≤ tip.seq) (hne : Ledger.id q ≠ tip.ancestor (seq q)) :
    ∃ d, 1 ≤ d ∧ d ≤ seq q ∧ ancestor q d ≠ tip.ancestor d ∧
      (∀ r < d, ancestor q r = tip.ancestor r) ∧
      Beaten (uncommitted M largestIssued d) (toLex ((t.branchSupport q).toNat, ancestor q d))
        (toLex (support M (hist tip.ledger (d + 1)), tip.ancestor d)) := by
  have hm := h.models
  rw [ExactAncestry.id_eq_ancestor] at hne
  obtain ⟨d, hpos, hle, hd, hbelow⟩ := exists_fork hne
  refine ⟨d, hpos, hle, hd, hbelow, ?_⟩
  have hbeat := walkStep_beats (hm.walkStep_preferred htip hpos (by omega)) hd
  have hfork : hist tip.ledger d ++ [ancestor q d] = hist q (d + 1) := by
    rw [hist_succ, hist_inj.mpr ⟨rfl, fun r hr => (hbelow r hr).symm⟩]
  rw [hfork, length_hist, ← hist_succ] at hbeat
  refine hbeat.mono ?_
  -- what descends from `q` descends from its ancestor at the fork
  have hsup : (t.branchSupport q).toNat = support M (history q) := by
    rw [hm.branchSupport q, support]
    exact countP_congr rfl (fun x _ => propext history_isPrefix_iff.symm)
  rw [hsup]
  exact support_mono (hist_isPrefix_iff.mpr ⟨by omega, fun _ _ => rfl⟩)

theorem preferred_not_overtaken_forked :
    ∃ d, 1 ≤ d ∧ d ≤ 2 ∧ [1, 2].take d ≠ [1, 3].take d ∧
      (∀ r < d, [1, 2].take r = [1, 3].take r) ∧
      Beaten (uncommitted ({⟨[1, 2]⟩, ⟨[1, 3]⟩} : Multiset Chain) 0 d)
        (toLex ((forkedTrie.branchSupport ⟨[1, 2]⟩).toNat, [1, 2].take d))
        (toLex (support ({⟨[1, 2]⟩, ⟨[1, 3]⟩} : Multiset Chain) (hist (⟨[1, 3]⟩ : Chain) (d + 1)),
          [1, 3].take d)) := by
  have htip : (forkedTrie.getPreferred 0).1 = some ⟨2, [1, 3], ⟨[1, 3]⟩⟩ := by decide +kernel
  exact preferred_not_overtaken forkedTrie_reachable 0 htip ⟨[1, 2]⟩ (by decide) (by decide)

/-! ## Where the comparison fails -/

def twoBranches : LedgerTrie Chain :=
  ((make.insert ⟨[1]⟩ 3).insert ⟨[1, 1]⟩ 7).insert ⟨[2, 2]⟩ 5

def twoBranchesSupport : Multiset Chain :=
  Multiset.replicate 3 ⟨[1]⟩ + Multiset.replicate 7 ⟨[1, 1]⟩ + Multiset.replicate 5 ⟨[2, 2]⟩

theorem twoBranches_reachable : Reachable twoBranches twoBranchesSupport := by
  have h := ((Reachable.make.insert (⟨[1]⟩ : Chain) 3 (by decide) (by decide)).insert ⟨[1, 1]⟩ 7
    (by decide) (by decide)).insert ⟨[2, 2]⟩ 5 (by decide) (by decide)
  rw [zero_add] at h
  exact h

def wrappedSupport : LedgerTrie Chain :=
  ((((make.insert ⟨[1]⟩ (2 ^ 31)).insert ⟨[2]⟩ (2 ^ 31)).insert ⟨[1, 1]⟩ 3).insert ⟨[2, 2]⟩ 2)

/-- Compared at the preferred tip instead of at the fork, the other branch would win; and so it can
on one branch once the total support reaches `2^32`. -/
theorem overtake_after_fork :
    (Reachable twoBranches twoBranchesSupport ∧
      (twoBranches.getPreferred 0).1.map (fun tip => (tip.seq, tip.id)) = some (2, [1, 1]) ∧
      (twoBranches.branchSupport ⟨[1, 1]⟩, twoBranches.branchSupport ⟨[2, 2]⟩) = (7, 5) ∧
      uncommitted twoBranchesSupport 0 2 = 3 ∧
      ¬ Beaten 3 (toLex (5, [2, 2])) (toLex (7, [1, 1]))) ∧
    (wrappedSupport.getPreferred 0).1.map (fun tip => (tip.seq, tip.id)) = some (2, [1, 1]) ∧
      (wrappedSupport.branchSupport ⟨[1, 1]⟩, wrappedSupport.branchSupport ⟨[1, 2]⟩) = (3, 0) ∧
      ¬ Beaten (2 ^ 31 + 2 ^ 31) (toLex (0, [1, 2])) (toLex (3, [1, 1])) := by
  refine ⟨⟨?_, by decide +kernel, by decide +kernel, by decide +kernel, ?_⟩, by decide +kernel,
    by decide +kernel, ?_⟩
  · exact twoBranches_reachable
  · simp [Beaten, Prod.Lex.lt_iff]
  · simp [Beaten, Prod.Lex.lt_iff]

end Ripple.LedgerTrie
