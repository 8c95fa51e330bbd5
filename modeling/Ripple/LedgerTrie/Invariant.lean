import Ripple.LedgerTrie.Ancestry
import Ripple.LedgerTrie.Remove

/-!
# Ripple.LedgerTrie.Invariant

The invariant of the trie over ledgers with exact ancestry. `insert`, `remove` and any reordering of
children keep it.

* `Fits`: each node continues the history of its parent, siblings start with different ids, and nodes
  without tip support have at least two children.
* `tips_descend`: everything supported below a node shares the history up to the node's end.
* `insert_good`: the node that is found is split where the ledger leaves it, and the new suffix
  starts with an id that no sibling has.
* `remove_good`: the loop of `remove` restores the rule that a node without tip support has two
  children.
-/

namespace Ripple.LedgerTrie

open List LedgerTrie.Frame
open Ledger (seq ancestor mismatch)

variable {L ID : Type} [Ledger L ID]

/-- The rule of the compressed trie for nodes other than the root. -/
def Node.Tight (n : Node L) : Prop := n.tipSupport = 0 → 2 ≤ n.children.length

structure Node.Fits (n : Node L) : Prop where
  reach : n.span.end_ ≤ seq n.span.ledger_ + 1
  extend : ∀ c ∈ n.children, Agree c.span.ledger_ n.span.ledger_ n.span.end_
  distinct : (n.children.map (·.span.startID)).Nodup
  tight : ∀ c ∈ n.children, c.Tight

def Node.Good (n : Node L) : Prop := n.Linked ∧ n.Fits

open Node (Good)

/-! ## Tips and histories -/

variable {n c : Node L} {f : Frame L} {fs : List (Frame L)} {m' m : Node L} {g : Frame L}
  {branch tip : UInt32} {s : Span L}

theorem tips_descend (hg : n.All Good) :
    ∀ p ∈ n.tips, n.span.end_ ≤ p.1 ∧ p.1 ≤ seq p.2 + 1 ∧ Agree p.2 n.span.ledger_ n.span.end_ := by
  induction hg with
  | @mk n hn _ ih =>
    intro p hp
    rcases Node.mem_tips.mp hp with ⟨-, rfl⟩ | ⟨c, hc, hpc⟩
    · exact ⟨le_rfl, hn.2.reach, fun _ _ => rfl⟩
    · obtain ⟨h1, h2, h3⟩ := ih c hc p hpc
      have hs := hn.1 c hc
      have hne := c.span.nonempty
      refine ⟨by omega, h2, (h3.mono (by omega)).trans (hn.2.extend c hc)⟩

theorem tips_start (hg : c.All Good) {p : Nat × L} (hp : p ∈ c.tips) :
    c.span.start_ < p.1 ∧ ancestor p.2 c.span.start_ = c.span.startID := by
  obtain ⟨h1, _, h3⟩ := tips_descend hg p hp
  exact ⟨c.span.nonempty.trans_le h1, h3 _ c.span.nonempty⟩

theorem tips_tight (hg : n.All Good) (ht : n.Tight) : n.tips ≠ 0 := by
  induction hg with
  | @mk n hn _ ih =>
    intro h0
    have hcard := congrArg Multiset.card h0
    rw [Node.tips_eq, Multiset.card_add, Multiset.card_replicate, Multiset.card_zero] at hcard
    have hz : n.tipSupport = 0 := UInt32.toNat_inj.mp (by simp; omega)
    have hlen := ht hz
    obtain ⟨c, hc⟩ := exists_mem_of_length_pos (show 0 < n.children.length by omega)
    have hle := Multiset.card_le_card (tips_le_tipsOf hc)
    exact ih c hc (hn.2.tight c hc) (Multiset.card_eq_zero.mp (by omega))

theorem plug_startID_ne (h : (f.plug n).Fits) (hc : c ∈ f.front ++ f.back) :
    c.span.startID ≠ n.span.startID := by
  have hd := h.distinct
  rw [plug_children, map_append, map_cons, nodup_middle,
    nodup_cons, ← map_append] at hd
  intro heq
  exact hd.1 (heq ▸ mem_map_of_mem hc)

theorem outside_differs {l : L} :
    ∀ {n : Node L}, (rebuild n fs).All Good →
      (∀ f ∈ fs, ancestor f.span.ledger_ f.span.start_ = ancestor l f.span.start_) →
      ancestor n.span.ledger_ n.span.start_ = ancestor l n.span.start_ →
      ∀ p ∈ (fs.map Frame.rest).sum,
        p.1 ≤ n.span.start_ ∨ ∃ s ≤ n.span.start_, s < p.1 ∧ ancestor p.2 s ≠ ancestor l s := by
  induction fs with
  | nil => intro n _ _ _ p hp; simp at hp
  | cons f fs ih =>
    intro n hg hpass hn p hp
    have hf := hg.of_rebuild_cons
    have hstart : n.span.start_ = f.span.end_ := hf.here.1 n (mem_plug.mpr (.inl rfl))
    rw [map_cons, sum_cons] at hp
    rcases Multiset.mem_add.mp hp with hp | hp
    · rcases Multiset.mem_add.mp hp with hp | hp
      · -- the tip of the parent itself
        rw [Multiset.eq_of_mem_replicate hp]
        exact .inl hstart.ge
      · -- a sibling: it starts with another id
        rw [← tipsOf_append] at hp
        obtain ⟨c, hc, hpc⟩ := mem_tipsOf.mp hp
        have hmem := mem_plug (n := n).mpr (.inr hc)
        obtain ⟨h1, h2⟩ := tips_start (hf.child hmem) hpc
        have hcs : c.span.start_ = n.span.start_ := (hf.here.1 c hmem).trans hstart.symm
        rw [hcs] at h1 h2
        refine .inr ⟨n.span.start_, le_rfl, h1, ?_⟩
        rw [h2, ← hn]
        exact plug_startID_ne hf.here.2 hc
    · have hag := hpass f mem_cons_self
      have hne := f.span.nonempty
      rcases ih hg (fun g hm => hpass g (mem_cons_of_mem _ hm)) hag p hp with h | h
      · rw [plug_span] at h
        exact .inl (by omega)
      · obtain ⟨s, hs, hlt, hd⟩ := h
        rw [plug_span] at hs
        exact .inr ⟨s, by omega, hlt, hd⟩

/-! ## One node takes the place of another -/

structure Node.Stands (m m' : Node L) : Prop where
  start_eq : m'.span.start_ = m.span.start_
  agree : Agree m'.span.ledger_ m.span.ledger_ (m.span.start_ + 1)

theorem Node.Stands.startID_eq (h : m.Stands m') : m'.span.startID = m.span.startID := by
  rw [Span.startID, h.start_eq]
  exact h.agree _ (Nat.lt_succ_self _)

theorem good_plug (hs : g.span = f.span) (hfront : g.front = f.front) (hback : g.back = f.back)
    (hm : m.Stands m') (ht : m'.Tight) (hp : (f.plug m).Good) : (g.plug m').Good := by
  obtain ⟨hl, hf⟩ := hp
  have hmem : ∀ c ∈ (g.plug m').children, c = m' ∨ c ∈ (f.plug m).children := by
    intro c hc
    rcases mem_plug.mp hc with rfl | hc
    · exact .inl rfl
    · rw [hfront, hback] at hc
      exact .inr (mem_plug.mpr (.inr hc))
  have hstart : m.span.start_ = f.span.end_ := hl m (mem_plug.mpr (.inl rfl))
  refine ⟨linked_plug hs hfront hback hm.start_eq hl, ?_, ?_, ?_, ?_⟩
  · rw [plug_span, hs]
    exact hf.reach
  · intro c hc
    rw [plug_span, hs]
    rcases hmem c hc with rfl | hc
    · exact (hm.agree.mono (by omega)).trans (hf.extend m (mem_plug.mpr (.inl rfl)))
    · exact hf.extend c hc
  · have hd := hf.distinct
    rw [plug_children, map_append, map_cons] at hd ⊢
    rw [hfront, hback, hm.startID_eq]
    exact hd
  · intro c hc
    rcases hmem c hc with rfl | hc
    · exact ht
    · exact hf.tight c hc

theorem tight_plug (ht : g.tipSupport = f.tipSupport) (hfront : g.front = f.front)
    (hback : g.back = f.back) (hp : (f.plug m).Tight) : (g.plug m').Tight := by
  intro h0
  have := hp (ht.symm.trans h0)
  rw [plug_children, hfront, hback]
  simpa using this

theorem good_rebuild {g : Frame L → Frame L}
    (hg : ∀ f, (g f).span = f.span ∧ (g f).tipSupport = f.tipSupport ∧
      (g f).front = f.front ∧ (g f).back = f.back) {n' : Node L} (hs : n.Stands n')
    (ht : n.Tight → n'.Tight) (h : (rebuild n fs).All Good) (hn' : n'.All Good) :
    (rebuild n' (fs.map g)).All Good := by
  refine Node.All.rebuild_map (R := fun m m' => m.Stands m' ∧ (m.Tight → m'.Tight))
    (n := n) (fun f => (hg f).2.2) ?_ ⟨hs, ht⟩ h hn'
  rintro f _ m m' ⟨hm, htm⟩ hp
  obtain ⟨h1, h2, h3, h4⟩ := hg f
  have hmt := hp.2.tight m (mem_plug.mpr (.inl rfl))
  refine ⟨good_plug h1 h3 h4 hm (htm hmt) hp, ⟨by simp [h1], ?_⟩, tight_plug h2 h3 h4⟩
  rw [plug_span, plug_span, h1]
  exact fun _ _ => rfl

theorem tight_of_parent (hne : fs ≠ []) (h : (rebuild n fs).All Good) : n.Tight := by
  cases fs with
  | nil => exact absurd rfl hne
  | cons f fs => exact h.of_rebuild_cons.here.2.tight n (mem_plug.mpr (.inl rfl))

theorem good_leaf (h : s.end_ ≤ seq s.ledger_ + 1) :
    (⟨s, tip, branch, []⟩ : Node L).All Good := by
  refine .mk ⟨?_, h, ?_, .nil, ?_⟩ ?_ <;> exact fun c hc => absurd hc not_mem_nil

theorem Node.All.good_of_children (h : n.All Good) {start : Nat} (hs : start < n.span.end_) :
    (⟨⟨start, n.span.end_, n.span.ledger_, hs⟩, tip, branch, n.children⟩ : Node L).All Good :=
  .mk ⟨h.here.1, h.here.2.reach, h.here.2.extend, h.here.2.distinct, h.here.2.tight⟩
    fun _ hc => h.child hc

/-! ## `insert` -/

section Insert

variable {t : LedgerTrie L} {l : L}

variable {r : Loc L × Nat} {root : Node L} {count : UInt32}

theorem good_split {d : Nat} (h1 : n.span.start_ < d) (h2 : d < n.span.end_) (hn : n.All Good)
    (ht : n.Tight) :
    (n.split ⟨n.span.start_, d, n.span.ledger_, h1⟩ ⟨d, n.span.end_, n.span.ledger_, h2⟩).All
      Good := by
  refine .mk ⟨?_, ?_, ?_, ?_, ?_⟩ ?_
  · intro c hc
    rw [mem_singleton.mp hc]
    rfl
  · exact h2.le.trans hn.here.2.reach
  · intro c hc
    rw [mem_singleton.mp hc]
    exact fun _ _ => rfl
  · exact nodup_singleton _
  · intro c hc
    rw [mem_singleton.mp hc]
    exact ht
  · intro c hc
    rw [mem_singleton.mp hc]
    exact hn.good_of_children h2

theorem good_addChild (hn : n.All Good) (hc : c.All Good) (ht : c.Tight)
    (hs : c.span.start_ = n.span.end_) (hag : Agree c.span.ledger_ n.span.ledger_ n.span.end_)
    (hnew : ∀ b ∈ n.children, b.span.startID ≠ c.span.startID) :
    (⟨n.span, n.tipSupport, branch, n.children ++ [c]⟩ : Node L).All Good := by
  have hcases : ∀ b ∈ n.children ++ [c], b ∈ n.children ∨ b = c := fun b hb =>
    (mem_append.mp hb).imp_right mem_singleton.mp
  refine .mk ⟨?_, hn.here.2.reach, ?_, ?_, ?_⟩ ?_
  · intro b hb
    rcases hcases b hb with hb | rfl
    · exact hn.here.1 b hb
    · exact hs
  · intro b hb
    rcases hcases b hb with hb | rfl
    · exact hn.here.2.extend b hb
    · exact hag
  · rw [map_append, map_singleton, ← concat_eq_append, nodup_concat]
    refine ⟨fun hmem => ?_, hn.here.2.distinct⟩
    obtain ⟨b, hb, heq⟩ := mem_map.mp hmem
    exact hnew b hb heq
  · intro b hb
    rcases hcases b hb with hb | rfl
    · exact hn.here.2.tight b hb
    · exact ht
  · intro b hb
    rcases hcases b hb with hb | rfl
    · exact hn.child hb
    · exact hc

variable [ExactAncestry L]

theorem Found.child_differs (hf : Found l root r) (hg : root.All Good)
    (hd : r.2 = r.1.node.span.end_) (hlt : r.2 < seq l + 1) (hc : c ∈ r.1.node.children) :
    c.span.startID ≠ ancestor l r.2 := by
  have hn := hf.all hg
  have hstart : c.span.start_ = r.2 := (hn.here.1 c hc).trans hd.symm
  have hreach := (hn.child hc).here.2.reach
  have hne := c.span.nonempty
  have hle := hf.stuck hd c hc
  intro heq
  rw [Span.startID, hstart] at heq
  have hag := (agree_succ_iff (by omega) (by omega)).mpr heq
  have hmis := (le_mismatch_iff (by omega) (by omega)).mpr hag
  have := (Span.lt_diff_iff c.span l).mpr (by omega)
  omega

theorem Found.tight (hf : Found l root r) (hr : root.Rooted) (hg : root.All Good)
    (h : r.2 < r.1.node.span.end_) : r.1.node.Tight := by
  have hroot := hf.root_eq
  have hstart := hf.start_lt hr
  rw [← hroot] at hg
  refine tight_of_parent (fun hp => ?_) hg
  have h0 := hr.start_eq
  have h1 := hr.end_eq
  rw [← hroot, Loc.root, hp] at h0 h1
  simp only [rebuild] at h0 h1
  omega

theorem insertSplit_good (hr : t.root.Rooted) (hg : t.root.All Good) :
    (insertSplit (t.find l).1.node (t.find l).2).All Good := by
  have hf := found_find t l
  have hn := hf.all hg
  rcases hf.le_end.eq_or_lt with h | h
  · rw [insertSplit_of_eq h]
    exact hn
  · rw [insertSplit_of_lt (hf.start_lt hr) h]
    exact good_split (hf.start_lt hr) h hn (hf.tight hr hg h)

theorem insertSplit_child_differs (hr : t.root.Rooted) (hg : t.root.All Good)
    (hlt : (t.find l).2 < seq l + 1) :
    ∀ c ∈ (insertSplit (t.find l).1.node (t.find l).2).children,
      c.span.startID ≠ ancestor l (t.find l).2 := by
  have hf := found_find t l
  rcases hf.le_end.eq_or_lt with h | h
  · rw [insertSplit_of_eq h]
    exact fun c hc => hf.child_differs hg h hlt hc
  · rw [insertSplit_of_lt (hf.start_lt hr) h]
    intro c hc
    rw [mem_singleton.mp hc]
    have hstart := hf.start_lt hr
    have hd : (t.find l).2 = mismatch (t.find l).1.node.span.ledger_ l := by
      rw [hf.pos_eq] at hstart h ⊢
      exact Span.diff_eq_mismatch hstart h
    have hreach := (hf.all hg).here.2.reach
    have := ExactAncestry.differ_at (a := (t.find l).1.node.span.ledger_) (b := l)
      (by omega) (by omega)
    rwa [← hd] at this

theorem insert_tip_ne_zero (hr : t.root.Rooted) (hpos : count ≠ 0)
    (hlt : t.root.tips.card + count.toNat < 2 ^ 32) (h : (t.find l).2 = seq l + 1) :
    (insertSplit (t.find l).1.node (t.find l).2).tipSupport + count ≠ 0 := by
  have hle := tip_le_card (insertTarget t l)
  rw [insertTarget_tips hr, insertTarget, Span.ofLedger_from, dif_neg (by omega)] at hle
  simp only [insertLoc] at hle
  intro h0
  have hz := congrArg UInt32.toNat h0
  rw [UInt32.toNat_add, Nat.mod_eq_of_lt (by omega)] at hz
  exact hpos (UInt32.toNat_inj.mp (by simp at hz ⊢; omega))

theorem insertNode_tight (hr : t.root.Rooted) (ht : (t.find l).1.node.Tight) :
    (insertNode t l (insertSplit (t.find l).1.node (t.find l).2).tipSupport branch [c]).Tight := by
  have hf := found_find t l
  rcases hf.le_end.eq_or_lt with h | h
  · rw [insertNode, insertSplit_of_eq h]
    intro h0
    have := ht h0
    simp only [length_append, length_singleton]
    omega
  · rw [insertNode, insertSplit_of_lt (hf.start_lt hr) h]
    exact fun _ => le_rfl

theorem insert_good (hr : t.root.Rooted) (hg : t.root.All Good) (hpos : count ≠ 0)
    (hlt : t.root.tips.card + count.toNat < 2 ^ 32) : (t.insert l count).root.All Good := by
  have hf := found_find t l
  have hsp := insertSplit_span (hf.start_lt hr) hf.le_end
  have hsplit := insertSplit_good (l := l) hr hg
  have hall : (rebuild (t.find l).1.node (t.find l).1.parents).All Good := by
    rw [← hf.root_eq] at hg
    exact hg
  have hframe : ∀ f : Frame L, (f.addBranch count).span = f.span ∧
      (f.addBranch count).tipSupport = f.tipSupport ∧ (f.addBranch count).front = f.front ∧
      (f.addBranch count).back = f.back := fun f => ⟨rfl, rfl, rfl, rfl⟩
  have hstands : ∀ tip branch extra,
      (t.find l).1.node.Stands (insertNode t l tip branch extra) := by
    intro tip branch extra
    refine ⟨by rw [insertNode, hsp], ?_⟩
    rw [insertNode, hsp]
    exact fun _ _ => rfl
  rcases (hf.le_seq hr).lt_or_eq with h | h
  · -- a new child holds the rest of the history
    rw [insert_root_suffix count h]
    refine good_rebuild hframe (hstands _ _ _) (insertNode_tight hr) hall
      (good_addChild hsplit (good_leaf le_rfl) (fun h0 => absurd h0 hpos) (by rw [hsp]) ?_
        (insertSplit_child_differs hr hg h))
    rw [hsp]
    exact (agree_of_le_mismatch (hf.le_mismatch hr)).symm
  · rw [insert_root_exact count h]
    refine good_rebuild hframe (hstands _ _ _)
      (fun _ h0 => absurd h0 (insert_tip_ne_zero hr hpos hlt h)) hall ?_
    rw [insertNode, append_nil]
    exact hsplit.good_of_children _

end Insert

/-! ## `remove` -/

variable {ds : List (Node L)} {n' : Node L}

theorem good_erased {f : Frame L} (h : (f.plug n).All Good) : f.erased.All Good := by
  have hmem : ∀ c ∈ f.erased.children, c ∈ (f.plug n).children := fun c hc =>
    mem_plug.mpr (.inr (mem_erased.mp hc))
  refine h.erased ⟨fun c hc => h.here.1 c (hmem c hc), h.here.2.reach,
    fun c hc => h.here.2.extend c (hmem c hc), ?_, fun c hc => h.here.2.tight c (hmem c hc)⟩
  have hd := h.here.2.distinct
  rw [plug_children, map_append, map_cons, nodup_middle, nodup_cons,
    ← map_append] at hd
  exact ((eraseSwap_perm f.front f.back).map _).nodup_iff.mpr hd.2

theorem good_merged {loc child : Node L} (h : loc.All Good) (hcs : loc.children = [child]) :
    (loc.mergeInto child).All Good ∧ (loc.mergeInto child).Tight ∧
      loc.Stands (loc.mergeInto child) := by
  have hmem : child ∈ loc.children := by rw [hcs]; exact mem_singleton_self _
  have hsp := mergeInto_span (h.here.1 child hmem)
  refine ⟨?_, h.here.2.tight child hmem, by rw [hsp], ?_⟩
  · rw [Node.mergeInto, Span.merge_eq (h.here.1 child hmem)]
    exact (h.child hmem).good_of_children _
  · rw [hsp]
    exact (h.here.2.extend child hmem).mono loc.span.nonempty

theorem compress_good {m : Node L} (h : (rebuild n fs).All Good) (hm : m.All Good)
    (hs : n.Stands m) : (compress m fs).All Good := by
  -- `old` is a node with which the trie was well formed; the node in hand may not be tight
  refine compress_rule
    (I := fun loc gs => ∃ old : Node L, (rebuild old gs).All Good ∧ loc.All Good ∧
      old.Stands loc) (Q := fun r => r.All Good) ?_ ?_ ?_ fs m ⟨n, h, hm, hs⟩
  · rintro loc gs ⟨old, hold, hloc, hst⟩ hstop
    have ht : gs = [] ∨ loc.Tight := by
      rcases hstop with h | h | h
      · exact .inl h
      · exact .inr (fun h0 => absurd h0 h)
      · exact .inr (fun _ => h)
    rcases ht with rfl | ht
    · exact hloc
    · have := good_rebuild (g := fun f => f) (fun f => ⟨rfl, rfl, rfl, rfl⟩) hst (fun _ => ht) hold hloc
      rwa [map_id'] at this
  · rintro loc f gs ⟨old, hold, _, _⟩ _ _
    exact ⟨f.plug old, hold, good_erased hold.of_rebuild_cons, rfl, fun _ _ => rfl⟩
  · rintro loc f gs child ⟨old, hold, hloc, hst⟩ _ hcs
    obtain ⟨hmg, hmt, hms⟩ := good_merged hloc hcs
    have hst' : old.Stands (loc.mergeInto child) :=
      ⟨hms.start_eq.trans hst.start_eq, by
        have := hms.agree
        rw [hst.start_eq] at this
        exact this.trans hst.agree⟩
    have hf := hold.of_rebuild_cons
    exact ⟨f.plug old, hold, hf.plug (good_plug rfl rfl rfl hst' hmt hf.here) hmg, rfl,
      fun _ _ => rfl⟩

theorem remove_good {t : LedgerTrie L} {l : L} (hg : t.root.All Good) (count : UInt32) :
    (t.remove l count).2.root.All Good := by
  by_cases h : Removable t l
  · rw [remove_of_removable h]
    show ((t.find l).1.subSupport _).All Good
    rw [← (found_find t l).root_eq] at hg
    have hn := Node.All.of_rebuild (n := (t.find l).1.node) hg
    rw [subSupport_eq]
    refine compress_good (n := (t.find l).1.node) ?_ (hn.good_of_children _) ⟨rfl, fun _ _ => rfl⟩
    exact good_rebuild (g := (·.subBranch _)) (fun f => ⟨rfl, rfl, rfl, rfl⟩) ⟨rfl, fun _ _ => rfl⟩
      (fun ht => ht) hg hn
  · rw [remove_of_not_removable h]
    exact hg

/-! ## Reordering children -/

/-- The children of some nodes stand in another order. This is all that `getPreferred` does to
the trie. -/
inductive Node.Reorder : Node L → Node L → Prop where
  | perm {s : Span L} {tip branch : UInt32} {cs ds : List (Node L)} :
      cs.Perm ds → Reorder ⟨s, tip, branch, cs⟩ ⟨s, tip, branch, ds⟩
  | child {f : Frame L} {c c' : Node L} : Reorder c c' → Reorder (f.plug c) (f.plug c')
  | trans {a b c : Node L} : Reorder a b → Reorder b c → Reorder a c

def Node.label (n : Node L) : Span L × UInt32 × UInt32 × Nat :=
  (n.span, n.tipSupport, n.branchSupport, n.children.length)

theorem Node.Reorder.refl (n : Node L) : n.Reorder n := by
  obtain ⟨s, tip, branch, cs⟩ := n
  exact .perm (.refl cs)

theorem Node.Reorder.of_perm (h : n.children.Perm ds) : n.Reorder { n with children := ds } := by
  obtain ⟨s, tip, branch, cs⟩ := n
  exact .perm h

theorem Node.Reorder.rebuild :
    ∀ {n n' : Node L}, n.Reorder n' → (rebuild n fs).Reorder (rebuild n' fs) := by
  induction fs with
  | nil => intro n n' h; exact h
  | cons f fs ih => intro n n' h; exact ih h.child

theorem Node.Reorder.label_eq (h : n.Reorder n') : n'.label = n.label := by
  induction h with
  | perm hp => simp only [Node.label, hp.length_eq]
  | child _ _ => simp [Node.label, Frame.plug]
  | trans _ _ ih ih' => exact ih'.trans ih

theorem Node.Reorder.tips_eq (h : n.Reorder n') : n'.tips = n.tips := by
  induction h with
  | perm hp => rw [Node.tips_eq, Node.tips_eq, tipsOf_perm hp]
  | child _ ih => rw [tips_plug, tips_plug, ih]
  | trans _ _ ih ih' => exact ih'.trans ih

theorem Node.Reorder.all {P : Node L → Prop} (hP : ∀ n n' : Node L, n'.label = n.label →
      (n'.children.map Node.label).Perm (n.children.map Node.label) → P n → P n') (h : n.Reorder n')
    (hn : n.All P) : n'.All P := by
  induction h with
  | @perm s tip branch cs ds hp =>
    refine .mk (hP _ _ (Reorder.perm hp).label_eq (hp.symm.map _) hn.here) ?_
    intro c hc
    exact hn.child (hp.mem_iff.mpr hc)
  | @child f c c' hc ih =>
    refine hn.plug (hP _ _ (Reorder.child hc).label_eq ?_ hn.here)
      (ih (hn.child (mem_plug.mpr (.inl rfl))))
    simp only [plug_children, map_append, map_cons, hc.label_eq]
    exact .refl _
  | trans _ _ ih ih' => exact ih' (ih hn)

theorem exists_label {cs : List (Node L)} (h : (ds.map Node.label).Perm (cs.map Node.label))
    {d : Node L} (hd : d ∈ ds) : ∃ c ∈ cs, c.label = d.label :=
  mem_map.mp (h.mem_iff.mp (mem_map_of_mem hd))

theorem Node.Reorder.linked (h : n.Reorder n') (hn : n.All Node.Linked) : n'.All Node.Linked := by
  refine h.all ?_ hn
  intro m m' hl hp hlink d hd
  obtain ⟨c, hc, hcd⟩ := exists_label hp hd
  simp only [Node.label, Prod.mk.injEq] at hl hcd
  rw [← hcd.1, hl.1]
  exact hlink c hc

theorem Node.Reorder.rooted (h : n.Reorder n') (hn : n.Rooted) : n'.Rooted := by
  have hs : n'.span = n.span := congrArg Prod.fst h.label_eq
  exact ⟨by rw [hs, hn.start_eq], by rw [hs, hn.end_eq], h.linked hn.linked⟩

theorem Node.Reorder.good (h : n.Reorder n') (hn : n.All Good) : n'.All Good := by
  refine h.all ?_ hn
  rintro m m' hl hp ⟨hlink, hfit⟩
  simp only [Node.label, Prod.mk.injEq] at hl
  obtain ⟨hspan, _, _, _⟩ := hl
  have hmem : ∀ d ∈ m'.children, ∃ c ∈ m.children, c.span = d.span ∧ (c.Tight → d.Tight) := by
    intro d hd
    obtain ⟨c, hc, hcd⟩ := exists_label hp hd
    simp only [Node.label, Prod.mk.injEq] at hcd
    refine ⟨c, hc, hcd.1, fun ht h0 => ?_⟩
    rw [← hcd.2.2.2]
    exact ht (hcd.2.1.trans h0)
  refine ⟨?_, ?_, ?_, ?_, ?_⟩
  · intro d hd
    obtain ⟨c, hc, hcd, _⟩ := hmem d hd
    rw [← hcd, hspan]
    exact hlink c hc
  · rw [hspan]
    exact hfit.reach
  · intro d hd
    obtain ⟨c, hc, hcd, _⟩ := hmem d hd
    rw [← hcd, hspan]
    exact hfit.extend c hc
  · have := hp.map (fun k => k.1.startID)
    rw [map_map, map_map] at this
    exact this.nodup_iff.mpr hfit.distinct
  · intro d hd
    obtain ⟨c, hc, _, ht⟩ := hmem d hd
    exact ht (hfit.tight c hc)

theorem Node.Reorder.sums (h : n.Reorder n') (hn : n.All Node.Sums) : n'.All Node.Sums := by
  refine h.all ?_ hn
  intro m m' hl hp hs
  simp only [Node.label, Prod.mk.injEq] at hl
  have := (hp.map (fun k => k.2.2.1)).sum_eq
  rw [map_map, map_map] at this
  rw [Node.Sums, hl.2.1, hl.2.2.1, hs]
  exact congrArg (m.tipSupport + ·) this.symm

/-! ## `getPreferred` only reorders -/

section Preferred

variable [LinearOrder ID]

theorem preferFrom_reorder (k : Nat) (curr : Node L) :
    ∀ (parents : List (Frame L)) (unc : UInt32) (it : List (Nat × UInt32)),
      (rebuild curr parents).Reorder (preferFrom k parents curr unc it).2 := by
  induction curr using Node.induct with
  | h curr ih =>
    intro parents unc it
    rw [preferFrom]
    simp only
    split
    · exact .refl _
    · split
      · exact .refl _
      · rename_i best hcs
        have hr : (rebuild curr parents).Reorder
            (rebuild best (⟨curr.span, curr.tipSupport, curr.branchSupport, [], []⟩ :: parents)) :=
          (Node.Reorder.of_perm (by rw [hcs]; exact .refl _)).rebuild
        split
        · exact hr.trans (ih best (by rw [hcs]; exact mem_singleton_self _) _ _ _)
        · exact .refl _
      · rename_i a b rest hcs
        have hperm := sortTopTwo_perm a b rest
        rw [← hcs] at hperm
        have hr : (rebuild curr parents).Reorder _ := (Node.Reorder.of_perm hperm.symm).rebuild
        split
        · refine hr.trans ?_
          exact ih _ (hperm.mem_iff.mp mem_cons_self) (⟨curr.span, curr.tipSupport,
            curr.branchSupport, [], (sortTopTwo a b rest).2.1 :: (sortTopTwo a b rest).2.2⟩ ::
            parents) _ _
        · exact hr

theorem getPreferred_reorder (t : LedgerTrie L) (k : Nat) :
    t.root.Reorder (t.getPreferred k).2.root := by
  rw [getPreferred]
  split
  · exact .refl _
  · exact preferFrom_reorder k t.root [] _ _

end Preferred

end Ripple.LedgerTrie
