import Ripple.LedgerTrie.Find

/-!
# Ripple.LedgerTrie.Insert

How `insert` changes the supported tips, for any lawful ledger type.

* `insert_tips`: `insert` adds `count` copies of one tip, at the end of the ledger's history.
* `insert_rooted`: the links between the nodes and the sums of the branch support are kept.

Splitting a node moves a tip to another node without changing it, so the multiset of tips is the
right abstraction of the whole tree.
-/

namespace Ripple.LedgerTrie

open Ledger (seq ancestor mismatch)

variable {L ID : Type} [Ledger L ID]

/-! ## Raising and lowering support -/

theorem rest_addBranch (fs : List (Frame L)) (count : UInt32) :
    ((fs.map (·.addBranch count)).map Frame.rest).sum = (fs.map Frame.rest).sum := by
  rw [List.map_map]; rfl

variable {count : UInt32} {loc : Loc L} {fs : List (Frame L)} {n' n : Node L}

theorem tips_addSupport (h : loc.node.tipSupport.toNat + count.toNat < 2 ^ 32) :
    (loc.addSupport count).tips =
      loc.root.tips + Multiset.replicate count.toNat (loc.node.span.end_, loc.node.span.ledger_) := by
  obtain ⟨⟨s, t, b, cs⟩, fs⟩ := loc
  have ht : (t + count).toNat = t.toNat + count.toNat := by
    rw [UInt32.toNat_add, Nat.mod_eq_of_lt h]
  simp only [Loc.addSupport, Loc.root, Node.addBranch]
  rw [tips_rebuild, tips_rebuild, rest_addBranch, Node.tips_eq, Node.tips_eq]
  simp only [ht, Multiset.replicate_add]
  abel

variable {f : Frame L} {m' m : Node L} {d : UInt32} {g : Frame L → Frame L}

theorem linked_plug {g : Frame L} (hg : g.span = f.span) (hfront : g.front = f.front)
    (hback : g.back = f.back) (h : m'.span.start_ = m.span.start_) (hp : (f.plug m).Linked) :
    (g.plug m').Linked := by
  intro c hc
  rw [Frame.plug_span, hg]
  rcases Frame.mem_plug.mp hc with rfl | hc
  · rw [h]; exact hp m (Frame.mem_plug.mpr (.inl rfl))
  · rw [hfront, hback] at hc
    exact hp c (Frame.mem_plug.mpr (.inr hc))

theorem sum_middle (f : Frame L) (n : Node L) :
    ((f.plug n).children.map Node.branchSupport).sum =
      n.branchSupport + ((f.front ++ f.back).map Node.branchSupport).sum := by
  simp only [Frame.plug_children, List.map_append, List.map_cons, List.sum_append, List.sum_cons]
  ac_rfl

def Node.Sound (n : Node L) : Prop := n.Linked ∧ n.Sums

open Node (Sound Sums tips_eq)

def Node.Raised (d : UInt32) (m m' : Node L) : Prop :=
  m'.span.start_ = m.span.start_ ∧ m'.branchSupport = m.branchSupport + d

theorem sound_plug (h : m.Raised d m') (hp : (f.plug m).Sound) :
    (Frame.plug { f with branchSupport := f.branchSupport + d } m').Sound := by
  obtain ⟨hl, hs⟩ := hp
  refine ⟨linked_plug rfl rfl rfl h.1 hl, ?_⟩
  rw [Sums, sum_middle] at hs ⊢
  simp only [Frame.plug_branch, Frame.plug_tip] at hs ⊢
  rw [hs, h.2]; ac_rfl

theorem sound_rebuild (hg : ∀ f, g f = { f with branchSupport := f.branchSupport + d })
    (hn : n.Raised d n') (h : (rebuild n fs).All Sound) (hn' : n'.All Sound) :
    (rebuild n' (fs.map g)).All Sound := by
  refine Node.All.rebuild_map (R := Node.Raised d) (n := n) (fun f => by rw [hg]; exact ⟨rfl, rfl⟩)
    ?_ hn h hn'
  intro f _ m m' hm hp
  rw [hg f]
  exact ⟨sound_plug hm hp, rfl, rfl⟩

theorem replace_sound (hs : n'.span.start_ = n.span.start_)
    (hb : n'.branchSupport = n.branchSupport) (h : (rebuild n fs).All Sound)
    (hn' : n'.All Sound) : (rebuild n' fs).All Sound := by
  have := sound_rebuild (d := 0) (g := fun f => f) (fun f => by simp) ⟨hs, by simp [hb]⟩ h hn'
  rwa [List.map_id'] at this

/-! ## `insert` -/

section Insert

variable {n : Node L} {d : Nat}

theorem insertSplit_of_eq (h : d = n.span.end_) : insertSplit n d = n := by
  rw [insertSplit, Span.from_eq_none h.ge]

section

variable (h1 : n.span.start_ < d)
include h1

theorem insertSplit_of_lt (h2 : d < n.span.end_) :
    insertSplit n d = n.split ⟨n.span.start_, d, n.span.ledger_, h1⟩
      ⟨d, n.span.end_, n.span.ledger_, h2⟩ := by
  rw [insertSplit, Span.from_eq_some h1.le h2, Span.before_eq_some h1 h2.le]

theorem insertSplit_span (h2 : d ≤ n.span.end_) :
    (insertSplit n d).span = ⟨n.span.start_, d, n.span.ledger_, h1⟩ := by
  rcases h2.eq_or_lt with h | h
  · rw [insertSplit_of_eq h]; subst h; rfl
  · rw [insertSplit_of_lt h1 h]; rfl

theorem insertSplit_tips (h2 : d ≤ n.span.end_) :
    (insertSplit n d).tips = n.tips := by
  rcases h2.eq_or_lt with h | h
  · rw [insertSplit_of_eq h]
  · rw [insertSplit_of_lt h1 h, Node.split, tips_eq, tips_eq n]
    simp [tips_eq]

theorem insertSplit_branch (h2 : d ≤ n.span.end_) :
    (insertSplit n d).branchSupport = n.branchSupport := by
  rcases h2.eq_or_lt with h | h
  · rw [insertSplit_of_eq h]
  · rw [insertSplit_of_lt h1 h]; rfl

theorem insertSplit_sound (h2 : d ≤ n.span.end_)
    (h : n.All Sound) : (insertSplit n d).All Sound := by
  rcases h2.eq_or_lt with he | hlt
  · rw [insertSplit_of_eq he]; exact h
  · rw [insertSplit_of_lt h1 hlt]
    refine .mk ⟨?_, by simp [Sums, Node.split]⟩ ?_
    · intro c hc
      rw [List.mem_singleton.mp hc]; rfl
    · intro c hc
      rw [List.mem_singleton.mp hc]
      exact .mk h.here (fun c hc => h.child hc)

end

end Insert

theorem insertLoc_tips (n : Node L) (fs : List (Frame L)) (s : Option (Span L)) :
    (insertLoc n fs s).root.tips = (rebuild n fs).tips := by
  cases s with
  | none => rfl
  | some s =>
    rw [insertLoc, Loc.root, rebuild, tips_rebuild, tips_rebuild, Frame.tips_plug, Frame.rest,
      tips_eq n]
    simp [tips_eq]

theorem rebuild_span_map (hg : ∀ f, (g f).span = f.span) :
    ∀ {n n' : Node L}, n'.span = n.span → (rebuild n' (fs.map g)).span = (rebuild n fs).span := by
  induction fs with
  | nil => intro n n' h; exact h
  | cons f fs ih => intro n n' _; exact ih (hg f)

theorem tip_le_card (loc : Loc L) : loc.node.tipSupport.toNat ≤ loc.root.tips.card := by
  rw [Loc.root, tips_rebuild, tips_eq]
  simp only [Multiset.card_add, Multiset.card_replicate]
  omega

def insertTarget (t : LedgerTrie L) (l : L) : Loc L :=
  insertLoc (insertSplit (t.find l).1.node (t.find l).2) (t.find l).1.parents
    ((Span.ofLedger l).from_ (t.find l).2)

theorem insert_root (t : LedgerTrie L) (l : L) (count : UInt32) :
    (t.insert l count).root = (insertTarget t l).addSupport count := rfl

variable {t : LedgerTrie L} {l : L}

/-- The node found by `insert` after the split, with support `tip` and `branch` and with `extra`
as further children. -/
def insertNode (t : LedgerTrie L) (l : L) (tip branch : UInt32) (extra : List (Node L)) : Node L :=
  ⟨(insertSplit (t.find l).1.node (t.find l).2).span, tip, branch,
    (insertSplit (t.find l).1.node (t.find l).2).children ++ extra⟩

theorem insert_root_suffix (count : UInt32) (h : (t.find l).2 < seq l + 1) :
    (t.insert l count).root =
      rebuild (insertNode t l (insertSplit (t.find l).1.node (t.find l).2).tipSupport
        ((insertSplit (t.find l).1.node (t.find l).2).branchSupport + count)
        [⟨⟨(t.find l).2, seq l + 1, l, h⟩, count, count, []⟩])
        ((t.find l).1.parents.map (·.addBranch count)) := by
  rw [insert_root, insertTarget, Span.ofLedger_from, dif_pos h]
  simp [insertLoc, Loc.addSupport, rebuild, Node.addBranch, Frame.addBranch, Frame.plug, insertNode]

theorem insert_root_exact (count : UInt32) (h : (t.find l).2 = seq l + 1) :
    (t.insert l count).root =
      rebuild (insertNode t l ((insertSplit (t.find l).1.node (t.find l).2).tipSupport + count)
        ((insertSplit (t.find l).1.node (t.find l).2).branchSupport + count) [])
        ((t.find l).1.parents.map (·.addBranch count)) := by
  rw [insert_root, insertTarget, Span.ofLedger_from, dif_neg (by omega)]
  simp [insertLoc, Loc.addSupport, Node.addBranch, insertNode]

section Lawful

variable [LawfulLedger L]

section

variable (hr : t.root.Rooted)
include hr

theorem insertTarget_cases :
    (∃ h : (t.find l).2 < seq l + 1, (Span.ofLedger l).from_ (t.find l).2 =
      some ⟨(t.find l).2, seq l + 1, l, h⟩) ∨
    ((t.find l).2 = seq l + 1 ∧ (Span.ofLedger l).from_ (t.find l).2 = none) := by
  have hle := (found_find t l).le_seq hr
  rw [Span.ofLedger_from]
  rcases hle.lt_or_eq with h | h
  · exact .inl ⟨h, dif_pos h⟩
  · exact .inr ⟨h, dif_neg (by omega)⟩

theorem insertTarget_end : (insertTarget t l).node.span.end_ = seq l + 1 := by
  have hf := found_find t l
  rcases insertTarget_cases hr (l := l) with ⟨h, he⟩ | ⟨h, he⟩
  · rw [insertTarget, he]; rfl
  · rw [insertTarget, he]
    show (insertSplit _ _).span.end_ = _
    rw [insertSplit_span (hf.start_lt hr) hf.le_end]
    exact h

theorem insertTarget_mismatch : seq l + 1 ≤ mismatch (insertTarget t l).node.span.ledger_ l := by
  have hf := found_find t l
  rcases insertTarget_cases hr (l := l) with ⟨h, he⟩ | ⟨h, he⟩
  · rw [insertTarget, he]
    exact (LawfulLedger.mismatch_self l).ge
  · rw [insertTarget, he]
    show _ ≤ mismatch (insertSplit _ _).span.ledger_ l
    rw [insertSplit_span (hf.start_lt hr) hf.le_end, ← h]
    exact hf.le_mismatch hr

theorem insertTarget_tips : (insertTarget t l).root.tips = t.root.tips := by
  have hf := found_find t l
  rw [insertTarget, insertLoc_tips, tips_rebuild, insertSplit_tips (hf.start_lt hr) hf.le_end,
    ← tips_rebuild, ← hf.root_eq, Loc.root]

theorem insert_sound (h : t.root.All Sound) (count : UInt32) :
    (t.insert l count).root.All Sound := by
  have hf := found_find t l
  rw [← hf.root_eq, Loc.root] at h
  have hsp := insertSplit_span (hf.start_lt hr) hf.le_end
  have hb := insertSplit_branch (hf.start_lt hr) hf.le_end
  have hn := insertSplit_sound (hf.start_lt hr) hf.le_end (Node.All.of_rebuild h)
  have hsum := hn.here.2
  rw [Sums] at hsum
  rcases (hf.le_seq hr).lt_or_eq with hlt | heq
  · rw [insert_root_suffix count hlt]
    refine sound_rebuild (fun _ => rfl) ⟨by rw [insertNode, hsp], by rw [insertNode, hb]⟩ h
      (.mk ⟨?_, ?_⟩ ?_)
    · intro c hc
      rcases List.mem_append.mp hc with hc | hc
      · exact hn.here.1 c hc
      · rw [List.mem_singleton.mp hc, insertNode, hsp]
    · simp only [Sums, insertNode, List.map_append, List.sum_append, hsum]
      simp; ac_rfl
    · intro c hc
      rcases List.mem_append.mp hc with hc | hc
      · exact hn.child hc
      · rw [List.mem_singleton.mp hc]
        refine .mk ⟨?_, by simp [Sums]⟩ ?_ <;> exact fun d hd => absurd hd List.not_mem_nil
  · rw [insert_root_exact count heq, insertNode, List.append_nil]
    refine sound_rebuild (fun _ => rfl) ⟨by rw [hsp], by rw [hb]⟩ h
      (.mk ⟨hn.here.1, ?_⟩ (fun c hc => hn.child hc))
    simp only [Sums, hsum]; ac_rfl

theorem insert_span (count : UInt32) : (t.insert l count).root.span = t.root.span := by
  have hf := found_find t l
  have hroot := hf.root_eq
  have hspan : ∀ tip branch extra, (rebuild (insertNode t l tip branch extra)
      ((t.find l).1.parents.map (·.addBranch count))).span = t.root.span := by
    intro tip branch extra
    rw [← hroot, Loc.root]
    cases hp : (t.find l).1.parents with
    | nil =>
      -- at the root nothing is split off: its span is `[0, 1)`
      have hnode : (t.find l).1.node = t.root := by rw [← hroot, Loc.root, hp]; rfl
      have h1 := hf.start_lt hr
      have h2 := hf.le_end
      have hd : (t.find l).2 = (t.find l).1.node.span.end_ := by
        rw [hnode, hr.end_eq] at h2 ⊢
        rw [hnode, hr.start_eq] at h1
        omega
      rw [insertNode, insertSplit_of_eq hd]; rfl
    | cons f fs =>
      change (rebuild ((f.addBranch count).plug _) (fs.map (·.addBranch count))).span = (rebuild (f.plug _) fs).span
      exact rebuild_span_map (g := (·.addBranch count)) (fun _ => rfl) (by rfl)
  rcases (hf.le_seq hr).lt_or_eq with hlt | heq
  · rw [insert_root_suffix count hlt]; exact hspan _ _ _
  · rw [insert_root_exact count heq]; exact hspan _ _ _

theorem insert_rooted (h : t.root.All Sums) (count : UInt32) :
    (t.insert l count).root.Rooted ∧ (t.insert l count).root.All Sums := by
  have hs := insert_span hr (l := l) count
  have hsound := insert_sound (l := l) hr (hr.linked.and h) count
  exact ⟨⟨by rw [hs, hr.start_eq], by rw [hs, hr.end_eq], hsound.mono fun _ h => h.1⟩,
    hsound.mono fun _ h => h.2⟩

theorem insert_tips (hlt : t.root.tips.card + count.toNat < 2 ^ 32) :
    (t.insert l count).root.tips = t.root.tips +
      Multiset.replicate count.toNat (seq l + 1, (insertTarget t l).node.span.ledger_) := by
  have hle := tip_le_card (insertTarget t l)
  rw [insertTarget_tips hr] at hle
  rw [insert_root, tips_addSupport (by omega), insertTarget_tips hr, insertTarget_end hr]

end

end Lawful

end Ripple.LedgerTrie
