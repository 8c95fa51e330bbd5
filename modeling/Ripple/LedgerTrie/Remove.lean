import Ripple.LedgerTrie.Insert

/-!
# Ripple.LedgerTrie.Remove

How `remove` changes the supported tips, for any lawful ledger type.

* `remove_tips`: a successful `remove` takes away `min count tipSupport` copies of the tip it found.
* `remove_rooted`: the links and the sums of the branch support are kept.
-/

namespace Ripple.LedgerTrie

open Ledger (seq ancestor mismatch)

variable {L ID : Type}

theorem eraseSwap_perm (front back : List (Node L)) :
    (eraseSwap front back).Perm (front ++ back) := by
  rw [eraseSwap]
  cases h : back.getLast? with
  | none =>
    rw [List.getLast?_eq_none_iff] at h
    subst h
    rw [List.append_nil]
  | some last =>
    obtain ⟨init, rfl⟩ := List.getLast?_eq_some_iff.mp h
    rw [List.dropLast_concat]
    exact (List.perm_append_singleton last init).symm.append_left front

theorem eraseSwap_concat (front back : List (Node L)) (n : Node L) :
    eraseSwap front (back ++ [n]) = front ++ n :: back := by
  rw [eraseSwap, List.getLast?_concat, List.dropLast_concat]

def Frame.erased (f : Frame L) : Node L :=
  ⟨f.span, f.tipSupport, f.branchSupport, eraseSwap f.front f.back⟩

def Node.mergeInto (loc child : Node L) : Node L := { child with span := loc.span.merge child.span }

variable {f : Frame L} {loc child : Node L} {fs : List (Frame L)} {n : Node L} {count : UInt32}

theorem Frame.mem_erased {c : Node L} : c ∈ f.erased.children ↔ c ∈ f.front ++ f.back :=
  (eraseSwap_perm f.front f.back).mem_iff

theorem Node.All.erased {P : Node L → Prop} (h : (f.plug n).All P) (hp : P f.erased) :
    f.erased.All P :=
  .mk hp (fun _ hc => h.child (Frame.mem_plug.mpr (.inr (Frame.mem_erased.mp hc))))

/-- The rule for `compress`: `I` holds as long as the loop runs, and gives `Q` when it stops. -/
theorem compress_rule {I : Node L → List (Frame L) → Prop} {Q : Node L → Prop}
    (hstop : ∀ loc fs, I loc fs →
      (fs = [] ∨ loc.tipSupport ≠ 0 ∨ 2 ≤ loc.children.length) → Q (rebuild loc fs))
    (herase : ∀ loc f fs, I loc (f :: fs) → loc.tipSupport = 0 → loc.children = [] →
      I f.erased fs)
    (hmerge : ∀ loc f fs child, I loc (f :: fs) → loc.tipSupport = 0 → loc.children = [child] →
      I (f.plug (loc.mergeInto child)) fs) :
    ∀ (fs : List (Frame L)) (loc : Node L), I loc fs → Q (compress loc fs) := by
  intro fs
  induction fs with
  | nil => intro loc h; exact hstop loc [] h (.inl rfl)
  | cons f fs ih =>
    intro loc h
    simp only [compress]
    split
    · rename_i ht
      split
      · rename_i hcs
        exact ih _ (herase loc f fs h ht hcs)
      · rename_i child hcs
        rw [eraseSwap_concat]
        exact ih _ (hmerge loc f fs child h ht hcs)
      · rename_i h0 h1
        refine hstop loc (f :: fs) h (.inr (.inr ?_))
        rcases hcs : loc.children with _ | ⟨c, _ | ⟨d, ds⟩⟩
        · exact absurd hcs h0
        · exact absurd hcs (h1 c)
        · simp
    · rename_i ht
      exact hstop loc (f :: fs) h (.inr (.inl ht))

variable [Ledger L ID]

/-! ## The loop keeps tips, links and sums -/

theorem mergeInto_span (h : child.span.start_ = loc.span.end_) :
    (loc.mergeInto child).span = ⟨loc.span.start_, child.span.end_, child.span.ledger_,
      by have := loc.span.nonempty; have := child.span.nonempty; omega⟩ :=
  Span.merge_eq h

theorem mergeInto_tips (hl : loc.Linked) (ht : loc.tipSupport = 0) (hcs : loc.children = [child]) :
    (loc.mergeInto child).tips = loc.tips := by
  have hs : child.span.start_ = loc.span.end_ := hl child (by rw [hcs]; exact List.mem_singleton_self _)
  rw [Node.tips_eq, Node.tips_eq loc, mergeInto_span hs, hcs, ht, tipsOf_cons, tipsOf_nil,
    Node.tips_eq child]
  simp [Node.mergeInto]

theorem erased_tips (ht : loc.tipSupport = 0) (hcs : loc.children = []) :
    f.erased.tips = (f.plug loc).tips := by
  rw [Frame.tips_plug, Frame.rest, Node.tips_eq, Node.tips_eq loc, ht, hcs]
  simp [Frame.erased, tipsOf_perm (eraseSwap_perm f.front f.back)]

theorem erased_sound (h : (rebuild loc (f :: fs)).All Node.Sound) (ht : loc.tipSupport = 0)
    (hcs : loc.children = []) : (rebuild f.erased fs).All Node.Sound := by
  have hf := h.of_rebuild_cons
  have hloc := (hf.child (Frame.mem_plug.mpr (.inl rfl))).here.2
  have hsum := hf.here.2
  refine replace_sound (n := f.plug loc) rfl rfl h (hf.erased ⟨?_, ?_⟩)
  · intro c hc
    exact hf.here.1 c (Frame.mem_plug.mpr (.inr (Frame.mem_erased.mp hc)))
  · -- the erased node had no support left
    have hz : loc.branchSupport = 0 := by simpa [Node.Sums, ht, hcs] using hloc
    rw [Node.Sums, sum_middle, hz] at hsum
    rw [Node.Sums, Frame.erased, ((eraseSwap_perm f.front f.back).map _).sum_eq]
    simpa using hsum

theorem merged_sound (h : (rebuild loc (f :: fs)).All Node.Sound) (ht : loc.tipSupport = 0)
    (hcs : loc.children = [child]) :
    (rebuild (f.plug (loc.mergeInto child)) fs).All Node.Sound := by
  have hf := h.of_rebuild_cons
  have hloc := hf.child (Frame.mem_plug.mpr (.inl rfl))
  have hmem : child ∈ loc.children := by rw [hcs]; exact List.mem_singleton_self _
  have hchild := hloc.child hmem
  have hsp := mergeInto_span (hloc.here.1 child hmem)
  have hb : (loc.mergeInto child).branchSupport = loc.branchSupport + 0 := by
    have := hloc.here.2
    simp only [Node.Sums, ht, hcs, List.map_cons, List.map_nil, List.sum_cons, List.sum_nil] at this
    simpa [Node.mergeInto] using this.symm
  have hp := sound_plug ⟨by rw [hsp], hb⟩ hf.here
  rw [UInt32.add_zero] at hp
  refine replace_sound (n := f.plug loc) rfl rfl h (hf.plug hp (.mk ⟨?_, hchild.here.2⟩ ?_))
  · intro d hd
    rw [hsp]
    exact hchild.here.1 d hd
  · exact fun d hd => hchild.child hd

theorem compress_sound (h : (rebuild n fs).All Node.Sound) :
    (compress n fs).All Node.Sound ∧ (compress n fs).tips = (rebuild n fs).tips ∧
      (compress n fs).span = (rebuild n fs).span := by
  refine compress_rule
    (I := fun loc gs => (rebuild loc gs).All Node.Sound ∧
      (rebuild loc gs).tips = (rebuild n fs).tips ∧ (rebuild loc gs).span = (rebuild n fs).span)
    (Q := fun m => m.All Node.Sound ∧ m.tips = (rebuild n fs).tips ∧ m.span = (rebuild n fs).span)
    ?_ ?_ ?_ fs n ⟨h, rfl, rfl⟩
  · intro loc gs hinv _
    exact hinv
  · rintro loc f gs ⟨hall, htips, hspan⟩ ht hcs
    refine ⟨erased_sound hall ht hcs, ?_, (rebuild_span gs (f.plug loc) f.erased rfl).trans hspan⟩
    rw [← htips, rebuild, tips_rebuild, tips_rebuild, erased_tips ht hcs]
  · rintro loc f gs child ⟨hall, htips, hspan⟩ ht hcs
    have hloc := hall.of_rebuild_cons.child (Frame.mem_plug.mpr (.inl rfl))
    refine ⟨merged_sound hall ht hcs, ?_,
      (rebuild_span gs (f.plug loc) (f.plug (loc.mergeInto child)) rfl).trans hspan⟩
    rw [← htips, rebuild, tips_rebuild, tips_rebuild, Frame.tips_plug, Frame.tips_plug,
      mergeInto_tips hloc.here.1 ht hcs]

/-! ## Lowering support -/

theorem toNat_min (a b : UInt32) : (min a b).toNat = min a.toNat b.toNat := by
  rw [Std.min_eq_if, Nat.min_def]
  simp only [UInt32.le_iff_toNat_le]
  split <;> rfl

def Loc.lowered (loc : Loc L) (count : UInt32) : Loc L :=
  ⟨{ loc.node with tipSupport := loc.node.tipSupport - count }.subBranch count,
    loc.parents.map (·.subBranch count)⟩

theorem subSupport_eq (loc : Loc L) (count : UInt32) :
    loc.subSupport count = compress (loc.lowered count).node (loc.lowered count).parents := rfl

theorem lowered_tips {loc : Loc L} (h : count ≤ loc.node.tipSupport) :
    (loc.lowered count).root.tips +
      Multiset.replicate count.toNat (loc.node.span.end_, loc.node.span.ledger_) = loc.root.tips := by
  obtain ⟨⟨s, t, b, cs⟩, fs⟩ := loc
  have ht : (t - count).toNat + count.toNat = t.toNat := by
    rw [UInt32.toNat_sub_of_le _ _ h]
    exact Nat.sub_add_cancel (UInt32.le_iff_toNat_le.mp h)
  have hrest : ((fs.map (·.subBranch count)).map Frame.rest).sum = (fs.map Frame.rest).sum := by
    rw [List.map_map]; rfl
  simp only [Loc.lowered, Loc.root, Node.subBranch]
  rw [tips_rebuild, tips_rebuild, hrest, Node.tips_eq, Node.tips_eq]
  simp only [← ht, Multiset.replicate_add]
  abel

theorem lowered_sound {loc : Loc L} (h : loc.root.All Node.Sound) :
    (loc.lowered count).root.All Node.Sound := by
  have hn := Node.All.of_rebuild (n := loc.node) h
  refine sound_rebuild (n := loc.node) (d := -count) (fun f => ?_) ⟨rfl, UInt32.sub_eq_add_neg ..⟩ h
    (.mk ⟨hn.here.1, ?_⟩ (fun c hc => hn.child hc))
  · rw [Frame.subBranch, UInt32.sub_eq_add_neg]
  · have hsum := hn.here.2
    simp only [Node.Sums, Loc.lowered, Node.subBranch] at hsum ⊢
    rw [hsum]; grind

theorem lowered_span (loc : Loc L) (count : UInt32) : (loc.lowered count).root.span = loc.root.span :=
  rebuild_span_map (g := (·.subBranch count)) (fun _ => rfl) rfl

/-! ## `remove` -/

section Outcome

variable {t : LedgerTrie L} {l : L}

/-- `remove` succeeds exactly when the search ends at a node for the ledger that has support. -/
def Removable (t : LedgerTrie L) (l : L) : Prop :=
  (t.find l).2 = (t.find l).1.node.span.end_ ∧ seq l < (t.find l).2 ∧
    0 < (t.find l).1.node.tipSupport

theorem Removable.reaches [LawfulLedger L] (h : Removable t l) (hr : t.root.Rooted) :
    (t.find l).1.node.span.end_ = seq l + 1 ∧
      seq l + 1 ≤ mismatch (t.find l).1.node.span.ledger_ l := by
  have hf := found_find t l
  have hmis := hf.le_mismatch hr
  have hle := hf.le_seq hr
  obtain ⟨h1, h2, _⟩ := h
  exact ⟨by omega, by omega⟩

theorem remove_of_removable (h : Removable t l) (count : UInt32) :
    t.remove l count = (true, ⟨(t.find l).1.subSupport (min count (t.find l).1.node.tipSupport),
      subSeq t.seqSupport (seq l) (min count (t.find l).1.node.tipSupport)⟩) := by
  obtain ⟨h1, h2, h3⟩ := h
  simp only [remove]
  rw [if_pos]
  simp only [exactMatch, Bool.and_eq_true, beq_iff_eq, decide_eq_true_eq]
  exact ⟨⟨h1, h2⟩, h3⟩

theorem remove_of_not_removable (h : ¬ Removable t l) (count : UInt32) :
    t.remove l count = (false, t) := by
  simp only [remove]
  rw [if_neg]
  simp only [exactMatch, Bool.and_eq_true, beq_iff_eq, decide_eq_true_eq]
  exact fun ⟨⟨h1, h2⟩, h3⟩ => h ⟨h1, h2, h3⟩

theorem remove_fst (count : UInt32) : (t.remove l count).1 = true ↔ Removable t l := by
  by_cases h : Removable t l
  · simp [remove_of_removable h, h]
  · simp [remove_of_not_removable h, h]

theorem remove_rooted (hr : t.root.Rooted) (h : t.root.All Node.Sums) (count : UInt32) :
    (t.remove l count).2.root.Rooted ∧ (t.remove l count).2.root.All Node.Sums := by
  by_cases hrm : Removable t l
  · have hall := hr.linked.and h
    rw [← (found_find t l).root_eq] at hall
    rw [remove_of_removable hrm]
    obtain ⟨hsound, _, hs⟩ := compress_sound (lowered_sound hall)
    rw [← Loc.root, lowered_span, (found_find t l).root_eq] at hs
    exact ⟨⟨(congrArg Span.start_ hs).trans hr.start_eq, (congrArg Span.end_ hs).trans hr.end_eq,
      hsound.mono fun _ h => h.1⟩, hsound.mono fun _ h => h.2⟩
  · rw [remove_of_not_removable hrm]
    exact ⟨hr, h⟩

theorem remove_tips (hr : t.root.Rooted) (hs : t.root.All Node.Sums) (h : Removable t l)
    (count : UInt32) :
    (t.remove l count).2.root.tips +
      Multiset.replicate (min count (t.find l).1.node.tipSupport).toNat
        ((t.find l).1.node.span.end_, (t.find l).1.node.span.ledger_) = t.root.tips := by
  have hall := hr.linked.and hs
  rw [← (found_find t l).root_eq] at hall
  rw [remove_of_removable h]
  show ((t.find l).1.subSupport _).tips + _ = _
  rw [subSupport_eq, (compress_sound (lowered_sound hall)).2.1]
  have hle : min count (t.find l).1.node.tipSupport ≤ (t.find l).1.node.tipSupport :=
    Std.min_le_right
  rw [← (found_find t l).root_eq]
  exact lowered_tips hle

end Outcome

end Ripple.LedgerTrie
