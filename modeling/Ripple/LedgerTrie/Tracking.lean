import Ripple.LedgerTrie.Invariant

/-!
# Ripple.LedgerTrie.Tracking

Support in a trie over ledgers that need not know all of their ancestors. Siblings may then match
the same ledger, and `find` takes the first of them.

* `Traced`: a node matches every ledger that is supported below it. `insert`, `remove` and the
  reordering of children keep this.
-/

namespace Ripple.LedgerTrie

open Multiset
open Ledger (seq ancestor mismatch)

variable {L ID : Type} [Ledger L ID]

def key (l : L) : Nat × ID := (seq l, Ledger.id l)

def tipKey (p : Nat × L) : Nat × ID := (p.1 - 1, ancestor p.2 (p.1 - 1))

/-- A family of ledgers: each is identified by its sequence number and id, and a ledger that matches
one of them to its end has it as an ancestor. -/
structure Family (F : Set L) : Prop where
  identified : ∀ x ∈ F, ∀ y ∈ F, key x = key y → x = y
  ancestor_of_mismatch : ∀ x ∈ F, ∀ y : L, seq x + 1 ≤ mismatch y x →
    ancestor y (seq x) = Ledger.id x

theorem Family.tipKey_eq {F : Set L} (hF : Family F) {x y : L} (hx : x ∈ F)
    (h : seq x + 1 ≤ mismatch y x) : tipKey (seq x + 1, y) = key x := by
  rw [tipKey, key, Nat.add_sub_cancel, hF.ancestor_of_mismatch x hx y h]

def Node.Holds (n : Node L) (k : Nat × ID) : Prop := k ∈ n.tips.map tipKey

variable {n n' : Node L} {k : Nat × ID} {fs : List (Frame L)}

theorem Node.Holds.of_le (h : n.Holds k) (ht : n.tips ≤ n'.tips) : n'.Holds k :=
  mem_of_le (map_le_map ht) h

theorem holds_plug {f : Frame L} : (f.plug n).Holds k ↔ n.Holds k ∨ k ∈ f.rest.map tipKey := by
  rw [Node.Holds, Frame.tips_plug, map_add, mem_add]
  rfl

def Node.Traced (F : Set L) (n : Node L) : Prop :=
  ∀ x ∈ F, n.Holds (key x) → n.span.end_ ≤ mismatch n.span.ledger_ x

open Node (Traced Holds tips_eq)

variable {F : Set L}

theorem traced_rebuild {K : Set (Nat × ID)} {g : Frame L → Frame L}
    (hg : ∀ f, (g f).span = f.span ∧ (g f).tipSupport = f.tipSupport ∧
      (g f).front = f.front ∧ (g f).back = f.back)
    (hK : ∀ f ∈ fs, ∀ x ∈ F, key x ∈ K → f.span.end_ ≤ mismatch f.span.ledger_ x)
    (ht : ∀ k, n'.Holds k → n.Holds k ∨ k ∈ K) (h : (rebuild n fs).All (Traced F))
    (hn' : n'.All (Traced F)) : (rebuild n' (fs.map g)).All (Traced F) := by
  refine Node.All.rebuild_map (R := fun m m' => ∀ k, m'.Holds k → m.Holds k ∨ k ∈ K) (n := n)
    (fun f => (hg f).2.2) ?_ ht h hn'
  intro f hf m m' hm hp
  obtain ⟨h1, h2, h3, h4⟩ := hg f
  have hholds : ∀ k, ((g f).plug m').Holds k → (f.plug m).Holds k ∨ k ∈ K := by
    intro k hk
    rw [holds_plug, Frame.rest, h1, h2, h3, h4, ← Frame.rest] at hk
    cases hk with
    | inl hk => exact (hm k hk).imp_left (fun hk => holds_plug.mpr (.inl hk))
    | inr hk => exact .inl (holds_plug.mpr (.inr hk))
  refine ⟨?_, hholds⟩
  intro x hx hk
  rw [Frame.plug_span, h1]
  cases hholds _ hk with
  | inl hk => exact hp x hx hk
  | inr hk => exact hK f hf x hx hk

/-! ## `insert` -/

section Insert

variable {t : LedgerTrie L} {l : L}

variable {branch : UInt32} {n : Node L} {k : Nat × ID}

theorem holds_addSupport {tip : UInt32} (h : (⟨n.span, tip, branch, n.children⟩ : Node L).Holds k) :
    n.Holds k ∨ k = tipKey (n.span.end_, n.span.ledger_) := by
  rw [Holds, tips_eq, map_add, mem_add] at h
  cases h with
  | inl h =>
    rw [map_replicate] at h
    exact .inr (eq_of_mem_replicate h)
  | inr h =>
    refine .inl ?_
    rw [Holds, tips_eq, map_add]
    exact mem_add.mpr (.inr h)

theorem holds_addChild {c : Node L}
    (h : (⟨n.span, n.tipSupport, branch, n.children ++ [c]⟩ : Node L).Holds k) :
    n.Holds k ∨ c.Holds k := by
  have htips : (⟨n.span, n.tipSupport, branch, n.children ++ [c]⟩ : Node L).tips =
      n.tips + c.tips := by
    rw [tips_eq, tips_eq n]
    simp [add_assoc]
  rw [Holds, htips, map_add, mem_add] at h
  exact h

variable [LawfulLedger L]

theorem insertSplit_traced (hr : t.root.Rooted) (h : t.root.All (Traced F)) :
    (insertSplit (t.find l).1.node (t.find l).2).All (Traced F) := by
  have hf := found_find t l
  have hn := hf.all h
  have htips := insertSplit_tips (hf.start_lt hr) hf.le_end
  cases hf.le_end.eq_or_lt with
  | inl he => rw [insertSplit_of_eq he]; exact hn
  | inr hlt =>
    rw [insertSplit_of_lt (hf.start_lt hr) hlt] at htips ⊢
    refine .mk ?_ ?_
    · intro x hx hk
      rw [Holds, htips] at hk
      exact hlt.le.trans (hn.here x hx hk)
    · intro c hc
      rw [List.mem_singleton.mp hc]
      refine .mk ?_ (fun d hd => hn.child hd)
      intro x hx hk
      refine hn.here x hx ?_
      rw [Holds, tips_eq] at hk ⊢
      exact hk

theorem traced_insertNode (hF : Family F) (hl : l ∈ F) (hr : t.root.Rooted)
    (h : t.root.All (Traced F))
    (hs : n.span = (insertSplit (t.find l).1.node (t.find l).2).span)
    (hk : ∀ k, n.Holds k → (insertSplit (t.find l).1.node (t.find l).2).Holds k ∨ k = key l)
    (hcs : ∀ c ∈ n.children, c.All (Traced F)) (count : UInt32) :
    (rebuild n ((t.find l).1.parents.map (·.addBranch count))).All (Traced F) := by
  have hf := found_find t l
  have hsplit := insertSplit_traced (l := l) hr h
  rw [← hf.root_eq] at h
  have hself : ∀ x ∈ F, key x = key l → x = l := fun x hx hk => hF.identified x hx l hl hk
  refine traced_rebuild (K := {key l}) (g := (·.addBranch count)) (n := (t.find l).1.node)
    (fun f => ⟨rfl, rfl, rfl, rfl⟩) ?_ ?_ h (.mk ?_ hcs)
  · intro f hm x hx hk
    rw [hself x hx hk]
    exact (Span.diff_eq_end_iff _ _).mp (hf.passed f hm)
  · intro k hkn
    refine (hk k hkn).imp_left (fun hk => ?_)
    rwa [Holds, insertSplit_tips (hf.start_lt hr) hf.le_end] at hk
  · intro x hx hkx
    rw [hs]
    cases hk _ hkx with
    | inl hk => exact hsplit.here x hx hk
    | inr hk =>
      rw [hself x hx hk, insertSplit_span (hf.start_lt hr) hf.le_end]
      exact hf.le_mismatch hr

theorem insert_traced (hF : Family F) (hl : l ∈ F) (hr : t.root.Rooted)
    (h : t.root.All (Traced F)) (count : UInt32) :
    (t.insert l count).root.All (Traced F) := by
  have hf := found_find t l
  have hsplit := insertSplit_traced (l := l) hr h
  cases (hf.le_seq hr).lt_or_eq with
  | inl hlt =>
    -- the new child holds `l` and nothing else
    have hleaf : ∀ k, (⟨⟨(t.find l).2, seq l + 1, l, hlt⟩, count, count, []⟩ : Node L).Holds k →
        k = key l := by
      intro k hk
      rw [Holds, tips_eq, tipsOf_nil, add_zero, map_replicate] at hk
      rw [eq_of_mem_replicate hk]
      exact hF.tipKey_eq hl (LawfulLedger.mismatch_self l).ge
    rw [insert_root_suffix count hlt]
    refine traced_insertNode hF hl hr h ?_ ?_ ?_ count
    · rfl
    · intro k hk
      exact (holds_addChild hk).imp_right (hleaf k)
    · intro c hc
      cases List.mem_append.mp hc with
      | inl hc => exact hsplit.child hc
      | inr hc =>
        rw [List.mem_singleton.mp hc]
        refine .mk ?_ (fun d hd => absurd hd List.not_mem_nil)
        intro x hx hk
        rw [hF.identified x hx l hl (hleaf _ hk)]
        exact (LawfulLedger.mismatch_self l).ge
  | inr heq =>
    -- the node ends at `l`, and its tip stands for `l`
    have hown : tipKey ((insertSplit (t.find l).1.node (t.find l).2).span.end_,
        (insertSplit (t.find l).1.node (t.find l).2).span.ledger_) = key l := by
      rw [insertSplit_span (hf.start_lt hr) hf.le_end]
      simp only [heq]
      refine hF.tipKey_eq hl ?_
      rw [← heq]
      exact hf.le_mismatch hr
    rw [insert_root_exact count heq, insertNode, List.append_nil]
    refine traced_insertNode hF hl hr h ?_ ?_ ?_ count
    · rfl
    · intro k hk
      rw [← hown]
      exact holds_addSupport hk
    · intro c hc
      exact hsplit.child hc

end Insert

/-! ## `remove` and reordering -/

theorem mergeInto_traced {loc child : Node L} (hl : loc.Linked) (hcs : loc.children = [child])
    (h : loc.All (Traced F)) : (loc.mergeInto child).All (Traced F) := by
  have hmem : child ∈ loc.children := by rw [hcs]; exact List.mem_singleton_self _
  have hc := h.child hmem
  have hsp := mergeInto_span (hl child hmem)
  refine .mk ?_ (fun d hd => hc.child hd)
  intro x hx hk
  have hk' : child.Holds (key x) := by
    rw [Holds, tips_eq, hsp] at hk
    rw [Holds, tips_eq]
    exact hk
  rw [hsp]
  exact hc.here x hx hk'

theorem compress_traced (hl : (rebuild n fs).All Node.Sound)
    (h : (rebuild n fs).All (Traced F)) : (compress n fs).All (Traced F) := by
  have keep : ∀ {m m' : Node L} {gs : List (Frame L)}, m'.tips ≤ m.tips →
      (rebuild m gs).All (Traced F) → m'.All (Traced F) →
      (rebuild m' gs).All (Traced F) := by
    intro m m' gs ht hall hm'
    have := traced_rebuild (K := ∅) (g := fun f => f) (fun f => ⟨rfl, rfl, rfl, rfl⟩)
      (fun _ _ _ _ hk => absurd hk (Set.notMem_empty _)) (fun k hk => .inl (hk.of_le ht)) hall hm'
    rwa [List.map_id'] at this
  refine compress_rule
    (I := fun loc gs => (rebuild loc gs).All Node.Sound ∧ (rebuild loc gs).All (Traced F))
    (Q := fun r => r.All (Traced F)) ?_ ?_ ?_ fs n ⟨hl, h⟩
  · rintro loc gs ⟨_, hall⟩ _
    exact hall
  · rintro loc f gs ⟨hsound, hall⟩ ht hcs
    have hf := hall.of_rebuild_cons
    have hle : f.erased.tips ≤ (f.plug loc).tips := (erased_tips ht hcs).le
    refine ⟨erased_sound hsound ht hcs, keep (m := f.plug loc) hle hall (hf.erased ?_)⟩
    intro x hx hk
    exact hf.here x hx (hk.of_le hle)
  · rintro loc f gs child ⟨hsound, hall⟩ ht hcs
    have hf := hall.of_rebuild_cons
    have hloc := hsound.of_rebuild_cons.child (Frame.mem_plug.mpr (.inl rfl))
    have hle : (f.plug (loc.mergeInto child)).tips ≤ (f.plug loc).tips := by
      rw [Frame.tips_plug, Frame.tips_plug, mergeInto_tips hloc.here.1 ht hcs]
    refine ⟨merged_sound hsound ht hcs, keep (m := f.plug loc) hle hall (hf.plug ?_ ?_)⟩
    · intro x hx hk
      exact hf.here x hx (hk.of_le hle)
    · exact mergeInto_traced hloc.here.1 hcs (hf.child (Frame.mem_plug.mpr (.inl rfl)))

theorem remove_traced {t : LedgerTrie L} {l : L} (hr : t.root.Rooted) (hs : t.root.All Node.Sums)
    (h : t.root.All (Traced F)) (count : UInt32) :
    (t.remove l count).2.root.All (Traced F) := by
  by_cases hrm : Removable t l
  · have hf := found_find t l
    have hsound := hr.linked.and hs
    rw [← hf.root_eq] at h hsound
    have hn := Node.All.of_rebuild (n := (t.find l).1.node) h
    rw [remove_of_removable hrm]
    show ((t.find l).1.subSupport _).All _
    rw [subSupport_eq]
    have hle : ((t.find l).1.lowered (min count (t.find l).1.node.tipSupport)).node.tips ≤
        (t.find l).1.node.tips := by
      have hcount : min count (t.find l).1.node.tipSupport ≤ (t.find l).1.node.tipSupport :=
        Std.min_le_right
      have hsum : (Loc.lowered ⟨(t.find l).1.node, []⟩ _).root.tips + _ = (t.find l).1.node.tips :=
        lowered_tips hcount
      exact (le_add_right _ _).trans hsum.le
    refine compress_traced (lowered_sound hsound) ?_
    refine traced_rebuild (K := ∅) (g := (·.subBranch _)) (n := (t.find l).1.node)
      (fun f => ⟨rfl, rfl, rfl, rfl⟩) (fun _ _ _ _ hk => absurd hk (Set.notMem_empty _))
      (fun k hk => .inl (hk.of_le hle)) h (.mk ?_ (fun c hc => hn.child hc))
    intro x hx hk
    exact hn.here x hx (hk.of_le hle)
  · rw [remove_of_not_removable hrm]
    exact h

theorem Node.Reorder.traced (h : n.Reorder n') (hn : n.All (Traced F)) :
    n'.All (Traced F) := by
  have here : ∀ {a b : Node L}, a.Reorder b → a.Traced F → b.Traced F := by
    intro a b hab ha x hx hk
    rw [Holds, hab.tips_eq] at hk
    rw [show b.span = a.span from congrArg Prod.fst hab.label_eq]
    exact ha x hx hk
  induction h with
  | @perm s tip branch cs ds hp =>
    exact .mk (here (.perm hp) hn.here) (fun c hc => hn.child (hp.mem_iff.mpr hc))
  | @child f c c' hc ih =>
    exact hn.plug (here (.child hc) hn.here) (ih (hn.child (Frame.mem_plug.mpr (.inl rfl))))
  | trans _ _ ih ih' => exact ih' (ih hn)

end Ripple.LedgerTrie
