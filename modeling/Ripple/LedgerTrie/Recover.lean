import Ripple.LedgerTrie.Tracking

/-!
# Ripple.LedgerTrie.Recover

When `remove` finds the support of a ledger again, in a trie over ledgers that need not know all of
their ancestors.
-/

namespace Ripple.LedgerTrie

open Multiset
open Ledger (seq ancestor mismatch)

variable {L ID : Type} [Ledger L ID] {F : Set L}

/-! ## When the support of a ledger is found again -/

variable {l : L} {fs : List (Frame L)} {t : LedgerTrie L}

theorem findChild_skip {parents : List (Frame L)} {pos : Nat} {curr : Node L} {back : List (Node L)}
    (mid : List (Node L)) : ∀ front : List (Node L), (∀ c ∈ mid, c.span.diff l ≤ pos) →
      findChild l parents pos curr front (mid ++ back) =
        findChild l parents pos curr (front ++ mid) back := by
  induction mid with
  | nil => intro front _; rw [List.append_nil]; rfl
  | cons c mid ih =>
    intro front h
    rw [List.cons_append, findChild, if_neg (by have := h c List.mem_cons_self; omega),
      ih _ (fun d hd => h d (List.mem_cons_of_mem _ hd)), List.append_assoc]
    rfl

theorem findFrom_rebuild {gs : List (Frame L)} :
    ∀ {n : Node L}, (rebuild n fs).All Node.Linked → n.span.start_ < n.span.diff l →
      (∀ f ∈ fs, f.span.diff l = f.span.end_) →
      (∀ f ∈ fs, ∀ c ∈ f.front, c.span.diff l ≤ f.span.end_) →
      findFrom l gs ((rebuild n fs).span.diff l) (rebuild n fs) =
        findFrom l (fs ++ gs) (n.span.diff l) n := by
  induction fs with
  | nil => intro n _ _ _ _; rfl
  | cons f fs ih =>
    intro n hl hn hmatch hfront
    have hstart := linked_parent hl
    have hf := hmatch f List.mem_cons_self
    have hne := f.span.nonempty
    have hrest := ih (n := f.plug n) hl (by rw [Frame.plug_span, hf]; exact hne)
      (fun g hg => hmatch g (List.mem_cons_of_mem _ hg))
      (fun g hg => hfront g (List.mem_cons_of_mem _ hg))
    rw [rebuild, hrest, Frame.plug_span, hf, Frame.plug, findFrom, if_pos rfl,
      findChild_skip f.front [] (hfront f List.mem_cons_self), findChild, if_pos (by omega)]
    rfl

structure Node.Bears (n : Node L) (l : L) : Prop where
  end_eq : n.span.end_ = seq l + 1
  ancestor_eq : ancestor n.span.ledger_ (seq l) = Ledger.id l
  tip_pos : 0 < n.tipSupport

/-- Some node holds support for `l`, and no child in front of the way to it matches `l` further. -/
def Visible (t : LedgerTrie L) (l : L) : Prop :=
  ∃ loc : Loc L, loc.root = t.root ∧ loc.node.Bears l ∧
    ∀ f ∈ loc.parents, ∀ c ∈ f.front, c.span.diff l ≤ f.span.end_

/-- If any node holds support for `l`, then one that is not behind a sibling that matches `l`. -/
def Unshadowed (t : LedgerTrie L) (l : L) : Prop :=
  (∃ loc : Loc L, loc.root = t.root ∧ loc.node.Bears l) → Visible t l

theorem holds_rebuild {k : Nat × ID} :
    ∀ {n : Node L}, n.Holds k → (rebuild n fs).All (Node.Traced F) →
      ∀ f ∈ fs, ∀ x ∈ F, key x = k → f.span.end_ ≤ mismatch f.span.ledger_ x := by
  induction fs with
  | nil => intro n _ _ f hf; exact absurd hf List.not_mem_nil
  | cons g fs ih =>
    intro n hk h f hf x hx hxk
    have hplug : (g.plug n).Holds k := holds_plug.mpr (.inl hk)
    cases List.mem_cons.mp hf with
    | inl hf =>
      rw [hf]
      exact h.of_rebuild_cons.here x hx (hxk ▸ hplug)
    | inr hf => exact ih (n := g.plug n) hplug h f hf x hx hxk

theorem Removable.min_one (h : Removable t l) : (min 1 (t.find l).1.node.tipSupport).toNat = 1 := by
  have := UInt32.lt_iff_toNat_lt.mp h.2.2
  rw [toNat_min]
  simp only [UInt32.toNat_zero, UInt32.toNat_one] at this ⊢
  omega

theorem removable_iff_visible [LawfulLedger L] (hF : Family F) (hl : l ∈ F) (hr : t.root.Rooted)
    (h : t.root.All (Node.Traced F)) : Removable t l ↔ Visible t l := by
  constructor
  · intro hrm
    have hf := found_find t l
    obtain ⟨hend, hmis⟩ := hrm.reaches hr
    exact ⟨(t.find l).1, hf.root_eq, ⟨hend, hF.ancestor_of_mismatch l hl _ hmis, hrm.2.2⟩, hf.skipped⟩
  · rintro ⟨loc, hroot, ⟨hend, hid, htip⟩, hfront⟩
    have hlink := hr.linked
    rw [← hroot] at h hlink
    have hheld : loc.node.Holds (key l) := by
      refine mem_map.mpr ⟨_, Node.mem_tips.mpr (.inl ⟨?_, rfl⟩), ?_⟩
      · exact UInt32.pos_iff_ne_zero.mp htip
      · rw [tipKey, key, hend, Nat.add_sub_cancel, hid]
    have hnode := (Node.All.of_rebuild h).here l hl hheld
    have hdiff := (Span.diff_eq_end_iff _ _).mpr hnode
    have hne := loc.node.span.nonempty
    have hmatch : ∀ f ∈ loc.parents, f.span.diff l = f.span.end_ := fun f hm =>
      (Span.diff_eq_end_iff _ _).mpr (holds_rebuild hheld h f hm l hl rfl)
    have hkids : ∀ c ∈ loc.node.children, c.span.diff l ≤ loc.node.span.end_ := by
      intro c hc
      have hstart := (Node.All.of_rebuild hlink).here c hc
      have hle := LawfulLedger.mismatch_le_right c.span.ledger_ l
      by_contra hgt
      have := (Span.lt_diff_iff c.span l).mp (by omega)
      omega
    have hfind : t.find l = (loc, loc.node.span.end_) := by
      rw [find, ← hroot, Loc.root,
        findFrom_rebuild hlink (by rw [hdiff]; exact hne) hmatch hfront, List.append_nil, hdiff]
      obtain ⟨⟨span, tip, branch, children⟩, parents⟩ := loc
      have hskip : findChild l parents span.end_ ⟨span, tip, branch, children⟩ [] (children ++ []) =
          findChild l parents span.end_ ⟨span, tip, branch, children⟩ ([] ++ children) [] :=
        findChild_skip children [] hkids
      rw [List.append_nil] at hskip
      rw [findFrom, if_pos rfl, hskip, findChild]
    refine ⟨?_, ?_, ?_⟩
    · rw [hfind]
    · rw [hfind]
      simp only
      omega
    · rw [hfind]
      exact htip

/-! ## Runs -/

theorem exists_loc {n : Node L} : ∀ p ∈ n.tips, ∃ loc : Loc L, loc.root = n ∧
    0 < loc.node.tipSupport ∧ (loc.node.span.end_, loc.node.span.ledger_) = p := by
  induction n using Node.induct with
  | h n ih =>
    intro p hp
    rcases Node.mem_tips.mp hp with ⟨hne, rfl⟩ | ⟨c, hc, hpc⟩
    · exact ⟨⟨n, []⟩, rfl, UInt32.pos_iff_ne_zero.mpr hne, rfl⟩
    · obtain ⟨loc, hroot, htip, heq⟩ := ih c hc p hpc
      obtain ⟨f, rfl⟩ := exists_frame hc
      refine ⟨⟨loc.node, loc.parents ++ [f]⟩, ?_, htip, heq⟩
      rw [Loc.root, rebuild_append, ← hroot]
      rfl

inductive TrieOp (L : Type) where
  | insert (l : L)
  | remove (l : L)
  | getPreferred
deriving DecidableEq

/-- The calls `ops` on ledgers of `F` end in `t`, without overflow; `getPreferred` may reorder
children. -/
inductive Run (F : Set L) : List (TrieOp L) → LedgerTrie L → Prop where
  | make : Run F [] make
  | insert {ops : List (TrieOp L)} {t : LedgerTrie L} (l : L) : Run F ops t → l ∈ F →
      t.root.branchSupport.toNat + 1 < 2 ^ 32 → Run F (ops ++ [.insert l]) (t.insert l 1)
  | remove {ops : List (TrieOp L)} {t : LedgerTrie L} (l : L) : Run F ops t → l ∈ F →
      Run F (ops ++ [.remove l]) (t.remove l 1).2
  | getPreferred {ops : List (TrieOp L)} {t : LedgerTrie L} {root : Node L} : Run F ops t →
      t.root.Reorder root → Run F (ops ++ [.getPreferred]) { t with root := root }

section Runs

variable [DecidableEq L] [DecidableEq ID]

def inserted (l : L) (ops : List (TrieOp L)) : Nat := ops.count (.insert l)

def removed (l : L) (ops : List (TrieOp L)) : Nat := ops.count (.remove l)

/-- What a run keeps: the links and sums of the trie, `Traced`, and that no support is lost. -/
structure Tracked (F : Set L) (ops : List (TrieOp L)) (t : LedgerTrie L) : Prop where
  rooted : t.root.Rooted
  sums : t.root.All Node.Sums
  traced : t.root.All (Node.Traced F)
  small : t.root.tips.card < 2 ^ 32
  kept : ∀ l ∈ F, inserted l ops ≤ removed l ops + (t.root.tips.map tipKey).count (key l)

variable {ops : List (TrieOp L)} {t : LedgerTrie L}

theorem tracked_reorder (h : Tracked F ops t) {root : Node L} (hr : t.root.Reorder root) :
    Tracked F (ops ++ [.getPreferred]) { t with root := root } := by
  refine ⟨hr.rooted h.rooted, hr.sums h.sums, hr.traced h.traced, ?_, ?_⟩
  · rw [hr.tips_eq]
    exact h.small
  · intro x hx
    rw [hr.tips_eq]
    simpa [inserted, removed] using h.kept x hx

variable [LawfulLedger L]

variable {l : L}

theorem tracked_insert (hF : Family F) (h : Tracked F ops t) (hl : l ∈ F)
    (hlt : t.root.branchSupport.toNat + 1 < 2 ^ 32) :
    Tracked F (ops ++ [.insert l]) (t.insert l 1) := by
  rw [Node.branch_toNat h.sums h.small] at hlt
  have htips : (t.insert l 1).root.tips = _ := insert_tips h.rooted hlt
  obtain ⟨hroot, hsums⟩ := insert_rooted (l := l) h.rooted h.sums 1
  refine ⟨hroot, hsums, insert_traced hF hl h.rooted h.traced 1, ?_, ?_⟩
  · rw [htips, card_add, card_replicate]
    exact hlt
  · intro x hx
    have hkey := hF.tipKey_eq hl (insertTarget_mismatch (l := l) h.rooted)
    have hold := h.kept x hx
    rw [htips, map_add, map_replicate, hkey, count_add,
      count_replicate]
    simp only [inserted, removed, List.count_append, List.count_singleton] at hold ⊢
    by_cases hxl : l = x
    · subst hxl
      simp
      omega
    · simp [hxl]
      omega

theorem count_remove (hF : Family F) (hr : t.root.Rooted) (hs : t.root.All Node.Sums) {x : L}
    (hl : l ∈ F) (hx : x ∈ F) : (t.root.tips.map tipKey).count (key x) ≤
      ((t.remove l 1).2.root.tips.map tipKey).count (key x) + (if l = x then 1 else 0) := by
  by_cases hrm : Removable t l
  · obtain ⟨hend, hmis⟩ := hrm.reaches hr
    have hkey : tipKey ((t.find l).1.node.span.end_, (t.find l).1.node.span.ledger_) = key l := by
      rw [hend]
      exact hF.tipKey_eq hl hmis
    rw [← remove_tips hr hs hrm 1, hrm.min_one, map_add, map_replicate, hkey,
      count_add, count_replicate]
    by_cases hxl : l = x
    · simp [hxl]
    · have hne : key l ≠ key x := fun hk => hxl (hF.identified l hl x hx hk)
      simp [hne]
  · rw [remove_of_not_removable hrm]
    exact Nat.le_add_right _ _

theorem tracked_remove (hF : Family F) (h : Tracked F ops t) (hl : l ∈ F) :
    Tracked F (ops ++ [.remove l]) (t.remove l 1).2 := by
  obtain ⟨hroot, hsums⟩ := remove_rooted (l := l) h.rooted h.sums 1
  refine ⟨hroot, hsums, remove_traced h.rooted h.sums h.traced 1, ?_, ?_⟩
  · by_cases hrm : Removable t l
    · have := congrArg Multiset.card (remove_tips h.rooted h.sums hrm 1)
      rw [card_add] at this
      have := h.small
      omega
    · rw [remove_of_not_removable hrm]
      exact h.small
  · intro x hx
    have hold := h.kept x hx
    have hnew := count_remove hF h.rooted h.sums hl hx
    simp only [inserted, removed, List.count_append, List.count_singleton] at hold ⊢
    by_cases hxl : l = x
    · subst hxl
      simp at hnew ⊢
      omega
    · simp [hxl] at hnew ⊢
      omega

theorem Run.tracked (hF : Family F) (h : Run F ops t) : Tracked F ops t := by
  induction h with
  | make =>
    have hno : ∀ c ∈ (LedgerTrie.make : LedgerTrie L).root.children, False :=
      fun c hc => absurd hc List.not_mem_nil
    refine ⟨⟨rfl, rfl, .mk (fun c hc => (hno c hc).elim) (fun c hc => (hno c hc).elim)⟩,
      .mk rfl (fun c hc => (hno c hc).elim), .mk ?_ (fun c hc => (hno c hc).elim), ?_, ?_⟩
    · intro x _ hk
      simp [Node.Holds, LedgerTrie.make, Node.tips_eq] at hk
    · simp [LedgerTrie.make, Node.tips_eq]
    · intro x _
      simp [inserted]
  | insert l _ hl hlt ih => exact tracked_insert hF ih hl hlt
  | remove l _ hl ih => exact tracked_remove hF ih hl
  | getPreferred _ hr ih => exact tracked_reorder ih hr

theorem Run.remove_iff (hF : Family F) (h : Run F ops t) (hl : l ∈ F)
    (hmore : removed l ops < inserted l ops) : ((t.remove l 1).1 = true ∧
      (t.remove l 1).2.root.branchSupport.toNat + 1 = t.root.branchSupport.toNat) ↔
      Unshadowed t l := by
  have ht := h.tracked hF
  have hvis := removable_iff_visible hF hl ht.rooted ht.traced
  constructor
  · rintro ⟨htrue, _⟩ _
    exact hvis.mp ((remove_fst 1).mp htrue)
  · intro hun
    have hpos : 0 < (t.root.tips.map tipKey).count (key l) := by
      have := ht.kept l hl
      omega
    obtain ⟨p, hp, hk⟩ := mem_map.mp (count_pos.mp hpos)
    obtain ⟨loc, hroot, htip, heq⟩ := exists_loc p hp
    rw [← heq, tipKey, key, Prod.mk.injEq] at hk
    have hne := loc.node.span.nonempty
    have hend : loc.node.span.end_ = seq l + 1 := by
      have := hk.1
      omega
    have hrm := hvis.mpr (hun ⟨loc, hroot, hend, by rw [← hk.1]; exact hk.2, htip⟩)
    refine ⟨(remove_fst 1).mpr hrm, ?_⟩
    have hcard := congrArg Multiset.card (remove_tips ht.rooted ht.sums hrm 1)
    have hsmall := ht.small
    rw [card_add, card_replicate, hrm.min_one] at hcard
    rw [Node.branch_toNat ht.sums hsmall,
      Node.branch_toNat (remove_rooted ht.rooted ht.sums 1).2 (by omega), hcard]

end Runs

end Ripple.LedgerTrie
