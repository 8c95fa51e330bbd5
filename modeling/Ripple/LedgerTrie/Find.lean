import Ripple.LedgerTrie.Basic

/-!
# Ripple.LedgerTrie.Find

Nodes and pointers, and what `find` guarantees, for any ledger type whose `mismatch` is bounded by the two ledgers
(`LawfulLedger`). Exact ancestry is not needed here: these facts also hold for ledgers that know
only part of their history.

* `Span.*`: the arithmetic of `clamp`, `from_` and `before`.
-/

namespace Ripple.LedgerTrie

open List
open Ledger (seq ancestor mismatch)

section Zipper

variable {L : Type}

theorem Node.induct {P : Node L → Prop} (h : ∀ n : Node L, (∀ c ∈ n.children, P c) → P n)
    (n : Node L) : P n :=
  @Node.rec L P (fun cs => ∀ c ∈ cs, P c)
    (fun s t b cs ih => h ⟨s, t, b, cs⟩ ih)
    (fun _ hc => absurd hc not_mem_nil)
    (fun _ _ hd hds c hc => (mem_cons.mp hc).elim (fun e => e ▸ hd) (hds c)) n

variable (f : Frame L)

@[simp] theorem Frame.plug_span (n : Node L) : (f.plug n).span = f.span := rfl
@[simp] theorem Frame.plug_tip (n : Node L) : (f.plug n).tipSupport = f.tipSupport := rfl
@[simp] theorem Frame.plug_branch (n : Node L) : (f.plug n).branchSupport = f.branchSupport := rfl
@[simp] theorem Frame.plug_children (n : Node L) :
    (f.plug n).children = f.front ++ n :: f.back := rfl

variable {n c : Node L} {cs : List (Node L)}

theorem Frame.mem_plug {f : Frame L} : c ∈ (f.plug n).children ↔ c = n ∨ c ∈ f.front ++ f.back := by
  simp only [Frame.plug_children, mem_append, mem_cons]
  tauto

theorem exists_frame (hc : c ∈ n.children) : ∃ f : Frame L, f.plug c = n := by
  obtain ⟨s, tip, branch, cs⟩ := n
  obtain ⟨front, back, rfl⟩ := append_of_mem hc
  exact ⟨⟨s, tip, branch, front, back⟩, rfl⟩

/-! ## Predicates on all nodes of a subtree -/

inductive Node.All (P : Node L → Prop) : Node L → Prop where
  | mk {n : Node L} : P n → (∀ c ∈ n.children, All P c) → All P n

namespace Node.All

variable {P Q : Node L → Prop}

variable {n : Node L} {fs : List (Frame L)}

theorem here (h : n.All P) : P n := by
  cases h with
  | mk hp _ => exact hp

theorem child {c : Node L} (h : n.All P) (hc : c ∈ n.children) : c.All P := by
  cases h with
  | mk _ hcs => exact hcs c hc

theorem mono (hPQ : ∀ n, P n → Q n) (h : n.All P) : n.All Q := by
  induction h with
  | mk hp _ ih => exact .mk (hPQ _ hp) ih

theorem and (hP : n.All P) (hQ : n.All Q) : n.All (fun n => P n ∧ Q n) := by
  induction hP with
  | mk hp _ ih => exact .mk ⟨hp, hQ.here⟩ (fun c hc => ih c hc (hQ.child hc))

theorem of_rebuild : ∀ {n : Node L}, (rebuild n fs).All P → n.All P := by
  induction fs with
  | nil => intro n h; exact h
  | cons f fs ih =>
    intro n h
    exact (ih (n := f.plug n) h).child (Frame.mem_plug.mpr (.inl rfl))

theorem of_rebuild_cons {f : Frame L} (h : (rebuild n (f :: fs)).All P) : (f.plug n).All P :=
  of_rebuild (n := f.plug n) h

theorem plug {f : Frame L} {n' : Node L} (h : (f.plug n).All P) (hp : P (f.plug n'))
    (hn' : n'.All P) : (f.plug n').All P := by
  refine .mk hp ?_
  intro c hc
  rcases Frame.mem_plug.mp hc with rfl | hc
  · exact hn'
  · exact h.child (Frame.mem_plug.mpr (.inr hc))

theorem rebuild_map {R : Node L → Node L → Prop} {g : Frame L → Frame L}
    (hg : ∀ f, (g f).front = f.front ∧ (g f).back = f.back) : ∀ {n n' : Node L},
      (∀ f ∈ fs, ∀ m m', R m m' → P (f.plug m) →
        P ((g f).plug m') ∧ R (f.plug m) ((g f).plug m')) →
      R n n' → (rebuild n fs).All P → n'.All P → (rebuild n' (fs.map g)).All P := by
  induction fs with
  | nil => intro n n' _ _ _ h; exact h
  | cons f fs ih =>
    intro n n' hstep hR hall hn'
    have hf : (f.plug n).All P := of_rebuild_cons hall
    obtain ⟨hP, hR'⟩ := hstep f mem_cons_self n n' hR hf.here
    refine ih (fun k hk => hstep k (mem_cons_of_mem _ hk)) hR' hall (.mk hP ?_)
    intro c hc
    rcases Frame.mem_plug.mp hc with rfl | hc
    · exact hn'
    · rw [(hg f).1, (hg f).2] at hc
      exact hf.child (Frame.mem_plug.mpr (.inr hc))

end Node.All

/-! ## Tips -/

mutual

/-- The supported tips below a node, each as the end of its span and the ledger of the span. -/
def Node.tips : Node L → Multiset (Nat × L)
  | ⟨span, tip, _, children⟩ =>
    Multiset.replicate tip.toNat (span.end_, span.ledger_) + tipsOf children

def tipsOf : List (Node L) → Multiset (Nat × L)
  | [] => 0
  | c :: cs => c.tips + tipsOf cs

end

theorem tipsOf_eq (cs : List (Node L)) : tipsOf cs = (cs.map Node.tips).sum := by
  induction cs with
  | nil => rfl
  | cons c cs ih => simp [tipsOf, ih]

theorem Node.tips_eq (n : Node L) :
    n.tips = Multiset.replicate n.tipSupport.toNat (n.span.end_, n.span.ledger_) +
      tipsOf n.children := by
  obtain ⟨s, t, b, cs⟩ := n; rfl

@[simp] theorem tipsOf_nil : tipsOf ([] : List (Node L)) = 0 := rfl

@[simp] theorem tipsOf_cons (c : Node L) (cs : List (Node L)) :
    tipsOf (c :: cs) = c.tips + tipsOf cs := rfl

@[simp] theorem tipsOf_append (cs ds : List (Node L)) : tipsOf (cs ++ ds) = tipsOf cs + tipsOf ds := by
  simp [tipsOf_eq]

theorem tipsOf_perm {ds : List (Node L)} (h : cs.Perm ds) : tipsOf cs = tipsOf ds := by
  rw [tipsOf_eq, tipsOf_eq]
  exact (h.map _).sum_eq

theorem tips_le_tipsOf (h : c ∈ cs) : c.tips ≤ tipsOf cs := by
  obtain ⟨front, back, rfl⟩ := append_of_mem h
  rw [tipsOf_append, tipsOf_cons]
  exact (Multiset.le_add_right _ _).trans (Multiset.le_add_left _ _)

theorem mem_tipsOf {x : Nat × L} : x ∈ tipsOf cs ↔ ∃ c ∈ cs, x ∈ c.tips := by
  induction cs with
  | nil => simp
  | cons c cs ih => simp [ih]

theorem Node.mem_tips {p : Nat × L} : p ∈ n.tips ↔
    n.tipSupport ≠ 0 ∧ p = (n.span.end_, n.span.ledger_) ∨ ∃ c ∈ n.children, p ∈ c.tips := by
  rw [Node.tips_eq, Multiset.mem_add, mem_tipsOf, Multiset.mem_replicate]
  simp [← UInt32.toNat_inj]

def Frame.rest : Multiset (Nat × L) :=
  Multiset.replicate f.tipSupport.toNat (f.span.end_, f.span.ledger_) +
    (tipsOf f.front + tipsOf f.back)

theorem Frame.tips_plug (n : Node L) : (f.plug n).tips = n.tips + f.rest := by
  rw [Node.tips_eq, Frame.plug_children, tipsOf_append, tipsOf_cons, Frame.rest]
  simp only [Frame.plug_tip, Frame.plug_span]
  abel

theorem tips_rebuild (fs : List (Frame L)) :
    ∀ n : Node L, (rebuild n fs).tips = n.tips + (fs.map Frame.rest).sum := by
  induction fs with
  | nil => intro n; simp [rebuild]
  | cons f fs ih =>
    intro n
    rw [rebuild, ih, Frame.tips_plug, map_cons, sum_cons, add_assoc]

theorem rebuild_append (fs gs : List (Frame L)) :
    ∀ n : Node L, rebuild n (fs ++ gs) = rebuild (rebuild n fs) gs := by
  induction fs with
  | nil => intro n; rfl
  | cons f fs ih => intro n; exact ih (f.plug n)

theorem rebuild_span (fs : List (Frame L)) :
    ∀ n n' : Node L, n'.span = n.span → (rebuild n' fs).span = (rebuild n fs).span := by
  induction fs with
  | nil => intro n n' h; exact h
  | cons f fs ih => intro n n' _; exact ih _ _ rfl

/-! ## Branch support adds up -/

def Node.Sums (n : Node L) : Prop :=
  n.branchSupport = n.tipSupport + (n.children.map Node.branchSupport).sum

theorem card_tipsOf_mod (h : ∀ c ∈ cs, c.branchSupport = UInt32.ofNat c.tips.card) :
    (cs.map Node.branchSupport).sum = UInt32.ofNat (tipsOf cs).card := by
  induction cs with
  | nil => rfl
  | cons c cs ih =>
    rw [map_cons, sum_cons, tipsOf_cons, Multiset.card_add, UInt32.ofNat_add,
      h c mem_cons_self, ih (fun d hd => h d (mem_cons_of_mem _ hd))]

theorem Node.branch_eq_card (h : n.All Node.Sums) : n.branchSupport = UInt32.ofNat n.tips.card := by
  induction h with
  | @mk n hs _ ih =>
    rw [hs, card_tipsOf_mod ih, Node.tips_eq, Multiset.card_add, Multiset.card_replicate,
      UInt32.ofNat_add, UInt32.ofNat_toNat]

theorem Node.branch_toNat (h : n.All Node.Sums) (hlt : n.tips.card < 2 ^ 32) :
    n.branchSupport.toNat = n.tips.card := by
  rw [n.branch_eq_card h, UInt32.toNat_ofNat_of_lt' hlt]

end Zipper

/-- The bounds on `mismatch` that `LedgerTrie` relies on. -/
class LawfulLedger (L : Type) {ID : outParam Type} [Ledger L ID] : Prop where
  genesis_seq : seq (Ledger.makeGenesis : L) = 0
  mismatch_pos : ∀ a b : L, 0 < mismatch a b
  mismatch_le_left : ∀ a b : L, mismatch a b ≤ seq a + 1
  mismatch_le_right : ∀ a b : L, mismatch a b ≤ seq b + 1
  mismatch_self : ∀ a : L, mismatch a a = seq a + 1

variable {L ID : Type} [Ledger L ID]

namespace Span

theorem diff_le_end (s : Span L) (l : L) : s.diff l ≤ s.end_ := by
  simp only [diff, clamp]; omega

theorem diff_eq_end_iff (s : Span L) (l : L) : s.diff l = s.end_ ↔ s.end_ ≤ mismatch s.ledger_ l := by
  have := s.nonempty
  simp only [diff, clamp]; omega

theorem lt_diff_iff (s : Span L) (l : L) : s.start_ < s.diff l ↔ s.start_ < mismatch s.ledger_ l := by
  have := s.nonempty
  simp only [diff, clamp]; omega

variable {s : Span L} {l : L} {d : Nat}

theorem diff_le_mismatch (h : s.start_ < s.diff l) : s.diff l ≤ mismatch s.ledger_ l := by
  have := s.nonempty
  simp only [diff, clamp] at h ⊢; omega

theorem diff_eq_mismatch (h1 : s.start_ < s.diff l) (h2 : s.diff l < s.end_) :
    s.diff l = mismatch s.ledger_ l := by
  simp only [diff, clamp] at h1 h2 ⊢; omega

theorem from_eq_none (h : s.end_ ≤ d) : s.from_ d = none := by
  have hn := s.nonempty
  have hle : ¬ s.clamp d < s.clamp s.end_ := by simp only [clamp]; omega
  simp only [from_, sub, dif_neg hle]

theorem from_eq_some (h1 : s.start_ ≤ d) (h2 : d < s.end_) :
    s.from_ d = some ⟨d, s.end_, s.ledger_, h2⟩ := by
  have hn := s.nonempty
  have hd : s.clamp d = d := by simp only [clamp]; omega
  have he : s.clamp s.end_ = s.end_ := by simp only [clamp]; omega
  simp only [from_, sub, hd, he, dif_pos h2]

theorem before_eq_some (h1 : s.start_ < d) (h2 : d ≤ s.end_) :
    s.before d = some ⟨s.start_, d, s.ledger_, h1⟩ := by
  have hn := s.nonempty
  have hd : s.clamp d = d := by simp only [clamp]; omega
  have hs : s.clamp s.start_ = s.start_ := by simp only [clamp]; omega
  simp only [before, sub, hd, hs, dif_pos h1]

theorem merge_eq {a b : Span L} (h : b.start_ = a.end_) :
    a.merge b = ⟨a.start_, b.end_, b.ledger_, by have := a.nonempty; have := b.nonempty; omega⟩ := by
  have ha := a.nonempty
  have hb := b.nonempty
  have hmin : min a.start_ b.start_ = a.start_ := by omega
  simp only [merge, if_pos (show a.end_ < b.end_ by omega), hmin]

theorem ofLedger_from (l : L) (d : Nat) :
    (ofLedger l).from_ d = if h : d < seq l + 1 then some ⟨d, seq l + 1, l, h⟩ else none := by
  split
  · rename_i h
    exact from_eq_some (Nat.zero_le d) h
  · rename_i h
    exact from_eq_none (by simp only [ofLedger]; omega)

end Span

/-- The state of the search for `l` at a node: every node above it matches to its end, and no child
in front of the chosen ones matched. -/
structure Search (l : L) (parents : List (Frame L)) (pos : Nat) (n : Node L) : Prop where
  pos_eq : pos = n.span.diff l
  passed : ∀ f ∈ parents, f.span.diff l = f.span.end_
  skipped : ∀ f ∈ parents, ∀ c ∈ f.front, c.span.diff l ≤ f.span.end_
  entered : ∀ f ∈ parents.head?, f.span.end_ < pos

/-- What the search for `l` from `root` returns: a pointer and a sequence number. -/
structure Found (l : L) (root : Node L) (r : Loc L × Nat) : Prop
    extends Search l r.1.parents r.2 r.1.node where
  root_eq : r.1.root = root
  stuck : r.2 = r.1.node.span.end_ → ∀ c ∈ r.1.node.children, c.span.diff l ≤ r.2

variable {f : Frame L} {l : L} {r : Loc L × Nat} {root : Node L}

theorem Search.enter {parents : List (Frame L)} {pos : Nat} {child : Node L}
    (h : Search l parents pos (f.plug child)) (hend : pos = f.span.end_)
    (hfront : ∀ c ∈ f.front, c.span.diff l ≤ pos) (hgt : child.span.diff l > pos) :
    Search l (f :: parents) (child.span.diff l) child := by
  refine ⟨rfl, ?_, ?_, ?_⟩
  · intro g hg
    rcases mem_cons.mp hg with rfl | hg
    · exact h.pos_eq.symm.trans hend
    · exact h.passed g hg
  · intro g hg
    rcases mem_cons.mp hg with rfl | hg
    · intro c hc
      rw [← hend]
      exact hfront c hc
    · exact h.skipped g hg
  · intro g hg
    simp only [head?_cons, Option.mem_def, Option.some.injEq] at hg
    subst hg
    rw [← hend]
    exact hgt

-- the two statements follow the two functions; in the second, the children already passed over
-- are in `front` and none of them matches further than `pos`
mutual

theorem found_findFrom (l : L) (parents : List (Frame L)) (pos : Nat) :
    ∀ n : Node L, Search l parents pos n →
      Found l (rebuild n parents) (findFrom l parents pos n)
  | ⟨span, tip, branch, children⟩, h => by
    rw [findFrom]
    split
    · rename_i hend
      exact found_findChild l parents pos ⟨span, tip, branch, children⟩ [] children rfl h hend
        (fun c hc => absurd hc not_mem_nil)
    · rename_i hne
      exact ⟨h, rfl, fun hend => absurd hend hne⟩

theorem found_findChild (l : L) (parents : List (Frame L)) (pos : Nat) (curr : Node L)
    (front : List (Node L)) :
    ∀ back : List (Node L), curr.children = front ++ back → Search l parents pos curr →
      pos = curr.span.end_ → (∀ c ∈ front, c.span.diff l ≤ pos) →
      Found l (rebuild curr parents) (findChild l parents pos curr front back)
  | [], hcs, h, _, hfront => by
    rw [findChild]
    refine ⟨h, rfl, fun _ c hc => ?_⟩
    rw [hcs, append_nil] at hc
    exact hfront c hc
  | child :: back, hcs, h, hend, hfront => by
    rw [findChild]
    split
    · rename_i hgt
      have hplug : (Frame.mk curr.span curr.tipSupport curr.branchSupport front back).plug child
          = curr := by
        obtain ⟨s, t, b, cs⟩ := curr
        simp only at hcs
        simp only [Frame.plug, hcs]
      rw [← hplug] at h
      have hfound := found_findFrom l _ _ child (h.enter hend hfront hgt)
      rwa [rebuild, hplug] at hfound
    · rename_i hle
      refine found_findChild l parents pos curr (front ++ [child]) back ?_ h hend ?_
      · rw [hcs, append_assoc]
        rfl
      · intro c hc
        rcases mem_append.mp hc with hc | hc
        · exact hfront c hc
        · rw [mem_singleton.mp hc]
          exact not_lt.mp hle

end

theorem found_find (t : LedgerTrie L) (l : L) : Found l t.root (t.find l) :=
  found_findFrom l [] _ t.root
    ⟨rfl, fun f hf => absurd hf not_mem_nil, fun f hf => absurd hf not_mem_nil,
      fun f hf => by simp at hf⟩

theorem Found.all {P : Node L → Prop} (h : Found l root r) (hall : root.All P) : r.1.node.All P := by
  rw [← h.root_eq] at hall
  exact .of_rebuild hall

theorem Found.le_end (h : Found l root r) : r.2 ≤ r.1.node.span.end_ := by
  rw [h.pos_eq]; exact Span.diff_le_end _ _

/-! ## Children start where their parent ends -/

def Node.Linked (n : Node L) : Prop := ∀ c ∈ n.children, c.span.start_ = n.span.end_

structure Node.Rooted (root : Node L) : Prop where
  start_eq : root.span.start_ = 0
  end_eq : root.span.end_ = 1
  linked : root.All Node.Linked

theorem linked_parent {n : Node L} {fs : List (Frame L)} (h : (rebuild n (f :: fs)).All Node.Linked) :
    n.span.start_ = f.span.end_ :=
  h.of_rebuild_cons.here n (Frame.mem_plug.mpr (.inl rfl))

variable [LawfulLedger L]

theorem Found.start_lt (h : Found l root r) (hr : root.Rooted) : r.1.node.span.start_ < r.2 := by
  obtain ⟨⟨n, parents⟩, d⟩ := r
  cases parents with
  | nil =>
    -- the root: every ledger matches it
    have hroot : n = root := h.root_eq
    subst hroot
    have hd : d = n.span.diff l := h.pos_eq
    have hm := LawfulLedger.mismatch_pos n.span.ledger_ l
    show n.span.start_ < d
    rw [hd, Span.lt_diff_iff, hr.start_eq]
    exact hm
  | cons f fs =>
    have hl := hr.linked
    rw [← h.root_eq] at hl
    show n.span.start_ < d
    rw [linked_parent hl]
    exact h.entered f (by simp)

theorem Found.le_seq (h : Found l root r) (hr : root.Rooted) : r.2 ≤ seq l + 1 := by
  have hs := h.start_lt hr
  rw [h.pos_eq] at hs ⊢
  exact (Span.diff_le_mismatch hs).trans (LawfulLedger.mismatch_le_right _ _)

theorem Found.le_mismatch (h : Found l root r) (hr : root.Rooted) :
    r.2 ≤ mismatch r.1.node.span.ledger_ l := by
  have hs := h.start_lt hr
  rw [h.pos_eq] at hs ⊢
  exact Span.diff_le_mismatch hs

end Ripple.LedgerTrie
