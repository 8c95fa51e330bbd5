import Ripple.SHAMap.Map

/-!
# Ripple.SHAMap.Iterate

The iteration over a map, from `firstBelow`, `peekFirstItem` and `peekNextItem` of
`shamap/impl/SHAMap.cpp`. The position is a leaf with the stack of the inner nodes above it; the next
leaf is searched in the branches behind the one that the key of the present leaf selects.

* `remaining`: the items that a stack leaves to visit, behind a key.
* `forItems_eq`: a loop over a map whose leaves are on their branches visits its items, in order.
-/

namespace Ripple.SHAMap

open Trie List
open Labelled (depth)

variable {L D σ : Type} [Version L]

structure Cursor (L D : Type) where
  item : Key × Leaf D
  stack : List (Frame L D)

/-- Why a loop over the items does not come to its end: a `SHAMapMissingNode`, or too little fuel.
-/
inductive IterFault where
  | missingNode
  | outOfFuel

def firstBelow : Tree L D → ℕ → List (Frame L D) → Option (Cursor L D)
  | .nil, _, _ => none
  | .leaf k v, _, stack => some ⟨(k, v), stack⟩
  | .inner l ch, d, stack =>
    match branches ch with
    | [] => none
    | i :: _ => firstBelow (ch i) (depth l d + 1) (⟨l, ch, depth l d⟩ :: stack)

def peekFirstItem (root : Tree L D) : Option (Cursor L D) := firstBelow root 0 []

def branchesBehind (f : Frame L D) (id : Key) : List (Fin 16) :=
  (branches f.children).filter fun i => selectBranch f.depth id < i

/-- `SHAMap::peekNextItem`, for the stack under the present leaf. -/
def peekNextItem (id : Key) : List (Frame L D) → Except IterFault (Option (Cursor L D))
  | [] => .ok none
  | f :: stack =>
    match branchesBehind f id with
    | [] => peekNextItem id stack
    | i :: _ =>
      match firstBelow (f.children i) (f.depth + 1) (f :: stack) with
      | some c => .ok (some c)
      | none => .error .missingNode

/-- The loop `for (leaf = peekFirstItem (stack); leaf; leaf = peekNextItem (leaf key, stack))` with
the body `f`. -/
def forItems (f : σ → Key × Leaf D → σ) : ℕ → Option (Cursor L D) → σ → Except IterFault σ
  | _, none, s => .ok s
  | 0, some _, _ => .error .outOfFuel
  | n + 1, some c, s =>
    match peekNextItem c.item.1 c.stack with
    | .error e => .error e
    | .ok next => forItems f n next (f s c.item)

def iterate (fuel : ℕ) (root : Tree L D) : Except IterFault (List (Key × Leaf D)) :=
  forItems (fun seen p => seen ++ [p]) fuel (peekFirstItem root) []

/-! ## What is left to visit -/

def behind (f : Frame L D) (id : Key) : List (Key × Leaf D) :=
  (branchesBehind f id).flatMap fun i => (f.children i).items

def remaining (stack : List (Frame L D)) (id : Key) : List (Key × Leaf D) :=
  stack.flatMap fun f => behind f id

/-- The stack leads from the root to the node `t`, which hangs below the first `d` nibbles. -/
inductive Above : List (Frame L D) → ℕ → Tree L D → Prop
  | root {d : ℕ} {t : Tree L D} : Above [] d t
  | child {stack : List (Frame L D)} {d : ℕ} {l : L} {ch : Fin 16 → Tree L D} (i : Fin 16)
      (hstack : Above stack d (.inner l ch)) (hbr : Every Branching d (.inner l ch)) :
      Above (⟨l, ch, depth l d⟩ :: stack) (depth l d + 1) (ch i)

variable {stack : List (Frame L D)} {p : Key × Leaf D} {t : Tree L D} {d : ℕ} {js : List (Fin 16)}
  {i : Fin 16} {next : Option (Cursor L D)} {root : Tree L D} {fuel : ℕ}

omit [Version L] in
theorem remaining_congr {k k' : Key}
    (h : ∀ f ∈ stack, selectBranch f.depth k = selectBranch f.depth k') :
    remaining stack k = remaining stack k' := by
  induction stack with
  | nil => rfl
  | cons f stack ih =>
    have hrest := ih fun g hg => h g (mem_cons_of_mem f hg)
    simp only [remaining, flatMap_cons] at hrest ⊢
    rw [hrest, behind, behind, branchesBehind, branchesBehind, h f mem_cons_self]

theorem Above.select_eq (h : Above stack d t) {q : Key × Leaf D} (hp : p ∈ t.items)
    (hq : q ∈ t.items) : ∀ f ∈ stack, selectBranch f.depth p.1 = selectBranch f.depth q.1 := by
  induction h with
  | root => exact fun _ hf => absurd hf not_mem_nil
  | @child stack d l ch i _ hbr ih =>
    intro f hf
    obtain rfl | hf := mem_cons.mp hf
    · exact (hbr.1 i p hp).trans (hbr.1 i q hq).symm
    · exact ih (mem_items_inner.mpr ⟨i, hp⟩) (mem_items_inner.mpr ⟨i, hq⟩) f hf

def Leads (id : Key) : List (Frame L D) → Prop
  | [] => True
  | f :: stack =>
    (∀ i, ∀ q ∈ (f.children i).items, ∀ g ∈ stack, selectBranch g.depth id = selectBranch g.depth q.1) ∧
      Leads id stack

theorem Above.leads (h : Above stack d t) (hp : p ∈ t.items) : Leads p.1 stack := by
  induction h with
  | root => trivial
  | @child stack d l ch i hstack hbr ih =>
    have hp' : p ∈ (inner l ch).items := mem_items_inner.mpr ⟨i, hp⟩
    exact ⟨fun j q hq => hstack.select_eq hp' (mem_items_inner.mpr ⟨j, hq⟩), ih hp'⟩

omit [Version L] in
theorem branches_sorted (ch : Fin 16 → Tree L D) : (branches ch).Pairwise (· < ·) :=
  (pairwise_lt_finRange 16).filter _

theorem filter_behind_head (h : (i :: js).Pairwise (· < ·)) : (i :: js).filter (i < ·) = js := by
  rw [filter_cons_of_neg (by simp)]
  exact filter_eq_self.mpr fun j hj => decide_eq_true (rel_of_pairwise_cons h hj)

theorem filter_behind_next {xs : List (Fin 16)} (h : xs.Pairwise (· < ·)) {a : Fin 16}
    (hi : xs.filter (a < ·) = i :: js) : xs.filter (i < ·) = js := by
  have hai : a < i := by
    have : i ∈ xs.filter (a < ·) := hi ▸ mem_cons_self
    simpa using (mem_filter.mp this).2
  have htwice : xs.filter (i < ·) = (xs.filter (a < ·)).filter (i < ·) := by
    rw [filter_filter]
    refine filter_congr fun x _ => ?_
    by_cases hx : i < x
    · simp [hx, hai.trans hx]
    · simp [hx]
  rw [htwice, hi]
  exact filter_behind_head (hi ▸ h.filter _)

theorem firstBelow_spec (t : Tree L D) : ∀ {d : ℕ} {stack : List (Frame L D)} {c : Cursor L D},
    Every Branching d t → Above stack d t → firstBelow t d stack = some c →
    c.item ∈ t.items ∧ (∃ e, Above c.stack e (.leaf c.item.1 c.item.2)) ∧
      t.items ++ remaining stack c.item.1 = c.item :: remaining c.stack c.item.1 := by
  induction t with
  | nil => simp [firstBelow]
  | leaf k v =>
    intro d stack c _ habove hc
    obtain rfl : (⟨(k, v), stack⟩ : Cursor L D) = c := Option.some.inj hc
    exact ⟨by simp, ⟨d, habove⟩, rfl⟩
  | inner l ch ih =>
    intro d stack c hbr habove hc
    have hitems := items_eq_branches l ch
    rw [firstBelow] at hc
    cases hb : branches ch with
    | nil => simp [hb] at hc
    | cons i is =>
      simp only [hb] at hc
      obtain ⟨hmem, habove', hrest⟩ := ih i (hbr.2 i) (.child i habove hbr) hc
      refine ⟨mem_items_inner.mpr ⟨i, hmem⟩, habove', ?_⟩
      have hsel : selectBranch (depth l d) c.item.1 = i := hbr.1 i _ hmem
      have hbehind : branchesBehind ⟨l, ch, depth l d⟩ c.item.1 = is := by
        rw [branchesBehind, hsel, hb]
        exact filter_behind_head (hb ▸ branches_sorted ch)
      rw [← hrest, hitems, hb]
      simp only [remaining, flatMap_cons, behind, hbehind, append_assoc]

theorem peekNextItem_leads {id : Key} (h : Above stack d t) (hid : Leads id stack)
    (hnext : peekNextItem id stack = .ok next) : (next = none ∧ remaining stack id = []) ∨
    ∃ c, next = some c ∧ (∃ e, Above c.stack e (.leaf c.item.1 c.item.2)) ∧
      remaining stack id = c.item :: remaining c.stack c.item.1 := by
  induction h with
  | root => exact .inl ⟨(Except.ok.inj hnext).symm, rfl⟩
  | @child stack d l ch b hstack hbr ih =>
    rw [peekNextItem] at hnext
    cases hb : branchesBehind ⟨l, ch, depth l d⟩ id with
    | nil =>
      have hskip : remaining (⟨l, ch, depth l d⟩ :: stack) id = remaining stack id := by
        simp [remaining, behind, hb]
      simp only [hb] at hnext
      rw [hskip]
      exact ih hid.2 hnext
    | cons i is =>
      simp only [hb] at hnext
      split at hnext
      · next c hc =>
        obtain ⟨hmem, habove, hrest⟩ := firstBelow_spec (ch i) (hbr.2 i) (.child i hstack hbr) hc
        refine .inr ⟨c, (Except.ok.inj hnext).symm, habove, ?_⟩
        have hsel : selectBranch (depth l d) c.item.1 = i := hbr.1 i _ hmem
        have hbehind : branchesBehind ⟨l, ch, depth l d⟩ c.item.1 = is := by
          rw [branchesBehind, hsel]
          exact filter_behind_next (branches_sorted ch) hb
        have hup := remaining_congr (hid.1 i _ hmem)
        rw [← hrest]
        simp only [remaining, behind] at hup
        simp only [remaining, flatMap_cons, behind, hb, hbehind, append_assoc, hup]
      · simp at hnext

theorem peekNextItem_spec (h : Above stack d t) (hp : p ∈ t.items)
    (hnext : peekNextItem p.1 stack = .ok next) : (next = none ∧ remaining stack p.1 = []) ∨
    ∃ c, next = some c ∧ (∃ e, Above c.stack e (.leaf c.item.1 c.item.2)) ∧
      remaining stack p.1 = c.item :: remaining c.stack c.item.1 :=
  peekNextItem_leads h (h.leads hp) hnext

/-! ## Steps that do not fail -/

def SolidStack (stack : List (Frame L D)) : Prop :=
  ∀ f ∈ stack, ∀ i, Every Solid (f.depth + 1) (f.children i)

theorem firstBelow_isSome (t : Tree L D) : ∀ {d : ℕ} {stack : List (Frame L D)}, Every Solid d t →
    t.isNil = false → SolidStack stack → ∃ c, firstBelow t d stack = some c ∧ SolidStack c.stack := by
  induction t with
  | nil => simp
  | leaf k v => exact fun _ _ hstack => ⟨_, rfl, hstack⟩
  | inner l ch ih =>
    intro d stack hsolid _ hstack
    rw [firstBelow]
    cases hb : branches ch with
    | nil => exact absurd (by rw [items_eq_branches, hb]; rfl) hsolid.1
    | cons i is =>
      exact ih i (hsolid.2 i) (mem_branches.mp (by simp [hb])) (forall_mem_cons.mpr ⟨hsolid.2, hstack⟩)

theorem peekNextItem_ok (id : Key) (h : SolidStack stack) :
    ∃ next, peekNextItem id stack = .ok next ∧ ∀ c, next = some c → SolidStack c.stack := by
  induction stack with
  | nil => exact ⟨none, rfl, nofun⟩
  | cons f stack ih =>
    rw [peekNextItem]
    cases hb : branchesBehind f id with
    | nil => exact ih fun g hg => h g (mem_cons_of_mem f hg)
    | cons i is =>
      have hi : i ∈ branches f.children :=
        (mem_filter.mp (hb ▸ mem_cons_self : i ∈ branchesBehind f id)).1
      obtain ⟨c, hc, hstack⟩ := firstBelow_isSome (f.children i) (h f mem_cons_self i)
        (mem_branches.mp hi) h
      refine ⟨some c, by simp only [hc], fun c' heq => ?_⟩
      cases heq
      exact hstack

/-! ## Loops over the items -/

theorem forItems_remaining (f : σ → Key × Leaf D → σ) (n : ℕ) :
    ∀ (c : Cursor L D) {e : ℕ} {s r : σ}, Above c.stack e (.leaf c.item.1 c.item.2) →
      forItems f n (some c) s = .ok r → r = (c.item :: remaining c.stack c.item.1).foldl f s := by
  induction n with
  | zero => exact fun _ _ _ _ _ h => by simp [forItems] at h
  | succ n ih =>
    intro c e s r habove hr
    rw [forItems] at hr
    split at hr
    · simp at hr
    · next next hnext =>
      obtain ⟨rfl, hnone⟩ | ⟨c', rfl, ⟨e', habove'⟩, hrest⟩ :=
        peekNextItem_spec habove (p := c.item) (by simp) hnext
      · rw [hnone]
        simpa [forItems] using hr.symm
      · rw [hrest]
        exact ih c' habove' hr

theorem forItems_ends (f : σ → Key × Leaf D → σ) (n : ℕ) :
    ∀ (c : Cursor L D) {e : ℕ} (s : σ), Above c.stack e (.leaf c.item.1 c.item.2) → SolidStack c.stack →
      (remaining c.stack c.item.1).length < n → ∃ r, forItems f n (some c) s = .ok r := by
  induction n with
  | zero => exact fun _ _ _ _ _ h => absurd h (Nat.not_lt_zero _)
  | succ n ih =>
    intro c e s habove hsolid hn
    obtain ⟨next, hnext, hstack⟩ := peekNextItem_ok c.item.1 hsolid
    rw [forItems, hnext]
    obtain ⟨rfl, -⟩ | ⟨c', rfl, ⟨e', habove'⟩, hrest⟩ :=
      peekNextItem_spec habove (p := c.item) (by simp) hnext
    · exact ⟨f s c.item, by simp [forItems]⟩
    · rw [hrest, length_cons] at hn
      exact ih c' (f s c.item) habove' (hstack c' rfl) (by omega)

/-- A map that a loop can pass through: leaves on their branches, and no empty inner node but the
root. -/
structure Passable (root : Tree L D) : Prop where
  branching : Every Branching 0 root
  solid : ∀ l ch, root = .inner l ch → ∀ i, Every Solid (depth l 0 + 1) (ch i)

theorem forItems_spec (h : Every Branching 0 root) {f : σ → Key × Leaf D → σ} {s r : σ}
    (hr : forItems f fuel (peekFirstItem root) s = .ok r) :
    (peekFirstItem root = none ∧ r = s) ∨ r = root.items.foldl f s := by
  cases hc : peekFirstItem root with
  | none =>
    rw [hc, forItems] at hr
    exact .inl ⟨rfl, (Except.ok.inj hr).symm⟩
  | some c =>
    obtain ⟨-, ⟨e, habove⟩, hrest⟩ := firstBelow_spec root h .root hc
    rw [remaining, flatMap_nil, append_nil] at hrest
    rw [hc] at hr
    exact .inr (hrest ▸ forItems_remaining f fuel c habove hr)

theorem forItems_eq (h : Passable root) (f : σ → Key × Leaf D → σ)
    (hfuel : root.items.length ≤ fuel) (s : σ) :
    forItems f fuel (peekFirstItem root) s = .ok (root.items.foldl f s) := by
  cases hitems : root.items with
  | nil =>
    have hnone : peekFirstItem root = none := by
      refine Option.eq_none_iff_forall_ne_some.mpr fun c hc => ?_
      simpa [hitems] using (firstBelow_spec root h.branching .root hc).1
    simp [hnone, forItems]
  | cons p ps =>
    have hsolid : Every Solid 0 root := by
      cases root with
      | nil | leaf k v => trivial
      | inner l ch => exact ⟨by simp [Solid, hitems], h.solid l ch rfl⟩
    have hnil : root.isNil = false := isNil_eq_false_of_mem (hitems ▸ mem_cons_self)
    obtain ⟨c, hc, hstack⟩ := firstBelow_isSome root hsolid hnil fun _ hf => absurd hf not_mem_nil
    obtain ⟨-, ⟨e, habove⟩, hrest⟩ := firstBelow_spec root h.branching .root hc
    rw [remaining, flatMap_nil, append_nil] at hrest
    rw [hrest, length_cons] at hfuel
    obtain ⟨r, hr⟩ := forItems_ends f fuel c s habove hstack (by omega)
    have := forItems_remaining f fuel c habove hr
    rw [peekFirstItem, hc, hr, this, ← hrest, hitems]

theorem foldl_snoc (xs : List (Key × Leaf D)) :
    xs.foldl (fun seen p => seen ++ [p]) [] = xs := by
  simp [← flatMap_def]

theorem iterate_eq (h : Passable root) (hfuel : root.items.length ≤ fuel) :
    iterate fuel root = .ok root.items := by
  rw [iterate, forItems_eq h _ hfuel, foldl_snoc]

theorem iterate_spec (h : Every Branching 0 root) {xs : List (Key × Leaf D)}
    (hxs : iterate fuel root = .ok xs) : xs = [] ∨ xs = root.items := by
  obtain ⟨-, rfl⟩ | rfl := forItems_spec h hxs
  · exact .inl rfl
  · exact .inr (foldl_snoc _)

end Ripple.SHAMap
