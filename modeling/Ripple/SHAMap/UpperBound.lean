import Ripple.SHAMap.Convert

/-!
# Ripple.SHAMap.UpperBound

The order of an iteration and its start behind any key: `upper_bound` of `shamap/impl/SHAMap.cpp`, with the
order of keys from `basics/base_uint.h`.

The walk towards a key ends at a leaf or at an inner node. From there the search goes up the stack and takes
the first leaf of a branch behind the key. In version 2 the last node of the walk may have nibbles that the
key does not have; then all its leaves are behind the key or none is (`Guides`).

* `keyLt_iff`: the order by bytes is the order by nibbles.
-/

namespace Ripple.SHAMap

open Trie List
open Labelled (depth)
open Version (admits)

/-! ## The order of keys -/

/-- `operator<` of `base_uint`: the first byte in which the keys differ is smaller in `a`. -/
def keyLt (a b : Key) : Bool :=
  let i := equalBytes a b 32 0
  decide (i < 32) && decide (byte a i < byte b i)

theorem equalBytes_self (k : Key) (n : ℕ) : ∀ i, equalBytes k k n i = i + n := by
  induction n with
  | zero => exact fun i => rfl
  | succ n ih =>
    intro i
    rw [equalBytes, if_pos rfl, ih]
    omega

variable {a b : Key}

theorem before_of_byte_lt {i : ℕ} (hagree : Agree (2 * i) a b) (hlt : byte a i < byte b i) :
    Before a b := by
  have hnat : (byte a i).toNat < (byte b i).toNat := hlt
  have hhigh : selectBranch (2 * i) a ≤ selectBranch (2 * i) b := by
    rw [selectBranch_even, selectBranch_even, Fin.le_def, val_highHalf, val_highHalf]
    omega
  obtain hlow | heq := hhigh.lt_or_eq
  · exact ⟨2 * i, hagree, hlow⟩
  · refine ⟨2 * i + 1, hagree.succ heq, ?_⟩
    rw [selectBranch_even, selectBranch_even, Fin.ext_iff, val_highHalf, val_highHalf] at heq
    rw [digit_eq, digit_eq, selectBranch_odd, selectBranch_odd, Fin.lt_def, val_lowHalf, val_lowHalf]
    omega

theorem exists_byte_ne (hne : a ≠ b) :
    ∃ i, equalBytes a b 32 0 = i ∧ i < 32 ∧ Agree (2 * i) a b ∧ (byte a i < byte b i ∨ byte b i < byte a i) := by
  obtain ⟨hlt, heq, hbyte⟩ := equalBytes_spec hne 32 0 rfl (fun j hj => absurd hj (Nat.not_lt_zero _))
  refine ⟨_, rfl, hlt, (agree_two_mul_iff a b _).mpr heq, ?_⟩
  have hne' : (byte a (equalBytes a b 32 0)).toNat ≠ (byte b (equalBytes a b 32 0)).toNat :=
    fun h => hbyte (UInt8.toNat_inj.mp h)
  exact Nat.lt_or_gt_of_ne hne'

theorem before_or_before (hne : a ≠ b) : Before a b ∨ Before b a := by
  obtain ⟨i, -, -, hagree, hlt | hgt⟩ := exists_byte_ne hne
  · exact .inl (before_of_byte_lt hagree hlt)
  · exact .inr (before_of_byte_lt hagree.symm hgt)

theorem keyLt_iff (a b : Key) : keyLt a b = true ↔ Before a b := by
  by_cases hne : a = b
  · subst hne
    have hself : ¬Before a a := fun h => h.asymm h
    simp [keyLt, equalBytes_self, hself]
  · obtain ⟨i, hi, hlt, hagree, hbyte⟩ := exists_byte_ne hne
    simp only [keyLt, hi, hlt, decide_true, Bool.true_and, decide_eq_true_eq]
    refine ⟨before_of_byte_lt hagree, fun hbefore => ?_⟩
    exact hbyte.resolve_right fun hgt => hbefore.asymm (before_of_byte_lt hagree.symm hgt)

theorem Before.transfer {n : ℕ} {k k' id : Key} (hk : Agree n k k') (hid : ¬Agree n k id) :
    (Before id k → Before id k') ∧ (Before k id → Before k' id) := by
  constructor
  · rintro ⟨e, hagree, hlt⟩
    have he : e < n := by
      by_contra hge
      exact hid (hagree.symm.mono (not_lt.mp hge))
    exact ⟨e, hagree.trans (hk.mono he.le), hk e he ▸ hlt⟩
  · rintro ⟨e, hagree, hlt⟩
    have he : e < n := by
      by_contra hge
      exact hid (hagree.mono (not_lt.mp hge))
    exact ⟨e, (hk.mono he.le).symm.trans hagree, hk e he ▸ hlt⟩

/-! ## The search -/

section Search

variable {L D : Type} [Version L] (precedes : L → Key → Bool)

/-- The branches in which `upper_bound` looks for a leaf. `precedes`: the key is below the common
nibbles. -/
def branchesFrom (f : Frame L D) (id : Key) : List (Fin 16) :=
  if admits f.label id then branchesBehind f id
  else if precedes f.label id then branches f.children
  else []

/-- The loop of `upper_bound`, for the inner nodes of the stack. -/
def searchStack (id : Key) : List (Frame L D) → Except IterFault (Option (Cursor L D))
  | [] => .ok none
  | f :: stack =>
    match branchesFrom precedes f id with
    | [] => searchStack id stack
    | i :: _ =>
      match firstBelow (f.children i) (f.depth + 1) (f :: stack) with
      | some c => .ok (some c)
      | none => .error .missingNode

/-- The loop of `upper_bound`, from the end of the walk. -/
def searchWalk (id : Key) (w : Walk L D) : Except IterFault (Option (Cursor L D)) :=
  match w.node with
  | .leaf k v => if keyLt id k then .ok (some ⟨(k, v), w.stack⟩) else searchStack precedes id w.stack
  | .inner l ch => searchStack precedes id (⟨l, ch, w.depth⟩ :: w.stack)
  -- the walk from an inner node does not end at a null pointer
  | .nil => searchStack precedes id w.stack

def upperBound (root : Tree L D) (id : Key) : Except IterFault (Option (Cursor L D)) :=
  searchWalk precedes id (walkTowardsKey id root 0 [])

variable {precedes}

/-- Where a node admits a key, the key has the nibbles of its items; otherwise they are all on one
side. -/
structure Guides (precedes : L → Key → Bool) (d : ℕ) (l : L) (ch : Fin 16 → Tree L D) : Prop where
  agree : ∀ id, admits l id = true → (∀ p ∈ (inner l ch).items, Agree d id p.1) →
    ∀ p ∈ (inner l ch).items, Agree (depth l d) id p.1
  front : ∀ id, admits l id = false → precedes l id = true → ∀ p ∈ (inner l ch).items, Before id p.1
  behind : ∀ id, admits l id = false → precedes l id = false → ∀ p ∈ (inner l ch).items, Before p.1 id

def itemsBehind (id : Key) (xs : List (Key × Leaf D)) : List (Key × Leaf D) :=
  xs.filter fun p => keyLt id p.1

variable {xs : List (Key × Leaf D)} {id : Key} {ch : Fin 16 → Tree L D} {d : ℕ} {l : L}
  {stack : List (Frame L D)} {t root : Tree L D} {next : Option (Cursor L D)}

omit [Version L] in
theorem itemsBehind_eq_self (h : ∀ p ∈ xs, Before id p.1) : itemsBehind id xs = xs :=
  filter_eq_self.mpr fun p hp => (keyLt_iff id p.1).mpr (h p hp)

omit [Version L] in
theorem itemsBehind_eq_nil (h : ∀ p ∈ xs, ¬Before id p.1) : itemsBehind id xs = [] :=
  filter_eq_nil_iff.mpr fun p hp => (keyLt_iff id p.1).not.mpr (h p hp)

theorem flatMap_from {α : Type} {b : Fin 16} {own : List α} {f : Fin 16 → List α} {xs : List (Fin 16)}
    (hsorted : xs.Pairwise (· < ·)) (hb : b ∈ xs) :
    (xs.flatMap fun i => if i < b then [] else if i = b then own else f i) =
      own ++ (xs.filter (b < ·)).flatMap f := by
  induction xs with
  | nil => exact absurd hb not_mem_nil
  | cons x xs ih =>
    obtain ⟨hhead, htail⟩ := pairwise_cons.mp hsorted
    rw [flatMap_cons]
    obtain rfl | hmem := mem_cons.mp hb
    · have hrest : (xs.flatMap fun i => if i < b then [] else if i = b then own else f i) = xs.flatMap f := by
        refine flatMap_congr fun i hi => ?_
        have hlt := hhead i hi
        rw [if_neg (not_lt.mpr hlt.le), if_neg hlt.ne']
      rw [if_neg (lt_irrefl b), if_pos rfl, hrest, filter_behind_head hsorted]
    · have hlt := hhead b hmem
      rw [if_pos hlt, nil_append, ih htail hmem, filter_cons_of_neg (by simp [hlt.le])]

theorem itemsBehind_inner (hbr : Branching d l ch)
    (hagree : ∀ p ∈ (inner l ch).items, Agree (depth l d) id p.1) :
    itemsBehind id (inner l ch).items =
      itemsBehind id (ch (selectBranch (depth l d) id)).items ++ behind ⟨l, ch, depth l d⟩ id := by
  set b := selectBranch (depth l d) id with hb
  -- the part of each branch
  have hpart : ∀ i : Fin 16, itemsBehind id (ch i).items =
      if i < b then [] else if i = b then itemsBehind id (ch b).items else (ch i).items := by
    intro i
    have hsel : ∀ p ∈ (ch i).items, Agree (depth l d) id p.1 ∧ selectBranch (depth l d) p.1 = i := fun p hp =>
      ⟨hagree p (mem_items_inner.mpr ⟨i, hp⟩), hbr i p hp⟩
    split
    · next hlt =>
      refine itemsBehind_eq_nil fun p hp hbefore => ?_
      refine hbefore.asymm ⟨depth l d, (hsel p hp).1.symm, ?_⟩
      rw [digit_eq, digit_eq, (hsel p hp).2]
      exact hlt
    · next hge =>
      split
      · next heq => rw [heq]
      · next hne =>
        refine itemsBehind_eq_self fun p hp => ⟨depth l d, (hsel p hp).1, ?_⟩
        rw [digit_eq, digit_eq, (hsel p hp).2]
        exact lt_of_le_of_ne (not_lt.mp hge) (Ne.symm hne)
  have hbehind : behind ⟨l, ch, depth l d⟩ id =
      ((List.finRange 16).filter (b < ·)).flatMap fun i => (ch i).items := by
    rw [behind, branchesBehind, ← hb, branches, filter_comm]
    exact flatMap_not_nil _ _
  rw [hbehind, ← flatMap_from (pairwise_lt_finRange 16) (mem_finRange b), items, itemsBehind,
    filter_flatMap]
  exact flatMap_congr fun i _ => hpart i

/-- A search has come to a position in front of which these items lie. -/
inductive Stops : Option (Cursor L D) → List (Key × Leaf D) → Prop
  | none : Stops none []
  | some {c : Cursor L D} {e : ℕ} : Above c.stack e (.leaf c.item.1 c.item.2) → SolidStack c.stack →
      Stops (some c) (c.item :: remaining c.stack c.item.1)

theorem peekNextItem_stops (h : Above stack d t) (hid : Leads id stack) (hsolid : SolidStack stack) :
    ∃ next, peekNextItem id stack = .ok next ∧ Stops next (remaining stack id) := by
  obtain ⟨next, hnext, hstack⟩ := peekNextItem_ok id hsolid
  refine ⟨next, hnext, ?_⟩
  obtain ⟨rfl, hnone⟩ | ⟨c, rfl, ⟨e, habove⟩, hrest⟩ := peekNextItem_leads h hid hnext
  · rw [hnone]
    exact .none
  · rw [hrest]
    exact .some habove (hstack c rfl)

theorem searchStack_eq (h : ∀ f ∈ stack, admits f.label id = true) :
    searchStack precedes id stack = peekNextItem id stack := by
  induction stack with
  | nil => rfl
  | cons f stack ih =>
    have hfrom : branchesFrom precedes f id = branchesBehind f id := if_pos (h f mem_cons_self)
    rewrite [searchStack, peekNextItem, hfrom, ih fun g hg => h g (mem_cons_of_mem f hg)]
    cases branchesBehind f id with
    | nil => rfl
    | cons i is => rfl

/-- The walk towards `id` has come to the node `t`, which hangs below the first `d` nibbles. -/
structure Walking (id : Key) (stack : List (Frame L D)) (d : ℕ) (t : Tree L D) : Prop where
  above : Above stack d t
  leads : Leads id stack
  fits : ∀ q ∈ t.items, ∀ g ∈ stack, selectBranch g.depth id = selectBranch g.depth q.1
  agree : ∀ q ∈ t.items, Agree d id q.1
  admitted : ∀ f ∈ stack, admits f.label id = true
  solid : SolidStack stack

theorem Walking.stops (h : Walking id stack d t) :
    ∃ next, searchStack precedes id stack = .ok next ∧ Stops next (remaining stack id) := by
  rw [searchStack_eq h.admitted]
  exact peekNextItem_stops h.above h.leads h.solid

theorem Walking.down (h : Walking id stack d (.inner l ch)) (hbr : Every Branching d (.inner l ch))
    (hagree : ∀ p ∈ (inner l ch).items, Agree (depth l d) id p.1) (hadmits : admits l id = true)
    (hsolid : ∀ i, Every Solid (depth l d + 1) (ch i)) :
    Walking id (⟨l, ch, depth l d⟩ :: stack) (depth l d + 1) (ch (selectBranch (depth l d) id)) where
  above := .child _ h.above hbr
  leads := ⟨fun i q hq => h.fits q (mem_items_inner.mpr ⟨i, hq⟩), h.leads⟩
  fits q hq := forall_mem_cons.mpr ⟨(hbr.1 _ q hq).symm, h.fits q (mem_items_inner.mpr ⟨_, hq⟩)⟩
  agree q hq := (hagree q (mem_items_inner.mpr ⟨_, hq⟩)).succ (hbr.1 _ q hq).symm
  admitted := forall_mem_cons.mpr ⟨hadmits, h.admitted⟩
  solid := forall_mem_cons.mpr ⟨hsolid, h.solid⟩

theorem searchStack_front (h : Walking id stack d (.inner l ch))
    (hbr : Every Branching d (.inner l ch)) (hsolid : ∀ i, Every Solid (depth l d + 1) (ch i))
    (hadmits : admits l id = false) (hprecedes : precedes l id = true) :
    ∃ next, searchStack precedes id (⟨l, ch, depth l d⟩ :: stack) = .ok next ∧
      Stops next ((inner l ch).items ++ remaining stack id) := by
  have hfrom : branchesFrom precedes ⟨l, ch, depth l d⟩ id = branches ch := by
    simp [branchesFrom, hadmits, hprecedes]
  rw [searchStack, hfrom]
  cases hb : branches ch with
  | nil =>
    have hnone : (inner l ch).items = [] := by rw [items_eq_branches, hb, flatMap_nil]
    rw [hnone]
    exact h.stops
  | cons i is =>
    have hstack : SolidStack (⟨l, ch, depth l d⟩ :: stack) := forall_mem_cons.mpr ⟨hsolid, h.solid⟩
    obtain ⟨c, hc, hcs⟩ := firstBelow_isSome (ch i) (hsolid i) (mem_branches.mp (by simp [hb])) hstack
    have hbelow : firstBelow (.inner l ch) d stack = some c := by
      rw [firstBelow, hb]
      exact hc
    obtain ⟨hmem, ⟨e, habove⟩, hrest⟩ := firstBelow_spec (inner l ch) hbr h.above hbelow
    refine ⟨some c, by simp only [hc], ?_⟩
    rw [remaining_congr (h.fits c.item hmem), hrest]
    exact .some habove hcs

theorem searchWalk_spec (t : Tree L D) : ∀ {d : ℕ} {stack : List (Frame L D)},
    Every Branching d t → Every (Guides precedes) d t →
    (∀ l ch, t = .inner l ch → ∀ i, Every Solid (depth l d + 1) (ch i)) → Walking id stack d t →
    ∃ next, searchWalk precedes id (walkTowardsKey id t d stack) = .ok next ∧
      Stops next (itemsBehind id t.items ++ remaining stack id) := by
  induction t with
  | nil => exact fun _ _ _ h => h.stops
  | leaf k v =>
    intro d stack _ _ _ h
    rw [walkTowardsKey, searchWalk]
    by_cases hlt : keyLt id k = true
    · have hitem : itemsBehind id (leaf k v : Tree L D).items = [(k, v)] :=
        itemsBehind_eq_self fun p hp => by
          obtain rfl := mem_singleton.mp hp
          exact (keyLt_iff id k).mp hlt
      have hmem : (k, v) ∈ (leaf k v : Tree L D).items := mem_singleton_self _
      refine ⟨_, if_pos hlt, ?_⟩
      rw [hitem, remaining_congr (h.fits _ hmem)]
      exact .some h.above h.solid
    · have hitem : itemsBehind id (leaf k v : Tree L D).items = [] :=
        itemsBehind_eq_nil fun p hp => by
          obtain rfl := mem_singleton.mp hp
          exact (keyLt_iff id k).not.mp hlt
      dsimp only
      rw [hitem, if_neg hlt]
      exact h.stops
  | inner l ch ih =>
    intro d stack hbr hguide hsolid h
    have hsolid' := hsolid l ch rfl
    rw [walkTowardsKey]
    cases hadmits : admits l id with
    | true =>
      have hagree := hguide.1.agree id hadmits h.agree
      have hdown := h.down hbr hagree hadmits hsolid'
      have hsplit : itemsBehind id (inner l ch).items ++ remaining stack id =
          itemsBehind id (ch (selectBranch (depth l d) id)).items ++
            remaining (⟨l, ch, depth l d⟩ :: stack) id := by
        rw [itemsBehind_inner hbr.1 hagree, append_assoc]
        rfl
      rw [hsplit]
      cases hnil : (ch (selectBranch (depth l d) id)).isNil with
      | false =>
        simp only [Bool.not_false, Bool.and_self, if_true]
        refine ih _ (hbr.2 _) (hguide.2 _) (fun l' ch' heq => ?_) hdown
        have := hsolid' (selectBranch (depth l d) id)
        rw [heq] at this
        exact this.2
      | true =>
        have hnone : (ch (selectBranch (depth l d) id)).items = [] := by
          rw [isNil_iff.mp hnil]
          rfl
        simp only [Bool.not_true, Bool.and_false, Bool.false_eq_true, if_false, searchWalk, hnone]
        exact hdown.stops
    | false =>
      simp only [Bool.false_and, Bool.false_eq_true, if_false, searchWalk]
      cases hprecedes : precedes l id with
      | true =>
        rw [itemsBehind_eq_self (hguide.1.front id hadmits hprecedes)]
        exact searchStack_front h hbr hsolid' hadmits hprecedes
      | false =>
        have hnone : itemsBehind id (inner l ch).items = [] :=
          itemsBehind_eq_nil fun p hp hbefore => hbefore.asymm (hguide.1.behind id hadmits hprecedes p hp)
        have hfrom : branchesFrom precedes ⟨l, ch, depth l d⟩ id = [] := by
          simp [branchesFrom, hadmits, hprecedes]
        rw [hnone, searchStack, hfrom]
        exact h.stops

theorem upperBound_spec (h : Passable root) (hguide : Every (Guides precedes) 0 root) (id : Key) :
    ∃ next, upperBound precedes root id = .ok next ∧ Stops next (itemsBehind id root.items) := by
  have hwalk : Walking id [] 0 root :=
    ⟨.root, trivial, fun _ _ _ hg => absurd hg not_mem_nil, fun _ _ => agree_zero _ _,
      fun _ hf => absurd hf not_mem_nil, fun _ hf => absurd hf not_mem_nil⟩
  obtain ⟨next, hnext, hstops⟩ := searchWalk_spec root h.branching hguide h.solid hwalk
  rw [remaining, flatMap_nil, append_nil] at hstops
  exact ⟨next, hnext, hstops⟩

theorem Stops.forItems_eq (h : Stops next xs) {fuel : ℕ} (hfuel : xs.length ≤ fuel) :
    forItems (fun seen p => seen ++ [p]) fuel next [] = .ok xs := by
  cases h with
  | none => simp [forItems]
  | @some c e habove hsolid =>
    rw [length_cons] at hfuel
    obtain ⟨r, hr⟩ := forItems_ends (fun seen p => seen ++ [p]) fuel c [] habove hsolid (by omega)
    rw [hr, forItems_remaining _ fuel c habove hr, foldl_snoc]

theorem Stops.head? (h : Stops next xs) : next.map Cursor.item = xs.head? := by
  cases h <;> rfl

/-! ## Maps in order -/

/-- What an iteration over a map is asked to do. -/
structure InOrder (precedes : L → Key → Bool) (root : Tree L D) : Prop where
  /-- The items are those that a lookup finds. -/
  found : ∀ k v, (k, v) ∈ root.items ↔ findKey root k = some v
  sorted : root.items.Pairwise fun p q => keyLt p.1 q.1 = true
  /-- From the first item on, all of them. -/
  iterates : ∀ fuel, root.items.length ≤ fuel → iterate fuel root = .ok root.items
  /-- From `upper_bound` on, those with a greater key. -/
  upper : ∀ id, ∃ next, upperBound precedes root id = .ok next ∧
    (next = none ↔ ∀ p ∈ root.items, keyLt id p.1 = false) ∧
    (∀ c, next = some c → c.item ∈ root.items ∧ keyLt id c.item.1 = true ∧
      ∀ p ∈ root.items, keyLt id p.1 = true → p = c.item ∨ keyLt c.item.1 p.1 = true) ∧
    ∀ fuel, root.items.length ≤ fuel → forItems (fun seen p => seen ++ [p]) fuel next [] =
      .ok (root.items.filter fun p => keyLt id p.1)

theorem inOrder (hfound : ∀ k v, (k, v) ∈ root.items ↔ findKey root k = some v)
    (hsorted : root.items.Pairwise fun p q => Before p.1 q.1) (hpass : Passable root)
    (hguide : Every (Guides precedes) 0 root) : InOrder precedes root where
  found := hfound
  sorted := hsorted.imp fun hpq => (keyLt_iff _ _).mpr hpq
  iterates _ hfuel := iterate_eq hpass hfuel
  upper id := by
    obtain ⟨next, hnext, hstops⟩ := upperBound_spec hpass hguide id
    have hhead := hstops.head?
    have hmem : ∀ p, p ∈ itemsBehind id root.items ↔ p ∈ root.items ∧ keyLt id p.1 = true := fun p => by
      rw [itemsBehind, mem_filter]
    refine ⟨next, hnext, ?_, ?_, fun fuel hfuel => ?_⟩
    · rw [← Option.map_eq_none_iff, hhead, head?_eq_none_iff, itemsBehind, filter_eq_nil_iff]
      simp
    · rintro c rfl
      obtain ⟨rest, hrest⟩ : ∃ rest, itemsBehind id root.items = c.item :: rest :=
        head?_eq_some_iff.mp hhead.symm
      obtain ⟨hin, hgt⟩ := (hmem c.item).mp (hrest ▸ mem_cons_self)
      refine ⟨hin, hgt, fun p hp hgt' => ?_⟩
      have hp' : p ∈ c.item :: rest := hrest ▸ (hmem p).mpr ⟨hp, hgt'⟩
      have hpair : (c.item :: rest).Pairwise fun p q => Before p.1 q.1 := hrest ▸ hsorted.filter _
      obtain rfl | hlater := mem_cons.mp hp'
      · exact .inl rfl
      · exact .inr ((keyLt_iff _ _).mpr (rel_of_pairwise_cons hpair hlater))
    · exact hstops.forItems_eq ((length_filter_le _ _).trans hfuel)

end Search

/-! ## The two versions -/

variable {D : Type}

namespace V1

theorem guides (d : ℕ) (l : Unit) (ch : Fin 16 → Map D) : Guides (fun _ _ => false) d l ch where
  agree _ _ h := h
  front _ hadmits := absurd hadmits (by simp [admits])
  behind _ hadmits := absurd hadmits (by simp [admits])

end V1

namespace V2

/-- `id < n->common()`. -/
def precedesCommon (l : InnerNodeV2) (id : Key) : Bool := keyLt id l.common

theorem Linked.guides {d : ℕ} {l : InnerNodeV2} {ch : Fin 16 → Map D} (h : Linked d l ch) :
    Guides precedesCommon d l ch where
  agree id hadmits _ p hp := ((admits_iff l id).mp hadmits).symm.trans (h.agree hp)
  front id hadmits hprecedes p hp := by
    have hid : ¬Agree l.depth l.common id := fun hagree => by simp [(admits_iff l id).mpr hagree] at hadmits
    exact (Before.transfer (h.agree hp) hid).1 ((keyLt_iff _ _).mp hprecedes)
  behind id hadmits hprecedes p hp := by
    have hid : ¬Agree l.depth l.common id := fun hagree => by simp [(admits_iff l id).mpr hagree] at hadmits
    have hne : l.common ≠ id := fun heq => hid (heq ▸ fun _ _ => rfl)
    refine (Before.transfer (h.agree hp) hid).2 ((before_or_before hne).resolve_right fun hbefore => ?_)
    simp [precedesCommon, (keyLt_iff _ _).mpr hbefore] at hprecedes

end V2

/-- After any calls an iteration yields every item once, in order, and `upper_bound` is the item
with the smallest greater key, from which the iteration goes on. -/
theorem ordered_iteration (calls : List (Op D)) :
    InOrder (fun _ _ => false) (V1.run calls) ∧ InOrder V2.precedesCommon (V2.run calls) := by
  constructor
  · obtain ⟨-, hdense⟩ := V1.run_shape calls
    refine inOrder ?_ (V1.items_sorted hdense) (V1.passable hdense) (hdense.mono fun d l ch _ => V1.guides d l ch)
    intro k v
    rw [findKey_eq_some, walk_ends_at (fun _ _ _ h => h.1) (fun _ _ _ _ _ _ => rfl) hdense]
  · have hcanonical := V2.canonical_run calls
    refine inOrder ?_ (V2.items_sorted hcanonical) (V2.passable hcanonical)
      (hcanonical.linked.mono fun _ _ _ h => h.guides)
    intro k v
    rw [findKey_eq_some, hcanonical.walk_iff]

end Ripple.SHAMap
