import Ripple.SHAMap.Delta

/-!
# Ripple.SHAMap.Difference

What `SHAMap::compare` reports.
-/

namespace Ripple.SHAMap

open Trie List
open Labelled (depth)

variable {L D H : Type} {xs ys : List (Key × Leaf D)} {es : Delta D} {e : Key × DeltaItem D} {k : Key}

/-! ## The entries of a key -/

def dataOf (xs : List (Key × Leaf D)) (k : Key) : Option D :=
  (xs.find? fun p => p.1 = k).map fun p => p.2.data

theorem dataOf_cons (p : Key × Leaf D) (xs : List (Key × Leaf D)) (k : Key) :
    dataOf (p :: xs) k = if p.1 = k then some p.2.data else dataOf xs k := by
  rw [dataOf, find?_cons]
  by_cases hk : p.1 = k
  · simp [hk]
  · simp [hk, dataOf]

theorem dataOf_eq_none : dataOf xs k = none ↔ ∀ p ∈ xs, p.1 ≠ k := by
  simp [dataOf]

theorem dataOf_eq_some (hnodup : (xs.map Prod.fst).Nodup) {x : D} :
    dataOf xs k = some x ↔ ∃ v, (k, v) ∈ xs ∧ v.data = x := by
  induction xs with
  | nil => simp [dataOf]
  | cons p xs ih =>
    rw [map_cons, nodup_cons] at hnodup
    rw [dataOf_cons]
    by_cases hk : p.1 = k
    · subst hk
      have hnot : ∀ v, (p.1, v) ∉ xs := fun v hin => hnodup.1 (mem_map.mpr ⟨_, hin, rfl⟩)
      simp [hnot, Prod.ext_iff]
    · have hnot : ∀ v, (k, v) ≠ p := fun v h => hk (congrArg Prod.fst h.symm)
      rw [if_neg hk, ih hnodup.2]
      simp [hnot]

theorem dataOf_perm (h : xs.Perm ys) (hnodup : (xs.map Prod.fst).Nodup)
    (k : Key) : dataOf xs k = dataOf ys k := by
  ext x
  have hnodup' : (ys.map Prod.fst).Nodup := (h.map _).nodup_iff.mp hnodup
  rw [dataOf_eq_some hnodup, dataOf_eq_some hnodup']
  simp only [h.mem_iff]

def entriesAt (es : Delta D) (k : Key) : Delta D := es.filter fun e => e.1 = k

@[simp] theorem entriesAt_nil (k : Key) : entriesAt ([] : Delta D) k = [] := rfl

theorem entriesAt_cons (e : Key × DeltaItem D) (es : Delta D) (k : Key) :
    entriesAt (e :: es) k = if e.1 = k then e :: entriesAt es k else entriesAt es k := by
  rw [entriesAt, filter_cons]
  by_cases hk : e.1 = k
  · simp [hk, entriesAt]
  · simp [hk, entriesAt]

theorem mem_entriesAt : e ∈ entriesAt es k ↔ e ∈ es ∧ e.1 = k := by
  simp [entriesAt]

def itemData : Option (Key × D) → Key → Option D
  | none, _ => none
  | some p, k => if p.1 = k then some p.2 else none

@[simp] theorem itemData_none (k : Key) : itemData (none : Option (Key × D)) k = none := rfl

@[simp] theorem itemData_self (p : Key × D) : itemData (some p) p.1 = some p.2 := if_pos rfl

theorem itemData_of_ne {p : Key × D} (h : p.1 ≠ k) : itemData (some p) k = none := if_neg h

variable [DecidableEq D] [Zero H] [DecidableEq H]

def wanted (k : Key) (item : DeltaItem D) : Delta D := if item.1 = item.2 then [] else [(k, item)]

@[simp] theorem wanted_same (k : Key) (x : Option D) : wanted k (x, x) = [] := if_pos rfl

theorem wanted_of_ne {x y : Option D} (h : x ≠ y) : wanted k (x, y) = [(k, (x, y))] := if_neg h

theorem mem_wanted {item : DeltaItem D} :
    e ∈ wanted k item ↔ e = (k, item) ∧ item.1 ≠ item.2 := by
  rw [wanted]
  split
  · next h => simp [h]
  · next h => simp [h]

variable (isFirstMap : Bool)

theorem wanted_sides {item other : Option D} (h : item ≠ other) :
    wanted k (sides isFirstMap item other) = [(k, sides isFirstMap item other)] := by
  cases isFirstMap with
  | true => exact wanted_of_ne h
  | false => exact wanted_of_ne h.symm

@[simp] theorem wanted_sides_same (k : Key) (isFirstMap : Bool) (x : Option D) :
    wanted k (sides isFirstMap x x) = [] := by
  cases isFirstMap with
  | true | false => exact wanted_same k x

theorem entriesAt_walkEntries (k : Key) :
    ∀ {other : Option (Key × D)}, (xs.map Prod.fst).Nodup →
    entriesAt (walkEntries isFirstMap other xs) k =
      wanted k (sides isFirstMap (dataOf xs k) (itemData other k)) := by
  induction xs with
  | nil =>
    intro other _
    have hnone : dataOf ([] : List (Key × Leaf D)) k = none := rfl
    cases other with
    | none => exact (wanted_sides_same k isFirstMap none).symm
    | some other =>
      rw [walkEntries, entriesAt_cons, entriesAt_nil, hnone]
      by_cases hk : other.1 = k
      · subst hk
        rw [if_pos rfl, itemData_self, wanted_sides isFirstMap (by simp)]
      · rw [if_neg hk, itemData_of_ne hk, wanted_sides_same]
  | cons p xs ih =>
    obtain ⟨k', v⟩ := p
    intro other hnodup
    rw [map_cons, nodup_cons] at hnodup
    have hgone : dataOf xs k' = none :=
      dataOf_eq_none.mpr fun p hp hk => hnodup.1 (mem_map.mpr ⟨p, hp, hk⟩)
    -- an entry for the leaf, when the item that is left has another key
    have hown : ∀ (item : Option D) (rest : Option (Key × D)), some v.data ≠ item → itemData rest k' = none →
        k' = k → entriesAt ((k', sides isFirstMap (some v.data) item) :: walkEntries isFirstMap rest xs) k =
          wanted k (sides isFirstMap (some v.data) item) := by
      rintro item rest hne hrest rfl
      rw [entriesAt_cons, if_pos rfl, ih hnodup.2, hgone, hrest, wanted_sides_same, wanted_sides isFirstMap hne]
    rw [dataOf_cons]
    cases other with
    | none =>
      rw [walkEntries]
      by_cases hk : k' = k
      · rw [if_pos hk, itemData_none, hown none none (by simp) rfl hk]
      · rw [if_neg hk, entriesAt_cons, if_neg hk, ih hnodup.2]
    | some other =>
      rw [walkEntries]
      by_cases hother : k' = other.1
      · subst hother
        rw [if_neg (not_not.mpr rfl)]
        by_cases hdata : v.data = other.2
        · rw [if_neg (not_not.mpr hdata), ih hnodup.2]
          by_cases hk : other.1 = k
          · subst hk
            rw [if_pos rfl, hgone, itemData_self, hdata, itemData_none, wanted_sides_same, wanted_sides_same]
          · rw [if_neg hk, itemData_of_ne hk, itemData_none]
        · rw [if_pos hdata]
          by_cases hk : other.1 = k
          · rw [hown (some other.2) none (by simpa using hdata) rfl hk, if_pos hk, ← hk, itemData_self]
          · rw [entriesAt_cons, if_neg hk, if_neg hk, ih hnodup.2, itemData_of_ne hk, itemData_none]
      · rw [if_pos hother]
        by_cases hk : k' = k
        · have hitem : itemData (some other) k' = none := itemData_of_ne (Ne.symm hother)
          rw [hown none (some other) (by simp) hitem hk, if_pos hk, ← hk, hitem]
        · rw [entriesAt_cons, if_neg hk, if_neg hk, ih hnodup.2]

/-! ## Where items meet -/

section Meet

variable [Version L]

def pathTo (k : Key) : Tree L D → ℕ → List (Fin 16)
  | .nil, _ => []
  | .leaf _ _, _ => []
  | .inner l ch, d => selectBranch (depth l d) k :: pathTo k (ch (selectBranch (depth l d) k)) (depth l d + 1)

/-- One of the ways to the key follows the other as long as it lasts. -/
def Meets (k : Key) (t : Tree L D) (d : ℕ) (t' : Tree L D) (d' : ℕ) : Prop :=
  pathTo k t d <+: pathTo k t' d' ∨ pathTo k t' d' <+: pathTo k t d

structure DescribesAt (k : Key) (t : Tree L D) (d : ℕ) (t' : Tree L D) (d' : ℕ) (es : Delta D) : Prop where
  met : (dataOf t.items k ≠ none → dataOf t'.items k ≠ none → Meets k t d t' d') →
    (entriesAt es k).Perm (wanted k (dataOf t.items k, dataOf t'.items k))
  apart : dataOf t.items k ≠ none → dataOf t'.items k ≠ none → ¬Meets k t d t' d' →
    entriesAt es k ≠ [] ∧ ∀ e ∈ entriesAt es k, e.2.1 = none ∨ e.2.2 = none

variable {t t' : Tree L D} {d d' : ℕ} {ch : Fin 16 → Tree L D} {l : L} {ch' : Fin 16 → Tree L D}
  {l' : L} {hashing : Hashing L D H} {a b : Tree L D}

theorem DescribesAt.of_meets
    (hmeets : dataOf t.items k ≠ none → dataOf t'.items k ≠ none → Meets k t d t' d')
    (h : (entriesAt es k).Perm (wanted k (dataOf t.items k, dataOf t'.items k))) :
    DescribesAt k t d t' d' es where
  met _ := h
  apart hx hy hnot := absurd (hmeets hx hy) hnot

section

omit [DecidableEq D]

theorem dataOf_inner (h : Every Branching d (inner l ch)) (k : Key) :
    dataOf (inner l ch).items k = dataOf (ch (selectBranch (depth l d) k)).items k := by
  have hnodup := nodup_keys (fun _ _ _ hb => hb) h
  have hchild := nodup_keys (fun _ _ _ hb => hb) (h.2 (selectBranch (depth l d) k))
  ext x
  rw [dataOf_eq_some hnodup, dataOf_eq_some hchild]
  refine exists_congr fun v => and_congr_left fun _ => ?_
  exact ⟨fun hk => h.1.mem_child hk rfl, fun hk => mem_items_inner.mpr ⟨_, hk⟩⟩

theorem dataOf_other (h : Branching d l ch) {i : Fin 16} (hi : i ≠ selectBranch (depth l d) k) :
    dataOf (ch i).items k = none := by
  refine dataOf_eq_none.mpr fun p hp hk => hi ?_
  rw [← h i p hp, hk]
  rfl

theorem pathTo_eq : ∀ {d d' : ℕ}, Every Branching d t → Every Branching d' t →
    dataOf t.items k ≠ none → pathTo k t d = pathTo k t d' := by
  induction t with
  | nil | leaf k' v => exact fun _ _ _ => rfl
  | inner l ch ih =>
    intro d d' h h' hk
    have hsame : selectBranch (depth l d) k = selectBranch (depth l d') k := by
      by_contra hne
      refine hk ((dataOf_inner h k).trans ?_)
      exact dataOf_other h'.1 hne
    rw [dataOf_inner h] at hk
    rw [pathTo, pathTo, ← hsame]
    exact congrArg (_ :: ·) (ih _ (h.2 _) (h'.2 _) hk)

end

theorem flatMap_perm_single {α : Type} {n : ℕ} {f : Fin n → List α} {m : Fin n} (h : ∀ i, i ≠ m → f i = []) :
    ((List.finRange n).flatMap f).Perm (f m) := by
  have hperm := (perm_cons_erase (mem_finRange m)).flatMap_right f
  have hrest : ((List.finRange n).erase m).flatMap f = [] :=
    flatMap_eq_nil_iff.mpr fun i hi => h i ((nodup_finRange n).mem_erase_iff.mp hi).1
  rwa [flatMap_cons, hrest, append_nil] at hperm

theorem describesAt_inner (h : Every Branching d (inner l ch))
    (h' : Every Branching d' (inner l' ch')) {own : Fin 16 → Delta D}
    (hown : ∀ i, DescribesAt k (ch i) (depth l d + 1) (ch' i) (depth l' d' + 1) (own i))
    (hes : es.Perm ((List.finRange 16).flatMap own)) :
    DescribesAt k (inner l ch) d (inner l' ch') d' es := by
  have hat : (entriesAt es k).Perm ((List.finRange 16).flatMap fun i => entriesAt (own i) k) := by
    have := hes.filter fun e => e.1 = k
    rwa [filter_flatMap] at this
  have hx := dataOf_inner h k
  have hy := dataOf_inner h' k
  -- a branch without the key says nothing about it
  have hquiet : ∀ i, dataOf (ch i).items k = none → dataOf (ch' i).items k = none → entriesAt (own i) k = [] := by
    intro i hi hi'
    have := (hown i).met fun hne => absurd hi hne
    rw [hi, hi', wanted_same] at this
    exact this.eq_nil
  -- one branch has all that is known of the key
  have hsingle : ∀ m, (∀ i, i ≠ m → dataOf (ch i).items k = none ∧ dataOf (ch' i).items k = none) →
      (entriesAt es k).Perm (entriesAt (own m) k) := fun m hm =>
    hat.trans (flatMap_perm_single fun i hi => hquiet i (hm i hi).1 (hm i hi).2)
  by_cases hsame : selectBranch (depth l d) k = selectBranch (depth l' d') k
  · have hperm := hsingle (selectBranch (depth l d) k) fun i hi =>
      ⟨dataOf_other h.1 hi, dataOf_other h'.1 (hsame ▸ hi)⟩
    rw [← hsame] at hy
    have hmeets : Meets k (inner l ch) d (inner l' ch') d' ↔
        Meets k (ch (selectBranch (depth l d) k)) (depth l d + 1)
          (ch' (selectBranch (depth l d) k)) (depth l' d' + 1) := by
      simp only [Meets, pathTo, ← hsame, cons_prefix_cons, true_and]
    constructor
    · intro hm
      rw [hx, hy, hmeets] at hm
      rw [hx, hy]
      exact hperm.trans ((hown _).met hm)
    · intro hne hne' hnot
      rw [hx] at hne
      rw [hy] at hne'
      rw [hmeets] at hnot
      obtain ⟨hsome, hone⟩ := (hown _).apart hne hne' hnot
      exact ⟨fun hnil => hsome (nil_perm.mp (hnil ▸ hperm)), fun e he => hone e (hperm.mem_iff.mp he)⟩
  · have hapart : ¬Meets k (inner l ch) d (inner l' ch') d' := by
      simp [Meets, pathTo, cons_prefix_cons, hsame, Ne.symm hsame]
    have hx' : dataOf (ch (selectBranch (depth l' d') k)).items k = none := dataOf_other h.1 (Ne.symm hsame)
    have hy' : dataOf (ch' (selectBranch (depth l d) k)).items k = none := dataOf_other h'.1 hsame
    have hours : (entriesAt (own (selectBranch (depth l d) k)) k).Perm
        (wanted k (dataOf (inner l ch).items k, none)) := by
      have := (hown (selectBranch (depth l d) k)).met fun _ hne => absurd hy' hne
      rwa [← hx, hy'] at this
    have hother : (entriesAt (own (selectBranch (depth l' d') k)) k).Perm
        (wanted k (none, dataOf (inner l' ch').items k)) := by
      have := (hown (selectBranch (depth l' d') k)).met fun hne => absurd hx' hne
      rwa [hx', ← hy] at this
    constructor
    · intro hm
      by_cases hnone : dataOf (inner l' ch').items k = none
      · rw [hnone]
        refine (hsingle _ fun i hi => ⟨dataOf_other h.1 hi, ?_⟩).trans hours
        by_cases hi' : i = selectBranch (depth l' d') k
        · rw [hi', ← hy, hnone]
        · exact dataOf_other h'.1 hi'
      · have hnone' : dataOf (inner l ch).items k = none :=
          not_not.mp fun hne => hapart (hm hne hnone)
        rw [hnone']
        refine (hsingle _ fun i hi => ⟨?_, dataOf_other h'.1 hi⟩).trans hother
        by_cases hi' : i = selectBranch (depth l d) k
        · rw [hi', ← hx, hnone']
        · exact dataOf_other h.1 hi'
    · intro hne hne' _
      rw [wanted_of_ne hne] at hours
      rw [wanted_of_ne (Ne.symm hne')] at hother
      constructor
      · intro hnil
        have hin : (k, (dataOf (inner l ch).items k, none)) ∈ entriesAt es k :=
          hat.mem_iff.mpr (mem_flatMap.mpr ⟨_, mem_finRange _, hours.mem_iff.mpr (by simp)⟩)
        simp [hnil] at hin
      · intro e he
        obtain ⟨i, -, hi⟩ := mem_flatMap.mp (hat.mem_iff.mp he)
        by_cases hl : i = selectBranch (depth l d) k
        · rw [hl, hours.mem_iff, mem_singleton] at hi
          exact .inr (by rw [hi])
        · by_cases hr : i = selectBranch (depth l' d') k
          · rw [hr, hother.mem_iff, mem_singleton] at hi
            exact .inl (by rw [hi])
          · rw [hquiet i (dataOf_other h.1 hl) (dataOf_other h'.1 hr)] at hi
            simp at hi

/-! ## The whole comparison -/

inductive Subtree : Tree L D → Tree L D → Prop
  | refl (t : Tree L D) : Subtree t t
  | child {t : Tree L D} {l : L} {ch : Fin 16 → Tree L D} (i : Fin 16) (h : Subtree t (ch i)) :
    Subtree t (.inner l ch)

/-- The node hash is injective on the subtrees of two maps. Trees without items all have the hash
zero, and no other tree has it. -/
def InjectiveOn (hashing : Hashing L D H) (a b : Tree L D) : Prop :=
  ∀ t t', Subtree t a → Subtree t' b → nodeHash hashing t = nodeHash hashing t' →
    t = t' ∨ t.items = [] ∧ t'.items = []

omit [DecidableEq D] [DecidableEq H] [Version L] in
theorem InjectiveOn.child (h : InjectiveOn hashing (.inner l ch) (.inner l' ch')) (i : Fin 16) :
    InjectiveOn hashing (ch i) (ch' i) :=
  fun t t' ht ht' => h t t' (.child i ht) (.child i ht')

omit [DecidableEq H] in
theorem describesAt_pruned (k : Key) (h : Every Branching d t) (h' : Every Branching d' t')
    (hinj : InjectiveOn hashing t t') (heq : nodeHash hashing t = nodeHash hashing t') :
    DescribesAt k t d t' d' [] := by
  rcases hinj t t' (.refl t) (.refl t') heq with rfl | ⟨hnil, hnil'⟩
  · refine .of_meets (fun hne _ => .inl ?_) (by simp)
    rw [pathTo_eq h h' hne]
  · refine .of_meets (fun hne => absurd ?_ hne) ?_
    · rw [hnil]
      rfl
    · rw [hnil, hnil', wanted_same]
      exact List.Perm.refl _

theorem entriesAt_walkBranch (h : Every Branching d t)
    (other : Option (Key × D)) (k : Key) :
    entriesAt (walkEntries isFirstMap other (walkOrder t)) k =
      wanted k (sides isFirstMap (dataOf t.items k) (itemData other k)) := by
  have hperm := walkOrder_perm t
  have hnodup : ((walkOrder t).map Prod.fst).Nodup :=
    (hperm.map _).nodup_iff.mpr (nodup_keys (fun _ _ _ hb => hb) h)
  rw [entriesAt_walkEntries isFirstMap k hnodup, dataOf_perm hperm hnodup]

omit [DecidableEq D] [Version L] in
theorem dataOf_leaf (k' : Key) (v : Leaf D) (k : Key) :
    dataOf (Trie.leaf k' v : Tree L D).items k = itemData (some (k', v.data)) k := by
  rw [items_leaf, dataOf_cons]
  rfl

theorem entriesAt_leafEntries (k : Key) (k₁ : Key) (x : D) (k₂ : Key) (y : D) :
    (entriesAt (leafEntries k₁ x k₂ y) k).Perm
      (wanted k (itemData (some (k₁, x)) k, itemData (some (k₂, y)) k)) := by
  rw [leafEntries]
  by_cases hsame : k₁ = k₂
  · subst hsame
    rw [if_pos rfl]
    by_cases hk : k₁ = k
    · subst hk
      by_cases hdata : x = y
      · simp [hdata]
      · simp [hdata, entriesAt_cons, itemData, wanted]
    · by_cases hdata : x = y
      · simp [hdata]
      · simp [hdata, entriesAt_cons, itemData, hk]
  · rw [if_neg hsame]
    by_cases hk : k₁ = k
    · have hk' : k₂ ≠ k := fun h => hsame (hk.trans h.symm)
      simp [entriesAt_cons, itemData, wanted, hk, hk']
    · by_cases hk' : k₂ = k
      · simp [entriesAt_cons, itemData, wanted, hk, hk']
      · simp [entriesAt_cons, itemData, hk, hk']

theorem pairEntries_describe (k : Key) :
    ∀ {t' : Tree L D} {d d' : ℕ}, Every Branching d t → Every Branching d' t' → InjectiveOn hashing t t' →
    t.isNil = false → t'.isNil = false → DescribesAt k t d t' d' (pairEntries hashing t t') := by
  induction t with
  | nil => exact fun _ _ _ ht => nomatch ht
  | leaf k₁ v =>
    intro t' d d' _ h' _ _ ht'
    refine .of_meets (fun _ _ => .inl ⟨_, rfl⟩) ?_
    rw [dataOf_leaf]
    cases t' with
    | nil => exact nomatch ht'
    | leaf k₂ v' =>
      rw [dataOf_leaf]
      exact entriesAt_leafEntries k k₁ v.data k₂ v'.data
    | inner l ch =>
      rw [pairEntries, entriesAt_walkBranch false h']
      exact List.Perm.refl _
  | inner l ch ih =>
    intro t' d d' h h' hinj _ ht'
    cases t' with
    | nil => exact nomatch ht'
    | leaf k₂ v =>
      refine .of_meets (fun _ _ => .inr ⟨_, rfl⟩) ?_
      rw [dataOf_leaf, pairEntries, entriesAt_walkBranch true h]
      exact List.Perm.refl _
    | inner l' ch' =>
      -- the entries of the branch `i`, at once or from the stack
      let own : Fin 16 → Delta D := fun i => branchEntries hashing ch ch' i ++
        if Pushed hashing ch ch' i then pairEntries hashing (ch i) (ch' i) else []
      refine describesAt_inner h h' (?_ : ∀ i, DescribesAt k (ch i) _ (ch' i) _ (own i)) ?_
      · intro i
        simp only [own, branchEntries]
        by_cases heq : nodeHash hashing (ch i) = nodeHash hashing (ch' i)
        · have hpush : Pushed hashing ch ch' i = false := by simp [Pushed, heq]
          simpa [heq, hpush] using describesAt_pruned k (h.2 i) (h'.2 i) (hinj.child i) heq
        · cases hother : (ch' i).isNil with
          | true =>
            have hpush : Pushed hashing ch ch' i = false := by simp [Pushed, hother]
            simp only [heq, hpush, if_false, if_true, Bool.false_eq_true, append_nil]
            rw [isNil_iff.mp hother]
            refine .of_meets (fun _ hne => absurd rfl hne) ?_
            rw [entriesAt_walkBranch true (h.2 i)]
            exact List.Perm.refl _
          | false =>
            cases hours : (ch i).isNil with
            | true =>
              have hpush : Pushed hashing ch ch' i = false := by simp [Pushed, hours]
              simp only [heq, hpush, if_false, if_true, Bool.false_eq_true, append_nil]
              rw [isNil_iff.mp hours]
              refine .of_meets (fun hne => absurd rfl hne) ?_
              rw [entriesAt_walkBranch false (h'.2 i)]
              exact List.Perm.refl _
            | false =>
              have hpush : Pushed hashing ch ch' i = true := by simp [Pushed, heq, hother, hours]
              simp only [heq, hpush, if_false, if_true, Bool.false_eq_true, nil_append]
              exact ih i (h.2 i) (h'.2 i) (hinj.child i) hours hother
      · rw [pairEntries]
        have hstack : (((List.finRange 16).filter (Pushed hashing ch ch')).reverse.flatMap fun i =>
            pairEntries hashing (ch i) (ch' i)).Perm ((List.finRange 16).flatMap fun i =>
              if Pushed hashing ch ch' i then pairEntries hashing (ch i) (ch' i) else []) := by
          refine ((reverse_perm _).flatMap_right _).trans ?_
          rw [flatMap_filter]
        exact (hstack.append_left _).trans (flatMap_append_perm _ _ _)

def allEntries (hashing : Hashing L D H) (a b : Tree L D) : Delta D :=
  if getHash hashing a = getHash hashing b then [] else pairEntries hashing a b

theorem allEntries_describe (k : Key) (ha : Every Branching 0 a) (hb : Every Branching 0 b)
    (hinj : InjectiveOn hashing a b) (hna : a.isNil = false) (hnb : b.isNil = false) :
    DescribesAt k a 0 b 0 (allEntries hashing a b) := by
  rw [allEntries]
  split
  · next heq => exact describesAt_pruned k ha hb hinj heq
  · exact pairEntries_describe k ha hb hinj hna hnb

omit [Version L] in
theorem compare_eq (hashing : Hashing L D H) (ha : a.isNil = false) (hb : b.isNil = false)
    (maxCount : ℤ) : compare hashing a b maxCount =
      .ok ((reportAll (allEntries hashing a b) ⟨[], maxCount⟩).1.differences,
        (reportAll (allEntries hashing a b) ⟨[], maxCount⟩).2) := by
  rw [compare, allEntries]
  split
  · rfl
  · rw [compareLoop_eq hashing _ (by simp [ha, hb]) (by simp)]
    simp [Except.map]

end Meet

/-! ## The limit -/

section Limit

omit [DecidableEq D]

theorem reportAll_of_lt (es : Delta D) : ∀ {s : Progress D}, (es.length : ℤ) < s.maxCount →
    reportAll es s = (⟨es.foldl insertEntry s.differences, s.maxCount - es.length⟩, true) := by
  induction es with
  | nil => simp [reportAll]
  | cons e es ih =>
    intro s h
    rw [length_cons, Nat.cast_succ] at h
    have hgo : (report e s).2 = true := decide_eq_true (by omega)
    have hroom : (es.length : ℤ) < (report e s).1.maxCount := by
      simp only [report]
      omega
    rw [reportAll, if_pos hgo, ih hroom]
    simp only [report, foldl_cons, length_cons, Nat.cast_succ]
    congr 2
    omega

theorem reportAll_of_le (es : Delta D) : ∀ {s : Progress D}, 1 ≤ s.maxCount → s.maxCount ≤ es.length →
    reportAll es s = (⟨(es.take s.maxCount.toNat).foldl insertEntry s.differences, 0⟩, false) := by
  induction es with
  | nil =>
    intro s h h'
    simp at h'
    omega
  | cons e es ih =>
    intro s h h'
    rw [length_cons, Nat.cast_succ] at h'
    obtain ⟨n, hn⟩ : ∃ n : ℕ, s.maxCount = n + 1 := ⟨(s.maxCount - 1).toNat, by omega⟩
    have htake : s.maxCount.toNat = n + 1 := by omega
    rw [reportAll, htake, take_succ_cons, foldl_cons]
    by_cases hlast : n = 0
    · rw [if_neg (by simp [report, hn, hlast]), report, hn, hlast]
      simp
    · have hmax : (report e s).1.maxCount = n := by simp [report, hn]
      rw [if_pos (by simp [report, hn]; omega), ih (by omega) (by omega), hmax]
      simp [report]

theorem foldl_insertEntry (es : Delta D) : ∀ {differences : Delta D},
    ((differences ++ es).map Prod.fst).Nodup → es.foldl insertEntry differences = differences ++ es := by
  induction es with
  | nil => simp
  | cons e es ih =>
    intro differences h
    have hnew : e.1 ∉ differences.map Prod.fst := by
      rw [map_append, map_cons, nodup_append] at h
      exact fun hin => h.2.2 _ hin _ mem_cons_self rfl
    rw [foldl_cons, insertEntry, if_neg hnew, ih (by simpa using h)]
    simp

theorem mem_foldl_insertEntry : ∀ {differences : Delta D} {e : Key × DeltaItem D},
    e ∈ es.foldl insertEntry differences → e ∈ differences ∨ e ∈ es := by
  induction es with
  | nil => exact fun h => .inl h
  | cons e' es ih =>
    intro differences e h
    rcases ih h with h | h
    · rw [insertEntry] at h
      split at h
      · exact .inl h
      · rcases mem_append.mp h with h | h
        · exact .inl h
        · exact .inr (by simp_all)
    · exact .inr (mem_cons_of_mem _ h)

theorem exists_mem_foldl : ∀ {differences : Delta D} {k : Key},
    k ∈ differences.map Prod.fst ∨ k ∈ es.map Prod.fst → ∃ item, (k, item) ∈ es.foldl insertEntry differences := by
  induction es with
  | nil =>
    intro differences k h
    rcases h with h | h
    · obtain ⟨e, he, rfl⟩ := mem_map.mp h
      exact ⟨e.2, he⟩
    · simp at h
  | cons e es ih =>
    intro differences k h
    refine ih ?_
    rw [map_cons, mem_cons] at h
    rw [insertEntry]
    split
    · next hin =>
      rcases h with h | rfl | h
      · exact .inl h
      · exact .inl hin
      · exact .inr h
    · rcases h with h | rfl | h
      · exact .inl (by rw [map_append]; exact mem_append_left _ h)
      · exact .inl (by simp)
      · exact .inr h

end Limit

/-! ## The table of differences -/

section Exact

variable [Version L]

def differing (a b : Tree L D) : Set Key := {k | peekItem a k ≠ peekItem b k}

/-- The table has the differing keys, each with its two items. -/
def Exact (a b : Tree L D) (differences : Delta D) : Prop :=
  ∀ k item, (k, item) ∈ differences ↔ k ∈ differing a b ∧ item = (peekItem a k, peekItem b k)

structure Searchable (root : Tree L D) : Prop where
  notNil : root.isNil = false
  branching : Every Branching 0 root
  found : ∀ k v, findKey root k = some v ↔ (k, v) ∈ root.items

variable {root : Tree L D} {maxCount : ℤ}

section

omit [DecidableEq D]

theorem Searchable.peekItem_eq (h : Searchable root) (k : Key) :
    peekItem root k = dataOf root.items k := by
  ext x
  rw [dataOf_eq_some (nodup_keys (fun _ _ _ hb => hb) h.branching), peekItem, Option.map_eq_some_iff]
  simp only [h.found]

theorem Searchable.hasItem_iff (h : Searchable root) (k : Key) :
    hasItem root k = true ↔ dataOf root.items k ≠ none := by
  rw [← h.peekItem_eq, hasItem, peekItem]
  cases findKey root k with
  | none => simp
  | some v => simp

theorem differing_subset {a b : Tree L D} (ha : Searchable a) (hb : Searchable b) :
    differing a b ⊆ ((a.items ++ b.items).map Prod.fst).toFinset := by
  intro k hk
  rw [differing, Set.mem_ofPred_eq, ha.peekItem_eq, hb.peekItem_eq] at hk
  by_contra hnot
  refine hk ((dataOf_eq_none.mpr fun p hp hpk => hnot ?_).trans
    (dataOf_eq_none.mpr fun p hp hpk => hnot ?_).symm)
  · simp only [coe_toFinset, mem_map, mem_append]
    exact ⟨p, .inl hp, hpk⟩
  · simp only [coe_toFinset, mem_map, mem_append]
    exact ⟨p, .inr hp, hpk⟩

theorem ncard_differing_le {a b : Tree L D} (ha : Searchable a) (hb : Searchable b) :
    (differing a b).ncard ≤ a.items.length + b.items.length := by
  have hle := Set.ncard_le_ncard (differing_subset ha hb) (Finset.finite_toSet _)
  have hcard := toFinset_card_le ((a.items ++ b.items).map Prod.fst)
  rw [Set.ncard_coe_finset] at hle
  rw [length_map, length_append] at hcard
  exact hle.trans hcard

end

def AllMeet (a b : Tree L D) : Prop := ∀ k, hasItem a k = true → hasItem b k = true → Meets k a 0 b 0

variable {hashing : Hashing L D H} {a b : Tree L D}

section

variable (ha : Searchable a)
variable (hb : Searchable b)
variable (hinj : InjectiveOn hashing a b)
include ha hb hinj

section

variable (hmeet : AllMeet a b)
include hmeet

theorem entriesAt_allEntries (k : Key) :
    (entriesAt (allEntries hashing a b) k).Perm (wanted k (peekItem a k, peekItem b k)) := by
  rw [ha.peekItem_eq, hb.peekItem_eq]
  refine (allEntries_describe k ha.branching hb.branching hinj ha.notNil hb.notNil).met fun hx hy => ?_
  exact hmeet k ((ha.hasItem_iff k).mpr hx) ((hb.hasItem_iff k).mpr hy)

theorem exact_allEntries : Exact a b (allEntries hashing a b) := by
  intro k item
  have h := (entriesAt_allEntries ha hb hinj hmeet k).mem_iff (a := (k, item))
  rw [mem_entriesAt, mem_wanted] at h
  simp only [and_true, Prod.mk.injEq, true_and] at h
  rw [h, differing, Set.mem_ofPred_eq, and_comm]

theorem nodup_allEntries : ((allEntries hashing a b).map Prod.fst).Nodup := by
  refine nodup_iff_count_le_one.mpr fun k => ?_
  have hlen := (entriesAt_allEntries ha hb hinj hmeet k).length_eq
  have hle : (wanted k (peekItem a k, peekItem b k)).length ≤ 1 := by
    rw [wanted]
    split <;> simp
  rw [count_eq_countP, countP_map, countP_eq_length_filter]
  have hsame : (allEntries hashing a b).filter ((fun x => x == k) ∘ Prod.fst) =
      entriesAt (allEntries hashing a b) k :=
    filter_congr fun _ _ => rfl
  rw [hsame, hlen]
  exact hle

theorem length_allEntries : (allEntries hashing a b).length = (differing a b).ncard := by
  have hset : differing a b = (((allEntries hashing a b).map Prod.fst).toFinset : Set Key) := by
    ext k
    rw [coe_toFinset, Set.mem_ofPred_eq, mem_map]
    constructor
    · exact fun hk => ⟨_, (exact_allEntries ha hb hinj hmeet k _).mpr ⟨hk, rfl⟩, rfl⟩
    · rintro ⟨e, he, rfl⟩
      exact ((exact_allEntries ha hb hinj hmeet e.1 e.2).mp he).1
  rw [hset, Set.ncard_coe_finset, toFinset_card_of_nodup (nodup_allEntries ha hb hinj hmeet), length_map]

theorem compare_of_meet (hmax : 1 ≤ maxCount) :
    compare hashing a b maxCount = .ok ((allEntries hashing a b).take maxCount.toNat,
      decide (((differing a b).ncard : ℤ) < maxCount)) := by
  have hnodup := nodup_allEntries ha hb hinj hmeet
  have hlen := length_allEntries ha hb hinj hmeet
  rw [compare_eq hashing ha.notNil hb.notNil]
  by_cases hlt : ((allEntries hashing a b).length : ℤ) < maxCount
  · rw [reportAll_of_lt _ hlt, foldl_insertEntry _ (by simpa using hnodup), take_of_length_le (by omega),
      decide_eq_true (by omega)]
    rfl
  · have hcut : (((allEntries hashing a b).take maxCount.toNat).map Prod.fst).Nodup :=
      hnodup.sublist ((take_sublist _ _).map _)
    rw [reportAll_of_le _ hmax (not_lt.mp hlt), foldl_insertEntry _ (by simpa using hcut),
      decide_eq_false (by omega)]
    rfl

end

theorem allMeet_of_exact
    {differences : Delta D} (hrun : compare hashing a b maxCount = .ok (differences, true))
    (hexact : Exact a b differences) (hmax : 1 ≤ maxCount) : AllMeet a b := by
  intro k hka hkb
  by_contra hnot
  have hx := (ha.hasItem_iff k).mp hka
  have hy := (hb.hasItem_iff k).mp hkb
  obtain ⟨hsome, hone⟩ :=
    (allEntries_describe k ha.branching hb.branching hinj ha.notNil hb.notNil).apart hx hy hnot
  have hdiff : differences = (allEntries hashing a b).foldl insertEntry [] := by
    rw [compare_eq hashing ha.notNil hb.notNil] at hrun
    by_cases hlt : ((allEntries hashing a b).length : ℤ) < maxCount
    · rw [reportAll_of_lt _ hlt] at hrun
      simp only [Except.ok.injEq, Prod.mk.injEq, and_true] at hrun
      exact hrun.symm
    · rw [reportAll_of_le _ hmax (not_lt.mp hlt)] at hrun
      simp at hrun
  obtain ⟨e, he⟩ := exists_mem_of_ne_nil _ hsome
  obtain ⟨hin, hek⟩ := mem_entriesAt.mp he
  have hkey : k ∈ ([] : Delta D).map Prod.fst ∨ k ∈ (allEntries hashing a b).map Prod.fst :=
    .inr (mem_map.mpr ⟨e, hin, hek⟩)
  obtain ⟨item, hitem⟩ := exists_mem_foldl hkey
  have hone' : item.1 = none ∨ item.2 = none := by
    rcases mem_foldl_insertEntry hitem with h | h
    · simp at h
    · exact hone _ (mem_entriesAt.mpr ⟨h, rfl⟩)
  rw [← hdiff] at hitem
  have heq := ((hexact k item).mp hitem).2
  rw [ha.peekItem_eq, hb.peekItem_eq] at heq
  rw [heq] at hone'
  exact hone'.elim hx hy

end

end Exact

/-! ## A hash without collisions -/

section Free

instance : Zero (Tree L D) := ⟨.nil⟩

def freeHashing : Hashing L D (Tree L D) := ⟨fun type k x => .leaf k ⟨type, x⟩, .inner⟩

variable [Version L]

omit [DecidableEq D]

variable {t : Tree L D}

theorem nodeHash_free : ∀ {d : ℕ}, Every Solid d t → nodeHash freeHashing t = t := by
  induction t with
  | nil | leaf k v => exact fun _ => rfl
  | inner l ch ih =>
    intro d h
    have hsome : ¬∀ i, (ch i).isNil = true := by
      refine fun hnil => h.1 (flatMap_eq_nil_iff.mpr fun i _ => ?_)
      rw [isNil_iff.mp (hnil i)]
      rfl
    rw [nodeHash, if_neg hsome]
    exact congrArg (Trie.inner l) (funext fun i => ih i (h.2 i))

theorem Subtree.solid {s : Tree L D} (h : Subtree t s) :
    ∀ {d : ℕ}, Every Solid d s → ∃ e, Every Solid e t := by
  induction h with
  | refl => exact fun h => ⟨_, h⟩
  | child i _ ih => exact fun h => ih (h.2 i)

theorem Passable.nodeHash_free {root : Tree L D} (h : Passable root) (ht : Subtree t root) :
    (t.items = [] ∧ nodeHash freeHashing t = .nil) ∨ (t.items ≠ [] ∧ nodeHash freeHashing t = t) := by
  have hsolid : ∀ {d : ℕ} {t : Tree L D}, Every Solid d t →
      (t.items = [] ∧ nodeHash freeHashing t = .nil) ∨ (t.items ≠ [] ∧ nodeHash freeHashing t = t) := by
    intro d t ht
    cases hnil : t.isNil with
    | true => exact .inl (by rw [isNil_iff.mp hnil]; exact ⟨rfl, rfl⟩)
    | false => exact .inr ⟨items_ne_nil ht hnil, SHAMap.nodeHash_free ht⟩
  cases ht with
  | child i ht =>
    obtain ⟨e, he⟩ := ht.solid (h.solid _ _ rfl i)
    exact hsolid he
  | refl =>
    cases t with
    | nil => exact .inl ⟨rfl, rfl⟩
    | leaf k v => exact .inr ⟨by simp, rfl⟩
    | inner l ch =>
      have hch := h.solid l ch rfl
      by_cases hitems : (inner l ch).items = []
      · refine .inl ⟨hitems, if_pos fun i => ?_⟩
        by_contra hi
        refine items_ne_nil (hch i) (Bool.eq_false_iff.mpr hi) (eq_nil_iff_forall_not_mem.mpr fun p hp => ?_)
        have := mem_items_inner (l := l).mpr ⟨i, hp⟩
        simp [hitems] at this
      · exact hsolid (d := 0) ⟨hitems, hch⟩

theorem injectiveOn_free {a b : Tree L D} (ha : Passable a) (hb : Passable b) : InjectiveOn freeHashing a b := by
  intro t t' ht ht' heq
  rcases ha.nodeHash_free ht with ⟨hnil, hhash⟩ | ⟨hne, hhash⟩
  · rcases hb.nodeHash_free ht' with ⟨hnil', hhash'⟩ | ⟨hne', hhash'⟩
    · exact .inr ⟨hnil, hnil'⟩
    · rw [hhash, hhash'] at heq
      rw [← heq] at hne'
      exact absurd rfl hne'
  · rcases hb.nodeHash_free ht' with ⟨hnil', hhash'⟩ | ⟨hne', hhash'⟩
    · rw [hhash, hhash'] at heq
      rw [heq] at hne
      exact absurd rfl hne
    · exact .inl (by rw [← hhash, heq, hhash'])

end Free

/-! ## Version 1 -/

/-- A key that both maps have, with the same data. -/
def commonKey : Key := fun i => if i.val = 2 then 0x01 else 0

def forkedKey : Key := fun i => if i.val = 1 then 0x10 else 0

/-- In version 2 the inner node above the common key has depth 5. -/
def deepCalls : List (Op ℕ) := [.addItem commonKey 1 false false, .addItem 0 2 false false]

/-- In version 2 the inner node above the common key has depth 2. -/
def shallowCalls : List (Op ℕ) := [.addItem commonKey 1 false false, .addItem forkedKey 3 false false]

namespace V1

omit [DecidableEq D] in
theorem meets (k : Key) (t : Map D) : ∀ (t' : Map D) (d : ℕ), Meets k t d t' d := by
  induction t with
  | nil | leaf k' v => exact fun _ _ => .inl ⟨_, rfl⟩
  | inner l ch ih =>
    intro t' d
    cases t' with
    | nil | leaf k' v => exact .inr ⟨_, rfl⟩
    | inner l' ch' =>
      simp only [Meets, pathTo, depth_unit, cons_prefix_cons, true_and]
      exact ih _ _ _

omit [DecidableEq D] in
theorem searchable {root : Map D} (hroot : root.isNil = false) (h : Every Dense 0 root) : Searchable root where
  notNil := hroot
  branching := h.mono fun _ _ _ hd => hd.1
  found _ _ := findKey_eq_some.trans (walk_ends_at (fun _ _ _ hd => hd.1) (fun _ _ _ _ _ _ => rfl) h)

/-- A comparison of two maps of version 1 gives the exact table, or `maxCount` of its entries. -/
theorem compare_exact {hashing : Hashing Unit D H} {a b : Map D} (hra : a.isNil = false)
    (ha : Every Dense 0 a) (hrb : b.isNil = false) (hb : Every Dense 0 b) (hinj : InjectiveOn hashing a b)
    {maxCount : ℤ} (hmax : 1 ≤ maxCount) :
    (differing a b).Finite ∧
    ∃ differences complete, compare hashing a b maxCount = .ok (differences, complete) ∧
      (complete = true ↔ ((differing a b).ncard : ℤ) < maxCount) ∧
      (differences.map Prod.fst).Nodup ∧
      (complete = true → Exact a b differences) ∧
      (complete = false → (differences.length : ℤ) = maxCount ∧
        ∀ k item, (k, item) ∈ differences → k ∈ differing a b ∧ item = (peekItem a k, peekItem b k)) := by
  have hsa := searchable hra ha
  have hsb := searchable hrb hb
  have hmeet : AllMeet a b := fun k _ _ => meets k a b 0
  have hexact := exact_allEntries hsa hsb hinj hmeet
  have hlen := length_allEntries hsa hsb hinj hmeet
  refine ⟨(Finset.finite_toSet _).subset (differing_subset hsa hsb), _, _,
    compare_of_meet hsa hsb hinj hmeet hmax, decide_eq_true_iff,
    (nodup_allEntries hsa hsb hinj hmeet).sublist ((take_sublist _ _).map _), fun hlt => ?_, fun hge => ?_⟩
  · have hlt := of_decide_eq_true hlt
    rw [take_of_length_le (by omega)]
    exact hexact
  · have hge := of_decide_eq_false hge
    refine ⟨?_, fun k item hin => (hexact k item).mp (mem_of_mem_take hin)⟩
    rw [length_take]
    omega

/-- The common key is not reported, and of the two others one is left out where there is room for one
entry. -/
theorem compare_exact_pair :
    (∃ differences, compare freeHashing (run deepCalls) (run shallowCalls) 5 = .ok (differences, true) ∧
      (0, (some 2, none)) ∈ differences ∧ (forkedKey, (none, some 3)) ∈ differences ∧
      ∀ item, (commonKey, item) ∉ differences) ∧
    ∃ differences, compare freeHashing (run deepCalls) (run shallowCalls) 1 = .ok (differences, false) ∧
      differences.length = 1 := by
  have hdense := fun calls : List (Op ℕ) => (run_shape calls).2
  have hinj := injectiveOn_free (passable (hdense deepCalls)) (passable (hdense shallowCalls))
  have hnil : (run deepCalls).isNil = false ∧ (run shallowCalls).isNil = false := by decide +kernel
  have hzero : peekItem (run deepCalls) 0 = some 2 ∧ peekItem (run shallowCalls) 0 = none := by
    decide +kernel
  have hforked : peekItem (run deepCalls) forkedKey = none ∧
      peekItem (run shallowCalls) forkedKey = some 3 := by decide +kernel
  have hcommon : peekItem (run deepCalls) commonKey = peekItem (run shallowCalls) commonKey := by
    decide +kernel
  have hle := ncard_differing_le (searchable hnil.1 (hdense _)) (searchable hnil.2 (hdense _))
  have hfour : (run deepCalls).items.length + (run shallowCalls).items.length = 4 := by decide +kernel
  constructor
  · obtain ⟨-, differences, complete, hrun, hcomplete, -, hexact, -⟩ :=
      compare_exact hnil.1 (hdense _) hnil.2 (hdense _) hinj (show (1 : ℤ) ≤ 5 by omega)
    obtain rfl : complete = true := hcomplete.mpr (by omega)
    refine ⟨differences, hrun, ?_, ?_, fun item hitem => ?_⟩
    · exact (hexact rfl _ _).mpr ⟨by simp [differing, hzero], by simp [hzero]⟩
    · exact (hexact rfl _ _).mpr ⟨by simp [differing, hforked], by simp [hforked]⟩
    · exact ((hexact rfl _ _).mp hitem).1 hcommon
  · obtain ⟨hfinite, differences, complete, hrun, hcomplete, -, -, hcut⟩ :=
      compare_exact hnil.1 (hdense _) hnil.2 (hdense _) hinj (le_refl (1 : ℤ))
    have hpos : 0 < (differing (run deepCalls) (run shallowCalls)).ncard :=
      (Set.ncard_pos hfinite).mpr ⟨0, by simp [differing, hzero]⟩
    obtain rfl : complete = false := by
      rw [← Bool.not_eq_true, hcomplete]
      omega
    exact ⟨differences, hrun, by exact_mod_cast (hcut rfl).1⟩

end V1

/-! ## Version 2 -/

namespace V2

omit [DecidableEq D] in
theorem Canonical.searchable {root : Map D} (h : Canonical root) : Searchable root where
  notNil := by
    obtain ⟨ch, rfl⟩ := h.inner
    rfl
  branching := h.linked.mono fun _ _ _ hl => hl.branching
  found _ _ := findKey_eq_some.trans h.walk_iff

/-- A comparison of two maps of version 2 gives the exact table if and only if all items of common
keys meet. -/
theorem compare_exact_iff {hashing : Hashing InnerNodeV2 D H} {a b : Map D} (ha : Canonical a)
    (hb : Canonical b) (hinj : InjectiveOn hashing a b) {maxCount : ℤ}
    (hmax : ((differing a b).ncard : ℤ) < maxCount) :
    (∃ differences, compare hashing a b maxCount = .ok (differences, true) ∧ Exact a b differences) ↔
      ∀ k, hasItem a k = true → hasItem b k = true → Meets k a 0 b 0 := by
  have hsa := ha.searchable
  have hsb := hb.searchable
  constructor
  · rintro ⟨differences, hrun, hexact⟩
    exact allMeet_of_exact hsa hsb hinj hrun hexact (by omega)
  · intro hmeet
    have hlen := length_allEntries hsa hsb hinj hmeet
    refine ⟨allEntries hashing a b, ?_, exact_allEntries hsa hsb hinj hmeet⟩
    rw [compare_of_meet hsa hsb hinj hmeet (by omega), take_of_length_le (by omega), decide_eq_true hmax]

theorem canonical_pair : Canonical (run deepCalls) ∧ Canonical (run shallowCalls) ∧
    InjectiveOn freeHashing (run deepCalls) (run shallowCalls) :=
  ⟨canonical_run _, canonical_run _, injectiveOn_free (passable (canonical_run _)) (passable (canonical_run _))⟩

theorem ncard_pair : ((differing (run deepCalls) (run shallowCalls)).ncard : ℤ) < 5 := by
  have hle := ncard_differing_le canonical_pair.1.searchable canonical_pair.2.1.searchable
  have hfour : (run deepCalls).items.length + (run shallowCalls).items.length = 4 := by decide +kernel
  omega

theorem compare_exact_iff_apart :
    ¬∃ differences, compare freeHashing (run deepCalls) (run shallowCalls) 5 = .ok (differences, true) ∧
      Exact (run deepCalls) (run shallowCalls) differences := by
  rw [compare_exact_iff canonical_pair.1 canonical_pair.2.1 canonical_pair.2.2 ncard_pair]
  intro hmeet
  have := hmeet commonKey (by decide +kernel) (by decide +kernel)
  revert this
  rw [Meets]
  decide +kernel

set_option synthInstance.maxSize 256 in
/-- The common key is reported as if only the first map had it. -/
theorem common_item_reported :
    InjectiveOn freeHashing (run deepCalls) (run shallowCalls) ∧
    ((differing (run deepCalls) (run shallowCalls)).ncard : ℤ) < 5 ∧
    peekItem (run deepCalls) commonKey = some 1 ∧ peekItem (run shallowCalls) commonKey = some 1 ∧
    (compare freeHashing (run deepCalls) (run shallowCalls) 5).toOption =
      some ([(commonKey, (some 1, none)), (forkedKey, (none, some 3)), (0, (some 2, none))], true) :=
  ⟨canonical_pair.2.2, ncard_pair, by decide +kernel, by decide +kernel, by decide +kernel⟩

end V2

end Ripple.SHAMap
