import Ripple.Lib.OrderedMap

/-!
# Ripple.Lib.Overlay

A map of pending items over a base map: what it makes of the base, and the next key behind a given one
when the base can only be asked for its own next key.

* `Finds S r`: `r` is the least element of `S`, if there is one. A search is specified by its set, and
  `Finds.unique` compares two searches.
* `layer`: the base with the items on top, and `find?_layer`. `succLayer` is its next key.
-/

namespace OrderedMap

variable {K V A : Type} [LinearOrder K]

/-! ## Searches -/

def Finds (S : Set K) : Option K → Prop
  | some n => IsLeast S n
  | none => S = ∅

variable {r : Option K} {S T : Set K} {own : Option K} {k : K} {last : Option K} {key n : K}
  {m : OrderedMap K V} {items : OrderedMap K A} {next : K → Option K} {hidden : A → Bool}
  {shown : A → Option V} {hnext : ∀ k n, next k = some n → k < n}

theorem Finds.unique {r' : Option K} (h : Finds S r) (h' : Finds S r') : r = r' := by
  cases r with
  | none =>
    cases r' with
    | none => rfl
    | some n => exact absurd h'.1 (by simp [show S = ∅ from h])
  | some n =>
    cases r' with
    | none => exact absurd h.1 (by simp [show S = ∅ from h'])
    | some n' => rw [IsLeast.unique h h']

theorem Finds.congr (h : Finds S r) (heq : S = T) : Finds T r := heq ▸ h

def lesser (next own : Option K) : Option K :=
  match own with
  | none => next
  | some k =>
    match next with
    | none => some k
    | some n => if k < n then some k else some n

theorem Finds.lesser {next : Option K} (hnext : Finds S next) (hown : Finds T own) :
    Finds (S ∪ T) (lesser next own) := by
  cases own with
  | none =>
    have hT : T = ∅ := hown
    exact hnext.congr (by rw [hT, Set.union_empty])
  | some k =>
    cases next with
    | none =>
      have hS : S = ∅ := hnext
      exact Finds.congr hown (by rw [hS, Set.empty_union])
    | some n =>
      have hmin : IsLeast (S ∪ T) (min n k) := IsLeast.union hnext hown
      rw [OrderedMap.lesser]
      split
      · next hlt => rwa [min_eq_right hlt.le] at hmin
      · next hle => rwa [min_eq_left (not_lt.mp hle)] at hmin

def below (last : Option K) (k : K) : Bool := last.all fun l => k < l

theorem below_some {last : K} : below (some last) k = true ↔ k < last := by simp [below]

theorem below_of_le {k' : K} (h : below last k' = true) (hle : k ≤ k') : below last k = true := by
  cases last with
  | none => rfl
  | some l =>
    have hlt : k' < l := by simpa [below] using h
    simpa [below] using hle.trans_lt hlt

theorem Finds.below (h : Finds S r) (last : Option K) :
    Finds {k | k ∈ S ∧ below last k = true} (r.filter (below last)) := by
  cases r with
  | none =>
    have hS : S = ∅ := h
    exact Finds.congr h (by simp [hS])
  | some n =>
    cases hlast : OrderedMap.below last n with
    | true =>
      rw [Option.filter_some, if_pos hlast]
      exact ⟨⟨h.1, hlast⟩, fun k hk => h.2 hk.1⟩
    | false =>
      rw [Option.filter_some, if_neg (by simp [hlast])]
      refine Set.eq_empty_of_forall_notMem fun k ⟨hk, hkl⟩ => ?_
      have := below_of_le hkl (h.2 hk)
      simp [hlast] at this

/-! ## The next key of a map -/

def firstAfter (m : OrderedMap K V) (key : K) (keep : V → Bool) : Option K :=
  (m.entries.find? fun e => decide (key < e.1) && keep e.2).map Prod.fst

theorem finds_firstAfter (m : OrderedMap K V) (key : K) (keep : V → Bool) :
    Finds {k | key < k ∧ ∃ v, m.find? k = some v ∧ keep v = true} (m.firstAfter key keep) := by
  rw [firstAfter]
  cases hfind : m.entries.find? fun e => decide (key < e.1) && keep e.2 with
  | none =>
    refine Set.eq_empty_of_forall_notMem fun k ⟨hlt, v, hv, hkeep⟩ => ?_
    have := List.find?_eq_none.mp hfind (k, v) ((m.mem_entries_iff k v).mpr hv)
    simp [hlt, hkeep] at this
  | some e =>
    obtain ⟨hp, front, rest, heq, hfront⟩ := List.find?_eq_some_iff_append.mp hfind
    rw [Bool.and_eq_true, decide_eq_true_eq] at hp
    refine ⟨⟨hp.1, e.2, ?_, hp.2⟩, ?_⟩
    · exact (m.mem_entries_iff _ _).mp (by simp [heq])
    · rintro k ⟨hlt, v, hv, hkeep⟩
      have hmem := (m.mem_entries_iff k v).mpr hv
      have hsorted := m.sorted
      rw [heq] at hmem hsorted
      obtain hmem | hmem := List.mem_append.mp hmem
      · have := hfront _ hmem
        simp [hlt, hkeep] at this
      obtain rfl | hmem := List.mem_cons.mp hmem
      · exact le_rfl
      · exact ((List.pairwise_cons.mp (List.pairwise_append.mp hsorted).2.1).1 _ hmem).le

def succ (m : OrderedMap K V) (key : K) (last : Option K) : Option K :=
  (m.firstAfter key fun _ => true).filter (below last)

theorem finds_succ (m : OrderedMap K V) (key : K) (last : Option K) :
    Finds {k | (key < k ∧ (m.find? k).isSome = true) ∧ below last k = true} (m.succ key last) := by
  refine ((finds_firstAfter m key fun _ => true).below last).congr ?_
  simp [Option.isSome_iff_exists]

theorem Finds.gt (h : Finds S r) (hS : ∀ k ∈ S, key < k) (hr : r = some n) : key < n := by
  subst hr
  exact hS n h.1

theorem succ_gt (h : m.succ key last = some n) : key < n :=
  (finds_succ m key last).gt (fun _ hk => hk.1.1) h

/-! ## Skipping what is hidden -/

theorem length_filter_lt {a : A} (hlt : key < n) (ha : items.find? n = some a) :
    (items.entries.filter fun e => n < e.1).length < (items.entries.filter fun e => key < e.1).length := by
  have hsub : (items.entries.filter fun e => n < e.1) =
      (items.entries.filter fun e => key < e.1).filter fun e => n < e.1 := by
    rw [List.filter_filter]
    refine List.filter_congr fun e _ => ?_
    by_cases hn : n < e.1
    · simp [hn, hlt.trans hn]
    · simp [hn]
  rw [hsub, List.length_filter_lt_length_iff_exists]
  refine ⟨(n, a), List.mem_filter.mpr ⟨(items.mem_entries_iff n a).mpr ha, by simpa using hlt⟩, by simp⟩

/-- Follow `next` until a key that is not hidden by an item. -/
def skip (next : K → Option K) (hnext : ∀ k n, next k = some n → k < n) (items : OrderedMap K A)
    (hidden : A → Bool) (key : K) : Option K :=
  match _hn : next key with
  | none => none
  | some n =>
    match _ha : items.find? n with
    | none => some n
    | some a => if hidden a then skip next hnext items hidden n else some n
termination_by (items.entries.filter fun e => key < e.1).length
decreasing_by exact length_filter_lt (hnext key n _hn) _ha

theorem finds_skip (hnext : ∀ k n, next k = some n → k < n) {base : Set K}
    (hbase : ∀ key, Finds {k | key < k ∧ k ∈ base} (next key)) (key : K) :
    Finds {k | (key < k ∧ k ∈ base) ∧ ∀ a, items.find? k = some a → hidden a = false}
      (skip next hnext items hidden key) := by
  fun_induction skip next hnext items hidden key with
  | case1 key hn =>
    have hempty : Finds _ none := hn ▸ hbase key
    refine Set.eq_empty_of_forall_notMem fun k hk => ?_
    exact Set.eq_empty_iff_forall_notMem.mp hempty k hk.1
  | case2 key n hn ha =>
    have hleast : Finds _ (some n) := hn ▸ hbase key
    exact ⟨⟨hleast.1, by simp [ha]⟩, fun k hk => hleast.2 hk.1⟩
  | case3 key n hn a ha hhidden ih =>
    have hleast : Finds _ (some n) := hn ▸ hbase key
    refine ih.congr (Set.ext fun k => ⟨fun ⟨⟨hlt, hk⟩, hshown⟩ => ?_, fun ⟨⟨hlt, hk⟩, hshown⟩ => ?_⟩)
    · exact ⟨⟨(hnext key n hn).trans hlt, hk⟩, hshown⟩
    · -- the hidden key itself is not a candidate
      have hne : n ≠ k := by
        rintro rfl
        simp [hshown a ha] at hhidden
      exact ⟨⟨lt_of_le_of_ne (hleast.2 ⟨hlt, hk⟩) hne, hk⟩, hshown⟩
  | case4 key n hn a ha hhidden =>
    have hleast : Finds _ (some n) := hn ▸ hbase key
    refine ⟨⟨hleast.1, fun a' ha' => ?_⟩, fun k hk => hleast.2 hk.1⟩
    obtain rfl := Option.some.inj (ha.symm.trans ha')
    simpa using hhidden

/-! ## Items over a base -/

/-- The changes that the items stand for: `shown` is what an item makes of its key. -/
def changes (items : OrderedMap K A) (shown : A → Option V) : List (K × Option V) :=
  items.entries.map fun e => (e.1, shown e.2)

def layer (m : OrderedMap K V) (items : OrderedMap K A) (shown : A → Option V) : OrderedMap K V :=
  m.overlay (items.changes shown)

theorem lookup_changes (items : OrderedMap K A) (shown : A → Option V) (k : K) :
    (items.changes shown).lookup k = (items.find? k).map shown := by
  rw [changes, find?]
  induction items.entries with
  | nil => rfl
  | cons e es ih =>
    rw [List.map_cons, lookup_cons_ite, lookup_cons_ite, ih]
    split <;> rfl

theorem find?_layer (m : OrderedMap K V) (items : OrderedMap K A) (shown : A → Option V) (k : K) :
    (m.layer items shown).find? k = match items.find? k with
      | none => m.find? k
      | some a => shown a := by
  have hnodup : ((items.changes shown).map Prod.fst).Nodup := by
    rw [changes, List.map_map]
    exact (List.pairwise_map.mpr items.sorted).imp fun h => ne_of_lt h
  rw [layer, find?_overlay hnodup, lookup_changes]
  cases items.find? k <;> rfl

theorem layer_insert (m : OrderedMap K V) (items : OrderedMap K A) (shown : A → Option V) (key : K) (a : A) :
    m.layer (items.insert key a) shown = (m.layer items shown).change (key, shown a) := by
  refine ext_find? fun k => ?_
  rw [find?_layer, find?_insert, find?_change, find?_layer]
  by_cases hk : k = key <;> simp [hk]

theorem layer_erase (m : OrderedMap K V) (items : OrderedMap K A) (shown : A → Option V) (key : K) :
    m.layer (items.erase key) shown = (m.layer items shown).change (key, m.find? key) := by
  refine ext_find? fun k => ?_
  rw [find?_layer, find?_erase, find?_change, find?_layer]
  by_cases hk : k = key <;> simp [hk]

/-! ## Merging -/

/-- One item merged into a map: `merge` gives the new value, or leaves the old one. -/
def absorbEntry (merge : Option V → A → Option V) (m : OrderedMap K V) (e : K × A) : OrderedMap K V :=
  match merge (m.find? e.1) e.2 with
  | none => m
  | some v => m.insert e.1 v

def absorb (m : OrderedMap K V) (items : OrderedMap K A) (merge : Option V → A → Option V) : OrderedMap K V :=
  items.entries.foldl (absorbEntry merge) m

theorem find?_absorbEntry (merge : Option V → A → Option V) (m : OrderedMap K V) (e : K × A) (k : K) :
    (absorbEntry merge m e).find? k = if k = e.1 then (merge (m.find? k) e.2).or (m.find? k) else m.find? k := by
  rw [absorbEntry]
  by_cases hk : k = e.1
  · subst hk
    cases hmerge : merge (m.find? e.1) e.2 with
    | none => simp
    | some v => simp [find?_insert]
  · cases hmerge : merge (m.find? e.1) e.2 with
    | none => simp [hk]
    | some v => simp [find?_insert, hk]

theorem find?_absorb (m : OrderedMap K V) (items : OrderedMap K A) (merge : Option V → A → Option V) (k : K) :
    (m.absorb items merge).find? k = match items.find? k with
      | none => m.find? k
      | some a => (merge (m.find? k) a).or (m.find? k) := by
  obtain ⟨es, hsorted⟩ := items
  rw [absorb, find?]
  induction es generalizing m with
  | nil => rfl
  | cons e es ih =>
    obtain ⟨hhead, htail⟩ := List.pairwise_cons.mp hsorted
    rw [List.foldl_cons, ih _ htail, find?_absorbEntry]
    simp only [find?, lookup_cons_ite]
    by_cases hk : k = e.1
    · -- no later entry has this key
      have hnone : es.lookup e.1 = none := lookup_none_of_lt hhead
      simp [hk, hnone]
    · simp [hk]

/-! ## The next key of a layer -/

/-- The next key of a layer, out of the next keys of the base and the items. -/
def succLayer (next : K → Option K) (hnext : ∀ k n, next k = some n → k < n) (items : OrderedMap K A)
    (shown : A → Option V) (key : K) (last : Option K) : Option K :=
  (lesser (skip next hnext items (fun a => (shown a).isNone) key)
    (items.firstAfter key fun a => (shown a).isSome)).filter (below last)

theorem succLayer_eq (hnext : ∀ k n, next k = some n → k < n) (hbase : ∀ k, next k = m.succ k last)
    (key : K) :
    succLayer next hnext items shown key last = (m.layer items shown).succ key last := by
  have hfound : ∀ k, Finds {k' | k < k' ∧ k' ∈ {k' | (m.find? k').isSome = true ∧ below last k' = true}}
      (next k) := by
    intro k
    rw [hbase]
    exact (finds_succ m k last).congr (by simp [and_assoc])
  have hskip : Finds _ (skip next hnext items (fun a => (shown a).isNone) key) := finds_skip hnext hfound key
  have hlayer := (hskip.lesser
    (finds_firstAfter items key fun a => (shown a).isSome)).below last
  refine Finds.unique (hlayer.congr (Set.ext fun k => ?_)) (finds_succ _ key last)
  simp only [Set.mem_ofPred_eq, Set.mem_union, find?_layer]
  cases items.find? k with
  | none =>
    simp
    tauto
  | some a =>
    simp only [Option.some.injEq, forall_eq', exists_eq_left']
    cases shown a with
    | none => simp
    | some v =>
      simp
      tauto

theorem skip_gt (h : skip next hnext items hidden key = some n) : key < n := by
  fun_induction skip next hnext items hidden key with
  | case1 key hn => simp at h
  | case2 key n' hn ha => exact hnext key n (hn.trans h)
  | case3 key n' hn a ha hhidden ih => exact (hnext key n' hn).trans (ih h)
  | case4 key n' hn a ha hhidden => exact hnext key n (hn.trans h)

theorem lesser_eq_some {next : Option K} (h : lesser next own = some n) :
    next = some n ∨ own = some n := by
  unfold lesser at h
  split at h
  · exact .inl h
  split at h
  · exact .inr h
  split at h
  · exact .inr h
  · exact .inl h

theorem succLayer_gt (h : succLayer next hnext items shown key last = some n) : key < n := by
  obtain hskip | hown := lesser_eq_some (Option.eq_some_of_filter_eq_some h)
  · exact skip_gt hskip
  · exact (finds_firstAfter items key _).gt (fun _ hk => hk.1) hown

end OrderedMap
