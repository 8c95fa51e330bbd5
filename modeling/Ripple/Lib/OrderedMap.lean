import Mathlib

/-!
# Ripple.Lib.OrderedMap

Finite maps kept as the list of their entries in strictly increasing key order, the order in which
a `std::map` is iterated.

* `find?_insert`, `find?_erase`: what an update changes.
* `ext_find?`: two maps with the same lookups are equal.
* `sum_lt_eq`: the values below a key, added up entry by entry.
* `overlay`: a list of changes, each at a key of its own, made to a map.
-/

structure OrderedMap (K V : Type) [LinearOrder K] where
  entries : List (K × V)
  sorted : entries.Pairwise (fun a b => a.1 < b.1)

namespace OrderedMap

open List

variable {K V : Type} [LinearOrder K]

def empty : OrderedMap K V := ⟨[], .nil⟩

def find? (m : OrderedMap K V) (k : K) : Option V := m.entries.lookup k

def insertEntry (k : K) (v : V) : List (K × V) → List (K × V)
  | [] => [(k, v)]
  | (k', v') :: es =>
    if k < k' then (k, v) :: (k', v') :: es
    else if k' < k then (k', v') :: insertEntry k v es
    else (k, v) :: es

variable {es : List (K × V)} {k : K} {v : V} {m : OrderedMap Nat V}

theorem mem_insertEntry_key {e : K × V} (h : e ∈ insertEntry k v es) : e.1 = k ∨ e ∈ es := by
  induction es with
  | nil => simp only [insertEntry, mem_singleton] at h; exact .inl (by rw [h])
  | cons e' es ih =>
    simp only [insertEntry] at h
    split at h
    · rcases mem_cons.mp h with rfl | h
      · exact .inl rfl
      · exact .inr h
    · split at h
      · rcases mem_cons.mp h with rfl | h
        · exact .inr (mem_cons_self)
        · exact (ih h).imp_right (mem_cons_of_mem _)
      · rcases mem_cons.mp h with rfl | h
        · exact .inl rfl
        · exact .inr (mem_cons_of_mem _ h)

theorem insertEntry_sorted (h : es.Pairwise (fun a b => a.1 < b.1)) :
    (insertEntry k v es).Pairwise (fun a b => a.1 < b.1) := by
  induction es with
  | nil => simp [insertEntry]
  | cons e' es ih =>
    obtain ⟨hhd, htl⟩ := pairwise_cons.mp h
    simp only [insertEntry]
    split
    · rename_i hlt
      refine pairwise_cons.mpr ⟨?_, h⟩
      intro e he
      rcases mem_cons.mp he with rfl | he
      · exact hlt
      · exact hlt.trans (hhd e he)
    · split
      · rename_i hlt
        refine pairwise_cons.mpr ⟨?_, ih htl⟩
        intro e he
        rcases mem_insertEntry_key he with hk | he
        · rw [hk]; exact hlt
        · exact hhd e he
      · rename_i h1 h2
        have hk : k = e'.1 := le_antisymm (not_lt.mp h2) (not_lt.mp h1)
        subst hk
        exact pairwise_cons.mpr ⟨hhd, htl⟩

def insert (m : OrderedMap K V) (k : K) (v : V) : OrderedMap K V :=
  ⟨insertEntry k v m.entries, insertEntry_sorted m.sorted⟩

def erase (m : OrderedMap K V) (k : K) : OrderedMap K V :=
  ⟨m.entries.filter (fun e => e.1 ≠ k), m.sorted.filter _⟩

def filter (m : OrderedMap K V) (keep : V → Bool) : OrderedMap K V :=
  ⟨m.entries.filter (fun e => keep e.2), m.sorted.filter _⟩

@[simp] theorem find?_empty (k : K) : (empty : OrderedMap K V).find? k = none := rfl

theorem lookup_cons_ite (k : K) (e : K × V) (es : List (K × V)) :
    (e :: es).lookup k = if k = e.1 then some e.2 else es.lookup k := by
  obtain ⟨k', v'⟩ := e
  rw [lookup_cons]
  by_cases h : k = k'
  · simp [h]
  · simp [h, beq_eq_false_iff_ne.mpr h]

theorem lookup_none_of_lt (h : ∀ e ∈ es, k < e.1) : es.lookup k = none := by
  rw [lookup_eq_none_iff]
  intro e he
  exact bne_iff_ne.mpr (h e he).ne

theorem lookup_insertEntry (k k' : K) (v : V) (es : List (K × V)) :
    (insertEntry k v es).lookup k' = if k' = k then some v else es.lookup k' := by
  induction es with
  | nil => rw [insertEntry, lookup_cons_ite]
  | cons e' es ih =>
    simp only [insertEntry]
    split
    · rw [lookup_cons_ite]
    · split
      · rename_i hlt
        rw [lookup_cons_ite, lookup_cons_ite, ih]
        by_cases hk : k' = k
        · subst hk; simp [hlt.ne']
        · simp [hk]
      · rename_i h1 h2
        have hk : k = e'.1 := le_antisymm (not_lt.mp h2) (not_lt.mp h1)
        rw [lookup_cons_ite, lookup_cons_ite, ← hk]
        by_cases hk' : k' = k <;> simp [hk']

theorem find?_insert (m : OrderedMap K V) (k k' : K) (v : V) :
    (m.insert k v).find? k' = if k' = k then some v else m.find? k' :=
  lookup_insertEntry k k' v m.entries

theorem find?_erase (m : OrderedMap K V) (k k' : K) :
    (m.erase k).find? k' = if k' = k then none else m.find? k' := by
  obtain ⟨es, hs⟩ := m
  simp only [find?, erase]
  clear hs
  induction es with
  | nil => simp
  | cons e es ih =>
    rw [lookup_cons_ite]
    by_cases he : e.1 = k
    · rw [filter_cons_of_neg (by simpa using he), ih, he]
      by_cases hk : k' = k <;> simp [hk]
    · rw [filter_cons_of_pos (by simpa using he), lookup_cons_ite, ih]
      by_cases hk : k' = k
      · simp [hk, Ne.symm he]
      · simp [hk]

theorem mem_entries_iff (m : OrderedMap K V) (k : K) (v : V) :
    (k, v) ∈ m.entries ↔ m.find? k = some v := by
  obtain ⟨es, hs⟩ := m
  simp only [find?]
  induction es with
  | nil => simp
  | cons e es ih =>
    obtain ⟨hhd, htl⟩ := pairwise_cons.mp hs
    obtain ⟨k', v'⟩ := e
    rw [mem_cons, lookup_cons_ite, Prod.mk.injEq, ih htl]
    by_cases hk : k = k'
    · subst hk
      -- the head has this key, so no later entry does
      simp [lookup_none_of_lt hhd, eq_comm]
    · simp [hk]

theorem find?_filter (m : OrderedMap K V) (keep : V → Bool) (k : K) :
    (m.filter keep).find? k = (m.find? k).filter keep := by
  refine Option.ext fun v => ?_
  rw [Option.filter_eq_some_iff, ← mem_entries_iff, ← mem_entries_iff]
  exact mem_filter

theorem entries_nodup (m : OrderedMap K V) : m.entries.Nodup :=
  m.sorted.imp (fun h heq => absurd (heq ▸ h) (lt_irrefl _))

theorem ext_find? {m m' : OrderedMap K V} (h : ∀ k, m.find? k = m'.find? k) : m = m' := by
  have hp : m.entries.Perm m'.entries := by
    rw [perm_ext_iff_of_nodup m.entries_nodup m'.entries_nodup]
    rintro ⟨k, v⟩
    rw [mem_entries_iff, mem_entries_iff, h]
  have he : m.entries = m'.entries :=
    hp.eq_of_pairwise (fun a b _ _ hab hba => absurd (hab.trans hba) (lt_irrefl _)) m.sorted m'.sorted
  cases m; cases m'; simp only at he; subst he; rfl

instance [DecidableEq V] : DecidableEq (OrderedMap K V) := fun m m' =>
  decidable_of_iff (m.entries = m'.entries)
    ⟨fun h => by cases m; cases m'; simp only at h; subst h; rfl, fun h => by rw [h]⟩

theorem length_insertEntry (h : es.lookup k = none) :
    (insertEntry k v es).length = es.length + 1 := by
  induction es with
  | nil => rfl
  | cons e es ih =>
    rw [lookup_cons_ite] at h
    split at h
    · cases h
    · rename_i hne
      simp only [insertEntry]
      split
      · rfl
      · split
        · simp [ih h]
        · rename_i hlt hgt
          exact absurd (le_antisymm (not_lt.mp hgt) (not_lt.mp hlt)) hne

theorem length_insert {m : OrderedMap K V} (v : V) (h : m.find? k = none) :
    (m.insert k v).entries.length = m.entries.length + 1 :=
  length_insertEntry h

theorem positions_sorted (l : List V) :
    (l.zipIdx.map fun e => (e.2, e.1)).Pairwise fun a b => a.1 < b.1 := by
  rw [pairwise_iff_getElem]
  intro i j hi hj hij
  simpa using hij

theorem values_eq_of_find? {l : List V} (h : ∀ i, m.find? i = l[i]?) :
    m.entries.map Prod.snd = l := by
  let indexed : OrderedMap Nat V := ⟨l.zipIdx.map fun e => (e.2, e.1), positions_sorted l⟩
  have hfind : ∀ i, indexed.find? i = l[i]? := by
    intro i
    refine Option.ext fun v => ?_
    rw [← mem_entries_iff]
    simp [indexed, mem_zipIdx_iff_getElem?]
  have hm : m = indexed := ext_find? fun i => (h i).trans (hfind i).symm
  rw [hm]
  simp [indexed, Function.comp_def]

theorem length_le_of_keys_lt {n : Nat} (h : ∀ e ∈ m.entries, e.1 < n) : m.entries.length ≤ n := by
  have hnodup : (m.entries.map Prod.fst).Nodup := by
    rw [nodup_iff_pairwise_ne, pairwise_map]
    exact m.sorted.imp fun hlt => hlt.ne
  have hsub : m.entries.map Prod.fst ⊆ List.range n := by
    intro k hk
    obtain ⟨e, he, rfl⟩ := mem_map.mp hk
    exact mem_range.mpr (h e he)
  simpa using (hnodup.subperm hsub).length_le

def change (m : OrderedMap K V) (c : K × Option V) : OrderedMap K V :=
  match c.2 with
  | some v => m.insert c.1 v
  | none => m.erase c.1

def overlay (m : OrderedMap K V) (changes : List (K × Option V)) : OrderedMap K V :=
  changes.foldl change m

section Overlay

variable {m : OrderedMap K V} {changes : List (K × Option V)}

theorem find?_change (c : K × Option V) (k : K) :
    (m.change c).find? k = if k = c.1 then c.2 else m.find? k := by
  obtain ⟨key, v⟩ := c
  cases v with
  | none => exact find?_erase m key k
  | some v => exact find?_insert m key k v

theorem find?_overlay (hnodup : (changes.map Prod.fst).Nodup) (k : K) :
    (m.overlay changes).find? k = (changes.lookup k).getD (m.find? k) := by
  induction changes generalizing m with
  | nil => rfl
  | cons c changes ih =>
    rw [map_cons, nodup_cons] at hnodup
    obtain ⟨hnot, hrest⟩ := hnodup
    have hstep : m.overlay (c :: changes) = (m.change c).overlay changes := rfl
    rw [hstep, ih hrest, find?_change, lookup_cons_ite]
    by_cases hk : k = c.1
    · have hnone : changes.lookup k = none := by
        rw [lookup_eq_none_iff]
        intro e he
        exact bne_iff_ne.mpr fun heq => hnot (hk ▸ heq ▸ mem_map_of_mem he)
      simp [hk ▸ hnone, hk]
    · simp [hk]

end Overlay

theorem sum_lt_eq (m : OrderedMap Nat V) (g : V → Nat) (b : Nat) :
    ((m.entries.filter (fun e => e.1 < b)).map (fun e => g e.2)).sum =
      ∑ k ∈ Finset.range b, ((m.find? k).map g).getD 0 := by
  obtain ⟨es, hs⟩ := m
  simp only [find?]
  induction es with
  | nil => simp
  | cons e es ih =>
    obtain ⟨hhd, htl⟩ := pairwise_cons.mp hs
    have hlook : ∀ k, (((e :: es).lookup k).map g).getD 0 =
        (if k = e.1 then g e.2 else 0) + ((es.lookup k).map g).getD 0 := by
      intro k
      rw [lookup_cons_ite]
      by_cases hk : k = e.1
      · subst hk; simp [lookup_none_of_lt hhd]
      · simp [hk]
    simp only [hlook, Finset.sum_add_distrib, Finset.sum_ite_eq', Finset.mem_range, ← ih htl]
    by_cases hb : e.1 < b <;> simp [hb]

end OrderedMap
