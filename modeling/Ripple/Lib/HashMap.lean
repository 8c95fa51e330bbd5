import Mathlib

/-!
# Ripple.Lib.HashMap

Hash maps and hash sets, as lists of entries with distinct keys. The position of an entry carries no
meaning; code that visits the entries takes their order from its environment.

* `values`: the multiset of the values, and what the updates of one key do to it.
-/

abbrev HashMap (K V : Type) := AList fun _ : K => V

abbrev HashSet (K : Type) := HashMap K Unit

namespace AList

variable {K V N : Type} (m : HashMap K V)

def values : Multiset V := (m.entries.map Sigma.snd : List V)

theorem card_values : m.values.card = m.keys.length := by
  simp [values, AList.keys, List.keys]

/-- The entries in front of the oldest ones for which `old` holds. -/
def dropOld (old : V → Bool) : HashMap K V :=
  ⟨m.entries.rdropWhile fun e => old e.2,
    m.nodupKeys.sublist ( List.rdropWhile_prefix _ _).sublist⟩

def mapValues (f : K → V → V) : HashMap K V :=
  ⟨m.entries.map fun e => ⟨e.1, f e.1 e.2⟩, by
    have h := m.nodupKeys
    rw [List.NodupKeys, List.keys] at h ⊢
    simpa [Function.comp_def] using h⟩

variable [DecidableEq K]

theorem lookup_insert_ite (m : HashMap K V) (k k' : K) (v : V) :
    (m.insert k v).lookup k' = if k' = k then some v else m.lookup k' := by
  by_cases h : k' = k
  · subst h
    simp
  · simp [h, AList.lookup_insert_ne h]

theorem lookup_erase_ite (m : HashMap K V) (k k' : K) :
    (m.erase k).lookup k' = if k' = k then none else m.lookup k' := by
  by_cases h : k' = k
  · subst h
    simp
  · simp [h, AList.lookup_erase_ne h]

variable {m : HashMap K V} {k : K} {v : V} {k' : K} {n n' : N}

theorem mem_iff_lookup : k ∈ m ↔ ∃ v, m.lookup k = some v := by
  rw [← AList.lookup_isSome, Option.isSome_iff_exists]

theorem lookup_mapValues (m : HashMap K V) (f : K → V → V) (k : K) :
    (m.mapValues f).lookup k = (m.lookup k).map (f k) := by
  rw [lookup, lookup]
  simp only [mapValues]
  induction m.entries with
  | nil => rfl
  | cons e es ih =>
    obtain ⟨a, v⟩ := e
    by_cases h : k = a
    · subst h
      simp
    · rw [List.map_cons, List.dlookup_cons_ne (β := fun _ => V) _ ⟨a, f a v⟩ h,
        List.dlookup_cons_ne (β := fun _ => V) _ ⟨a, v⟩ h]
      exact ih

theorem mem_mapValues {f : K → V → V} : k ∈ m.mapValues f ↔ k ∈ m := by
  simp only [mem_iff_lookup, lookup_mapValues, Option.map_eq_some_iff]
  constructor
  · rintro ⟨_, v, hv, -⟩
    exact ⟨v, hv⟩
  · rintro ⟨v, hv⟩
    exact ⟨_, v, hv, rfl⟩

theorem lookup_of_mem_entries {e : (_ : K) × V} (h : e ∈ m.entries) : m.lookup e.1 = some e.2 :=
  mem_lookup_iff.mpr h

theorem values_insert_of_notMem (v : V) (h : k ∉ m) : (m.insert k v).values = v ::ₘ m.values := by
  rw [values, AList.entries_insert_of_notMem h]
  rfl

theorem values_erase (h : m.lookup k = some v) : m.values = v ::ₘ (m.erase k).values := by
  obtain ⟨b, l₁, l₂, hk, hl, he⟩ := List.exists_of_kerase (mem_iff_lookup.mpr ⟨v, h⟩)
  have hb : b = v := by
    rw [lookup, hl, List.dlookup_append, List.dlookup_eq_none.mpr hk] at h
    simpa using h
  simp only [values, erase, hl, ← hb, List.map_append, List.map_cons, Multiset.cons_coe]
  rw [← hl, he, List.map_append]
  exact Multiset.coe_eq_coe.mpr List.perm_middle

theorem values_insert (m : HashMap K V) (k : K) (v : V) :
    (m.insert k v).values = v ::ₘ (m.erase k).values := rfl

def total (m : HashMap K V) (f : V → Nat) : Nat := (m.values.map f).sum

theorem total_erase (f : V → Nat) (h : m.lookup k = some v) :
    m.total f = f v + (m.erase k).total f := by
  rw [total, values_erase h, Multiset.map_cons, Multiset.sum_cons, total]

theorem total_insert (m : HashMap K V) (f : V → Nat) (k : K) (v : V) :
    (m.insert k v).total f = f v + (m.erase k).total f := by
  rw [total, values_insert, Multiset.map_cons, Multiset.sum_cons, total]

theorem total_insert_of_notMem (f : V → Nat) (v : V) (h : k ∉ m) :
    (m.insert k v).total f = f v + m.total f := by
  rw [total, values_insert_of_notMem v h, Multiset.map_cons, Multiset.sum_cons, total]

theorem total_insert_add (m : HashMap K V) (f : V → Nat) (k : K) (v : V) :
    (m.insert k v).total f + (m.lookup k).elim 0 f = f v + m.total f := by
  cases h : m.lookup k with
  | none => exact total_insert_of_notMem f v (lookup_eq_none.mp h)
  | some old =>
    rw [total_insert, total_erase f h, Option.elim_some]
    omega

theorem elim_lookup_le_total (m : HashMap K V) (f : V → Nat) (k : K) : (m.lookup k).elim 0 f ≤ m.total f := by
  cases h : m.lookup k with
  | none => exact Nat.zero_le _
  | some v => exact total_erase f h ▸ Nat.le_add_right _ _

theorem total_eq_sum (m : HashMap K V) (f : V → Nat) {keys : Finset K} (h : ∀ k ∈ m, k ∈ keys) :
    m.total f = ∑ k ∈ keys, (m.lookup k).elim 0 f := by
  induction m using AList.insertRec with
  | H0 => simp [total, values]
  | IH k v m hfresh ih =>
    have hk : k ∈ keys := h k (by simp)
    have hrest : ∑ k' ∈ keys.erase k, ((m.insert k v).lookup k').elim 0 f =
        ∑ k' ∈ keys.erase k, (m.lookup k').elim 0 f :=
      Finset.sum_congr rfl fun k' hk' => by rw [lookup_insert_ne (Finset.ne_of_mem_erase hk')]
    have hmem : ∀ k' ∈ m, k' ∈ keys := fun k' hk' => h k' ((mem_insert _).mpr (.inr hk'))
    rw [total_insert_of_notMem f v hfresh, ih hmem, ← Finset.add_sum_erase _ _ hk,
      ← Finset.add_sum_erase _ _ hk, hrest, lookup_insert, lookup_eq_none.mpr hfresh]
    simp

def Holds (m : HashMap K (HashSet N)) (k : K) (n : N) : Prop := ∃ s, m.lookup k = some s ∧ n ∈ s

theorem holds_erase {m : HashMap K (HashSet N)} :
    (m.erase k).Holds k' n ↔ m.Holds k' n ∧ k' ≠ k := by
  simp only [Holds, lookup_erase_ite]
  by_cases h : k' = k
  · simp [h]
  · simp [h]

variable [DecidableEq N]

def insertInto (m : HashMap K (HashSet N)) (k : K) (n : N) : HashMap K (HashSet N) :=
  m.insert k (((m.lookup k).getD ∅).insert n ())

def eraseFrom (m : HashMap K (HashSet N)) (k : K) (n : N) : HashMap K (HashSet N) :=
  match m.lookup k with
  | some s => if (s.erase n).entries.isEmpty then m.erase k else m.insert k (s.erase n)
  | none => m

theorem holds_insertInto {m : HashMap K (HashSet N)} :
    (m.insertInto k n).Holds k' n' ↔ m.Holds k' n' ∨ (k' = k ∧ n' = n) := by
  simp only [Holds, insertInto, lookup_insert_ite]
  by_cases h : k' = k
  · subst h
    cases hs : m.lookup k' with
    | none => simp [AList.mem_keys]
    | some s => simp [or_comm]
  · simp [h]

theorem holds_eraseFrom {m : HashMap K (HashSet N)} :
    (m.eraseFrom k n).Holds k' n' ↔ m.Holds k' n' ∧ ¬ (k' = k ∧ n' = n) := by
  cases hs : m.lookup k with
  | none =>
    simp only [eraseFrom, hs, Holds]
    by_cases h : k' = k
    · subst h
      simp [hs]
    · simp [h]
  | some s =>
    have hmem : ∀ x, x ∈ s.erase n ↔ x ≠ n ∧ x ∈ s := fun x => AList.mem_erase
    simp only [eraseFrom, hs, Holds]
    by_cases h : k' = k
    · subst h
      split
      · rename_i hemp
        have hnone : ∀ x, x ∉ s.erase n := by
          intro x hx
          rw [mem_keys, keys, List.isEmpty_iff.mp hemp] at hx
          simp at hx
        have := hnone n'
        rw [hmem] at this
        simp [hs]
        tauto
      · simp [hs]
        tauto
    · split
      · simp [h]
      · simp [h]

end AList
