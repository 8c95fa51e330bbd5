import Mathlib

/-!
# Ripple.Lib.Trie

Tries over keys that are spelled digit by digit. An inner node has one child for each digit and a
label; the label may say that the node looks at a later digit than the one its place suggests, so
that plain tries and tries with skipped digits are both covered. A leaf keeps its whole key.

* `items`: the leaves from left to right, and what the exchange of one child does to them.
* `sorted_items`: the items of an aligned tree come in the order of their keys.
-/

namespace Ripple

open Function (update update_of_ne update_self update_apply)

/-- Keys spelled with digits below `w`, of which the first `len` tell two keys apart. -/
class Spelled (K : Type) (w len : outParam ℕ) where
  digit : K → ℕ → Fin w
  ext_digit : ∀ {k k' : K}, (∀ d < len, digit k d = digit k' d) → k = k'

/-- The labels of inner nodes: which digit a node with the label looks at, if it hangs below the
first `d` digits. -/
class Labelled (L : Type) where
  depth : L → ℕ → ℕ

inductive Trie (w : ℕ) (L K V : Type) where
  | nil
  | leaf (key : K) (value : V)
  | inner (label : L) (children : Fin w → Trie w L K V)

namespace Trie

open Spelled (digit)
open Labelled (depth)

variable {w len : ℕ} {L K V : Type}

def isNil : Trie w L K V → Bool
  | nil => true
  | leaf _ _ => false
  | inner _ _ => false

@[simp] theorem isNil_nil : (nil : Trie w L K V).isNil = true := rfl

@[simp] theorem isNil_leaf (k : K) (v : V) : (leaf k v : Trie w L K V).isNil = false := rfl

@[simp] theorem isNil_inner (l : L) (ch : Fin w → Trie w L K V) : (inner l ch).isNil = false := rfl

variable {t : Trie w L K V} {ch : Fin w → Trie w L K V} {p : K × V} {l : L} {i : Fin w}
  {P : ℕ → L → (Fin w → Trie w L K V) → Prop} {d : ℕ} {Q : ℕ → L → (Fin w → Trie w L K V) → Prop}
  {k' k : K}

theorem isNil_iff : t.isNil = true ↔ t = nil := by
  cases t <;> simp

/-- Equality of tries, child by child. -/
instance decEq [DecidableEq L] [DecidableEq K] [DecidableEq V] : DecidableEq (Trie w L K V)
  | nil, nil => isTrue rfl
  | nil, leaf _ _ => isFalse nofun
  | nil, inner _ _ => isFalse nofun
  | leaf _ _, nil => isFalse nofun
  | leaf k v, leaf k' v' =>
    decidable_of_iff (k = k' ∧ v = v') (by simp)
  | leaf _ _, inner _ _ => isFalse nofun
  | inner _ _, nil => isFalse nofun
  | inner _ _, leaf _ _ => isFalse nofun
  | inner l ch, inner l' ch' =>
    have := fun i => decEq (ch i) (ch' i)
    decidable_of_iff (l = l' ∧ ∀ i, ch i = ch' i) (by simp [funext_iff])

/-! ## Items -/

def items : Trie w L K V → List (K × V)
  | nil => []
  | leaf k v => [(k, v)]
  | inner _ ch => (List.finRange w).flatMap fun i => (ch i).items

@[simp] theorem items_nil : (nil : Trie w L K V).items = [] := rfl

@[simp] theorem items_leaf (k : K) (v : V) : (leaf k v : Trie w L K V).items = [(k, v)] := rfl

theorem mem_items_inner : p ∈ (inner l ch).items ↔ ∃ i, p ∈ (ch i).items := by
  simp [items]

def beside (ch : Fin w → Trie w L K V) (i : Fin w) : List (K × V) :=
  ((List.finRange w).erase i).flatMap fun j => (ch j).items

theorem mem_beside : p ∈ beside ch i ↔ ∃ j, j ≠ i ∧ p ∈ (ch j).items := by
  simp [beside, (List.nodup_finRange w).mem_erase_iff]

theorem items_inner_perm (l : L) (ch : Fin w → Trie w L K V) (i : Fin w) :
    (inner l ch).items.Perm ((ch i).items ++ beside ch i) := by
  have hperm := List.perm_cons_erase (List.mem_finRange i)
  have := hperm.flatMap_right fun j => (ch j).items
  simpa [items, beside] using this

theorem beside_update (ch : Fin w → Trie w L K V) (i : Fin w) (t : Trie w L K V) :
    beside (update ch i t) i = beside ch i := by
  refine List.flatMap_congr fun j hj => ?_
  have hne : j ≠ i := ((List.nodup_finRange w).mem_erase_iff.mp hj).1
  rw [update_of_ne hne]

theorem items_update_perm (l : L) (ch : Fin w → Trie w L K V) (i : Fin w) (t : Trie w L K V) :
    (inner l (update ch i t)).items.Perm (t.items ++ beside ch i) := by
  have := items_inner_perm l (update ch i t) i
  rwa [update_self, beside_update] at this

theorem mem_items_update :
    p ∈ (inner l (update ch i t)).items ↔ p ∈ t.items ∨ p ∈ beside ch i := by
  rw [(items_update_perm l ch i t).mem_iff, List.mem_append]

theorem items_update_cons (h : t.items.Perm (p :: (ch i).items)) :
    (inner l (update ch i t)).items.Perm (p :: (inner l ch).items) := by
  have hbeside : (t.items ++ beside ch i).Perm (p :: ((ch i).items ++ beside ch i)) := h.append_right _
  exact (items_update_perm l ch i t).trans (hbeside.trans ((items_inner_perm l ch i).symm.cons p))

theorem items_update_uncons (h : (ch i).items.Perm (p :: t.items)) :
    (inner l ch).items.Perm (p :: (inner l (update ch i t)).items) := by
  have hbeside : ((ch i).items ++ beside ch i).Perm (p :: (t.items ++ beside ch i)) := h.append_right _
  exact (items_inner_perm l ch i).trans (hbeside.trans ((items_update_perm l ch i t).symm.cons p))

/-! ## Other values -/

section Map

variable {V' : Type}

def map (f : V → V') : Trie w L K V → Trie w L K V'
  | nil => nil
  | leaf k v => leaf k (f v)
  | inner l ch => inner l fun i => (ch i).map f

@[simp] theorem isNil_map (f : V → V') (t : Trie w L K V) : (t.map f).isNil = t.isNil := by
  cases t <;> rfl

theorem items_map (f : V → V') (t : Trie w L K V) :
    (t.map f).items = t.items.map fun p => (p.1, f p.2) := by
  induction t with
  | nil => rfl
  | leaf k v => rfl
  | inner l ch ih =>
    simp only [map, items, List.map_flatMap]
    exact List.flatMap_congr fun i _ => ih i

theorem map_update (f : V → V') (ch : Fin w → Trie w L K V) (i : Fin w) (t : Trie w L K V) :
    (fun j => (update ch i t j).map f) = update (fun j => (ch j).map f) i (t.map f) := by
  funext j
  by_cases hj : j = i
  · subst hj
    rw [update_self, update_self]
  · rw [update_of_ne hj, update_of_ne hj]

end Map

/-! ## Conditions on inner nodes -/

variable [Labelled L]

/-- Every inner node meets `P`, which is told how many digits lead to the node. -/
def Every (P : ℕ → L → (Fin w → Trie w L K V) → Prop) : ℕ → Trie w L K V → Prop
  | _, nil => True
  | _, leaf _ _ => True
  | d, inner l ch => P d l ch ∧ ∀ i, Every P (depth l d + 1) (ch i)

@[simp] theorem every_nil (P : ℕ → L → (Fin w → Trie w L K V) → Prop) (d : ℕ) :
    Every P d (nil : Trie w L K V) := trivial

@[simp] theorem every_leaf (P : ℕ → L → (Fin w → Trie w L K V) → Prop) (d : ℕ) (k : K) (v : V) :
    Every P d (leaf k v : Trie w L K V) := trivial

instance decidableEvery {P : ℕ → L → (Fin w → Trie w L K V) → Prop} [∀ d l ch, Decidable (P d l ch)] :
    ∀ (d : ℕ) (t : Trie w L K V), Decidable (Every P d t)
  | _, nil => isTrue trivial
  | _, leaf _ _ => isTrue trivial
  | d, inner l ch =>
    have := fun i => decidableEvery (P := P) (depth l d + 1) (ch i)
    inferInstanceAs (Decidable (P d l ch ∧ ∀ i, Every P (depth l d + 1) (ch i)))

theorem Every.mono (hPQ : ∀ d l ch, P d l ch → Q d l ch) :
    ∀ {d : ℕ}, Every P d t → Every Q d t := by
  induction t with
  | nil | leaf k v => exact fun _ => trivial
  | inner l ch ih => exact fun h => ⟨hPQ _ l ch h.1, fun i => ih i (h.2 i)⟩

theorem Every.and :
    ∀ {d : ℕ}, Every P d t → Every Q d t → Every (fun d l ch => P d l ch ∧ Q d l ch) d t := by
  induction t with
  | nil | leaf k v => exact fun _ _ => trivial
  | inner l ch ih => exact fun hP hQ => ⟨⟨hP.1, hQ.1⟩, fun i => ih i (hP.2 i) (hQ.2 i)⟩

theorem every_map {V' : Type} {f : V → V'} {P : ℕ → L → (Fin w → Trie w L K V') → Prop} :
    ∀ {d : ℕ}, Every P d (t.map f) ↔ Every (fun d l ch => P d l fun i => (ch i).map f) d t := by
  induction t with
  | nil | leaf k v => exact Iff.rfl
  | inner l ch ih => exact and_congr Iff.rfl (forall_congr' fun i => ih i)

theorem Every.pos :
    ∀ {d : ℕ}, Every P d t → d ≠ 0 → Every (fun d l ch => d ≠ 0 ∧ P d l ch) d t := by
  induction t with
  | nil | leaf k v => exact fun _ _ => trivial
  | inner l ch ih => exact fun h hd => ⟨⟨hd, h.1⟩, fun i => ih i (h.2 i) (Nat.succ_ne_zero _)⟩

theorem Every.update (hch : ∀ j, Every P d (ch j)) (i : Fin w) (ht : Every P d t) (j : Fin w) :
    Every P d (update ch i t j) := by
  by_cases hj : j = i
  · subst hj
    rwa [update_self]
  · rw [update_of_ne hj]
    exact hch j

variable [Spelled K w len]

def Branching (d : ℕ) (l : L) (ch : Fin w → Trie w L K V) : Prop :=
  ∀ i, ∀ p ∈ (ch i).items, digit p.1 (depth l d) = i

theorem Branching.filter_items (h : Branching d l ch) (i : Fin w) :
    ((inner l ch).items.filter fun p => digit p.1 (depth l d) = i).Perm (ch i).items := by
  have hin : (ch i).items.filter (fun p => digit p.1 (depth l d) = i) = (ch i).items :=
    List.filter_eq_self.mpr fun p hp => decide_eq_true (h i p hp)
  have hout : (beside ch i).filter (fun p => digit p.1 (depth l d) = i) = [] := by
    refine List.filter_eq_nil_iff.mpr fun p hp => ?_
    obtain ⟨j, hj, hpj⟩ := mem_beside.mp hp
    simpa [h j p hpj] using hj
  have := (items_inner_perm l ch i).filter fun p => digit p.1 (depth l d) = i
  rwa [List.filter_append, hin, hout, List.append_nil] at this

theorem Branching.mem_child (h : Branching d l ch) (hp : p ∈ (inner l ch).items)
    (hi : digit p.1 (depth l d) = i) : p ∈ (ch i).items := by
  obtain ⟨j, hj⟩ := mem_items_inner.mp hp
  have : j = i := (h j p hj).symm.trans hi
  exact this ▸ hj

theorem Branching.update (h : Branching d l ch) (ht : ∀ p ∈ t.items, digit p.1 (depth l d) = i) :
    Branching d l (update ch i t) := by
  intro j p hp
  by_cases hj : j = i
  · subst hj
    rw [update_self] at hp
    exact ht p hp
  · rw [update_of_ne hj] at hp
    exact h j p hp

theorem nodup_keys (hP : ∀ d l ch, P d l ch → Branching d l ch) :
    ∀ {d : ℕ}, Every P d t → (t.items.map Prod.fst).Nodup := by
  induction t with
  | nil => simp
  | leaf k v => simp
  | inner l ch ih =>
    intro d h
    have hbr := hP _ _ _ h.1
    rw [items, List.map_flatMap, List.nodup_flatMap]
    refine ⟨fun i _ => ih i (h.2 i), ?_⟩
    -- keys of different children differ in the digit of the node
    refine (List.nodup_finRange w).imp fun {i j} hij k hi hj => hij ?_
    obtain ⟨p, hp, rfl⟩ := List.mem_map.mp hi
    obtain ⟨q, hq, hqp⟩ := List.mem_map.mp hj
    rw [← hbr i p hp, ← hbr j q hq, hqp]

/-! ## Trees that their items determine -/

/-- Two leaves below every inner node, on the branches of their digits, and no choice of labels:
then the items leave no choice of the tree. -/
theorem eq_of_items (hbr : ∀ d l ch, P d l ch → Branching d l ch)
    (htwo : ∀ d l ch, P d l ch → 2 ≤ (inner l ch).items.length)
    (hlabel : ∀ d l l' ch ch', P d l ch → P d l' ch' →
      (inner l ch).items.Perm (inner l' ch').items → l = l') :
    ∀ {d : ℕ} {t' : Trie w L K V}, Every P d t → Every P d t' → t.items.Perm t'.items → t = t' := by
  induction t with
  | nil =>
    intro d t' _ ht' hperm
    cases t' with
    | nil => rfl
    | leaf k v => simpa using hperm.length_eq
    | inner l ch =>
      have := htwo _ _ _ ht'.1
      rw [← hperm.length_eq] at this
      simp at this
  | leaf k v =>
    intro d t' _ ht' hperm
    cases t' with
    | nil => simpa using hperm.length_eq
    | leaf k' v' => simpa using hperm
    | inner l ch =>
      have := htwo _ _ _ ht'.1
      rw [← hperm.length_eq] at this
      simp at this
  | inner l ch ih =>
    intro d t' ht ht' hperm
    have hlen := htwo _ _ _ ht.1
    rw [hperm.length_eq] at hlen
    cases t' with
    | nil | leaf k v => simp at hlen
    | inner l' ch' =>
      obtain rfl := hlabel d l l' ch ch' ht.1 ht'.1 hperm
      congr 1
      funext i
      -- the items of a child are those of the node with the child's digit
      refine ih i (ht.2 i) (ht'.2 i) ?_
      exact ((hbr _ _ _ ht.1).filter_items i).symm.trans
        ((hperm.filter _).trans ((hbr _ _ _ ht'.1).filter_items i))

/-! ## Order -/

def Agree (d : ℕ) (k k' : K) : Prop := ∀ e < d, digit k e = digit k' e

theorem Agree.symm (h : Agree d k k') : Agree d k' k := fun e he => (h e he).symm

theorem Agree.trans {k'' : K} (h : Agree d k k') (h' : Agree d k' k'') : Agree d k k'' :=
  fun e he => (h e he).trans (h' e he)

theorem Agree.mono {d' : ℕ} (h : Agree d k k') (hle : d' ≤ d) : Agree d' k k' :=
  fun e he => h e (he.trans_le hle)

theorem Agree.succ (h : Agree d k k') (hd : digit k d = digit k' d) : Agree (d + 1) k k' := by
  intro e he
  obtain he | rfl := Nat.lt_succ_iff_lt_or_eq.mp he
  · exact h e he
  · exact hd

@[simp] theorem agree_zero (k k' : K) : Agree 0 k k' := fun _ he => absurd he (Nat.not_lt_zero _)

/-- The first digit in which the keys differ is smaller in `k`. -/
def Before (k k' : K) : Prop := ∃ d, Agree d k k' ∧ digit k d < digit k' d

theorem Before.asymm (h : Before k k') : ¬Before k' k := by
  rintro ⟨e, hagree', hlt'⟩
  obtain ⟨d, hagree, hlt⟩ := h
  obtain hde | rfl | hed := lt_trichotomy d e
  · exact absurd (hagree' d hde).symm hlt.ne
  · exact lt_asymm hlt hlt'
  · exact absurd (hagree e hed).symm hlt'.ne

/-- All items below the node agree in the digits in front of the one the node looks at. -/
def Aligned (d : ℕ) (l : L) (ch : Fin w → Trie w L K V) : Prop :=
  ∀ p ∈ (inner l ch).items, ∀ q ∈ (inner l ch).items, Agree (depth l d) p.1 q.1

theorem sorted_items (hbr : ∀ d l ch, P d l ch → Branching d l ch)
    (hal : ∀ d l ch, P d l ch → Aligned d l ch) :
    ∀ {d : ℕ}, Every P d t → t.items.Pairwise fun p q => Before p.1 q.1 := by
  induction t with
  | nil => simp
  | leaf k v => simp
  | inner l ch ih =>
    intro d h
    rw [items, List.pairwise_flatMap]
    refine ⟨fun i _ => ih i (h.2 i), ?_⟩
    refine (List.pairwise_lt_finRange w).imp fun {i j} hij p hp q hq => ?_
    refine ⟨depth l d, hal _ _ _ h.1 p (mem_items_inner.mpr ⟨i, hp⟩) q
      (mem_items_inner.mpr ⟨j, hq⟩), ?_⟩
    rwa [hbr _ _ _ h.1 i p hp, hbr _ _ _ h.1 j q hq]

end Trie

end Ripple
