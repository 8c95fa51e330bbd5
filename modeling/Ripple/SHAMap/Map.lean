import Ripple.SHAMap.Key

/-!
# Ripple.SHAMap.Map

What the two versions of a map have in common, from `shamap/impl/SHAMap.cpp`: the walk towards a key
with its stack of inner nodes, the lookups, the way back up, and the hash of the root.

An inner node of version 1 has no label; one of version 2 knows its depth and the nibbles that all
keys below it share (`Version`). Shared nodes, the copies that `unshareNode` makes of them and the
store behind the map do not matter here: a map is a value, and all of its nodes are in memory.

* `walk_ends_at`: a walk ends at the leaf of its key, if there is one.
-/

namespace Ripple.SHAMap

open Trie
open Function (update update_of_ne update_self update_apply)

/-! ## Nodes -/

inductive TNType where
  | tnTRANSACTION_NM
  | tnTRANSACTION_MD
  | tnACCOUNT_STATE
  deriving DecidableEq

def leafType (isTransaction hasMeta : Bool) : TNType :=
  if !isTransaction then .tnACCOUNT_STATE
  else if hasMeta then .tnTRANSACTION_MD else .tnTRANSACTION_NM

/-- A `SHAMapTreeNode`, apart from the key of its item. -/
structure Leaf (D : Type) where
  type : TNType
  data : D
  deriving DecidableEq

abbrev Tree (L D : Type) := Trie 16 L Key (Leaf D)

/-- The label of the inner nodes of a version: the depth of a node, and whether a key can be below
it as far as the node itself can tell. -/
class Version (L : Type) extends Labelled L where
  admits : L → Key → Bool

open Labelled (depth)
open Version (admits)

variable {L D : Type} [Version L]

structure Frame (L D : Type) where
  label : L
  children : Fin 16 → Tree L D
  depth : ℕ

def Frame.setChild (f : Frame L D) (branch : Fin 16) (child : Tree L D) : Tree L D :=
  .inner f.label (update f.children branch child)

/-! ## The walk -/

/-- The top of the stack that a walk fills, and what lies under it. -/
structure Walk (L D : Type) where
  node : Tree L D
  depth : ℕ
  stack : List (Frame L D)

def walkTowardsKey (id : Key) : Tree L D → ℕ → List (Frame L D) → Walk L D
  | .nil, d, stack => ⟨.nil, d, stack⟩
  | .leaf k v, d, stack => ⟨.leaf k v, d, stack⟩
  | .inner l ch, d, stack =>
    if admits l id && !(ch (selectBranch (depth l d) id)).isNil then
      walkTowardsKey id (ch (selectBranch (depth l d) id)) (depth l d + 1)
        (⟨l, ch, depth l d⟩ :: stack)
    else ⟨.inner l ch, depth l d, stack⟩

theorem walkTowardsKey_stack (id : Key) (t : Tree L D) : ∀ (d : ℕ) (stack : List (Frame L D)),
    walkTowardsKey id t d stack =
      { walkTowardsKey id t d [] with stack := (walkTowardsKey id t d []).stack ++ stack } := by
  induction t with
  | nil | leaf k v => exact fun _ _ => rfl
  | inner l ch ih =>
    intro d stack
    rw [walkTowardsKey, walkTowardsKey]
    split
    · rw [ih, ih _ _ [_]]
      simp
    · rfl

variable {t root : Tree L D} {isTransaction hasMeta : Bool} {tag : Key} {v : Leaf D} {data : D}
  {P : ℕ → L → (Fin 16 → Tree L D) → Prop} {k : Key} {ch : Fin 16 → Tree L D} {i : Fin 16} {d : ℕ}
  {l : L} {b1 b2 : Fin 16} {child1 child2 : Tree L D}

theorem walkTowardsKey_ne_nil (id : Key) (ht : t.isNil = false) :
    ∀ (d : ℕ) (stack : List (Frame L D)), (walkTowardsKey id t d stack).node.isNil = false := by
  induction t with
  | nil => simp at ht
  | leaf k v => exact fun _ _ => rfl
  | inner l ch ih =>
    intro d stack
    rw [walkTowardsKey]
    split
    · next h =>
      simp only [Bool.and_eq_true, Bool.not_eq_true'] at h
      exact ih _ h.2 _ _
    · rfl

/-- `SHAMap::findKey`. -/
def findKey (root : Tree L D) (id : Key) : Option (Leaf D) :=
  match (walkTowardsKey id root 0 []).node with
  | .leaf k v => if k = id then some v else none
  | _ => none

def peekItem (root : Tree L D) (id : Key) : Option D := (findKey root id).map Leaf.data

def hasItem (root : Tree L D) (id : Key) : Bool := (findKey root id).isSome

/-- `SHAMap::dirtyUp`: every node of the stack gets its changed child. -/
def dirtyUp (stack : List (Frame L D)) (target : Key) (child : Tree L D) : Tree L D :=
  stack.foldl (fun child f => f.setChild (selectBranch f.depth target) child) child

/-! ## The calls -/

def branches (ch : Fin 16 → Tree L D) : List (Fin 16) := (List.finRange 16).filter fun i => !(ch i).isNil

def getBranchCount (ch : Fin 16 → Tree L D) : ℕ := (branches ch).length

/-- What the versions do differently. -/
structure VersionOps (L D : Type) where
  /-- The stack and the node above it, once a new leaf has been put at the end of the walk. -/
  attach : Key → Leaf D → Walk L D → List (Frame L D) × Tree L D
  /-- What becomes of an inner node other than the root, once a leaf of the type is gone below it. -/
  collapse : TNType → L → (Fin 16 → Tree L D) → Tree L D

def isLeafOf (id : Key) : Tree L D → Bool
  | .leaf k _ => k = id
  | _ => false

variable (ver : VersionOps L D)

def addGiveItem (root : Tree L D) (tag : Key) (data : D)
    (isTransaction hasMeta : Bool) : Tree L D × Bool :=
  let w := walkTowardsKey tag root 0 []
  if isLeafOf tag w.node then (root, false)
  else
    let (stack, node) := ver.attach tag ⟨leafType isTransaction hasMeta, data⟩ w
    (dirtyUp stack tag node, true)

/-- One round of the loop of `SHAMap::delItem`. -/
def delStep (id : Key) (type : TNType) (prevNode : Tree L D) (f : Frame L D) : Tree L D :=
  let ch := update f.children (selectBranch f.depth id) prevNode
  if f.depth = 0 then .inner f.label ch else ver.collapse type f.label ch

def delItem (root : Tree L D) (id : Key) : Tree L D × Bool :=
  let w := walkTowardsKey id root 0 []
  match w.node with
  | .leaf k v => if k ≠ id then (root, false) else (w.stack.foldl (delStep ver id v.type) .nil, true)
  | _ => (root, false)

/-- `SHAMap::updateGiveItem`. A leaf whose hash stays the same is not carried up; it has changed in
its place all the same. -/
def updateGiveItem (root : Tree L D) (tag : Key) (data : D) (isTransaction hasMeta : Bool) :
    Tree L D × Bool :=
  let w := walkTowardsKey tag root 0 []
  match w.node with
  | .leaf k _ =>
    if k ≠ tag then (root, false)
    else (dirtyUp w.stack tag (.leaf tag ⟨leafType isTransaction hasMeta, data⟩), true)
  | _ => (root, false)

/-! ## A change at the end of the walk -/

/-- The node at the end of the walk is exchanged by `bottom`, and each node of the stack by `up`. -/
def remake (id : Key) (up : Tree L D → Frame L D → Tree L D) (bottom : Tree L D → ℕ → Tree L D)
    (t : Tree L D) (d : ℕ) : Tree L D :=
  let w := walkTowardsKey id t d []
  w.stack.foldl up (bottom w.node w.depth)

section Remake

variable (id : Key) (up : Tree L D → Frame L D → Tree L D) (bottom : Tree L D → ℕ → Tree L D)

variable {ch : Fin 16 → Tree L D} {l : L} {d : ℕ}

theorem remake_stop (h : ¬(admits l id && !(ch (selectBranch (depth l d) id)).isNil)) :
    remake id up bottom (.inner l ch) d = bottom (.inner l ch) (depth l d) := by
  rw [remake, walkTowardsKey, if_neg h]
  rfl

theorem remake_down (h : admits l id && !(ch (selectBranch (depth l d) id)).isNil) :
    remake id up bottom (.inner l ch) d =
      up (remake id up bottom (ch (selectBranch (depth l d) id)) (depth l d + 1))
        ⟨l, ch, depth l d⟩ := by
  rw [remake, walkTowardsKey, if_pos h, walkTowardsKey_stack]
  simp only [List.foldl_append, List.foldl_cons, List.foldl_nil]
  rfl

end Remake

omit [Version L] in
theorem isLeafOf_eq_true {id : Key} : isLeafOf id t = true ↔ ∃ v, t = .leaf id v := by
  cases t with
  | nil | leaf k v | inner l ch => simp [isLeafOf]

theorem addGiveItem_absent {ver : VersionOps L D} {bottom : Tree L D → ℕ → Tree L D}
    (h : ∀ v, (walkTowardsKey tag root 0 []).node ≠ .leaf tag v)
    (hattach : ∀ w : Walk L D, w.node.isNil = false → isLeafOf tag w.node = false →
      dirtyUp (ver.attach tag ⟨leafType isTransaction hasMeta, data⟩ w).1 tag
        (ver.attach tag ⟨leafType isTransaction hasMeta, data⟩ w).2 =
      dirtyUp w.stack tag (bottom w.node w.depth)) (hroot : root.isNil = false) :
    addGiveItem ver root tag data isTransaction hasMeta =
      (remake tag (fun child f => f.setChild (selectBranch f.depth tag) child) bottom root 0, true) := by
  have hleaf : isLeafOf tag (walkTowardsKey tag root 0 []).node = false := by
    refine Bool.eq_false_iff.mpr fun hl => ?_
    obtain ⟨v, hv⟩ := isLeafOf_eq_true.mp hl
    exact h v hv
  rw [addGiveItem, if_neg (by simp [hleaf])]
  exact congrArg (·, true) (hattach _ (walkTowardsKey_ne_nil tag hroot 0 []) hleaf)

def erase (id : Key) (type : TNType) : Tree L D → ℕ → Tree L D :=
  remake id (delStep ver id type) fun _ _ => .nil

omit [Version L] in
theorem delStep_root {ver : VersionOps L D} {id : Key} {type : TNType} {prevNode : Tree L D}
    {f : Frame L D} (h : f.depth = 0) :
    delStep ver id type prevNode f = f.setChild (selectBranch f.depth id) prevNode := by
  rw [delStep, if_pos h]
  rfl

theorem delItem_present {ver : VersionOps L D} {id : Key}
    (h : (walkTowardsKey id root 0 []).node = .leaf id v) :
    delItem ver root id = (erase ver id v.type root 0, true) := by
  simp [delItem, h, erase, remake]

theorem delItem_absent {ver : VersionOps L D} {id : Key}
    (h : ∀ v, (walkTowardsKey id root 0 []).node ≠ .leaf id v) :
    delItem ver root id = (root, false) := by
  rw [delItem]
  cases hnode : (walkTowardsKey id root 0 []).node with
  | nil => rfl
  | leaf k v =>
    have hne : k ≠ id := by
      rintro rfl
      exact h v hnode
    simp [hne]
  | inner l ch => rfl

omit [Version L] in
theorem isNil_eq_false_of_mem {p : Key × Leaf D} (h : p ∈ t.items) : t.isNil = false := by
  cases t with
  | nil => simp at h
  | leaf k v => rfl
  | inner l ch => rfl

/-! ## Lookups -/

def Admitting (l : L) (ch : Fin 16 → Tree L D) : Prop := ∀ p ∈ (inner l ch).items, admits l p.1 = true

theorem walk_ends_at (hbr : ∀ d l ch, P d l ch → Branching d l ch)
    (had : ∀ d l ch, P d l ch → Admitting l ch) :
    ∀ {d : ℕ}, Every P d t → ((walkTowardsKey k t d []).node = .leaf k v ↔ (k, v) ∈ t.items) := by
  induction t with
  | nil => simp [walkTowardsKey]
  | leaf k' v' =>
    intro d _
    simp only [walkTowardsKey, leaf.injEq, items_leaf, List.mem_singleton, Prod.mk.injEq]
    exact ⟨fun ⟨h1, h2⟩ => ⟨h1.symm, h2.symm⟩, fun ⟨h1, h2⟩ => ⟨h1.symm, h2.symm⟩⟩
  | inner l ch ih =>
    intro d h
    have hchild : (k, v) ∈ (inner l ch).items ↔ (k, v) ∈ (ch (selectBranch (depth l d) k)).items :=
      ⟨fun hk => (hbr _ _ _ h.1).mem_child hk rfl, fun hk => mem_items_inner.mpr ⟨_, hk⟩⟩
    rw [walkTowardsKey]
    split
    · rw [walkTowardsKey_stack, hchild]
      exact ih _ (h.2 _)
    · next hstop =>
      -- the branch is empty, or the node does not admit the key
      refine ⟨nofun, fun hk => absurd ?_ hstop⟩
      have hadm := had _ _ _ h.1 _ hk
      rw [hchild] at hk
      cases hnil : ch (selectBranch (depth l d) k) with
      | nil => simp [hnil] at hk
      | leaf _ _ | inner _ _ => simp [hadm]

theorem findKey_eq_some :
    findKey root k = some v ↔ (walkTowardsKey k root 0 []).node = .leaf k v := by
  rw [findKey]
  split
  · next k' v' hnode =>
    rw [hnode]
    split
    · next hk => simp [hk]
    · next hk => simp [hk]
  · next hne =>
    simp only [reduceCtorEq, false_iff]
    exact hne k v

/-! ## Branches -/

section

omit [Version L]

theorem mem_branches : i ∈ branches ch ↔ (ch i).isNil = false := by
  simp [branches]

theorem flatMap_not_nil (ch : Fin 16 → Tree L D) (is : List (Fin 16)) :
    ((is.filter fun i => !(ch i).isNil).flatMap fun i => (ch i).items) = is.flatMap fun i => (ch i).items := by
  induction is with
  | nil => rfl
  | cons i is ih =>
    rw [List.flatMap_cons, ← ih, List.filter_cons]
    split
    · rfl
    · next hnil =>
      have : ch i = .nil := isNil_iff.mp (by simpa using hnil)
      simp [this]

theorem items_eq_branches (l : L) (ch : Fin 16 → Tree L D) :
    (inner l ch).items = (branches ch).flatMap fun i => (ch i).items :=
  (flatMap_not_nil ch _).symm

end

def Solid (_ : ℕ) (l : L) (ch : Fin 16 → Tree L D) : Prop := (inner l ch).items ≠ []

theorem items_ne_nil (h : Every Solid d t) (ht : t.isNil = false) : t.items ≠ [] := by
  cases t with
  | nil => simp at ht
  | leaf k v => simp
  | inner l ch => exact h.1

theorem two_le_items (hch : ∀ i, Every Solid d (ch i)) (h : 2 ≤ (branches ch).length) :
    2 ≤ (inner l ch).items.length := by
  rw [items_eq_branches]
  have hpos : ∀ i ∈ branches ch, 0 < ((ch i).items).length := fun i hi =>
    List.length_pos_iff.mpr (items_ne_nil (hch i) (mem_branches.mp hi))
  match hb : branches ch with
  | [] => simp [hb] at h
  | [_] => simp [hb] at h
  | i :: j :: rest =>
    have hi := hpos i (by simp [hb])
    have hj := hpos j (by simp [hb])
    simp only [List.flatMap_cons, List.length_append]
    omega

/-! ## New nodes -/

def noChildren : Fin 16 → Tree L D := fun _ => .nil

def pair (l : L) (b1 : Fin 16) (child1 : Tree L D) (b2 : Fin 16) (child2 : Tree L D) : Tree L D :=
  .inner l (update (update noChildren b1 child1) b2 child2)

theorem every_noChildren (i : Fin 16) : Every P d ((noChildren : Fin 16 → Tree L D) i) := trivial

theorem branching_noChildren (d : ℕ) (l : L) : Branching (V := Leaf D) d l noChildren :=
  fun _ _ hp => by simp [noChildren] at hp

section

omit [Version L]

theorem items_noChildren (l : L) : (inner l noChildren : Tree L D).items = [] := by
  simp [items, noChildren]

theorem items_only (l : L) (b : Fin 16) (child : Tree L D) :
    (inner l (update noChildren b child)).items.Perm child.items := by
  have hbeside : beside (noChildren : Fin 16 → Tree L D) b = [] := by simp [beside, noChildren]
  simpa [hbeside] using items_update_perm l noChildren b child

theorem items_pair (l : L) (hne : b1 ≠ b2) (child1 child2 : Tree L D) :
    (pair l b1 child1 b2 child2).items.Perm (child2.items ++ child1.items) := by
  have hfirst := items_inner_perm l (update noChildren b1 child1) b2
  rw [update_of_ne hne.symm] at hfirst
  exact (items_update_perm l _ b2 child2).trans
    ((hfirst.symm.trans (items_only l b1 child1)).append_left child2.items)

end

theorem branching_pair (h1 : ∀ p ∈ child1.items, selectBranch (depth l d) p.1 = b1)
    (h2 : ∀ p ∈ child2.items, selectBranch (depth l d) p.1 = b2) :
    Branching d l (update (update noChildren b1 child1) b2 child2) :=
  ((branching_noChildren d l).update h1).update h2

theorem every_pair (h : P d l (update (update noChildren b1 child1) b2 child2))
    (h1 : Every P (depth l d + 1) child1) (h2 : Every P (depth l d + 1) child2) :
    Every P d (pair l b1 child1 b2 child2) :=
  ⟨h, Every.update (Every.update every_noChildren _ h1) _ h2⟩

/-- What an insertion finds below a node: keys on the way to `tag`, but not `tag` itself. -/
structure Room (tag : Key) (d : ℕ) (ps : List (Key × Leaf D)) : Prop where
  agree : ∀ p ∈ ps, Agree d p.1 tag
  absent : ∀ p ∈ ps, p.1 ≠ tag

/-! ## Exchange of a leaf -/

def OnKeys (P : ℕ → L → (Fin 16 → Tree L D) → Prop) : Prop :=
  ∀ d l ch ch', P d l ch → (∀ i, (ch' i).items.map Prod.fst = (ch i).items.map Prod.fst) → P d l ch'

def replace (tag : Key) (leaf : Leaf D) : Tree L D → ℕ → Tree L D :=
  remake tag (fun child f => f.setChild (selectBranch f.depth tag) child) fun _ _ => .leaf tag leaf

omit [Version L] in
theorem items_map_update (l : L) (h : t.items.map Prod.fst = (ch i).items.map Prod.fst) :
    ((inner l (update ch i t)).items.map Prod.fst) = (inner l ch).items.map Prod.fst := by
  rw [items, items, List.map_flatMap, List.map_flatMap]
  refine List.flatMap_congr fun j _ => ?_
  by_cases hj : j = i
  · subst hj
    rw [update_self, h]
  · rw [update_of_ne hj]

structure Replaced (tag : Key) (leaf : Leaf D) (t t' : Tree L D) : Prop where
  keys : t'.items.map Prod.fst = t.items.map Prod.fst
  perm : ∀ v, (tag, v) ∈ t.items → ∃ rest, t.items.Perm ((tag, v) :: rest) ∧
    t'.items.Perm ((tag, leaf) :: rest)

omit [Version L] in
theorem Replaced.setChild {leaf : Leaf D} (h : Replaced tag leaf (ch i) t)
    (hin : ∀ v, (tag, v) ∈ (inner l ch).items → (tag, v) ∈ (ch i).items) :
    Replaced tag leaf (inner l ch) (inner l (update ch i t)) where
  keys := items_map_update l h.keys
  perm := by
    intro v hv
    obtain ⟨rest, hperm, hperm'⟩ := h.perm v (hin v hv)
    exact ⟨rest ++ beside ch i, (items_inner_perm l ch i).trans (hperm.append_right _),
      (items_update_perm l ch i t).trans (hperm'.append_right _)⟩

theorem replace_spec (hP : OnKeys P) (hbr : ∀ d l ch, P d l ch → Branching d l ch) (leaf : Leaf D) :
    ∀ {d : ℕ}, Every P d t → (∃ v, (walkTowardsKey tag t d []).node = .leaf tag v) →
      Replaced tag leaf t (replace tag leaf t d) ∧ Every P d (replace tag leaf t d) := by
  induction t with
  | nil => simp [walkTowardsKey]
  | leaf k v =>
    rintro d - ⟨v', hv⟩
    simp only [walkTowardsKey, Trie.leaf.injEq] at hv
    obtain ⟨rfl, rfl⟩ := hv
    refine ⟨⟨rfl, fun v' hv' => ⟨[], ?_, List.Perm.refl _⟩⟩, trivial⟩
    rw [items_leaf, List.mem_singleton] at hv'
    rw [hv']
    exact List.Perm.refl _
  | inner l ch ih =>
    rintro d h ⟨v, hv⟩
    rw [walkTowardsKey] at hv
    split at hv
    · next hdown =>
      rw [walkTowardsKey_stack] at hv
      obtain ⟨hrep, hevery⟩ := ih _ (h.2 _) ⟨v, hv⟩
      have heq : replace tag leaf (inner l ch) d = inner l (update ch
          (selectBranch (depth l d) tag)
          (replace tag leaf (ch (selectBranch (depth l d) tag)) (depth l d + 1))) :=
        remake_down _ _ _ hdown
      rw [heq]
      refine ⟨hrep.setChild fun v hv => (hbr _ _ _ h.1).mem_child hv rfl, ?_, Every.update h.2 _ hevery⟩
      refine hP _ _ _ _ h.1 fun i => ?_
      by_cases hi : i = selectBranch (depth l d) tag
      · rw [hi, update_self, hrep.keys]
      · rw [update_of_ne hi]
    · simp at hv

theorem updateGiveItem_present (h : (walkTowardsKey tag root 0 []).node = .leaf tag v) :
    updateGiveItem root tag data isTransaction hasMeta =
      (replace tag ⟨leafType isTransaction hasMeta, data⟩ root 0, true) := by
  rw [updateGiveItem, replace, remake]
  simp [h, dirtyUp]

theorem updateGiveItem_absent (h : ∀ v, (walkTowardsKey tag root 0 []).node ≠ .leaf tag v) :
    updateGiveItem root tag data isTransaction hasMeta = (root, false) := by
  rw [updateGiveItem]
  cases hnode : (walkTowardsKey tag root 0 []).node with
  | nil => rfl
  | leaf k v =>
    have hne : k ≠ tag := by
      rintro rfl
      exact h v hnode
    simp [hne]
  | inner l ch => rfl

/-! ## The hash of the root -/

/-- The hash functions of the nodes. An inner node hashes the hashes of its children. -/
structure Hashing (L D H : Type) where
  leaf : TNType → Key → D → H
  inner : L → (Fin 16 → H) → H

/-- The hash that `updateHash` gives a node once its children have theirs. An empty inner node has
the hash zero, as an empty branch has. -/
def nodeHash {H : Type} [Zero H] (hashing : Hashing L D H) : Tree L D → H
  | .nil => 0
  | .leaf k v => hashing.leaf v.type k v.data
  | .inner l ch =>
    if ∀ i, (ch i).isNil then 0 else hashing.inner l fun i => nodeHash hashing (ch i)

/-- `SHAMap::getHash`: the root has no hash after a change, so that `unshare` computes it anew. -/
def getHash {H : Type} [Zero H] (hashing : Hashing L D H) (root : Tree L D) : H := nodeHash hashing root

end Ripple.SHAMap
