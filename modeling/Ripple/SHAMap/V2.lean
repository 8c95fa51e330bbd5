import Ripple.SHAMap.Runs

/-!
# Ripple.SHAMap.V2

Maps of version 2, from `shamap/impl/SHAMap.cpp` and `SHAMapTreeNode.cpp`. An inner node keeps the
nibbles that all keys below it share and branches on the first one in which they differ, so that it
has at least two children unless it is the root.

A new leaf comes into an empty branch, above an inner node whose nibbles it does not share, or next
to another leaf; a deletion that leaves a node with one child puts that child in its place.

* `insert_spec`, `erase_spec`: the calls keep it and change the items as they should.
* `run_canonical`: the tree after any run is determined by the items it holds.
-/

namespace Ripple.SHAMap

open Trie List

namespace V2

/-- What an inner node of version 2 has beside its children. -/
structure InnerNodeV2 where
  depth : ℕ
  common : Key
  deriving DecidableEq

instance : Version InnerNodeV2 where
  depth l _ := l.depth
  admits l k := hasCommonPrefix l.depth l.common k

@[simp] theorem depth_eq (l : InnerNodeV2) (d : ℕ) : Labelled.depth l d = l.depth := rfl

theorem admits_iff (l : InnerNodeV2) (k : Key) :
    Version.admits l k = true ↔ Agree l.depth l.common k := hasCommonPrefix_iff _ _ _

variable {D : Type}

abbrev Map (D : Type) := Tree InnerNodeV2 D

def rootLabel : InnerNodeV2 := ⟨0, 0⟩

def empty : Map D := .inner rootLabel noChildren

/-! ## The calls -/

/-- The branches that `SHAMapInnerNodeV2::setChildren` gives its two leaves. -/
def forkBranch (k1 k2 k : Key) : Fin 16 :=
  let i := equalBytes k1 k2 32 0
  if byte k1 i &&& 0xF0 = byte k2 i &&& 0xF0 then lowHalf (byte k i) else highHalf (byte k i)

theorem forkBranch_eq (k1 k2 k : Key) : forkBranch k1 k2 k = selectBranch (forkDepth k1 k2) k := by
  rw [forkBranch, forkDepth]
  split
  · exact (selectBranch_odd _ _).symm
  · exact (selectBranch_even _ _).symm

/-- `SHAMapInnerNodeV2::setChildren`, for a new node. -/
def setChildren (k1 : Key) (child1 : Leaf D) (k2 : Key) (child2 : Leaf D) : Map D :=
  pair ⟨forkDepth k1 k2, forkCommon k1 k2⟩ (forkBranch k1 k2 k1) (.leaf k1 child1)
    (forkBranch k1 k2 k2) (.leaf k2 child2)

/-- A new inner node above one that does not share the nibbles of the key. -/
def splitAbove (tag : Key) (leaf : Leaf D) (l : InnerNodeV2) (ch : Fin 16 → Map D) : Map D :=
  let depth := getCommonPrefix l.depth l.common tag
  pair ⟨depth, prefixOf depth tag⟩ (selectBranch depth l.common) (.inner l ch)
    (selectBranch depth tag) (.leaf tag leaf)

def addBottom (tag : Key) (leaf : Leaf D) (node : Map D) (d : ℕ) : Map D :=
  match node with
  | .leaf other v => setChildren other v tag leaf
  | .inner l ch =>
    if hasCommonPrefix l.depth l.common tag then
      .inner l (Function.update ch (selectBranch d tag) (.leaf tag leaf))
    else splitAbove tag leaf l ch
  -- a walk ends at a leaf or at an inner node
  | .nil => .nil

/-- The part of `SHAMap::addGiveItem` for version 2. -/
def attach (tag : Key) (leaf : Leaf D) (w : Walk InnerNodeV2 D) : List (Frame InnerNodeV2 D) × Map D :=
  (w.stack, addBottom tag leaf w.node w.depth)

/-- The part of `SHAMap::delItem` for version 2, for an inner node that is not the root. -/
def collapse (_ : TNType) (l : InnerNodeV2) (ch : Fin 16 → Map D) : Map D :=
  match branches ch with
  | [i] => ch i
  | _ => .inner l ch

def ops : VersionOps InnerNodeV2 D := ⟨attach, collapse⟩

/-! ## Canonical maps -/

/-- The leaves of an inner node share its nibbles and hang on the branch of their next one. Other
than the root it has two branches with leaves. -/
structure Linked (d : ℕ) (l : InnerNodeV2) (ch : Fin 16 → Map D) : Prop where
  branching : Branching d l ch
  below : d ≤ l.depth
  common : ∀ p ∈ (inner l ch).items, prefixOf l.depth p.1 = l.common
  root : d = 0 → l = rootLabel
  two : d ≠ 0 → ∃ i j, i ≠ j ∧ (ch i).items ≠ [] ∧ (ch j).items ≠ []

variable {ch : Fin 16 → Map D} {l : InnerNodeV2} {d : ℕ} {k : Key} {ch' : Fin 16 → Map D}
  {l' : InnerNodeV2} {d' : ℕ} {root : Map D} {v : Leaf D} {t : Map D} {isTransaction hasMeta : Bool}
  {tag id : Key}

section

variable (h : Linked d l ch)
include h

theorem Linked.agree {p : Key × Leaf D} (hp : p ∈ (inner l ch).items) :
    Agree l.depth l.common p.1 := by
  rw [← h.common p hp]
  exact agree_prefixOf _ _

theorem Linked.common_of_agree (hk : Agree l.depth l.common k) :
    prefixOf l.depth k = l.common := by
  by_cases hd : d = 0
  · rw [h.root hd]
    exact prefixOf_zero k
  · obtain ⟨i, -, -, hi, -⟩ := h.two hd
    obtain ⟨p, hp⟩ := exists_mem_of_ne_nil _ hi
    have hp' : p ∈ (inner l ch).items := mem_items_inner.mpr ⟨i, hp⟩
    rw [← h.common p hp', prefixOf_eq_iff]
    exact hk.symm.trans (h.agree hp')

theorem Linked.aligned : Aligned d l ch :=
  fun _ hp _ hq => (h.agree hp).symm.trans (h.agree hq)

theorem Linked.admitting : Admitting l ch :=
  fun _ hp => (admits_iff _ _).mpr (h.agree hp)

omit h in
theorem two_le_length (h : ∃ i j, i ≠ j ∧ (ch i).items ≠ [] ∧ (ch j).items ≠ []) :
    2 ≤ (inner l ch).items.length := by
  obtain ⟨i, j, hij, hi, hj⟩ := h
  obtain ⟨p, hp⟩ := exists_mem_of_ne_nil _ hj
  have hbeside := length_pos_of_mem (mem_beside.mpr ⟨j, hij.symm, hp⟩)
  have hlen := (items_inner_perm l ch i).length_eq
  have := length_pos_iff.mpr hi
  rw [length_append] at hlen
  omega

theorem Linked.depth_le (hd : d ≠ 0) (h' : Linked d' l' ch')
    (hperm : (inner l ch).items.Perm (inner l' ch').items) : l'.depth ≤ l.depth := by
  obtain ⟨i, j, hij, hi, hj⟩ := h.two hd
  obtain ⟨p, hp⟩ := exists_mem_of_ne_nil _ hi
  obtain ⟨q, hq⟩ := exists_mem_of_ne_nil _ hj
  by_contra hlt
  have hp' := hperm.mem_iff.mp (mem_items_inner.mpr ⟨i, hp⟩)
  have hq' := hperm.mem_iff.mp (mem_items_inner.mpr ⟨j, hq⟩)
  have hdigit := h'.aligned p hp' q hq' l.depth (Nat.lt_of_not_le hlt)
  exact hij ((h.branching i p hp).symm.trans (hdigit.trans (h.branching j q hq)))

theorem Linked.label_eq (hd : d ≠ 0) (h' : Linked d l' ch')
    (hperm : (inner l ch).items.Perm (inner l' ch').items) : l = l' := by
  have hdepth := le_antisymm (h'.depth_le hd h hperm.symm) (h.depth_le hd h' hperm)
  obtain ⟨i, -, -, hi, -⟩ := h.two hd
  obtain ⟨p, hp⟩ := exists_mem_of_ne_nil _ hi
  have hp' := mem_items_inner (l := l).mpr ⟨i, hp⟩
  have hcommon := (h.common p hp').symm.trans
    ((congrArg (prefixOf · p.1) hdepth).trans (h'.common p (hperm.mem_iff.mp hp')))
  cases l
  cases l'
  simp_all

end

structure Canonical (root : Map D) : Prop where
  inner : ∃ ch, root = .inner rootLabel ch
  linked : Every Linked 0 root

theorem Canonical.nodup_keys (h : Canonical root) : (root.items.map Prod.fst).Nodup :=
  Trie.nodup_keys (fun _ _ _ hl => hl.branching) h.linked

theorem Canonical.walk_iff (h : Canonical root) :
    (walkTowardsKey k root 0 []).node = .leaf k v ↔ (k, v) ∈ root.items :=
  walk_ends_at (fun _ _ _ hl => hl.branching) (fun _ _ _ hl => hl.admitting) h.linked

theorem Canonical.eq_of_perm {root' : Map D} (h : Canonical root) (h' : Canonical root')
    (hperm : root.items.Perm root'.items) : root = root' := by
  obtain ⟨ch, rfl⟩ := h.inner
  obtain ⟨ch', rfl⟩ := h'.inner
  congr 1
  funext i
  refine Trie.eq_of_items (fun _ _ _ hl => hl.2.branching) (fun _ _ _ hl => two_le_length (hl.2.two hl.1))
    (fun _ _ _ _ _ hl hl' hp => hl.2.label_eq hl.1 hl'.2 hp) ((h.linked.2 i).pos (Nat.succ_ne_zero _))
    ((h'.linked.2 i).pos (Nat.succ_ne_zero _)) ?_
  exact (h.linked.1.branching.filter_items i).symm.trans
    ((hperm.filter _).trans (h'.linked.1.branching.filter_items i))

theorem canonical_empty : Canonical (empty : Map D) where
  inner := ⟨noChildren, rfl⟩
  linked := ⟨⟨branching_noChildren 0 rootLabel, le_rfl, by simp [items_noChildren], fun _ => rfl,
    fun h => absurd rfl h⟩, every_noChildren⟩

/-- A node that is not the root may hang lower or higher, as long as it looks at a later nibble. -/
theorem Linked.move (h : Every Linked d t) (hd : d ≠ 0) (hd' : d' ≠ 0)
    (hle : ∀ l ch, t = .inner l ch → d' ≤ l.depth) : Every Linked d' t := by
  cases t with
  | nil | leaf k v => trivial
  | inner l ch =>
    exact ⟨⟨h.1.branching, hle l ch rfl, h.1.common, fun h0 => absurd h0 hd', fun _ => h.1.two hd⟩, h.2⟩

theorem Linked.solid : ∀ {d : ℕ}, Every Linked d t → d ≠ 0 → Every Solid d t := by
  intro d h hd
  refine (h.pos hd).mono fun _ l ch hl => ?_
  exact ne_nil_of_length_pos (Nat.lt_of_lt_of_le Nat.two_pos (two_le_length (hl.2.two hl.1)))

/-! ## The items after an insertion -/

section Add

variable (tag : Key) (leaf : Leaf D)

def insert (t : Map D) (d : ℕ) : Map D :=
  if t.isNil then .leaf tag leaf
  else remake tag (fun child f => f.setChild (selectBranch f.depth tag) child) (addBottom tag leaf) t d

variable {ch : Fin 16 → Map D} {l : InnerNodeV2} {d r : ℕ} {k : Key}

theorem insert_admits (h : Agree l.depth l.common tag) : insert tag leaf (.inner l ch) d =
      .inner l (Function.update ch (selectBranch l.depth tag)
        (insert tag leaf (ch (selectBranch l.depth tag)) (l.depth + 1))) := by
  have hadm := (admits_iff l tag).mpr h
  by_cases hnil : (ch (selectBranch l.depth tag)).isNil
  · have hins : insert tag leaf (ch (selectBranch l.depth tag)) (l.depth + 1) = .leaf tag leaf :=
      if_pos hnil
    rw [hins, insert, if_neg (by simp), remake_stop _ _ _ (by simp [hnil]), addBottom,
      if_pos ((hasCommonPrefix_iff _ _ _).mpr h)]
    rfl
  · rw [insert, if_neg (by simp), remake_down _ _ _ (by simp [hnil, hadm]), insert, if_neg hnil]
    rfl

theorem insert_splits (h : ¬Agree l.depth l.common tag) :
    insert tag leaf (.inner l ch) d = splitAbove tag leaf l ch := by
  have hadm : ¬Version.admits l tag = true := fun ha => h ((admits_iff l tag).mp ha)
  rw [insert, if_neg (by simp), remake_stop _ _ _ (by simp [hadm]), addBottom,
    if_neg fun ha => h ((hasCommonPrefix_iff _ _ _).mp ha)]

theorem linked_pair {b : Fin 16} {child : Map D} (hd : d ≠ 0) (hle : d ≤ r) (hne : child.items ≠ [])
    (hagree : ∀ p ∈ child.items, Agree r p.1 tag) (hb : ∀ p ∈ child.items, selectBranch r p.1 = b)
    (htag : b ≠ selectBranch r tag) (hchild : Every Linked (r + 1) child) :
    (pair ⟨r, prefixOf r tag⟩ b child (selectBranch r tag) (.leaf tag leaf)).items.Perm
        ((tag, leaf) :: child.items) ∧
      Every Linked d (pair ⟨r, prefixOf r tag⟩ b child (selectBranch r tag) (.leaf tag leaf)) := by
  have hperm := items_pair ⟨r, prefixOf r tag⟩ htag child (.leaf tag leaf)
  refine ⟨hperm, every_pair ⟨branching_pair hb (by simp), hle, fun p hp => ?_, fun h => absurd h hd,
    fun _ => ⟨b, selectBranch r tag, htag, ?_, ?_⟩⟩ hchild (every_leaf _ _ _ _)⟩
  · have hp' := hperm.mem_iff.mp hp
    rw [items_leaf, singleton_append, mem_cons] at hp'
    obtain rfl | hp' := hp'
    · rfl
    · exact (prefixOf_eq_iff _ _ _).mpr (hagree p hp')
  · rwa [Function.update_of_ne htag, Function.update_self]
  · simp [Function.update_self]

variable {tag leaf}

theorem le_of_shared {depth : ℕ} {common : Key} (hd : d ≤ depth)
    (hshared : Shared depth common tag r) (hk : Agree depth common k) (hroom : Agree d k tag) :
    d ≤ r := by
  by_contra hlt
  have hr : r < d := Nat.lt_of_not_le hlt
  exact hshared.2.2 (by omega) ((hk r (by omega)).trans (hroom r hr))

theorem setChildren_spec (v : Leaf D) (hd : d ≠ 0) (hroom : Agree d k tag) (hne : k ≠ tag) :
    (setChildren k v tag leaf).items.Perm ((tag, leaf) :: [(k, v)]) ∧
      Every Linked d (setChildren k v tag leaf) := by
  have hshared := shared_forkDepth hne
  have hlt := forkDepth_lt hne
  have hdigit := hshared.2.2 hlt
  have hle : d ≤ forkDepth k tag := by
    by_contra hgt
    exact hdigit (hroom _ (Nat.lt_of_not_le hgt))
  rw [setChildren, forkCommon_eq, forkBranch_eq, forkBranch_eq,
    (prefixOf_eq_iff _ _ _).mpr hshared.2.1]
  refine linked_pair tag leaf hd hle ?_ ?_ ?_ hdigit (every_leaf _ _ _ _)
  · simp
  · simpa using hshared.2.1
  · simp

theorem splitAbove_spec (hd : d ≠ 0) (h : Every Linked d (.inner l ch))
    (hroom : Room tag d (inner l ch).items) (hno : ¬Agree l.depth l.common tag) :
    (splitAbove tag leaf l ch).items.Perm ((tag, leaf) :: (inner l ch).items) ∧
      Every Linked d (splitAbove tag leaf l ch) := by
  have hne : (inner l ch).items ≠ [] := items_ne_nil (Linked.solid h hd) rfl
  have hshared := shared_getCommonPrefix l.depth l.common tag
  rw [splitAbove]
  set r := getCommonPrefix l.depth l.common tag
  have hlt : r < l.depth := by
    refine lt_of_le_of_ne hshared.1 fun heq => hno ?_
    rw [← heq]
    exact hshared.2.1
  obtain ⟨p, hp⟩ := exists_mem_of_ne_nil _ hne
  have hle := le_of_shared h.1.below hshared (h.1.agree hp) (hroom.agree p hp)
  refine linked_pair tag leaf hd hle hne ?_ ?_ (hshared.2.2 hlt) ?_
  · exact fun p hp => ((h.1.agree hp).symm.mono hlt.le).trans hshared.2.1
  · exact fun p hp => ((h.1.agree hp) r hlt).symm
  · refine Linked.move h hd (Nat.succ_ne_zero r) fun l' ch' heq => ?_
    cases heq
    exact hlt

theorem insert_child (h : Every Linked d (.inner l ch)) (hadm : Agree l.depth l.common tag)
    {t : Map D} (hperm : t.items.Perm ((tag, leaf) :: (ch (selectBranch l.depth tag)).items))
    (ht : Every Linked (l.depth + 1) t) :
    (inner l (Function.update ch (selectBranch l.depth tag) t)).items.Perm
        ((tag, leaf) :: (inner l ch).items) ∧
      Every Linked d (.inner l (Function.update ch (selectBranch l.depth tag) t)) := by
  have hitems := items_update_cons (l := l) hperm
  refine ⟨hitems, ⟨?_, h.1.below, fun p hp => ?_, h.1.root, fun hd => ?_⟩, Every.update h.2 _ ht⟩
  · refine h.1.branching.update fun p hp => ?_
    rw [hperm.mem_iff, mem_cons] at hp
    obtain rfl | hp := hp
    · rfl
    · exact h.1.branching _ p hp
  · rw [hitems.mem_iff, mem_cons] at hp
    obtain rfl | hp := hp
    · exact h.1.common_of_agree hadm
    · exact h.1.common p hp
  · obtain ⟨i, j, hij, hi, hj⟩ := h.1.two hd
    have hkeep : ∀ i, (ch i).items ≠ [] →
        (Function.update ch (selectBranch l.depth tag) t i).items ≠ [] := by
      intro i hi
      by_cases hb : i = selectBranch l.depth tag
      · rw [hb, Function.update_self]
        exact ne_nil_of_length_pos (by rw [hperm.length_eq]; exact Nat.succ_pos _)
      · rwa [Function.update_of_ne hb]
    exact ⟨i, j, hij, hkeep i hi, hkeep j hj⟩

theorem room_child (h : Linked d l ch) (hadm : Agree l.depth l.common tag)
    (hroom : Room tag d (inner l ch).items) :
    Room tag (l.depth + 1) (ch (selectBranch l.depth tag)).items := by
  have hin : ∀ p ∈ (ch (selectBranch l.depth tag)).items, p ∈ (inner l ch).items :=
    fun p hp => mem_items_inner.mpr ⟨_, hp⟩
  refine ⟨fun p hp => ?_, fun p hp => hroom.absent p (hin p hp)⟩
  exact ((h.agree (hin p hp)).symm.trans hadm).succ (h.branching _ p hp)

theorem insert_spec (t : Map D) : ∀ {d : ℕ}, Every Linked d t → d ≠ 0 → Room tag d t.items →
    (insert tag leaf t d).items.Perm ((tag, leaf) :: t.items) ∧ Every Linked d (insert tag leaf t d) := by
  induction t with
  | nil => exact fun _ _ _ => ⟨List.Perm.refl _, trivial⟩
  | leaf k v =>
    intro d _ hd hroom
    exact setChildren_spec v hd (hroom.agree (k, v) (by simp)) (hroom.absent (k, v) (by simp))
  | inner l ch ih =>
    intro d h hd hroom
    by_cases hadm : Agree l.depth l.common tag
    · rw [insert_admits tag leaf hadm]
      obtain ⟨hperm, hlinked⟩ := ih (selectBranch l.depth tag) (d := l.depth + 1) (h.2 _)
        (Nat.succ_ne_zero _) (room_child h.1 hadm hroom)
      exact insert_child h hadm hperm hlinked
    · rw [insert_splits tag leaf hadm]
      exact splitAbove_spec hd h hroom hadm

end Add

theorem addGiveItem_perm (data : D) (h : Canonical root) (habsent : ∀ v, (tag, v) ∉ root.items) :
    ∃ root', addGiveItem ops root tag data isTransaction hasMeta = (root', true) ∧
      root'.items.Perm ((tag, ⟨leafType isTransaction hasMeta, data⟩) :: root.items) ∧
      Canonical root' := by
  have hwalk : ∀ v, (walkTowardsKey tag root 0 []).node ≠ .leaf tag v :=
    fun v hv => habsent v (h.walk_iff.mp hv)
  have hroom : Room tag 0 root.items :=
    ⟨fun _ _ => agree_zero _ _, fun p hp hk => habsent p.2 (hk ▸ hp)⟩
  obtain ⟨ch, rfl⟩ := h.inner
  -- every key shares the nibbles of the root
  have hadm : Agree rootLabel.depth rootLabel.common tag := agree_zero _ _
  have hspec : (insert tag ⟨leafType isTransaction hasMeta, data⟩ (.inner rootLabel ch) 0).items.Perm
      ((tag, ⟨leafType isTransaction hasMeta, data⟩) :: (inner rootLabel ch).items) ∧
      Every Linked 0 (insert tag ⟨leafType isTransaction hasMeta, data⟩ (.inner rootLabel ch) 0) := by
    rw [insert_admits _ _ hadm]
    obtain ⟨hperm, hlinked⟩ := insert_spec (ch (selectBranch rootLabel.depth tag)) (h.linked.2 _)
      (Nat.succ_ne_zero _) (room_child h.linked.1 hadm hroom)
    exact insert_child h.linked hadm hperm hlinked
  exact ⟨_, addGiveItem_absent hwalk (fun _ _ _ => rfl) rfl, hspec.1, ⟨_, insert_admits _ _ hadm⟩, hspec.2⟩

/-! ## The items after a deletion -/

theorem erase_inner {type : TNType} (hadm : Version.admits l id = true)
    (h : (ch (selectBranch l.depth id)).isNil = false) : erase ops id type (.inner l ch) d =
      delStep ops id type (erase ops id type (ch (selectBranch l.depth id)) (l.depth + 1))
        ⟨l, ch, l.depth⟩ :=
  remake_down _ _ _ (by simp [h, hadm])

theorem collapse_spec (type : TNType) (hd : d ≠ 0) (hbr : Branching d l ch) (hle : d ≤ l.depth)
    (hcommon : ∀ p ∈ (inner l ch).items, prefixOf l.depth p.1 = l.common)
    (hch : ∀ i, Every Linked (l.depth + 1) (ch i)) (hne : (inner l ch).items ≠ []) :
    (collapse type l ch).items = (inner l ch).items ∧ Every Linked d (collapse type l ch) := by
  have hitems := items_eq_branches l ch
  rw [collapse]
  split
  · next i hb =>
    rw [hb, flatMap_singleton] at hitems
    refine ⟨hitems.symm, Linked.move (hch i) (Nat.succ_ne_zero _) hd fun l' ch' heq => ?_⟩
    have := (heq ▸ hch i).1.below
    omega
  · next hb =>
    refine ⟨rfl, ⟨hbr, hle, hcommon, fun h => absurd h hd, fun _ => ?_⟩, hch⟩
    have hmem : ∀ i ∈ branches ch, (ch i).items ≠ [] := fun i hi =>
      items_ne_nil (Linked.solid (hch i) (Nat.succ_ne_zero _)) (mem_branches.mp hi)
    have hnodup : (branches ch).Nodup := (nodup_finRange 16).filter _
    match hbs : branches ch with
    | [] => exact absurd (by rw [hitems, hbs]; rfl) hne
    | [i] => exact absurd hbs (hb i)
    | i :: j :: rest =>
      rw [hbs] at hnodup
      refine ⟨i, j, ?_, hmem i (by simp [hbs]), hmem j (by simp [hbs])⟩
      rintro rfl
      simp at hnodup

theorem erase_spec (type : TNType) (t : Map D) : ∀ {d : ℕ}, Every Linked d t → (id, v) ∈ t.items →
      t.items.Perm ((id, v) :: (erase ops id type t d).items) ∧ Every Linked d (erase ops id type t d) := by
  induction t with
  | nil => simp
  | leaf k v' =>
    intro d _ hmem
    rw [items_leaf, mem_singleton] at hmem
    rw [items_leaf, hmem]
    exact ⟨List.Perm.refl _, trivial⟩
  | inner l ch ih =>
    intro d h hmem
    have hchild : (id, v) ∈ (ch (selectBranch l.depth id)).items := h.1.branching.mem_child hmem rfl
    obtain ⟨hperm, hlinked⟩ := ih (selectBranch l.depth id) (d := l.depth + 1) (h.2 _) hchild
    have hitems := items_update_uncons (l := l) hperm
    have hin : ∀ p ∈ (inner l (Function.update ch (selectBranch l.depth id)
        (erase ops id type (ch (selectBranch l.depth id)) (l.depth + 1)))).items, p ∈ (inner l ch).items :=
      fun p hp => hitems.mem_iff.mpr (mem_cons_of_mem _ hp)
    have hbr := h.1.branching.update fun p hp =>
      h.1.branching _ p (hperm.mem_iff.mpr (mem_cons_of_mem _ hp))
    have hcommon := fun p hp => h.1.common p (hin p hp)
    have hch := Every.update h.2 (selectBranch l.depth id) hlinked
    rw [erase_inner (h.1.admitting _ hmem) (isNil_eq_false_of_mem hchild), delStep]
    split
    · next hroot =>
      -- only the root looks at the first nibble
      have hd : d = 0 := Nat.le_zero.mp (hroot ▸ h.1.below)
      exact ⟨hitems, ⟨hbr, h.1.below, hcommon, h.1.root, fun h0 => absurd hd h0⟩, hch⟩
    · next hroot =>
      have hd : d ≠ 0 := by
        rintro rfl
        exact hroot (by rw [h.1.root rfl]; rfl)
      have hne : (inner l (Function.update ch (selectBranch l.depth id)
          (erase ops id type (ch (selectBranch l.depth id)) (l.depth + 1)))).items ≠ [] := by
        have := two_le_length (l := l) (h.1.two hd)
        rw [hitems.length_eq, length_cons] at this
        exact ne_nil_of_length_pos (by omega)
      obtain ⟨hsame, hevery⟩ := collapse_spec type hd hbr h.1.below hcommon hch hne
      exact ⟨hsame ▸ hitems, hevery⟩

theorem delItem_perm (h : Canonical root) (hmem : (id, v) ∈ root.items) :
    ∃ root', delItem ops root id = (root', true) ∧ root.items.Perm ((id, v) :: root'.items) ∧
      Canonical root' := by
  obtain ⟨hperm, hlinked⟩ := erase_spec v.type root h.linked hmem
  refine ⟨_, delItem_present (h.walk_iff.mpr hmem), hperm, ?_, hlinked⟩
  obtain ⟨ch, rfl⟩ := h.inner
  have hchild : (id, v) ∈ (ch (selectBranch rootLabel.depth id)).items :=
    h.linked.1.branching.mem_child hmem rfl
  exact ⟨_, (erase_inner (h.linked.1.admitting _ hmem) (isNil_eq_false_of_mem hchild)).trans
    (delStep_root rfl)⟩

/-! ## Runs -/

theorem linked_onKeys : OnKeys (Linked : ℕ → InnerNodeV2 → (Fin 16 → Map D) → Prop) := by
  intro d l ch ch' h hkeys
  have hback : ∀ i, ∀ p ∈ (ch' i).items, ∃ q ∈ (ch i).items, q.1 = p.1 := fun i p hp =>
    mem_map.mp (hkeys i ▸ mem_map.mpr ⟨p, hp, rfl⟩)
  refine ⟨fun i p hp => ?_, h.below, fun p hp => ?_, h.root, fun hd => ?_⟩
  · obtain ⟨q, hq, hqp⟩ := hback i p hp
    rw [← hqp]
    exact h.branching i q hq
  · obtain ⟨i, hi⟩ := mem_items_inner.mp hp
    obtain ⟨q, hq, hqp⟩ := hback i p hi
    rw [← hqp]
    exact h.common q (mem_items_inner.mpr ⟨i, hq⟩)
  · obtain ⟨i, j, hij, hi, hj⟩ := h.two hd
    have hkeep : ∀ i, (ch i).items ≠ [] → (ch' i).items ≠ [] := by
      intro i hi hnone
      have := hkeys i
      rw [hnone, map_nil] at this
      exact hi (map_eq_nil_iff.mp this.symm)
    exact ⟨i, j, hij, hkeep i hi, hkeep j hj⟩

theorem updateGiveItem_replaced (data : D) (h : Canonical root) (hmem : ∃ v, (tag, v) ∈ root.items) :
    ∃ root', updateGiveItem root tag data isTransaction hasMeta = (root', true) ∧
      Replaced tag ⟨leafType isTransaction hasMeta, data⟩ root root' ∧ Canonical root' := by
  obtain ⟨v, hv⟩ := hmem
  have hwalk := h.walk_iff.mpr hv
  obtain ⟨hrep, hlinked⟩ := replace_spec linked_onKeys (fun _ _ _ hl => hl.branching)
    ⟨leafType isTransaction hasMeta, data⟩ h.linked ⟨v, hwalk⟩
  refine ⟨_, updateGiveItem_present hwalk, hrep, ?_, hlinked⟩
  obtain ⟨ch, rfl⟩ := h.inner
  have hchild : (tag, v) ∈ (ch (selectBranch rootLabel.depth tag)).items :=
    h.linked.1.branching.mem_child hv rfl
  have hadm := h.linked.1.admitting _ hv
  exact ⟨_, remake_down _ _ _ (by rw [hadm]; simpa using isNil_eq_false_of_mem hchild)⟩

theorem sound : Sound (ops : VersionOps InnerNodeV2 D) Canonical fun _ => True where
  walk_iff h _ _ := h.walk_iff
  nodup_keys h := h.nodup_keys
  add h _ habsent := addGiveItem_perm _ h habsent
  del h hmem := delItem_perm h hmem
  update h _ hmem := updateGiveItem_replaced _ h hmem

theorem refines_empty : Refines Canonical (empty : Map D) noItems :=
  ⟨canonical_empty, fun k v => by simp [empty, items_noChildren, noItems]⟩

def run (calls : List (Op D)) : Map D := (runOps (step ops) empty calls).1

/-- What the nibbles of an inner node are: all keys below it begin with them, and two of those keys
differ in the next nibble. -/
def LongestCommon (l : InnerNodeV2) (ch : Fin 16 → Map D) : Prop :=
  (∀ p ∈ (inner l ch).items, prefixOf l.depth p.1 = l.common) ∧
    ∃ p ∈ (inner l ch).items, ∃ q ∈ (inner l ch).items, selectBranch l.depth p.1 ≠ selectBranch l.depth q.1

theorem Linked.longestCommon (h : Linked d l ch) (hd : d ≠ 0) : LongestCommon l ch := by
  obtain ⟨i, j, hij, hi, hj⟩ := h.two hd
  obtain ⟨p, hp⟩ := exists_mem_of_ne_nil _ hi
  obtain ⟨q, hq⟩ := exists_mem_of_ne_nil _ hj
  refine ⟨h.common, p, mem_items_inner.mpr ⟨i, hp⟩, q, mem_items_inner.mpr ⟨j, hq⟩, fun heq => hij ?_⟩
  exact (h.branching i p hp).symm.trans (heq.trans (h.branching j q hq))

theorem Linked.two_le_getBranchCount (h : Linked d l ch) (hd : d ≠ 0) : 2 ≤ getBranchCount ch := by
  obtain ⟨i, j, hij, hi, hj⟩ := h.two hd
  have hmem : ∀ i, (ch i).items ≠ [] → i ∈ branches ch := fun i hi => by
    obtain ⟨p, hp⟩ := exists_mem_of_ne_nil _ hi
    exact mem_branches.mpr (isNil_eq_false_of_mem hp)
  have hi' := hmem i hi
  have hj' := hmem j hj
  rw [getBranchCount]
  match hb : branches ch with
  | [] => simp [hb] at hi'
  | [b] =>
    rw [hb, mem_singleton] at hi' hj'
    exact absurd (hi'.trans hj'.symm) hij
  | _ :: _ :: _ => simp

/-- After every run: lookups and replies are those of the finite map, every inner node below the
root has two children and the longest common nibbles of its keys, and the tree depends on the items
only. -/
theorem run_compressed (calls : List (Op D)) :
    (runOps (step ops) empty calls).2 = (runOps specStep noItems calls).2 ∧
    (∀ k, peekItem (run calls) k = ((runOps specStep noItems calls).1 k).map Leaf.data ∧
      hasItem (run calls) k = ((runOps specStep noItems calls).1 k).isSome) ∧
    Every (fun d l ch => Branching d l ch ∧ (d ≠ 0 → 2 ≤ getBranchCount ch ∧ LongestCommon l ch)) 0
      (run calls) ∧
    ∀ calls' : List (Op D), (runOps specStep noItems calls').1 = (runOps specStep noItems calls).1 →
      run calls' = run calls := by
  have hok : ∀ calls : List (Op D), ∀ op ∈ calls, True := fun _ _ _ => trivial
  obtain ⟨href, hret⟩ := sound.run_refines refines_empty (hok calls)
  refine ⟨hret, sound.run_lookups refines_empty (hok calls), href.canonical.linked.mono fun d l ch hl =>
    ⟨hl.branching, fun hd => ⟨hl.two_le_getBranchCount hd, hl.longestCommon hd⟩⟩, fun calls' heq => ?_⟩
  have href' := (sound.run_refines refines_empty (hok calls')).1
  rw [heq] at href'
  exact href'.canonical.eq_of_perm href.canonical (sound.perm sound href' href)

/-- The same key and data, once as an entry of the state and once as a transaction. -/
theorem run_keeps_type :
    (∀ k, peekItem (run [.addItem 0 7 false false]) k = peekItem (run [.addItem 0 7 true false]) k) ∧
      run [.addItem 0 7 false false] ≠ run [Op.addItem 0 7 true false] := by
  have hpeek : ∀ isTransaction k, peekItem (run [.addItem 0 7 isTransaction false]) k =
      if k = 0 then some 7 else none := by
    intro isTransaction k
    have hok : ∀ op ∈ [Op.addItem 0 7 isTransaction false], True := fun _ _ => trivial
    refine (sound.run_lookups refines_empty hok k).1.trans ?_
    by_cases hk : k = 0
    · simp [runOps, specStep, noItems, hk]
    · simp [runOps, specStep, noItems, hk]
  refine ⟨fun k => (hpeek false k).trans (hpeek true k).symm, fun heq => ?_⟩
  have hfound : findKey (run [Op.addItem 0 7 false false]) 0 = some ⟨.tnACCOUNT_STATE, 7⟩ := by
    decide +kernel
  rw [heq] at hfound
  revert hfound
  decide +kernel

end V2

end Ripple.SHAMap
