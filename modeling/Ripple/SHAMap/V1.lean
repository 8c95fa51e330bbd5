import Ripple.SHAMap.Runs

/-!
# Ripple.SHAMap.V1

Maps of version 1, from `shamap/impl/SHAMap.cpp`. Every inner node branches on the nibble of its own
depth, so that two keys with a long common beginning hang below a chain of inner nodes with one
child each. Insertion builds such a chain down to the first nibble in which the keys differ, and
deletion takes it back on the way up, through `onlyBelow`.

Both give all leaves that they move the type of the item they work on; a map has leaves of one type.

* `addGiveItem_perm`, `delItem_perm`, `updateGiveItem_replaced`: the items after a call, and that the
  map stays canonical.
* `Canonical.eq_of_perm`: a canonical tree is determined by the items it holds.
-/

namespace Ripple.SHAMap

open Trie List

namespace V1

/-- The inner nodes of version 1 have nothing but their children. -/
instance : Version Unit where
  depth _ d := d
  admits _ _ := true

@[simp] theorem depth_unit (l : Unit) (d : ℕ) : Labelled.depth l d = d := rfl

@[simp] theorem admits_unit (l : Unit) (k : Key) : Version.admits l k = true := rfl

variable {D : Type}

abbrev Map (D : Type) := Tree Unit D

def empty : Map D := .inner () noChildren

/-! ## Insertion -/

/-- The loop of `SHAMap::addGiveItem` that goes down to the first nibble in which the keys differ.
-/
def forkLoop (tag other : Key) : (fuel d : ℕ) → List (Frame Unit D) → ℕ × List (Frame Unit D)
  | 0, d, stack => (d, stack)
  | n + 1, d, stack =>
    if selectBranch d tag = selectBranch d other then
      forkLoop tag other n (d + 1) (⟨(), noChildren, d⟩ :: stack)
    else (d, stack)

def forkNode (tag : Key) (leaf : Leaf D) (other : Key) (otherData : D) (d : ℕ) : Map D :=
  pair () (selectBranch d tag) (.leaf tag leaf) (selectBranch d other) (.leaf other ⟨leaf.type, otherData⟩)

/-- The part of `SHAMap::addGiveItem` for version 1. -/
def attach (tag : Key) (leaf : Leaf D) (w : Walk Unit D) : List (Frame Unit D) × Map D :=
  match w.node with
  | .leaf other v =>
    let (d, stack) := forkLoop tag other (64 - w.depth) w.depth w.stack
    (stack, forkNode tag leaf other v.data d)
  | .inner l ch => (w.stack, .inner l (Function.update ch (selectBranch w.depth tag) (.leaf tag leaf)))
  -- a walk ends at a leaf or at an inner node
  | .nil => (w.stack, .nil)

/-! ## Deletion -/

/-- `SHAMap::onlyBelow`: the item below the node, if there is only one. -/
def onlyBelow : Map D → Option (Key × Leaf D)
  | .nil => none
  | .leaf k v => some (k, v)
  | .inner _ ch =>
    match branches ch with
    | [i] => onlyBelow (ch i)
    | _ => none

/-- The part of `SHAMap::delItem` for version 1, for an inner node that is not the root. -/
def collapse (type : TNType) (l : Unit) (ch : Fin 16 → Map D) : Map D :=
  if getBranchCount ch = 0 then .nil
  else if getBranchCount ch = 1 then
    match onlyBelow (.inner l ch) with
    | some (k, v) => .leaf k ⟨type, v.data⟩
    | none => .inner l ch
  else .inner l ch

def ops : VersionOps Unit D := ⟨attach, collapse⟩

/-! ## Canonical maps -/

/-- Each leaf is on its branch, and a node other than the root has two leaves. -/
def Dense (d : ℕ) (l : Unit) (ch : Fin 16 → Map D) : Prop :=
  Branching d l ch ∧ (d ≠ 0 → 2 ≤ (inner l ch).items.length)

structure Canonical (type : TNType) (root : Map D) : Prop where
  inner : ∃ ch, root = .inner () ch
  dense : Every Dense 0 root
  type : ∀ p ∈ root.items, p.2.type = type

variable {type : TNType} {root : Map D} {v : Leaf D} {root' : Map D} {isTransaction hasMeta : Bool}
  {tag : Key} {t : Map D} {d : ℕ} {ch : Fin 16 → Map D} {l : Unit} {id : Key}

theorem Canonical.nodup_keys (h : Canonical type root) : (root.items.map Prod.fst).Nodup :=
  Trie.nodup_keys (fun _ _ _ hd => hd.1) h.dense

theorem Canonical.walk_iff (h : Canonical type root) {k : Key} :
    (walkTowardsKey k root 0 []).node = .leaf k v ↔ (k, v) ∈ root.items :=
  walk_ends_at (fun _ _ _ hd => hd.1) (fun _ _ _ _ _ _ => rfl) h.dense

theorem Canonical.eq_of_perm {type' : TNType} (h : Canonical type root) (h' : Canonical type' root')
    (hperm : root.items.Perm root'.items) : root = root' := by
  obtain ⟨ch, rfl⟩ := h.inner
  obtain ⟨ch', rfl⟩ := h'.inner
  congr 1
  funext i
  refine Trie.eq_of_items (fun _ _ _ hd => hd.2.1) (fun _ _ _ hd => hd.2.2 hd.1)
    (fun _ _ _ _ _ _ _ _ => rfl) ((h.dense.2 i).pos (Nat.succ_ne_zero _))
    ((h'.dense.2 i).pos (Nat.succ_ne_zero _)) ?_
  exact (h.dense.1.1.filter_items i).symm.trans ((hperm.filter _).trans (h'.dense.1.1.filter_items i))

theorem canonical_empty (type : TNType) : Canonical type (empty : Map D) where
  inner := ⟨noChildren, rfl⟩
  dense := ⟨⟨branching_noChildren 0 (), fun h => absurd rfl h⟩, every_noChildren⟩
  type := by simp [empty, noChildren, items]

/-! ## The items after an insertion -/

section Add

variable (tag : Key) (leaf : Leaf D)

def forkTree (other : Key) (otherData : D) : (fuel d : ℕ) → Map D
  | 0, d => forkNode tag leaf other otherData d
  | n + 1, d =>
    if selectBranch d tag = selectBranch d other then
      .inner () (Function.update noChildren (selectBranch d tag) (forkTree other otherData n (d + 1)))
    else forkNode tag leaf other otherData d

theorem dirtyUp_forkLoop (other : Key) (otherData : D) (n : ℕ) :
    ∀ (d : ℕ) (stack : List (Frame Unit D)),
      dirtyUp (forkLoop tag other n d stack).2 tag
          (forkNode tag leaf other otherData (forkLoop tag other n d stack).1) =
        dirtyUp stack tag (forkTree tag leaf other otherData n d) := by
  induction n with
  | zero => exact fun _ _ => rfl
  | succ n ih =>
    intro d stack
    rw [forkLoop, forkTree]
    split
    · exact ih (d + 1) _
    · rfl

def addBottom (node : Map D) (d : ℕ) : Map D :=
  match node with
  | .leaf other v => forkTree tag leaf other v.data (64 - d) d
  | .inner l ch => .inner l (Function.update ch (selectBranch d tag) (.leaf tag leaf))
  | .nil => .leaf tag leaf

def insert (t : Map D) (d : ℕ) : Map D :=
  if t.isNil then .leaf tag leaf
  else remake tag (fun child f => f.setChild (selectBranch f.depth tag) child) (addBottom tag leaf) t d

theorem insert_inner (l : Unit) (ch : Fin 16 → Map D) (d : ℕ) :
    insert tag leaf (.inner l ch) d =
      .inner l (Function.update ch (selectBranch d tag)
        (insert tag leaf (ch (selectBranch d tag)) (d + 1))) := by
  by_cases hnil : (ch (selectBranch d tag)).isNil
  · have hins : insert tag leaf (ch (selectBranch d tag)) (d + 1) = .leaf tag leaf := if_pos hnil
    rw [hins, insert, if_neg (by simp), remake_stop _ _ _ (by simp [hnil])]
    rfl
  · rw [insert, if_neg (by simp), remake_down _ _ _ (by simp [hnil]), insert, if_neg hnil]
    rfl

theorem dirtyUp_attach {w : Walk Unit D} (hnil : w.node.isNil = false) :
    dirtyUp (attach tag leaf w).1 tag (attach tag leaf w).2 =
      dirtyUp w.stack tag (addBottom tag leaf w.node w.depth) := by
  rw [attach]
  cases hnode : w.node with
  | nil => simp [hnode] at hnil
  | leaf other v => exact dirtyUp_forkLoop tag leaf other v.data _ _ _
  | inner l ch => rfl

variable {other : Key} {d : ℕ}

theorem forkNode_spec (otherData : D) (hne : selectBranch d tag ≠ selectBranch d other) :
    (forkNode tag leaf other otherData d).items.Perm
        [(tag, leaf), (other, ⟨leaf.type, otherData⟩)] ∧
      Every Dense d (forkNode tag leaf other otherData d) := by
  have hperm := (items_pair () hne (.leaf tag leaf) (.leaf other ⟨leaf.type, otherData⟩)).trans
    (List.Perm.swap _ _ [])
  refine ⟨hperm, every_pair ⟨branching_pair ?_ ?_, fun _ => ?_⟩ (every_leaf _ _ _ _) (every_leaf _ _ _ _)⟩
  · simp
  · simp
  · rw [← pair, hperm.length_eq]
    rfl

theorem forkTree_spec (otherData : D) (hne : other ≠ tag) (n : ℕ) :
    ∀ d, 64 ≤ n + d → Agree d other tag →
      (forkTree tag leaf other otherData n d).items.Perm
          [(tag, leaf), (other, ⟨leaf.type, otherData⟩)] ∧
        Every Dense d (forkTree tag leaf other otherData n d) := by
  induction n with
  | zero =>
    intro d hd hagree
    exact absurd (Spelled.ext_digit fun e he => hagree e (by omega)) hne
  | succ n ih =>
    intro d hd hagree
    rw [forkTree]
    split
    · next hdigit =>
      obtain ⟨hperm, hdense⟩ := ih (d + 1) (by omega) (hagree.succ hdigit.symm)
      have hitems := (items_only () (selectBranch d tag) _).trans hperm
      refine ⟨hitems, ⟨?_, fun _ => by rw [hitems.length_eq]; rfl⟩, Every.update every_noChildren _ hdense⟩
      refine (branching_noChildren d ()).update fun p hp => ?_
      rw [hperm.mem_iff, mem_pair] at hp
      obtain rfl | rfl := hp
      · rfl
      · exact hdigit.symm
    · next hdigit => exact forkNode_spec tag leaf otherData hdigit

variable {tag leaf}

theorem room_child {l : Unit} {ch : Fin 16 → Map D} (h : Room tag d (inner l ch).items)
    (hbr : Branching d l ch) : Room tag (d + 1) (ch (selectBranch d tag)).items := by
  have hin : ∀ p ∈ (ch (selectBranch d tag)).items, p ∈ (inner l ch).items :=
    fun p hp => mem_items_inner.mpr ⟨_, hp⟩
  exact ⟨fun p hp => (h.agree p (hin p hp)).succ (hbr _ p hp), fun p hp => h.absent p (hin p hp)⟩

theorem insert_spec (t : Map D) : ∀ {d : ℕ}, Every Dense d t → Room tag d t.items →
    (∀ p ∈ t.items, p.2.type = leaf.type) →
    (insert tag leaf t d).items.Perm ((tag, leaf) :: t.items) ∧ Every Dense d (insert tag leaf t d) := by
  induction t with
  | nil => exact fun _ _ _ => ⟨List.Perm.refl _, trivial⟩
  | leaf k v =>
    intro d _ hroom htype
    have hv : (⟨leaf.type, v.data⟩ : Leaf D) = v := by
      rw [← htype (k, v) (by simp)]
    have := forkTree_spec tag leaf v.data (hroom.absent (k, v) (by simp)) (64 - d) d
      (by omega) (hroom.agree (k, v) (by simp))
    rwa [hv] at this
  | inner l ch ih =>
    intro d h hroom htype
    rw [insert_inner]
    obtain ⟨hperm, hdense⟩ := ih (selectBranch d tag) (d := d + 1) (h.2 _) (room_child hroom h.1.1)
      fun p hp => htype p (mem_items_inner.mpr ⟨_, hp⟩)
    have hitems := items_update_cons (l := l) hperm
    refine ⟨hitems, ⟨h.1.1.update fun p hp => ?_, fun hd => ?_⟩, Every.update h.2 _ hdense⟩
    · rw [hperm.mem_iff, mem_cons] at hp
      obtain rfl | hp := hp
      · rfl
      · exact h.1.1 _ p hp
    · have := h.1.2 hd
      rw [hitems.length_eq, length_cons]
      omega

end Add

theorem addGiveItem_perm (data : D) (h : Canonical (leafType isTransaction hasMeta) root)
    (habsent : ∀ v, (tag, v) ∉ root.items) :
    ∃ root', addGiveItem ops root tag data isTransaction hasMeta = (root', true) ∧
      root'.items.Perm ((tag, ⟨leafType isTransaction hasMeta, data⟩) :: root.items) ∧
      Canonical (leafType isTransaction hasMeta) root' := by
  have hwalk : ∀ v, (walkTowardsKey tag root 0 []).node ≠ .leaf tag v :=
    fun v hv => habsent v (h.walk_iff.mp hv)
  have hroom : Room tag 0 root.items :=
    ⟨fun _ _ => agree_zero _ _, fun p hp hk => habsent p.2 (hk ▸ hp)⟩
  have htype : ∀ p ∈ root.items, p.2.type = (⟨leafType isTransaction hasMeta, data⟩ : Leaf D).type := h.type
  obtain ⟨hperm, hdense⟩ := insert_spec _ h.dense hroom htype
  obtain ⟨ch, rfl⟩ := h.inner
  refine ⟨insert tag _ (.inner () ch) 0,
    addGiveItem_absent hwalk (fun _ hnil _ => dirtyUp_attach tag _ hnil) rfl, hperm,
    ⟨_, insert_inner _ _ _ _ _⟩, hdense, fun p hp => ?_⟩
  rw [hperm.mem_iff, mem_cons] at hp
  obtain rfl | hp := hp
  · rfl
  · exact h.type p hp

/-! ## The items after a deletion -/

theorem Dense.solid (h : Every Dense d t) (hd : d ≠ 0) : Every Solid d t := by
  refine (h.pos hd).mono fun _ l ch hdense => ?_
  have := hdense.2.2 hdense.1
  exact ne_nil_of_length_pos (by omega)

theorem onlyBelow_eq_some {p : Key × Leaf D} :
    ∀ {d : ℕ}, Every Solid d t → (onlyBelow t = some p ↔ t.items = [p]) := by
  induction t with
  | nil | leaf k v => simp [onlyBelow]
  | inner l ch ih =>
    intro d h
    rw [onlyBelow]
    split
    · next i hb =>
      rw [items_eq_branches, hb, flatMap_singleton]
      exact ih i (h.2 i)
    · next hb =>
      -- no branch, or several of them
      simp only [reduceCtorEq, false_iff]
      intro hitems
      have hlen : ¬2 ≤ (branches ch).length := fun htwo => by
        simpa [hitems] using two_le_items (l := l) h.2 htwo
      rw [items_eq_branches] at hitems
      match hbr : branches ch with
      | [] => simp [hbr] at hitems
      | [i] => exact hb i hbr
      | _ :: _ :: _ => simp [hbr] at hlen

theorem collapse_spec (hbr : Branching d l ch) (hch : ∀ i, Every Dense (d + 1) (ch i))
    (hne : (inner l ch).items ≠ []) (htype : ∀ p ∈ (inner l ch).items, p.2.type = type) :
    (collapse type l ch).items = (inner l ch).items ∧ Every Dense d (collapse type l ch) := by
  have hsolid : Every Solid d (inner l ch) := ⟨hne, fun i => Dense.solid (hch i) (Nat.succ_ne_zero d)⟩
  have hcount : getBranchCount ch ≠ 0 := by
    intro hzero
    rw [getBranchCount, length_eq_zero_iff] at hzero
    rw [items_eq_branches, hzero] at hne
    exact hne rfl
  rw [collapse, if_neg hcount]
  by_cases hone : ∃ p, (inner l ch).items = [p]
  · obtain ⟨⟨k, v⟩, hp⟩ := hone
    have hcount1 : getBranchCount ch = 1 := by
      have hlt : ¬2 ≤ (branches ch).length := fun htwo => by
        simpa [hp] using two_le_items (l := l) hsolid.2 htwo
      rw [getBranchCount] at hcount ⊢
      omega
    have hv : (⟨type, v.data⟩ : Leaf D) = v := by
      rw [← htype (k, v) (by simp [hp])]
    rw [if_pos hcount1, (onlyBelow_eq_some hsolid).mpr hp]
    simp [hp, hv]
  · have hnone : onlyBelow (inner l ch) = none := by
      refine Option.eq_none_iff_forall_ne_some.mpr fun p hp => hone ⟨p, ?_⟩
      exact (onlyBelow_eq_some hsolid).mp hp
    have hlen : 2 ≤ (inner l ch).items.length := by
      by_contra hlt
      refine hone (length_eq_one_iff.mp ?_)
      have := length_pos_iff.mpr hne
      omega
    rw [hnone, ite_self]
    exact ⟨rfl, ⟨hbr, fun _ => hlen⟩, hch⟩

theorem erase_inner (h : (ch (selectBranch d id)).isNil = false) :
    erase ops id type (.inner l ch) d =
      delStep ops id type (erase ops id type (ch (selectBranch d id)) (d + 1)) ⟨l, ch, d⟩ :=
  remake_down _ _ _ (by simp [h])

theorem erase_spec (t : Map D) :
    ∀ {d : ℕ}, Every Dense d t → (id, v) ∈ t.items → (∀ p ∈ t.items, p.2.type = type) →
      t.items.Perm ((id, v) :: (erase ops id type t d).items) ∧ Every Dense d (erase ops id type t d) := by
  induction t with
  | nil => simp
  | leaf k v' =>
    intro d _ hmem _
    rw [items_leaf, mem_singleton] at hmem
    rw [items_leaf, hmem]
    exact ⟨List.Perm.refl _, trivial⟩
  | inner l ch ih =>
    intro d h hmem htype
    have hchild : (id, v) ∈ (ch (selectBranch d id)).items := h.1.1.mem_child hmem rfl
    obtain ⟨hperm, hdense⟩ := ih (selectBranch d id) (d := d + 1) (h.2 _) hchild
      fun p hp => htype p (mem_items_inner.mpr ⟨_, hp⟩)
    have hitems := items_update_uncons (l := l) hperm
    have hbr := h.1.1.update fun p hp => h.1.1 _ p (hperm.mem_iff.mpr (mem_cons_of_mem _ hp))
    have hch := Every.update h.2 (selectBranch d id) hdense
    rw [erase_inner (isNil_eq_false_of_mem hchild), delStep]
    split
    · next hroot => exact ⟨hitems, ⟨hbr, fun hd => absurd hroot hd⟩, hch⟩
    · next hd =>
      have hne : (inner l (Function.update ch (selectBranch d id)
          (erase ops id type (ch (selectBranch d id)) (d + 1)))).items ≠ [] := by
        have := h.1.2 hd
        rw [hitems.length_eq, length_cons] at this
        exact ne_nil_of_length_pos (by omega)
      obtain ⟨hsame, hevery⟩ := collapse_spec hbr hch hne fun p hp =>
        htype p (hitems.mem_iff.mpr (mem_cons_of_mem _ hp))
      exact ⟨hsame ▸ hitems, hevery⟩

theorem delItem_perm (h : Canonical type root) (hmem : (id, v) ∈ root.items) :
    ∃ root', delItem ops root id = (root', true) ∧ root.items.Perm ((id, v) :: root'.items) ∧
      Canonical type root' := by
  have htype : ∀ p ∈ root.items, p.2.type = v.type :=
    fun p hp => (h.type p hp).trans (h.type _ hmem).symm
  obtain ⟨hperm, hdense⟩ := erase_spec root h.dense hmem htype
  refine ⟨_, delItem_present (h.walk_iff.mpr hmem), hperm, ?_, hdense, fun p hp => ?_⟩
  · obtain ⟨ch, rfl⟩ := h.inner
    have hchild : (id, v) ∈ (ch (selectBranch 0 id)).items := h.dense.1.1.mem_child hmem rfl
    exact ⟨_, (erase_inner (isNil_eq_false_of_mem hchild)).trans (delStep_root rfl)⟩
  · exact h.type p (hperm.mem_iff.mpr (mem_cons_of_mem _ hp))

/-! ## Runs -/

theorem dense_onKeys : OnKeys (Dense : ℕ → Unit → (Fin 16 → Map D) → Prop) := by
  intro d l ch ch' h hkeys
  refine ⟨fun i p hp => ?_, ?_⟩
  · have : p.1 ∈ (ch i).items.map Prod.fst := hkeys i ▸ mem_map.mpr ⟨p, hp, rfl⟩
    obtain ⟨q, hq, hqp⟩ := mem_map.mp this
    rw [← hqp]
    exact h.1 i q hq
  · intro hd
    have hmap : (inner l ch').items.map Prod.fst = (inner l ch).items.map Prod.fst := by
      rw [items, items, map_flatMap, map_flatMap]
      exact flatMap_congr fun i _ => hkeys i
    have hlen := congrArg List.length hmap
    rw [length_map, length_map] at hlen
    rw [hlen]
    exact h.2 hd

theorem updateGiveItem_replaced (data : D) (h : Canonical (leafType isTransaction hasMeta) root)
    (hmem : ∃ v, (tag, v) ∈ root.items) :
    ∃ root', updateGiveItem root tag data isTransaction hasMeta = (root', true) ∧
      Replaced tag ⟨leafType isTransaction hasMeta, data⟩ root root' ∧
      Canonical (leafType isTransaction hasMeta) root' := by
  obtain ⟨v, hv⟩ := hmem
  have hwalk := h.walk_iff.mpr hv
  obtain ⟨hrep, hdense⟩ := replace_spec dense_onKeys (fun _ _ _ hd => hd.1)
    ⟨leafType isTransaction hasMeta, data⟩ h.dense ⟨v, hwalk⟩
  refine ⟨_, updateGiveItem_present hwalk, hrep, ?_, hdense, fun p hp => ?_⟩
  · obtain ⟨ch, rfl⟩ := h.inner
    have hchild : (tag, v) ∈ (ch (selectBranch 0 tag)).items := h.dense.1.1.mem_child hv rfl
    exact ⟨_, remake_down _ _ _ (by simp [isNil_eq_false_of_mem hchild])⟩
  · obtain ⟨rest, hperm, hperm'⟩ := hrep.perm v hv
    rw [hperm'.mem_iff, mem_cons] at hp
    obtain rfl | hp := hp
    · rfl
    · exact h.type p (hperm.mem_iff.mpr (mem_cons_of_mem _ hp))

theorem sound (type : TNType) : Sound (ops : VersionOps Unit D) (Canonical type) (Op.OfType type) where
  walk_iff h _ _ := h.walk_iff
  nodup_keys h := h.nodup_keys
  add := by
    rintro root k x isTransaction hasMeta h (rfl : leafType isTransaction hasMeta = type) habsent
    exact addGiveItem_perm x h habsent
  del h hmem := delItem_perm h hmem
  update := by
    rintro root k x isTransaction hasMeta h (rfl : leafType isTransaction hasMeta = type) hmem
    exact updateGiveItem_replaced x h hmem

theorem refines_empty (type : TNType) : Refines (Canonical type) (empty : Map D) noItems :=
  ⟨canonical_empty type, fun k v => by simp [empty, items_noChildren, noItems]⟩

def run (calls : List (Op D)) : Map D := (runOps (step ops) empty calls).1

theorem eq_of_data {m m' : Contents D} (h : Refines (Canonical type) root m)
    (h' : Refines (Canonical type) root' m')
    (hdata : ∀ k, (m' k).map Leaf.data = (m k).map Leaf.data) : root' = root := by
  have htype : ∀ {r n}, Refines (Canonical type) r n → ∀ k (v : Leaf D), n k = some v → v.type = type :=
    fun hr k v hv => hr.canonical.type (k, v) ((hr.holds k v).mpr hv)
  have hm : m' = m := by
    funext k
    have hk := hdata k
    cases hmk : m k with
    | none => simpa [hmk] using hk
    | some v =>
      rw [hmk] at hk
      obtain ⟨v', hv', hvv⟩ := Option.map_eq_some_iff.mp hk
      have heq : v' = v := by
        cases v
        cases v'
        have := (htype h' k _ hv').trans (htype h k _ hmk).symm
        simp_all
      rw [hv', heq]
  subst hm
  exact h'.canonical.eq_of_perm h.canonical ((sound type).perm (sound type) h' h)

/-- After every run with leaves of one type: lookups and replies are those of the finite map, every
inner node below the root has two leaves, and the tree and its hash depend on the items only. -/
theorem run_canonical {H : Type} [Zero H] (hashing : Hashing Unit D H) {type : TNType}
    {calls : List (Op D)} (hcalls : ∀ op ∈ calls, op.OfType type) :
    (runOps (step ops) empty calls).2 = (runOps specStep noItems calls).2 ∧
    (∀ k, peekItem (run calls) k = ((runOps specStep noItems calls).1 k).map Leaf.data ∧
      hasItem (run calls) k = ((runOps specStep noItems calls).1 k).isSome) ∧
    Every (fun d l ch => d ≠ 0 → 2 ≤ (inner l ch).items.length) 0 (run calls) ∧
    ∀ calls' : List (Op D), (∀ op ∈ calls', op.OfType type) →
      (∀ k, ((runOps specStep noItems calls').1 k).map Leaf.data =
        ((runOps specStep noItems calls).1 k).map Leaf.data) →
      run calls' = run calls ∧ getHash hashing (run calls') = getHash hashing (run calls) := by
  obtain ⟨href, hret⟩ := (sound type).run_refines (refines_empty type) hcalls
  refine ⟨hret, (sound type).run_lookups (refines_empty type) hcalls,
    href.canonical.dense.mono fun _ _ _ hd => hd.2, fun calls' hcalls' hdata => ?_⟩
  have heq := eq_of_data href ((sound type).run_refines (refines_empty type) hcalls').1 hdata
  exact ⟨heq, congrArg _ heq⟩

/-- An item that is added and deleted again leaves no trace. -/
theorem run_canonical_undone :
    (∀ op ∈ [Op.addItem 0 7 false false, .addItem 1 8 false false, .delItem 0],
      op.OfType .tnACCOUNT_STATE) ∧
    run [.addItem 1 8 false false] =
      run [.addItem 0 7 false false, .addItem 1 8 false false, .delItem 0] := by
  have hcalls : ∀ op ∈ [Op.addItem 0 7 false false, .addItem 1 8 false false, .delItem 0],
      op.OfType .tnACCOUNT_STATE := by
    simp [Op.OfType, leafType]
  refine ⟨hcalls, ((run_canonical (⟨fun _ _ n => n, fun _ f => f 0⟩ : Hashing Unit ℕ ℕ) hcalls).2.2.2
    [.addItem 1 8 false false] (by simp [Op.OfType, leafType]) fun k => ?_).1⟩
  have hne : (0 : Key) ≠ 1 := fun h => absurd (congrFun h 0) (by decide)
  simp only [runOps, specStep, noItems, Function.update_apply, hne, hne.symm, if_true, if_false,
    Option.isSome_none, Option.isSome_some, Bool.false_eq_true]
  by_cases hk : k = 1
  · simp [hk, hne.symm]
  · simp [hk]

end V1

end Ripple.SHAMap
