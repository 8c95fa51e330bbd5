import Ripple.SHAMap.V1
import Ripple.SHAMap.V2
import Ripple.SHAMap.Iterate

/-!
# Ripple.SHAMap.Convert

The conversions between the versions, `make_v2` and `make_v1` of `shamap/impl/SHAMap.cpp`: a loop over
the items of one map that adds them to an empty map of the other version.

A map of version 1 gives the leaves that an insertion or a deletion moves the type of the item at
hand. Its shape, its keys and its data do not depend on the types (`run_retype`); if they are all the
same, a conversion there and back gives the same tree.
-/

namespace Ripple.SHAMap

open Trie List

variable {L D : Type} [Version L]

def addOp (p : Key × Leaf D) : Op D :=
  .addItem p.1 p.2.data (p.2.type ≠ .tnACCOUNT_STATE) (p.2.type = .tnTRANSACTION_MD)

def makeV2 (fuel : ℕ) (m : V1.Map D) : Except IterFault (V2.Map D) :=
  forItems (fun ret p => (step V2.ops ret (addOp p)).1) fuel (peekFirstItem m) V2.empty

def makeV1 (fuel : ℕ) (m : V2.Map D) : Except IterFault (V1.Map D) :=
  forItems (fun ret p => (step V1.ops ret (addOp p)).1) fuel (peekFirstItem m) V1.empty

theorem leafType_flags (type : TNType) :
    leafType (type ≠ .tnACCOUNT_STATE) (type = .tnTRANSACTION_MD) = type := by
  cases type <;> rfl

/-! ## Types of leaves in version 1 -/

namespace V1

variable (type : TNType)

def retype (t : Map D) : Map D := t.map fun v => ⟨type, v.data⟩

def retypeFrame (f : Frame Unit D) : Frame Unit D := ⟨f.label, fun i => retype type (f.children i), f.depth⟩

def retypeOp : Op D → Op D
  | .addItem k x _ _ => .addItem k x (type ≠ .tnACCOUNT_STATE) (type = .tnTRANSACTION_MD)
  | .delItem k => .delItem k
  | .updateGiveItem k x _ _ => .updateGiveItem k x (type ≠ .tnACCOUNT_STATE) (type = .tnTRANSACTION_MD)

theorem retypeOp_ofType (op : Op D) : (retypeOp type op).OfType type := by
  cases op with
  | addItem k x _ _ => exact leafType_flags type
  | delItem k => trivial
  | updateGiveItem k x _ _ => exact leafType_flags type

theorem walkTowardsKey_retype (id : Key) (t : Map D) : ∀ (d : ℕ) (stack : List (Frame Unit D)),
    walkTowardsKey id (retype type t) d (stack.map (retypeFrame type)) =
      ⟨retype type (walkTowardsKey id t d stack).node, (walkTowardsKey id t d stack).depth,
        (walkTowardsKey id t d stack).stack.map (retypeFrame type)⟩ := by
  induction t with
  | nil | leaf k v => exact fun _ _ => rfl
  | inner l ch ih =>
    intro d stack
    rw [retype, Trie.map, walkTowardsKey, walkTowardsKey]
    simp only [isNil_map]
    split
    · exact ih _ (d + 1) (⟨l, ch, d⟩ :: stack)
    · rfl

theorem retype_inner (l : Unit) (ch : Fin 16 → Map D) :
    retype type (.inner l ch) = .inner l fun i => retype type (ch i) := rfl

theorem retype_update (ch : Fin 16 → Map D) (b : Fin 16) (t : Map D) :
    (fun i => retype type (Function.update ch b t i)) =
      Function.update (fun i => retype type (ch i)) b (retype type t) :=
  map_update _ ch b t

theorem setChild_retype (f : Frame Unit D) (b : Fin 16) (t : Map D) :
    (retypeFrame type f).setChild b (retype type t) = retype type (f.setChild b t) := by
  rw [Frame.setChild, Frame.setChild, retype_inner, retype_update]
  rfl

theorem dirtyUp_retype (target : Key) (stack : List (Frame Unit D)) : ∀ child : Map D,
    dirtyUp (stack.map (retypeFrame type)) target (retype type child) =
      retype type (dirtyUp stack target child) := by
  induction stack with
  | nil => exact fun _ => rfl
  | cons f stack ih =>
    intro child
    have := ih (f.setChild (selectBranch f.depth target) child)
    rw [← setChild_retype] at this
    exact this

theorem forkLoop_retype (tag other : Key) (n : ℕ) : ∀ (d : ℕ) (stack : List (Frame Unit D)),
    forkLoop tag other n d (stack.map (retypeFrame type)) =
      ((forkLoop tag other n d stack).1, (forkLoop tag other n d stack).2.map (retypeFrame type)) := by
  induction n with
  | zero => exact fun _ _ => rfl
  | succ n ih =>
    intro d stack
    rw [forkLoop, forkLoop]
    split
    · exact ih (d + 1) (⟨(), noChildren, d⟩ :: stack)
    · rfl

theorem forkNode_retype (tag : Key) (leaf : Leaf D) (other : Key) (x : D) (d : ℕ) :
    forkNode tag ⟨type, leaf.data⟩ other x d = retype type (forkNode tag leaf other x d) := by
  rw [forkNode, forkNode, pair, pair, retype_inner, retype_update, retype_update]
  rfl

theorem attach_retype (tag : Key) (leaf : Leaf D) (w : Walk Unit D) :
    attach tag ⟨type, leaf.data⟩ ⟨retype type w.node, w.depth, w.stack.map (retypeFrame type)⟩ =
      ((attach tag leaf w).1.map (retypeFrame type), retype type (attach tag leaf w).2) := by
  rw [attach, attach]
  cases w.node with
  | nil => rfl
  | leaf other v =>
    simp only [retype, Trie.map, forkLoop_retype]
    rw [forkNode_retype]
    rfl
  | inner l ch =>
    simp only [retype_inner]
    rw [retype_update]
    rfl

theorem branches_retype (ch : Fin 16 → Map D) : branches (fun i => retype type (ch i)) = branches ch := by
  simp [branches, retype]

theorem onlyBelow_retype (t : Map D) :
    onlyBelow (retype type t) = (onlyBelow t).map fun p => (p.1, ⟨type, p.2.data⟩) := by
  induction t with
  | nil => rfl
  | leaf k v => rfl
  | inner l ch ih =>
    rw [retype_inner, onlyBelow, onlyBelow, branches_retype]
    split
    · exact ih _
    · rfl

theorem collapse_retype (type' : TNType) (l : Unit) (ch : Fin 16 → Map D) :
    collapse type l (fun i => retype type (ch i)) = retype type (collapse type' l ch) := by
  have honly := onlyBelow_retype type (.inner l ch)
  rw [retype_inner] at honly
  rw [collapse, collapse, getBranchCount, getBranchCount, branches_retype, honly]
  by_cases hzero : (branches ch).length = 0
  · rw [if_pos hzero, if_pos hzero]
    rfl
  · rw [if_neg hzero, if_neg hzero]
    by_cases hone : (branches ch).length = 1
    · rw [if_pos hone, if_pos hone]
      cases onlyBelow (.inner l ch) with
      | none => rfl
      | some p => rfl
    · rw [if_neg hone, if_neg hone]
      rfl

theorem delStep_retype (id : Key) (type' : TNType) (prevNode : Map D) (f : Frame Unit D) :
    delStep ops id type (retype type prevNode) (retypeFrame type f) =
      retype type (delStep ops id type' prevNode f) := by
  rw [delStep, delStep]
  have hch : Function.update (retypeFrame type f).children (selectBranch (retypeFrame type f).depth id)
      (retype type prevNode) =
      fun i => retype type (Function.update f.children (selectBranch f.depth id) prevNode i) :=
    (retype_update type f.children (selectBranch f.depth id) prevNode).symm
  rw [hch]
  by_cases hroot : f.depth = 0
  · rw [if_pos hroot, if_pos (show (retypeFrame type f).depth = 0 from hroot)]
    rfl
  · rw [if_neg hroot, if_neg (show ¬(retypeFrame type f).depth = 0 from hroot)]
    exact collapse_retype type type' f.label _

theorem delLoop_retype (id : Key) (type' : TNType) (stack : List (Frame Unit D)) : ∀ prevNode : Map D,
    (stack.map (retypeFrame type)).foldl (delStep ops id type) (retype type prevNode) =
      retype type (stack.foldl (delStep ops id type') prevNode) := by
  induction stack with
  | nil => exact fun _ => rfl
  | cons f stack ih =>
    intro prevNode
    rw [map_cons, foldl_cons, foldl_cons, delStep_retype type id type', ih]

theorem step_retype (root : Map D) (op : Op D) :
    retype type (step ops root op).1 = (step ops (retype type root) (retypeOp type op)).1 := by
  have hwalk := fun k => walkTowardsKey_retype type k root 0 []
  simp only [map_nil] at hwalk
  cases op with
  | addItem k x isTransaction hasMeta =>
    have hleaf : ∀ t : Map D, isLeafOf k (retype type t) = isLeafOf k t := fun t => by cases t <;> rfl
    simp only [step, retypeOp, addGiveItem, hwalk, hleaf, leafType_flags]
    split
    · rfl
    · have := attach_retype type k ⟨leafType isTransaction hasMeta, x⟩ (walkTowardsKey k root 0 [])
      simp only [ops] at this ⊢
      rw [this, dirtyUp_retype]
  | delItem k =>
    simp only [step, retypeOp, delItem, hwalk]
    cases (walkTowardsKey k root 0 []).node with
    | nil => rfl
    | inner l ch => rfl
    | leaf k' v =>
      by_cases hk : k' = k
      · simp only [retype, Trie.map, ne_eq, hk, not_true, if_false]
        exact (delLoop_retype type k v.type _ .nil).symm
      · simp only [retype, Trie.map, ne_eq, hk, not_false_eq_true, if_true]
  | updateGiveItem k x isTransaction hasMeta =>
    simp only [step, retypeOp, updateGiveItem, hwalk, leafType_flags]
    cases (walkTowardsKey k root 0 []).node with
    | nil => rfl
    | inner l ch => rfl
    | leaf k' v =>
      by_cases hk : k' = k
      · simp only [retype, Trie.map, ne_eq, hk, not_true, if_false]
        exact (dirtyUp_retype type k _ (.leaf k ⟨leafType isTransaction hasMeta, x⟩)).symm
      · simp only [retype, Trie.map, ne_eq, hk, not_false_eq_true, if_true]

variable (calls : List (Op D))

theorem run_retype : retype type (run calls) = run (calls.map (retypeOp type)) := by
  have hgen : ∀ (calls : List (Op D)) (root : Map D), retype type (runOps (step ops) root calls).1 =
      (runOps (step ops) (retype type root) (calls.map (retypeOp type))).1 := by
    intro calls
    induction calls with
    | nil => exact fun _ => rfl
    | cons op calls ih =>
      intro root
      rw [runOps, map_cons, runOps, ih, step_retype]
  exact hgen calls empty

theorem canonical_retype_run : Canonical type (retype type (run calls)) := by
  rw [run_retype]
  refine ((sound type).run_refines (refines_empty type) fun op hop => ?_).1.canonical
  obtain ⟨op', -, rfl⟩ := mem_map.mp hop
  exact retypeOp_ofType type op'

variable {t root : Map D}

theorem dense_of_retype {d : ℕ} (h : Every Dense d (retype type t)) : Every Dense d t := by
  refine (every_map.mp h).mono fun d l ch hdense => ⟨fun i p hp => ?_, fun hd => ?_⟩
  · refine hdense.1 i (p.1, ⟨type, p.2.data⟩) ?_
    rw [items_map]
    exact mem_map.mpr ⟨p, hp, rfl⟩
  · have := hdense.2 hd
    rwa [← Trie.map, items_map, length_map] at this

theorem run_shape : (∃ ch, run calls = .inner () ch) ∧ Every Dense 0 (run calls) := by
  have h := canonical_retype_run .tnACCOUNT_STATE calls
  refine ⟨?_, dense_of_retype _ h.dense⟩
  obtain ⟨ch, hch⟩ := h.inner
  cases hrun : run calls with
  | nil | leaf k v => simp [hrun, retype, Trie.map] at hch
  | inner l ch' => exact ⟨ch', rfl⟩

theorem aligned_of_branching : ∀ {d : ℕ}, Every Branching d t →
    (∀ p ∈ t.items, ∀ q ∈ t.items, Agree d p.1 q.1) →
      Every (fun d l ch => Branching d l ch ∧ Aligned d l ch) d t := by
  induction t with
  | nil | leaf k v => exact fun _ _ => trivial
  | inner l ch ih =>
    intro d h hagree
    refine ⟨⟨h.1, hagree⟩, fun i => ih i (h.2 i) fun p hp q hq => ?_⟩
    have hsame := hagree p (mem_items_inner.mpr ⟨i, hp⟩) q (mem_items_inner.mpr ⟨i, hq⟩)
    exact hsame.succ ((h.1 i p hp).trans (h.1 i q hq).symm)

theorem items_sorted (h : Every Dense 0 root) : root.items.Pairwise fun p q => Before p.1 q.1 :=
  sorted_items (fun _ _ _ hp => hp.1) (fun _ _ _ hp => hp.2)
    (aligned_of_branching (h.mono fun _ _ _ hd => hd.1) fun _ _ _ _ => agree_zero _ _)

theorem passable (h : Every Dense 0 root) : Passable root := by
  refine ⟨h.mono fun _ _ _ hd => hd.1, ?_⟩
  rintro l ch rfl i
  exact Dense.solid (h.2 i) (Nat.succ_ne_zero _)

end V1

namespace V2

variable {root : Map D}

theorem items_sorted (h : Canonical root) : root.items.Pairwise fun p q => Before p.1 q.1 :=
  sorted_items (fun _ _ _ hl => hl.branching) (fun _ _ _ hl => hl.aligned) h.linked

theorem passable (h : Canonical root) : Passable root := by
  refine ⟨h.linked.mono fun _ _ _ hl => hl.branching, ?_⟩
  obtain ⟨ch, rfl⟩ := h.inner
  rintro l ch' heq i
  cases heq
  exact Linked.solid (h.linked.2 i) (Nat.succ_ne_zero _)

theorem canonical_run (calls : List (Op D)) : Canonical (run calls) :=
  (sound.run_refines refines_empty fun _ _ => trivial).1.canonical

end V2

/-! ## Maps made of a list of items -/

omit [Version L] in
theorem runOps_fst {σ : Type} (f : σ → Op D → σ × Bool) (ops : List (Op D)) :
    ∀ s, (runOps f s ops).1 = ops.foldl (fun s op => (f s op).1) s := by
  induction ops with
  | nil => exact fun _ => rfl
  | cons op ops ih => exact fun s => ih _

variable {ps : List (Key × Leaf D)} {fuel : ℕ}

theorem contents_addOps : ∀ {m : Contents D},
    (ps.map Prod.fst).Nodup → (∀ p ∈ ps, m p.1 = none) → ∀ k v,
      (runOps specStep m (ps.map addOp)).1 k = some v ↔ m k = some v ∨ (k, v) ∈ ps := by
  induction ps with
  | nil => simp [runOps]
  | cons p ps ih =>
    intro m hnodup habsent k v
    rw [map_cons, nodup_cons] at hnodup
    have hp : m p.1 = none := habsent p mem_cons_self
    have hstep : (specStep m (addOp p)).1 = Function.update m p.1 (some p.2) := by
      simp only [addOp, specStep, hp, Option.isSome_none, Bool.false_eq_true, if_false, leafType_flags]
    rw [map_cons, runOps, hstep, ih hnodup.2, Function.update_apply, mem_cons]
    · by_cases hk : k = p.1
      · subst hk
        have hnot : (p.1, v) ∉ ps := fun hin => hnodup.1 (mem_map.mpr ⟨_, hin, rfl⟩)
        simp [hp, hnot, Prod.ext_iff, eq_comm]
      · simp [hk, Prod.ext_iff]
    · intro q hq
      have hne : q.1 ≠ p.1 := fun h => hnodup.1 (mem_map.mpr ⟨q, hq, h⟩)
      rw [Function.update_of_ne hne]
      exact habsent q (mem_cons_of_mem p hq)

omit [Version L] in
theorem items_eq_of_holds {t : Tree L D} (hsorted : t.items.Pairwise fun p q => Before p.1 q.1)
    (hnodup : (t.items.map Prod.fst).Nodup) (hps : ps.Pairwise fun p q => Before p.1 q.1)
    (hkeys : (ps.map Prod.fst).Nodup) (h : Holds t (runOps specStep noItems (ps.map addOp)).1) :
    t.items = ps := by
  refine ((perm_ext_iff_of_nodup hnodup.of_map hkeys.of_map).mpr ?_).eq_of_pairwise
    (fun _ _ _ _ hab hba => absurd hba hab.asymm) hsorted hps
  intro p
  have := (h p.1 p.2).trans (contents_addOps hkeys (fun _ _ => rfl) p.1 p.2)
  simpa [noItems] using this

theorem makeV2_eq {m : V1.Map D} (h : Every V1.Dense 0 m) (hfuel : m.items.length ≤ fuel) :
    makeV2 fuel m = .ok (V2.run (m.items.map addOp)) := by
  rw [makeV2, forItems_eq (V1.passable h) _ hfuel, V2.run, runOps_fst, foldl_map]

theorem makeV1_eq {m : V2.Map D} (h : V2.Canonical m) (hfuel : m.items.length ≤ fuel) :
    makeV1 fuel m = .ok (V1.run (m.items.map addOp)) := by
  rw [makeV1, forItems_eq (V2.passable h) _ hfuel, V1.run, runOps_fst, foldl_map]

theorem V2.items_run_addOps (hps : ps.Pairwise fun p q => Before p.1 q.1)
    (hkeys : (ps.map Prod.fst).Nodup) : (V2.run (ps.map addOp)).items = ps := by
  have href := (V2.sound.run_refines V2.refines_empty fun op (_ : op ∈ ps.map addOp) => trivial).1
  exact items_eq_of_holds (V2.items_sorted href.canonical) href.canonical.nodup_keys hps hkeys href.holds

theorem V1.items_run_addOps {type : TNType} (htype : ∀ p ∈ ps, p.2.type = type)
    (hps : ps.Pairwise fun p q => Before p.1 q.1) (hkeys : (ps.map Prod.fst).Nodup) :
    (V1.run (ps.map addOp)).items = ps ∧ V1.Canonical type (V1.run (ps.map addOp)) := by
  have hops : ∀ op ∈ ps.map addOp, op.OfType type := by
    intro op hop
    obtain ⟨p, hp, rfl⟩ := mem_map.mp hop
    exact (leafType_flags p.2.type).trans (htype p hp)
  have href := ((V1.sound type).run_refines (V1.refines_empty type) hops).1
  exact ⟨items_eq_of_holds (V1.items_sorted href.canonical.dense) href.canonical.nodup_keys hps hkeys
    href.holds, href.canonical⟩

def content (p : Key × Leaf D) : Key × D := (p.1, p.2.data)

theorem V1.content_run_addOps (hps : ps.Pairwise fun p q => Before p.1 q.1)
    (hkeys : (ps.map Prod.fst).Nodup) :
    (V1.run (ps.map addOp)).items.map content = ps.map content := by
  -- the same items with one type
  let plain : Key × Leaf D → Key × Leaf D := fun p => (p.1, ⟨.tnACCOUNT_STATE, p.2.data⟩)
  have hplain : (ps.map plain).map Prod.fst = ps.map Prod.fst := by simp [plain]
  have hsorted : (ps.map plain).Pairwise fun p q => Before p.1 q.1 := pairwise_map.mpr hps
  have hops : (ps.map addOp).map (V1.retypeOp .tnACCOUNT_STATE) = (ps.map plain).map addOp := by
    simp [addOp, V1.retypeOp, plain]
  have htype : ∀ p ∈ ps.map plain, p.2.type = .tnACCOUNT_STATE := by
    intro p hp
    obtain ⟨q, -, rfl⟩ := mem_map.mp hp
    rfl
  have hrun := (V1.items_run_addOps htype hsorted (hplain ▸ hkeys)).1
  rw [← hops, ← V1.run_retype, V1.retype, items_map] at hrun
  have := congrArg (List.map content) hrun
  rw [map_map, map_map] at this
  exact this

/-! ## There and back -/

section RoundTrip

variable {H : Type} [Zero H]

variable {fuel : ℕ}

theorem V1.round_trip {m : V1.Map D} (hinner : ∃ ch, m = .inner () ch) (h : Every V1.Dense 0 m)
    (hfuel : m.items.length ≤ fuel) :
    ∃ m2, makeV2 fuel m = .ok m2 ∧ m2.items = m.items ∧ V2.Canonical m2 ∧
      ∀ type, (∀ p ∈ m.items, p.2.type = type) → makeV1 fuel m2 = .ok m := by
  have hkeys := nodup_keys (fun _ _ _ (hd : V1.Dense _ _ _) => hd.1) h
  have hitems := V2.items_run_addOps (V1.items_sorted h) hkeys
  have hcan := V2.canonical_run (m.items.map addOp)
  refine ⟨_, makeV2_eq h hfuel, hitems, hcan, fun type htype => ?_⟩
  rw [makeV1_eq hcan (hitems.symm ▸ hfuel), hitems]
  obtain ⟨hback, hcan'⟩ := V1.items_run_addOps htype (V1.items_sorted h) hkeys
  exact congrArg Except.ok (hcan'.eq_of_perm ⟨hinner, h, htype⟩ (.of_eq hback))

theorem V2.round_trip {m : V2.Map D} (h : V2.Canonical m) (hfuel : m.items.length ≤ fuel) :
    ∃ m1, makeV1 fuel m = .ok m1 ∧ m1.items.map content = m.items.map content ∧ Every V1.Dense 0 m1 ∧
      ∀ type, (∀ p ∈ m.items, p.2.type = type) → makeV2 fuel m1 = .ok m := by
  have hkeys := h.nodup_keys
  have hsorted := V2.items_sorted h
  have hdense := (V1.run_shape (m.items.map addOp)).2
  refine ⟨_, makeV1_eq h hfuel, V1.content_run_addOps hsorted hkeys, hdense, fun type htype => ?_⟩
  have hitems := (V1.items_run_addOps htype hsorted hkeys).1
  rw [makeV2_eq hdense (hitems.symm ▸ hfuel), hitems]
  exact congrArg Except.ok ((V2.canonical_run _).eq_of_perm h
    (.of_eq (V2.items_run_addOps hsorted hkeys)))

/-- A conversion gives the same keys and data in the same order, and for a map with leaves of one
type the conversion back gives the same tree and the same hash. -/
theorem conversion_round_trip (hashing : Hashing Unit D H) (hashing2 : Hashing V2.InnerNodeV2 D H)
    (calls : List (Op D)) :
    ∃ n, ∀ fuel, n ≤ fuel →
      (∃ m2 xs, iterate fuel (V1.run calls) = .ok xs ∧ makeV2 fuel (V1.run calls) = .ok m2 ∧
        iterate fuel m2 = .ok xs ∧
        ∀ type, (∀ p ∈ xs, p.2.type = type) → ∃ m, makeV1 fuel m2 = .ok m ∧ m = V1.run calls ∧
          getHash hashing m = getHash hashing (V1.run calls)) ∧
      (∃ m1 xs ys, iterate fuel (V2.run calls) = .ok xs ∧ makeV1 fuel (V2.run calls) = .ok m1 ∧
        iterate fuel m1 = .ok ys ∧ ys.map content = xs.map content ∧
        ∀ type, (∀ p ∈ xs, p.2.type = type) → ∃ m, makeV2 fuel m1 = .ok m ∧ m = V2.run calls ∧
          getHash hashing2 m = getHash hashing2 (V2.run calls)) := by
  refine ⟨max (V1.run calls).items.length (V2.run calls).items.length, fun fuel hfuel => ⟨?_, ?_⟩⟩
  · obtain ⟨hinner, hdense⟩ := V1.run_shape calls
    have hle : (V1.run calls).items.length ≤ fuel := (le_max_left _ _).trans hfuel
    obtain ⟨m2, hmake, hitems, hcan, hback⟩ := V1.round_trip hinner hdense hle
    refine ⟨m2, _, iterate_eq (V1.passable hdense) hle, hmake, ?_, fun type htype =>
      ⟨_, hback type htype, rfl, rfl⟩⟩
    rw [iterate_eq (V2.passable hcan) (hitems.symm ▸ hle), hitems]
  · have hcan := V2.canonical_run calls
    have hle : (V2.run calls).items.length ≤ fuel := (le_max_right _ _).trans hfuel
    obtain ⟨m1, hmake, hitems, hdense, hback⟩ := V2.round_trip hcan hle
    have hlen : m1.items.length = (V2.run calls).items.length := by
      simpa using congrArg List.length hitems
    exact ⟨m1, _, _, iterate_eq (V2.passable hcan) hle, hmake,
      iterate_eq (V1.passable hdense) (hlen ▸ hle), hitems, fun type htype =>
      ⟨_, hback type htype, rfl, rfl⟩⟩

/-- Calls on the two versions return the same, and a conversion at the end of a run of calls gives the
map that the same run makes in the other version. -/
theorem conversion_commutes {type : TNType} {calls : List (Op D)}
    (hcalls : ∀ op ∈ calls, op.OfType type) :
    (runOps (step V1.ops) V1.empty calls).2 = (runOps (step V2.ops) V2.empty calls).2 ∧
    ∃ n, ∀ fuel, n ≤ fuel → makeV2 fuel (V1.run calls) = .ok (V2.run calls) ∧
      makeV1 fuel (V2.run calls) = .ok (V1.run calls) := by
  obtain ⟨h1, hret1⟩ := (V1.sound type).run_refines (V1.refines_empty type) hcalls
  obtain ⟨h2, hret2⟩ := V2.sound.run_refines V2.refines_empty fun op (_ : op ∈ calls) => trivial
  refine ⟨hret1.trans hret2.symm, (V1.run calls).items.length, fun fuel hfuel => ?_⟩
  obtain ⟨m2, hmake, hitems, hcan, hback⟩ := V1.round_trip h1.canonical.inner h1.canonical.dense hfuel
  -- both maps of version 2 are canonical, and both hold what the model of the run holds
  have heq : m2 = V2.run calls :=
    hcan.eq_of_perm h2.canonical (hitems ▸ (V1.sound type).perm V2.sound h1 h2)
  subst heq
  exact ⟨hmake, hback type h1.canonical.type⟩

end RoundTrip

def firstByte (b : UInt8) : Key := fun i => if i = 0 then b else 0

/-- Two neighbours and an item apart from them, of which one is changed and one taken out. -/
def stateCalls : List (Op ℕ) :=
  [.addItem (firstByte 0x00) 7 false false, .addItem (firstByte 0x01) 8 false false,
    .addItem (firstByte 0x20) 9 false false, .addItem (firstByte 0x30) 4 false false,
    .updateGiveItem (firstByte 0x01) 6 false false, .delItem (firstByte 0x30)]

theorem conversion_round_trip_state :
    ∃ n, ∀ fuel, n ≤ fuel → ∃ m2, makeV2 fuel (V1.run stateCalls) = .ok m2 ∧
      makeV1 fuel m2 = .ok (V1.run stateCalls) := by
  obtain ⟨n, hn⟩ := conversion_round_trip ⟨fun _ _ n => n, fun _ f => f 0⟩
    (⟨fun _ _ n => n, fun _ f => f 0⟩ : Hashing V2.InnerNodeV2 ℕ ℕ) stateCalls
  refine ⟨max n 3, fun fuel hfuel => ?_⟩
  obtain ⟨⟨m2, xs, hxs, hmake, -, hback⟩, -⟩ := hn fuel ((le_max_left _ _).trans hfuel)
  have hlen : (V1.run stateCalls).items.length ≤ 3 := by decide +kernel
  have hitems := iterate_eq (V1.passable (V1.run_shape stateCalls).2)
    (hlen.trans ((le_max_right n 3).trans hfuel))
  have htype : ∀ p ∈ (V1.run stateCalls).items, p.2.type = .tnACCOUNT_STATE := by decide +kernel
  obtain rfl : (V1.run stateCalls).items = xs := by
    rw [hxs] at hitems
    cases hitems
    rfl
  obtain ⟨m, hm, rfl, -⟩ := hback .tnACCOUNT_STATE htype
  exact ⟨m2, hmake, hm⟩

theorem conversion_commutes_state :
    ∃ n, ∀ fuel, n ≤ fuel → makeV2 fuel (V1.run stateCalls) = .ok (V2.run stateCalls) ∧
      makeV1 fuel (V2.run stateCalls) = .ok (V1.run stateCalls) := by
  have hcalls : ∀ op ∈ stateCalls, op.OfType .tnACCOUNT_STATE := by
    simp [stateCalls, Op.OfType, leafType]
  exact (conversion_commutes hcalls).2

def mixedCalls : List (Op ℕ) :=
  [.addItem (firstByte 0x00) 7 false false, .addItem (firstByte 0x01) 8 false false,
    .updateGiveItem (firstByte 0x00) 7 true false]

/-- The way there and back gives the first of the neighbours the type of the second. -/
theorem mixed_types_change :
    ∃ m2 m, makeV2 2 (V1.run mixedCalls) = .ok m2 ∧ makeV1 2 m2 = .ok m ∧ m ≠ V1.run mixedCalls ∧
      findKey (V1.run mixedCalls) (firstByte 0x00) = some ⟨.tnTRANSACTION_NM, 7⟩ ∧
      findKey m (firstByte 0x00) = some ⟨.tnACCOUNT_STATE, 7⟩ := by
  have hbefore : findKey (V1.run mixedCalls) (firstByte 0x00) = some ⟨.tnTRANSACTION_NM, 7⟩ := by
    decide +kernel
  refine ⟨_, _, rfl, rfl, fun heq => ?_, hbefore, by decide +kernel⟩
  rw [← heq] at hbefore
  revert hbefore
  decide +kernel

end Ripple.SHAMap
