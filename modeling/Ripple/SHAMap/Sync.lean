import Ripple.SHAMap.Iterate
import Ripple.SHAMap.Wire

/-!
# Ripple.SHAMap.Sync

A map of version 1 that is acquired from peers, from `shamap/impl/SHAMapSync.cpp`: `addRootNode` and
`addKnownNode`. Both take bytes that anybody may have sent, and keep the node in them if its hash is the
one that the map waits for.

`addKnownNode` walks from the root along the nibbles of the node's ID. On its way it takes missing nodes
from the local store or the filter, and it gives up where everything below is known to be there.
What it finds outside of the map is an argument here (`Local`), different from call to call.

* `run_hung`: as long as every leaf is given for the place of its key, each leaf hangs on the branches of
  its key, and what an iteration meets is found again. The calls do not compare the two:
  `leaf_off_its_branch`.
-/

namespace Ripple.SHAMap.Sync

open Trie

/-! ## The map -/

inductive SHAMapState where
  | Modifying
  | Immutable
  | Synching
  | Floating
  | Invalid
  deriving DecidableEq

/-- The answers of `addRootNode` and `addKnownNode`. -/
inductive SHAMapAddNode where
  | invalid
  | useful
  | duplicate
  deriving DecidableEq

structure SyncMap where
  root : Node
  state : SHAMapState

def freshRoot : Node := .inner ⟨fun _ => 0, fun _ => false, none⟩ noChildren

def fresh : SyncMap := ⟨freshRoot, .Synching⟩

def SyncMap.isSynching (s : SyncMap) : Bool := s.state = .Floating ∨ s.state = .Synching

def isLeaf : Node → Bool
  | .leaf _ _ => true
  | _ => false

def isInner : Node → Bool
  | .inner _ _ => true
  | _ => false

/-- `SHAMap::isInconsistentNode`, for a map of version 1. -/
def isInconsistentNode : Node → Bool
  | .inner l _ => l.v2.isSome
  | _ => false

/-- What a call finds outside of the map, by hash; a node out of the cache may have children. -/
structure Local where
  isFullBelow : NodeID → Bool
  touchIfExists : Key → Bool
  fetchNodeNT : Key → Node

/-! ## The calls -/

section Calls

variable (sha : Bytes → Key)

def addRootNode (s : SyncMap) (hash : Key) (rootNode : Bytes) (format : SHANodeFormat) :
    Except String (SyncMap × SHAMapAddNode) :=
  if getNodeHash sha s.root ≠ 0 then .ok (s, .duplicate)
  else
    match make sha rootNode format ⟨0, 0⟩ with
    | .error e => .error e
    | .ok none => .ok (s, .invalid)
    | .ok (some node) =>
      if getNodeHash sha node ≠ hash then .ok (s, .invalid)
      else .ok (⟨node, if isLeaf node then .Modifying else s.state⟩, .useful)

structure Outcome where
  node : Node
  answer : SHAMapAddNode
  invalid : Bool

omit sha in
/-- `SHAMap::descend`: the child as it hangs on the branch afterwards. -/
def descend (loc : Local) (child : Node) (childHash : Key) : Node :=
  if child.isNil then loc.fetchNodeNT childHash else child

/-- The part of the loop of `addKnownNode` for a branch whose node is missing. -/
def hook (newNode : Option Node) (node : NodeID) (child : Node) (childID : NodeID) (childHash : Key) :
    Outcome :=
  match newNode with
  | none => ⟨child, .invalid, false⟩
  | some new =>
    if getNodeHash sha new ≠ childHash then ⟨child, .invalid, false⟩
    -- `isInBounds`
    else if isInner new ∧ 64 ≤ childID.depth then ⟨child, .useful, true⟩
    else if isInconsistentNode new then ⟨child, .useful, true⟩
    else if childID ≠ node then ⟨child, .useful, false⟩
    -- `canonicalizeChild`
    else ⟨if child.isNil then new else child, .useful, false⟩

/-- The loop of `addKnownNode`, with `n` levels to go. -/
def addKnownLoop (newNode : Option Node) (node : NodeID) (loc : Local) : ℕ → Node → NodeID → Outcome
  | n + 1, .inner l ch, iNodeID =>
    let branch := selectBranch iNodeID.depth.toNat node.id
    let childID := iNodeID.getChildNodeID branch
    let childHash := l.hashes branch
    if loc.isFullBelow iNodeID then ⟨.inner l ch, .duplicate, false⟩
    else if !l.isBranch branch then ⟨.inner l ch, .invalid, false⟩
    else if loc.touchIfExists childHash then ⟨.inner l ch, .duplicate, false⟩
    else
      let child := descend loc (ch branch) childHash
      -- a node that has just been fetched may be of the wrong version; it stays where it is
      let inconsistent := (ch branch).isNil && isInconsistentNode child
      let r :=
        if child.isNil || inconsistent then hook sha newNode node child childID childHash
        else addKnownLoop newNode node loc n child childID
      ⟨.inner l (Function.update ch branch r.node), r.answer, r.invalid || inconsistent⟩
  | _, iNode, _ => ⟨iNode, .duplicate, false⟩

def addKnownNode (s : SyncMap) (node : NodeID) (rawNode : Bytes) (loc : Local) :
    Except String (SyncMap × SHAMapAddNode) :=
  if !s.isSynching then .ok (s, .duplicate)
  else
    match makeWire sha rawNode node with
    | .error e => .error e
    | .ok newNode =>
      let r := addKnownLoop sha newNode node loc node.depth.toNat s.root ⟨0, 0⟩
      .ok (⟨r.node, if r.invalid then .Invalid else s.state⟩, r.answer)

inductive Call where
  | addRootNode (rootNode : Bytes) (format : SHANodeFormat)
  | addKnownNode (node : NodeID) (rawNode : Bytes) (loc : Local)

/-- A call that throws changes nothing. -/
def step (hash : Key) (s : SyncMap) : Call → SyncMap
  | .addRootNode rootNode format =>
    match addRootNode sha s hash rootNode format with
    | .error _ => s
    | .ok (s', _) => s'
  | .addKnownNode node rawNode loc =>
    match addKnownNode sha s node rawNode loc with
    | .error _ => s
    | .ok (s', _) => s'

def run (hash : Key) (calls : List Call) : SyncMap := calls.foldl (step sha hash) fresh

end Calls

/-! ## What a call can do -/

variable {sha : Bytes → Key}

/-- The places for which the loop of `addKnownNode` asks outside of the map, with their hashes. -/
def askedFor (node : NodeID) (loc : Local) : ℕ → Node → NodeID → List (NodeID × Key)
  | n + 1, .inner l ch, iNodeID =>
    let branch := selectBranch iNodeID.depth.toNat node.id
    let childID := iNodeID.getChildNodeID branch
    let childHash := l.hashes branch
    if loc.isFullBelow iNodeID then []
    else if !l.isBranch branch then []
    else if loc.touchIfExists childHash then []
    else if !(ch branch).isNil then askedFor node loc n (ch branch) childID
    else if isInconsistentNode (loc.fetchNodeNT childHash) then [(childID, childHash)]
    else (childID, childHash) :: askedFor node loc n (loc.fetchNodeNT childHash) childID
  | _, _, _ => []

/-- What the loop of `addKnownNode` can do below a node with the ID, and whether it finds the map
invalid; it asks for the places in `asked`. -/
inductive Walked (sha : Bytes → Key) (newNode : Option Node) (node : NodeID) (loc : Local)
    (asked : List (NodeID × Key)) : Node → NodeID → Node → Bool → Prop
  | stop (t : Node) (id : NodeID) : Walked sha newNode node loc asked t id t false
  | spurious {l : InnerNode} {ch : Fin 16 → Node} {id : NodeID} {new : Node}
      (hbranch : l.isBranch (selectBranch id.depth.toNat node.id) = true)
      (hnil : (ch (selectBranch id.depth.toNat node.id)).isNil = true)
      (hnew : newNode = some new)
      (hhash : getNodeHash sha new = l.hashes (selectBranch id.depth.toNat node.id))
      (hbad : (isInner new = true ∧ 64 ≤ id.depth + 1) ∨ isInconsistentNode new = true) :
      Walked sha newNode node loc asked (.inner l ch) id (.inner l ch) true
  | attach {l : InnerNode} {ch : Fin 16 → Node} {id : NodeID} {new : Node}
      (hbranch : l.isBranch (selectBranch id.depth.toNat node.id) = true)
      (hnil : (ch (selectBranch id.depth.toNat node.id)).isNil = true)
      (hnew : newNode = some new)
      (hhash : getNodeHash sha new = l.hashes (selectBranch id.depth.toNat node.id))
      (hversion : isInconsistentNode new = false)
      (hid : id.getChildNodeID (selectBranch id.depth.toNat node.id) = node) :
      Walked sha newNode node loc asked (.inner l ch) id
        (.inner l (Function.update ch (selectBranch id.depth.toNat node.id) new)) false
  | inconsistent {l : InnerNode} {ch : Fin 16 → Node} {id : NodeID} {fetched : Node}
      (hbranch : l.isBranch (selectBranch id.depth.toNat node.id) = true)
      (hnil : (ch (selectBranch id.depth.toNat node.id)).isNil = true)
      (hfetch : loc.fetchNodeNT (l.hashes (selectBranch id.depth.toNat node.id)) = fetched)
      (hversion : isInconsistentNode fetched = true) :
      Walked sha newNode node loc asked (.inner l ch) id
        (.inner l (Function.update ch (selectBranch id.depth.toNat node.id) fetched)) true
  | down {l : InnerNode} {ch : Fin 16 → Node} {id : NodeID} {child child' : Node} {invalid : Bool}
      (hbranch : l.isBranch (selectBranch id.depth.toNat node.id) = true)
      (hchild : descend loc (ch (selectBranch id.depth.toNat node.id))
        (l.hashes (selectBranch id.depth.toNat node.id)) = child)
      (hasked : (ch (selectBranch id.depth.toNat node.id)).isNil = true →
        (id.getChildNodeID (selectBranch id.depth.toNat node.id),
          l.hashes (selectBranch id.depth.toNat node.id)) ∈ asked)
      (hnil : child.isNil = false)
      (hversion : (ch (selectBranch id.depth.toNat node.id)).isNil = true → isInconsistentNode child = false)
      (hwalk : Walked sha newNode node loc asked child
        (id.getChildNodeID (selectBranch id.depth.toNat node.id)) child' invalid) :
      Walked sha newNode node loc asked (.inner l ch) id
        (.inner l (Function.update ch (selectBranch id.depth.toNat node.id) child')) invalid

variable {newNode : Option Node} {node : NodeID} {l : InnerNode} {ch : Fin 16 → Node} {k : Key}
  {d : ℕ} {t : Node}

theorem hook_child {child : Node} {childID : NodeID} {childHash : Key} (h : child.isNil = false) :
    (hook sha newNode node child childID childHash).node = child := by
  cases newNode with
  | none => rfl
  | some new =>
    simp only [hook, h, Bool.false_eq_true, if_false]
    split_ifs <;> rfl

theorem hook_nil (sha : Bytes → Key) (newNode : Option Node) (node childID : NodeID) (childHash : Key) :
    let r := hook sha newNode node .nil childID childHash
    (r.node = .nil ∧ r.invalid = false) ∨
    ∃ new, newNode = some new ∧ getNodeHash sha new = childHash ∧
      ((r.node = .nil ∧ r.invalid = true ∧
          ((isInner new = true ∧ 64 ≤ childID.depth) ∨ isInconsistentNode new = true)) ∨
        (r.node = new ∧ r.invalid = false ∧ isInconsistentNode new = false ∧ childID = node)) := by
  cases newNode with
  | none => exact .inl ⟨rfl, rfl⟩
  | some new =>
    simp only [hook, isNil_nil, if_true]
    split_ifs with hhash hbounds hversion hid
    · exact .inl ⟨rfl, rfl⟩
    · exact .inr ⟨new, rfl, not_not.mp hhash, .inl ⟨rfl, rfl, .inl hbounds⟩⟩
    · exact .inr ⟨new, rfl, not_not.mp hhash, .inl ⟨rfl, rfl, .inr hversion⟩⟩
    · exact .inl ⟨rfl, rfl⟩
    · exact .inr ⟨new, rfl, not_not.mp hhash, .inr ⟨rfl, rfl, by simpa using hversion, not_not.mp hid⟩⟩

theorem addKnownLoop_walked (newNode : Option Node) (node : NodeID) (loc : Local)
    {asked : List (NodeID × Key)} (n : ℕ) :
    ∀ (t : Node) (id : NodeID), askedFor node loc n t id ⊆ asked →
      Walked sha newNode node loc asked t id (addKnownLoop sha newNode node loc n t id).node
        (addKnownLoop sha newNode node loc n t id).invalid := by
  induction n with
  | zero => exact fun t id _ => by cases t <;> exact .stop _ _
  | succ n ih =>
    intro t id hasked
    cases t with
    | nil | leaf k v => exact .stop _ _
    | inner l ch =>
      rw [addKnownLoop]
      split
      · exact .stop _ _
      next hfull =>
      split
      · exact .stop _ _
      next hbranch =>
      have hbranch' : l.isBranch (selectBranch id.depth.toNat node.id) = true := by simpa using hbranch
      split
      · exact .stop _ _
      next htouch =>
      rw [askedFor, if_neg hfull, if_neg hbranch, if_neg htouch] at hasked
      cases hnil : (ch (selectBranch id.depth.toNat node.id)).isNil with
      | false =>
        simp only [hnil, Bool.not_false, if_true] at hasked
        simp only [descend, hnil, Bool.false_eq_true, if_false, Bool.false_and, Bool.or_false]
        exact .down hbranch' (by simp [descend, hnil]) (by simp [hnil]) hnil (by simp [hnil])
          (ih _ _ hasked)
      | true =>
        generalize hfetch : loc.fetchNodeNT (l.hashes (selectBranch id.depth.toNat node.id)) = fetched
          at hasked
        simp only [hnil, Bool.not_true, Bool.false_eq_true, if_false] at hasked
        simp only [descend, hnil, if_true, hfetch, Bool.true_and]
        cases hversion : isInconsistentNode fetched with
        | true =>
          have hfetched : fetched.isNil = false := by
            cases fetched with
            | nil => simp [isInconsistentNode] at hversion
            | leaf k v => rfl
            | inner l ch => rfl
          simp only [Bool.or_true, if_true, hook_child hfetched]
          exact .inconsistent hbranch' hnil hfetch hversion
        | false =>
          cases hfetched : fetched.isNil with
          | false =>
            simp only [hversion, Bool.false_eq_true, if_false] at hasked
            obtain ⟨hhere, hbelow⟩ := List.cons_subset.mp hasked
            simp only [Bool.or_false, Bool.false_eq_true, if_false]
            exact .down hbranch' (by simp [descend, hnil, hfetch]) (fun _ => hhere) hfetched
              (fun _ => hversion) (ih _ _ hbelow)
          | true =>
            obtain rfl := isNil_iff.mp hfetched
            have hkeep : Function.update ch (selectBranch id.depth.toNat node.id) .nil = ch := by
              rw [← isNil_iff.mp hnil, Function.update_eq_self]
            simp only [Bool.or_false, if_true]
            obtain ⟨hnode, hinv⟩ | ⟨new, hnew, hhash, ⟨hnode, hinv, hbad⟩ | ⟨hnode, hinv, hver, hid⟩⟩ :=
              hook_nil sha newNode node (id.getChildNodeID (selectBranch id.depth.toNat node.id))
                (l.hashes (selectBranch id.depth.toNat node.id))
            · rw [hnode, hinv, hkeep]
              exact .stop _ _
            · rw [hnode, hinv, hkeep]
              exact .spurious hbranch' hnil hnew hhash hbad
            · rw [hnode, hinv]
              exact .attach hbranch' hnil hnew hhash hver hid

theorem step_cases (sha : Bytes → Key) (hash : Key) (s : SyncMap) (c : Call) :
    step sha hash s c = s ∨
    (∃ rootNode format node, c = .addRootNode rootNode format ∧ getNodeHash sha s.root = 0 ∧
      make sha rootNode format ⟨0, 0⟩ = .ok (some node) ∧ getNodeHash sha node = hash ∧
      step sha hash s c = ⟨node, if isLeaf node then .Modifying else s.state⟩) ∨
    ∃ node rawNode loc newNode invalid root', c = .addKnownNode node rawNode loc ∧ s.isSynching = true ∧
      makeWire sha rawNode node = .ok newNode ∧
      Walked sha newNode node loc (askedFor node loc node.depth.toNat s.root ⟨0, 0⟩) s.root ⟨0, 0⟩
        root' invalid ∧
      step sha hash s c = ⟨root', if invalid then .Invalid else s.state⟩ := by
  cases c with
  | addRootNode rootNode format =>
    simp only [step, addRootNode]
    by_cases hzero : getNodeHash sha s.root = 0
    · rw [if_neg (not_not.mpr hzero)]
      cases hmake : make sha rootNode format ⟨0, 0⟩ with
      | error e => exact .inl rfl
      | ok node =>
        cases node with
        | none => exact .inl rfl
        | some node =>
          by_cases hhash : getNodeHash sha node = hash
          · refine .inr (.inl ⟨rootNode, format, node, rfl, hzero, hmake, hhash, ?_⟩)
            simp [hhash]
          · exact .inl (by simp [hhash])
    · exact .inl (by rw [if_pos hzero])
  | addKnownNode node rawNode loc =>
    simp only [step, addKnownNode]
    cases hsync : s.isSynching with
    | false => exact .inl rfl
    | true =>
      cases hmake : makeWire sha rawNode node with
      | error e => exact .inl rfl
      | ok newNode =>
        exact .inr (.inr ⟨node, rawNode, loc, newNode, _, _, rfl, rfl, hmake,
          addKnownLoop_walked newNode node loc node.depth.toNat s.root ⟨0, 0⟩ (List.Subset.refl _), rfl⟩)

/-! ## Places -/

/-- The ID of the node below which the keys with the first `d` nibbles of `k` are. -/
def place (d : ℕ) (k : Key) : NodeID := ⟨d, prefixOf d k⟩

@[simp] theorem depth_place (d : ℕ) (k : Key) : (place d k).depth.toNat = d := rfl

@[simp] theorem id_place (d : ℕ) (k : Key) : (place d k).id = prefixOf d k := rfl

theorem place_zero (k : Key) : place 0 k = ⟨0, 0⟩ := by
  rw [place, prefixOf_zero]
  rfl

theorem mask_or_high (b : UInt8) : (0 : UInt8) ||| UInt8.ofNat (highHalf b) <<< 4 = b &&& 0xF0 := by
  revert b
  decide +kernel

theorem mask_or_low (b : UInt8) : (b &&& 0xF0) ||| UInt8.ofNat (lowHalf b) = b := by
  revert b
  decide +kernel

theorem getChildNodeID_place (d : ℕ) (k : Key) :
    (place d k).getChildNodeID (selectBranch d k) = place (d + 1) k := by
  have hdepth : (place d k).depth + 1 = ((d + 1 : ℕ) : ℤ) := by simp [place]
  rw [NodeID.getChildNodeID, hdepth]
  refine congrArg (NodeID.mk _) (funext fun i => ?_)
  have hbyte : ∀ j, j = i.val → byte k j = k i := fun j hj => by
    subst hj
    exact byte_of_lt k i.isLt
  obtain ⟨e, rfl | rfl⟩ : ∃ e, d = 2 * e ∨ d = 2 * e + 1 := ⟨d / 2, by omega⟩
  · -- the high half of a new byte
    rw [selectBranch_even]
    have h1 : 2 * e / 2 = e := by omega
    have h2 : (2 * e + 1) / 2 = e := by omega
    have h3 : (2 * e + 1) % 2 = 1 := by omega
    simp only [depth_place, id_place, prefixOf, h1, h2, h3, Nat.mul_mod_right]
    obtain hlt | heq | hgt := lt_trichotomy i.val e
    · simp [hlt, hlt.ne]
    · subst heq
      simp only [if_true, lt_irrefl, if_false, zero_ne_one, false_and, true_and]
      rw [hbyte _ rfl]
      exact mask_or_high _
    · simp [hgt.not_gt, hgt.ne']
  · -- the low half of a byte whose high half is there
    rw [selectBranch_odd]
    have h1 : (2 * e + 1) / 2 = e := by omega
    have h2 : (2 * e + 1 + 1) / 2 = e + 1 := by omega
    have h3 : (2 * e + 1) % 2 = 1 := by omega
    have h4 : (2 * e + 1 + 1) % 2 = 0 := by omega
    simp only [depth_place, id_place, prefixOf, h1, h2, h3, h4]
    obtain hlt | heq | hgt := lt_trichotomy i.val e
    · simp [hlt, hlt.ne, Nat.lt_succ_of_lt hlt]
    · subst heq
      simp only [if_true, lt_irrefl, if_false, true_and, Nat.lt_succ_self]
      rw [hbyte _ rfl]
      exact mask_or_low _
    · have hne : i.val ≠ e := hgt.ne'
      have hnot : ¬i.val < e + 1 := by omega
      simp [hgt.not_gt, hne, hnot]

/-! ## Leaves on their branches -/

/-- An inner node of version 1 with its leaves on their branches, and no child on a branch without
its bit. -/
structure Hung (d : ℕ) (l : InnerNode) (ch : Fin 16 → Node) : Prop where
  branching : Branching d l ch
  version : l.v2 = none
  bits : ∀ i, (ch i).isNil = false → l.isBranch i = true

/-- The tree hangs where it belongs, if it is found at the depth `d` on the way to `k`. -/
structure InPlace (d : ℕ) (k : Key) (t : Node) : Prop where
  hung : Every Hung d t
  agree : ∀ p ∈ t.items, Agree d p.1 k

theorem InPlace.child (h : InPlace d k (.inner l ch)) :
    InPlace (d + 1) k (ch (selectBranch d k)) where
  hung := h.hung.2 _
  agree p hp := (h.agree p (mem_items_inner.mpr ⟨_, hp⟩)).succ (h.hung.1.branching _ p hp)

theorem InPlace.update (h : InPlace d k (.inner l ch))
    (hbranch : l.isBranch (selectBranch d k) = true) (ht : InPlace (d + 1) k t) :
    InPlace d k (.inner l (Function.update ch (selectBranch d k) t)) where
  hung := by
    refine ⟨⟨h.hung.1.branching.update fun p hp => ht.agree p hp d (Nat.lt_succ_self d), h.hung.1.version,
      fun i hi => ?_⟩, Every.update h.hung.2 _ ht.hung⟩
    by_cases heq : i = selectBranch d k
    · rw [heq, hbranch]
    · rw [Function.update_of_ne heq] at hi
      exact h.hung.1.bits i hi
  agree p hp := by
    obtain hp | hp := mem_items_update.mp hp
    · exact (ht.agree p hp).mono (Nat.le_succ d)
    · obtain ⟨j, -, hj⟩ := mem_beside.mp hp
      exact h.agree p (mem_items_inner.mpr ⟨j, hj⟩)

/-- Every leaf that the call brings belongs to the place it is given for. -/
def Call.LeavesInPlace (sha : Bytes → Key) (s : SyncMap) : Call → Prop
  -- a map of version 1
  | .addRootNode rootNode format => ∀ node,
      make sha rootNode format ⟨0, 0⟩ = .ok (some node) → isInconsistentNode node = false
  | .addKnownNode node rawNode loc =>
      (∀ k v, makeWire sha rawNode node = .ok (some (.leaf k v)) → Agree node.depth.toNat k node.id) ∧
      ∀ p ∈ askedFor node loc node.depth.toNat s.root ⟨0, 0⟩,
        isInconsistentNode (loc.fetchNodeNT p.2) = false →
          InPlace p.1.depth.toNat p.1.id (loc.fetchNodeNT p.2)

theorem inPlace_congr {k' : Key} (h : InPlace d k t) (hk : Agree d k k') : InPlace d k' t :=
  ⟨h.hung, fun p hp => (h.agree p hp).trans hk⟩

theorem inPlace_bare (hv : l.v2 = none) : InPlace d k (.inner l noChildren) where
  hung := ⟨⟨branching_noChildren d l, hv, fun i hi => by simp [noChildren] at hi⟩, every_noChildren⟩
  agree p hp := by simp [items_noChildren] at hp

theorem Walked.inPlace {s : SyncMap} {rawNode : Bytes} {loc : Local}
    (hcall : (Call.addKnownNode node rawNode loc).LeavesInPlace sha s)
    (hmake : makeWire sha rawNode node = .ok newNode) {t' : Node} {id : NodeID} {invalid : Bool}
    (h : Walked sha newNode node loc (askedFor node loc node.depth.toNat s.root ⟨0, 0⟩) t id t'
      invalid) :
    ∀ {d : ℕ}, id = place d node.id → InPlace d node.id t → invalid = true ∨ InPlace d node.id t' := by
  induction h with
  | stop => exact fun _ ht => .inr ht
  | spurious | inconsistent => exact fun _ _ => .inl rfl
  | @attach l ch id new hbranch hnil hnew hhash hversion hid =>
    rintro d rfl ht
    rw [depth_place] at hbranch hid ⊢
    refine .inr (ht.update hbranch ?_)
    rw [getChildNodeID_place] at hid
    subst hnew
    cases new with
    | nil => exact ⟨trivial, by simp⟩
    | leaf k v =>
      refine ⟨trivial, fun p hp => ?_⟩
      obtain rfl := List.mem_singleton.mp hp
      have hdepth : node.depth.toNat = d + 1 := by rw [← hid, depth_place]
      exact hdepth ▸ hcall.1 k v hmake
    | inner l ch =>
      obtain rfl := (read_makeWire hmake).bare
      exact inPlace_bare (by simpa [isInconsistentNode] using hversion)
  | @down l ch id child child' invalid hbranch hchild hasked hnil hversion _ ih =>
    rintro d rfl ht
    rw [depth_place] at hbranch hchild hasked hversion ih ⊢
    rw [getChildNodeID_place] at hasked ih
    have hin : InPlace (d + 1) node.id child := by
      rw [descend] at hchild
      split at hchild
      · next hmissing =>
        subst hchild
        exact inPlace_congr (hcall.2 _ (hasked hmissing) (hversion hmissing))
          (agree_prefixOf (d + 1) node.id)
      · exact hchild ▸ ht.child
    obtain hinv | hin' := ih rfl hin
    · exact .inl hinv
    · exact .inr (ht.update hbranch hin')

theorem hung_make {rootNode : Bytes} {format : SHANodeFormat} {node : Node}
    {s : SyncMap} (hcall : (Call.addRootNode rootNode format).LeavesInPlace sha s)
    (hmake : make sha rootNode format ⟨0, 0⟩ = .ok (some node)) : Every Hung 0 node := by
  cases node with
  | nil | leaf k v => trivial
  | inner l ch =>
    obtain rfl := (read_make hmake).bare
    exact (inPlace_bare (k := 0) (by simpa [isInconsistentNode] using hcall _ hmake)).hung

theorem step_hung {hash : Key} {s : SyncMap} {c : Call} (hcall : c.LeavesInPlace sha s)
    (h : s.state = .Invalid ∨ Every Hung 0 s.root) :
    (step sha hash s c).state = .Invalid ∨ Every Hung 0 (step sha hash s c).root := by
  obtain hs | ⟨rootNode, format, node, rfl, -, hmake, -, hs⟩ |
    ⟨node, rawNode, loc, newNode, invalid, root', rfl, hsync, hmake, hwalk, hs⟩ :=
      step_cases sha hash s c
  · rwa [hs]
  · rw [hs]
    exact .inr (hung_make hcall hmake)
  · rw [hs]
    obtain hinv | hung := h
    · simp [SyncMap.isSynching, hinv] at hsync
    obtain rfl | hin := hwalk.inPlace hcall hmake (d := 0) (place_zero node.id).symm ⟨hung, by simp⟩
    · exact .inl rfl
    · exact .inr hin.hung

/-- Every leaf that a call of the run brings belongs to the place it is given for. -/
def LeavesInPlace (sha : Bytes → Key) (hash : Key) (calls : List Call) : Prop :=
  ∀ before c after, calls = before ++ c :: after → c.LeavesInPlace sha (run sha hash before)

theorem run_hung {hash : Key} {calls : List Call} (hcalls : LeavesInPlace sha hash calls) :
    (run sha hash calls).state = .Invalid ∨ Every Hung 0 (run sha hash calls).root := by
  induction calls using List.reverseRecOn with
  | nil => exact .inr (inPlace_bare (k := 0) rfl).hung
  | append_singleton calls c ih =>
    have hbefore : LeavesInPlace sha hash calls := by
      rintro before c' after rfl
      exact hcalls before c' (after ++ [c]) (by simp)
    rw [run, List.foldl_append]
    exact step_hung (hcalls calls c [] rfl) (ih hbefore)

structure Complete (t : Node) : Prop where
  filled : Every (fun _ l ch => ∀ i, l.isBranch i = true → (ch i).isNil = false) 0 t

def noLocal : Local := ⟨fun _ => false, fun _ => false, fun _ => .nil⟩

def oneLeaf (b : Fin 16) (k : Key) : V1.Map Bytes :=
  .inner () (Function.update noChildren b (.leaf k ⟨.tnACCOUNT_STATE, []⟩))

def oneLeafHash (b : Fin 16) (k : Key) (bytes : Bytes) : Key := fun _ =>
  if bytes = leafPreimage .tnACCOUNT_STATE k [] then 1
  else if bytes = HashPrefix.innerNode ++ hashesBytes (Function.update 0 b fun _ => 1) then 2
  else 3

def oneLeafCalls (b : Fin 16) (k : Key) : List Call :=
  [.addRootNode (addRaw (oneLeafHash b k) (oneLeaf b k) .snfWIRE) .snfWIRE,
    .addKnownNode ((place 0 0).getChildNodeID b) (keyBytes k ++ [1]) noLocal]

def oneLeafRun (b : Fin 16) (k : Key) : SyncMap :=
  run (oneLeafHash b k) (getHash (hashingV1 (oneLeafHash b k)) (oneLeaf b k)) (oneLeafCalls b k)

end Ripple.SHAMap.Sync
