import Ripple.SHAMap.Sync

/-!
# Ripple.SHAMap.Acquire

What a map that is acquired by the hash of another map `M` can become, whatever the peers send. The hash
of a node stands for the node (`Binding`); so a node that is taken is the node of `M` at its place, and
the map is not found invalid.

This needs that the bits of a node are those of its hashes. The reader of a compressed node does not see
to it (`Tidy`): with a bit that is set for an empty branch, an empty node can be hooked where `M` has
none, under the root hash of `M` (`stale_bit_hooks`).

* `Walked.matches`, `loop_progress`: nothing else is taken, and what is sent rightly is.
-/

namespace Ripple.SHAMap.Sync

open Trie List
open Function (update update_of_ne update_self update_apply)

/-! ## The map that is acquired -/

/-- A map of version 1 whose items can be sent. -/
structure WellFormed (sha : Bytes → Key) (M : V1.Map Bytes) : Prop where
  inner : ∃ ch, M = .inner () ch
  dense : Every V1.Dense 0 M
  carried : ∀ p ∈ M.items, Carried sha p

/-- Only the node itself has its hash. -/
def Unique (sha : Bytes → Key) (m : V1.Map Bytes) : Prop :=
  ∀ t : Node, sha (preimage t) = sha (addRaw sha m .snfPREFIX) →
    preimage t = addRaw sha m .snfPREFIX

/-- The hash is injective, as far as the nodes of the map and the hash zero are concerned. -/
structure Binding (sha : Bytes → Key) (M : V1.Map Bytes) : Prop where
  nonzero : ∀ t : Node, sha (preimage t) ≠ 0
  leaf : ∀ p ∈ M.items, Unique sha (.leaf p.1 p.2)
  inner : Every (fun _ l ch => Unique sha (.inner l ch)) 0 M

variable {sha : Bytes → Key}

structure Known (sha : Bytes → Key) (d : ℕ) (l : Unit) (ch : Fin 16 → V1.Map Bytes) : Prop where
  bound : d < 64
  nonempty : d ≠ 0 → ∃ i, (ch i).isNil = false
  tell : HashesTell sha ch
  unique : Unique sha (.inner l ch)

abbrev acquireStep (sha : Bytes → Key) (M : V1.Map Bytes) : SyncMap → Call → SyncMap :=
  step sha (getHash (hashingV1 sha) M)

abbrev acquire (sha : Bytes → Key) (M : V1.Map Bytes) : List Call → SyncMap :=
  run sha (getHash (hashingV1 sha) M)

structure Source (sha : Bytes → Key) (d : ℕ) (m : V1.Map Bytes) : Prop where
  nodes : Every (Known sha) d m
  carried : ∀ p ∈ m.items, Carried sha p
  unique : ∀ p ∈ m.items, Unique sha (.leaf p.1 p.2)

variable {ch : Fin 16 → V1.Map Bytes} {d : ℕ} {m M : V1.Map Bytes} {t : Node}
  {format : SHANodeFormat} {rawNode : Bytes} {k : Key} {l : InnerNode} {i : Fin 16}
  {ch' : Fin 16 → V1.Map Bytes} {loc : Local} {newNode : Option Node} {node : NodeID}
  {invalid : Bool} {id : NodeID} {t' : Node} {c : Call} {b : Fin 16} {n : ℕ} {new : Node}
  {fetch : Key → Node} {asked : List (NodeID × Key)}

theorem Source.child {l : Unit} (h : Source sha d (.inner l ch)) (i : Fin 16) :
    Source sha (d + 1) (ch i) where
  nodes := h.nodes.2 i
  carried p hp := h.carried p (mem_items_inner.mpr ⟨i, hp⟩)
  unique p hp := h.unique p (mem_items_inner.mpr ⟨i, hp⟩)

theorem nodeHash_inner {l : Unit} (h : ∃ i, (ch i).isNil = false) :
    nodeHash (hashingV1 sha) (.inner l ch) = sha (addRaw sha (.inner l ch) .snfPREFIX) := by
  obtain ⟨i, hi⟩ := h
  have hne : ¬∀ i, (ch i).isNil = true := fun hall => by simp [hall i] at hi
  rw [nodeHash, if_neg hne]
  rfl

theorem nodeHash_empty {l : Unit} (h : ¬∃ i, (ch i).isNil = false) :
    nodeHash (hashingV1 sha) (.inner l ch) = 0 := by
  have hall : ∀ i, (ch i).isNil = true := fun i => by
    by_contra hi
    exact h ⟨i, by simpa using hi⟩
  rw [nodeHash, if_pos hall]

theorem preimage_bareInner (l : Unit) (ch : Fin 16 → V1.Map Bytes) :
    preimage (bareInner (childHashes sha ch) none) = addRaw sha (.inner l ch) .snfPREFIX := rfl

theorem nodeHash_ne_zero (hsha : ∀ t : Node, sha (preimage t) ≠ 0) (hnil : m.isNil = false)
    (hne : ∀ l ch, m = .inner l ch → ∃ i, (ch i).isNil = false) :
    nodeHash (hashingV1 sha) m ≠ 0 := by
  cases m with
  | nil => simp at hnil
  | leaf k v => exact hsha (.leaf k v)
  | inner l ch =>
    rw [nodeHash_inner (hne l ch rfl), ← preimage_bareInner]
    exact hsha _

theorem depth_lt_of_two {l : Unit} (hdense : Every V1.Dense d (.inner l ch)) (hd : d ≠ 0)
    (hagree : ∀ p ∈ (inner l ch).items, ∀ q ∈ (inner l ch).items, Agree d p.1 q.1) : d < 64 := by
  by_contra hge
  have hnodup := Trie.nodup_keys (fun _ _ _ h => h.1) hdense
  have htwo := hdense.1.2 hd
  match hitems : (inner l ch).items with
  | [] => simp [hitems] at htwo
  | [_] => simp [hitems] at htwo
  | p :: q :: rest =>
    have hkey : p.1 = q.1 := Spelled.ext_digit fun e he =>
      hagree p (by simp [hitems]) q (by simp [hitems]) e (by omega)
    simp [hitems, hkey] at hnodup

theorem present_of_dense {l : Unit} (h : Every V1.Dense d (.inner l ch)) (hd : d ≠ 0) :
    ∃ i, (ch i).isNil = false := by
  have htwo := h.1.2 hd
  by_contra hall
  push Not at hall
  have hempty : ch = noChildren := funext fun j => isNil_iff.mp (by simpa using hall j)
  simp [hempty, items_noChildren] at htwo

theorem known_of_dense (hsha : ∀ t : Node, sha (preimage t) ≠ 0) :
    ∀ {d : ℕ}, Every V1.Dense d m → Every (fun _ l ch => Unique sha (.inner l ch)) d m →
      (∀ p ∈ m.items, ∀ q ∈ m.items, Agree d p.1 q.1) → Every (Known sha) d m := by
  induction m with
  | nil | leaf k v => exact fun _ _ _ => trivial
  | inner l ch ih =>
    intro d hdense hunique hagree
    refine ⟨⟨?_, present_of_dense hdense, fun i => ?_, hunique.1⟩, fun i => ?_⟩
    · by_cases hd : d = 0
      · omega
      · exact depth_lt_of_two hdense hd hagree
    · constructor
      · intro hzero
        by_contra hnil
        refine nodeHash_ne_zero hsha (by simpa using hnil) (fun l' ch' hi => ?_) hzero
        exact present_of_dense (hi ▸ hdense.2 i) (Nat.succ_ne_zero d)
      · intro hnil
        rw [childHashes, isNil_iff.mp hnil]
        rfl
    · refine ih i (hdense.2 i) (hunique.2 i) fun p hp q hq => ?_
      have hsame : selectBranch d p.1 = selectBranch d q.1 :=
        (hdense.1.1 i p hp).trans (hdense.1.1 i q hq).symm
      exact (hagree p (mem_items_inner.mpr ⟨i, hp⟩) q (mem_items_inner.mpr ⟨i, hq⟩)).succ hsame

theorem source_of_wellFormed (hM : WellFormed sha M) (hsha : Binding sha M) :
    Source sha 0 M where
  nodes := known_of_dense hsha.nonzero hM.dense hsha.inner fun _ _ _ _ => agree_zero _ _
  carried := hM.carried
  unique := hsha.leaf

/-! ## The part that has been acquired -/

def Matches (sha : Bytes → Key) : Node → V1.Map Bytes → Prop
  | .nil, _ => True
  | .leaf k v, m => m = .leaf k v
  | .inner l ch, m => ∃ ch', m = .inner () ch' ∧
      l = ⟨childHashes sha ch', fun i => !(ch' i).isNil, none⟩ ∧
      ∀ i, Matches sha (ch i) (ch' i)

/-- A node that the map has, and its place in the map that is acquired. -/
structure Attached (sha : Bytes → Key) (t : Node) (m : V1.Map Bytes) : Prop where
  present : t.isNil = false
  same : Matches sha t m

/-- A tree whose nodes are as they are read from their bytes, with the bits of their hashes, and
whose children are those that the hashes ask for. -/
def Whole (sha : Bytes → Key) : Node → Prop
  | .nil => True
  | .leaf k v => v.type = .tnTRANSACTION_NM → k = sha (HashPrefix.transactionID ++ v.data)
  | .inner l ch => (l.v2 = none → Coherent l) ∧ ∀ i,
      ((ch i).isNil = false → l.isBranch i = true ∧ getNodeHash sha (ch i) = l.hashes i) ∧
      Whole sha (ch i)

theorem whole_of_read (h : Read sha format rawNode t)
    (htidy : format = .snfWIRE → Tidy rawNode) : Whole sha t := by
  cases t with
  | nil => trivial
  | leaf k v =>
    cases h with
    | leaf _ _ hkey => exact hkey
  | inner l ch =>
    obtain rfl := h.bare
    exact ⟨h.coherent htidy, fun i => ⟨fun hnil => by simp [noChildren] at hnil, trivial⟩⟩

theorem leafPreimage_inj {type type' : TNType} {k' : Key} {data data' : Bytes}
    (h : leafPreimage type k data = leafPreimage type' k' data') :
    type = type' ∧ data = data' ∧ (type ≠ .tnTRANSACTION_NM → k = k') := by
  have hsplit : ∀ {pre : Bytes}, pre ++ data ++ keyBytes k = pre ++ data' ++ keyBytes k' →
      data = data' ∧ k = k' := by
    intro pre heq
    obtain ⟨h1, h2⟩ := append_inj' heq (by simp)
    exact ⟨append_cancel_left h1, keyBytes_inj.mp h2⟩
  have htype : type = type' := by
    cases type <;> cases type' <;>
      first
      | rfl
      | simp [leafPreimage, HashPrefix.transactionID, HashPrefix.leafNode, HashPrefix.txNode] at h
  subst htype
  cases type with
  | tnTRANSACTION_NM => exact ⟨rfl, append_cancel_left h, fun hne => absurd rfl hne⟩
  | tnTRANSACTION_MD | tnACCOUNT_STATE => exact ⟨rfl, (hsplit h).1, fun _ => (hsplit h).2⟩

theorem leafPreimage_ne_inner (type : TNType) (k : Key) (data : Bytes) (l : InnerNode) :
    leafPreimage type k data ≠ innerPreimage l := by
  obtain ⟨hashes, isBranch, v2⟩ := l
  cases type <;> cases v2 <;>
    simp [leafPreimage, innerPreimage, HashPrefix.transactionID, HashPrefix.leafNode, HashPrefix.txNode,
      HashPrefix.innerNode, HashPrefix.innerNodeV2]

theorem innerPreimage_inj {hashes : Fin 16 → Key}
    (h : innerPreimage l = HashPrefix.innerNode ++ hashesBytes hashes) :
    l.v2 = none ∧ l.hashes = hashes := by
  obtain ⟨hashes', isBranch, v2⟩ := l
  cases v2 with
  | none => exact ⟨rfl, hashesBytes_inj (append_cancel_left h)⟩
  | some v => simp [innerPreimage, HashPrefix.innerNode, HashPrefix.innerNodeV2] at h

theorem Source.nodeHash_eq (hm : Source sha d m)
    (hzero : nodeHash (hashingV1 sha) m ≠ 0) :
    nodeHash (hashingV1 sha) m = sha (addRaw sha m .snfPREFIX) ∧ Unique sha m := by
  cases m with
  | nil => exact absurd rfl hzero
  | leaf k v => exact ⟨rfl, hm.unique (k, v) (by simp)⟩
  | inner l ch =>
    refine ⟨nodeHash_inner ?_, hm.nodes.1.unique⟩
    by_contra hempty
    exact hzero (nodeHash_empty hempty)

theorem matches_of_hash (t : Node) :
    ∀ {d : ℕ} {m : V1.Map Bytes}, Source sha d m → Whole sha t →
      nodeHash (hashingV1 sha) m ≠ 0 →
      getNodeHash sha t = nodeHash (hashingV1 sha) m → Matches sha t m := by
  induction t with
  | nil => exact fun _ _ _ _ => trivial
  | leaf k v =>
    intro d m hm hwhole hzero hhash
    obtain ⟨heq, hunique⟩ := hm.nodeHash_eq hzero
    have hpre : leafPreimage v.type k v.data = addRaw sha m .snfPREFIX :=
      hunique (.leaf k v) (hhash.trans heq)
    cases m with
    | nil => exact absurd rfl hzero
    | leaf k' v' =>
      obtain ⟨htype, hdata, hkey⟩ := leafPreimage_inj hpre
      obtain ⟨type, data⟩ := v
      obtain ⟨type', data'⟩ := v'
      obtain rfl : type = type' := htype
      obtain rfl : data = data' := hdata
      have hk : k = k' := by
        by_cases hnm : type = .tnTRANSACTION_NM
        · -- both keys are the hash of the transaction
          have hcarried : Carried sha (k', ⟨type, data⟩) := hm.carried (k', ⟨type, data⟩) (by simp)
          rw [Carried, if_pos hnm] at hcarried
          exact (hwhole hnm).trans hcarried.symm
        · exact hkey hnm
      rw [hk]
      rfl
    | inner l ch => exact absurd hpre (leafPreimage_ne_inner _ _ _ ⟨_, fun _ => true, none⟩)
  | inner l ch ih =>
    intro d m hm hwhole hzero hhash
    obtain ⟨heq, hunique⟩ := hm.nodeHash_eq hzero
    have hbits : ∃ i, l.isBranch i = true := by
      by_contra hno
      exact hzero (hhash.symm.trans (if_neg hno))
    have hpre : innerPreimage l = addRaw sha m .snfPREFIX := by
      refine hunique (.inner l ch) (Eq.trans ?_ (hhash.trans heq))
      exact (if_pos hbits).symm
    cases m with
    | nil => exact absurd rfl hzero
    | leaf k v => exact absurd hpre.symm (leafPreimage_ne_inner _ _ _ _)
    | inner u ch' =>
      obtain ⟨hv2, hhashes⟩ := innerPreimage_inj hpre
      have hbit : ∀ i, l.isBranch i = !(ch' i).isNil := fun i => by
        have htell := hm.nodes.1.tell i
        have hcoh := hwhole.1 hv2 i
        rw [hhashes, ne_eq, htell] at hcoh
        rw [Bool.eq_iff_iff, hcoh]
        simp
      refine ⟨ch', rfl, ?_, fun i => ?_⟩
      · obtain ⟨hashes, isBranch, v2⟩ := l
        obtain rfl : hashes = childHashes sha ch' := hhashes
        obtain rfl : v2 = none := hv2
        rw [← funext hbit]
      · cases hnil : (ch i).isNil with
        | true =>
          rw [isNil_iff.mp hnil]
          trivial
        | false =>
          obtain ⟨hchild, hwhole'⟩ := hwhole.2 i
          obtain ⟨hset, hhash'⟩ := hchild hnil
          rw [hhashes] at hhash'
          refine ih i (hm.child i) hwhole' (fun hz => ?_) hhash'
          have := (hm.nodes.1.tell i).mp hz
          rw [hbit i, this] at hset
          simp at hset

/-! ## Nothing else is taken -/

def Honest (sha : Bytes → Key) (fetch : Key → Node) : Prop :=
  ∀ hash, (fetch hash).isNil = false → Whole sha (fetch hash) ∧ getNodeHash sha (fetch hash) = hash

/-- The bytes of a call do not take the hash of a branch back, the local store has what was asked
for, and there is no empty root of version 2. -/
def Call.Proper (sha : Bytes → Key) : Call → Prop
  | .addRootNode rootNode format => (format = .snfWIRE → Tidy rootNode) ∧ ∀ node,
      make sha rootNode format ⟨0, 0⟩ = .ok (some node) → isInconsistentNode node = true →
        getNodeHash sha node ≠ 0
  | .addKnownNode _ rawNode loc => Tidy rawNode ∧ Honest sha loc.fetchNodeNT

theorem Matches.inner {ch : Fin 16 → Node} (h : Matches sha (.inner l ch) m) : ∃ ch', m = .inner () ch' :=
  h.imp fun _ h => h.1

theorem matches_inner {ch : Fin 16 → Node} : Matches sha (.inner l ch) (.inner () ch') ↔
    l = ⟨childHashes sha ch', fun i => !(ch' i).isNil, none⟩ ∧ ∀ i, Matches sha (ch i) (ch' i) := by
  constructor
  · rintro ⟨_, heq, h⟩
    cases heq
    exact h
  · exact fun h => ⟨ch', rfl, h⟩

theorem matches_child {ch : Fin 16 → Node} (hm : Source sha d (.inner () ch'))
    (hmatch : Matches sha (.inner l ch) (.inner () ch')) (hbranch : l.isBranch i = true)
    (hwhole : Whole sha t) (hhash : getNodeHash sha t = l.hashes i) : Matches sha t (ch' i) := by
  obtain ⟨rfl, -⟩ := matches_inner.mp hmatch
  refine matches_of_hash t (hm.child i) hwhole (fun hz => ?_) hhash
  simp [(hm.nodes.1.tell i).mp hz] at hbranch

theorem Matches.update {ch : Fin 16 → Node} (h : Matches sha (.inner l ch) (.inner () ch'))
    (ht : Matches sha t (ch' i)) :
    Matches sha (.inner l (update ch i t)) (.inner () ch') := by
  rw [matches_inner] at h ⊢
  refine ⟨h.1, fun j => ?_⟩
  by_cases hj : j = i
  · subst hj
    rwa [update_self]
  · rw [update_of_ne hj]
    exact h.2 j

theorem Matches.present (h : Matches sha t m) (ht : t.isNil = false) : m.isNil = false := by
  cases t with
  | nil => simp at ht
  | leaf k v =>
    obtain rfl : m = .leaf k v := h
    rfl
  | inner l ch =>
    obtain ⟨ch', rfl, -⟩ := h
    rfl

theorem Matches.sound (hm : Source sha d m) (h : Matches sha t m) :
    isInconsistentNode t = false ∧ (isInner t = true → d < 64) := by
  cases t with
  | nil | leaf k v => exact ⟨rfl, nofun⟩
  | inner l ch =>
    obtain ⟨ch', rfl, rfl, -⟩ := h
    exact ⟨rfl, fun _ => hm.nodes.1.bound⟩

theorem matches_descend {ch : Fin 16 → Node} (hm : Source sha d (.inner () ch'))
    (hmatch : Matches sha (.inner l ch) (.inner () ch')) (hbranch : l.isBranch i = true)
    (hloc : Honest sha loc.fetchNodeNT) : Matches sha (descend loc (ch i) (l.hashes i)) (ch' i) := by
  rw [descend]
  split
  · cases hnil : (loc.fetchNodeNT (l.hashes i)).isNil with
    | true =>
      rw [isNil_iff.mp hnil]
      trivial
    | false =>
      obtain ⟨hwhole, hhash⟩ := hloc _ hnil
      exact matches_child hm hmatch hbranch hwhole hhash
  · exact (matches_inner.mp hmatch).2 i

theorem Walked.matches (hnew : ∀ new, newNode = some new → Whole sha new)
    (hloc : Honest sha loc.fetchNodeNT)
    (h : Walked sha newNode node loc asked t id t' invalid) :
    ∀ {d : ℕ} {m : V1.Map Bytes}, id.depth = d → Source sha d m → Matches sha t m →
      invalid = false ∧ Matches sha t' m := by
  induction h with
  | stop => exact fun _ _ hmatch => ⟨rfl, hmatch⟩
  | @spurious l ch id new hbranch _ hsome hhash hbad =>
    intro d m hd hm hmatch
    obtain ⟨ch', rfl⟩ := hmatch.inner
    have hchild := matches_child hm hmatch hbranch (hnew new hsome) hhash
    obtain ⟨hversion, hbound⟩ := hchild.sound (hm.child _)
    obtain ⟨hinner, hdeep⟩ | hbad := hbad
    · have := hbound hinner
      omega
    · simp [hversion] at hbad
  | @attach l ch id new hbranch _ hsome hhash _ _ =>
    intro d m hd hm hmatch
    obtain ⟨ch', rfl⟩ := hmatch.inner
    have hchild := matches_child hm hmatch hbranch (hnew new hsome) hhash
    exact ⟨rfl, hmatch.update hchild⟩
  | @inconsistent l ch id fetched hbranch hnil hfetch hversion =>
    intro d m hd hm hmatch
    obtain ⟨ch', rfl⟩ := hmatch.inner
    have hchild := matches_descend hm hmatch hbranch hloc
    rw [descend, if_pos hnil, hfetch] at hchild
    simp [(hchild.sound (hm.child _)).1] at hversion
  | @down l ch id child child' invalid hbranch hchild _ hnil _ _ ih =>
    intro d m hd hm hmatch
    obtain ⟨ch', rfl⟩ := hmatch.inner
    have hmatch' := matches_descend hm hmatch hbranch hloc
    rw [hchild] at hmatch'
    have hdepth : (id.getChildNodeID (selectBranch id.depth.toNat node.id)).depth = ((d + 1 : ℕ) : ℤ) := by
      rw [NodeID.getChildNodeID, hd]
      simp
    obtain ⟨hinv, hsame⟩ := ih hdepth (hm.child _) hmatch'
    exact ⟨hinv, hmatch.update hsame⟩

theorem Walked.present (h : Walked sha newNode node loc asked t id t' invalid)
    (ht : t.isNil = false) : t'.isNil = false := by
  cases h with
  | stop => exact ht
  | spurious | attach | inconsistent | down => rfl

theorem Walked.of_fresh (h : Walked sha newNode node loc asked freshRoot id t' invalid) :
    t' = freshRoot ∧ invalid = false := by
  rw [freshRoot] at h ⊢
  cases h with
  | stop => exact ⟨rfl, rfl⟩
  | spurious hbranch | attach hbranch | inconsistent hbranch | down hbranch => simp at hbranch

/-- A map on its way to `M`. -/
structure OnTheWay (sha : Bytes → Key) (M : V1.Map Bytes) (s : SyncMap) : Prop where
  state : s.state = .Synching
  root : s.root = freshRoot ∨ Attached sha s.root M

theorem whole_makeWire (htidy : Tidy rawNode)
    (hmake : makeWire sha rawNode node = .ok newNode) :
    ∀ new, newNode = some new → Whole sha new := by
  rintro new rfl
  exact whole_of_read (read_makeWire hmake) fun _ => htidy

theorem matches_empty (hnil : ∀ i, (ch' i).isNil = true) (hbits : ∀ i, l.isBranch i = false)
    (hv2 : l.v2 = none) (hcoherent : Coherent l) :
    Matches sha (.inner l noChildren) (.inner () ch') := by
  refine ⟨ch', rfl, ?_, fun _ => trivial⟩
  obtain ⟨hashes, isBranch, v2⟩ := l
  obtain rfl : v2 = none := hv2
  congr 1
  · funext i
    have hzero : hashes i = 0 := by
      by_contra hne
      have hset : isBranch i = true := (hcoherent i).mpr hne
      exact absurd (hbits i) (by simp [hset])
    rw [hzero, childHashes, isNil_iff.mp (hnil i)]
    rfl
  · funext i
    rw [hnil i]
    exact hbits i

theorem matches_root (hM : WellFormed sha M) (hsha : Binding sha M) {rootNode : Bytes}
    {node : Node} (hcall : (Call.addRootNode rootNode format).Proper sha)
    (hmake : make sha rootNode format ⟨0, 0⟩ = .ok (some node))
    (hhash : getNodeHash sha node = getHash (hashingV1 sha) M) :
    Attached sha node M := by
  have hread := read_make hmake
  have hwhole := whole_of_read hread hcall.1
  refine ⟨hread.isNil_eq, ?_⟩
  by_cases hzero : nodeHash (hashingV1 sha) M = 0
  · obtain ⟨ch', rfl⟩ := hM.inner
    have hnil : ∀ i, (ch' i).isNil = true := fun i => by
      by_contra hi
      exact nodeHash_ne_zero hsha.nonzero rfl (fun l ch heq => ⟨i, by cases heq; simpa using hi⟩) hzero
    rw [getHash, hzero] at hhash
    cases node with
    | nil => trivial
    | leaf k v => exact absurd hhash (hsha.nonzero (.leaf k v))
    | inner l ch =>
      obtain rfl := hread.bare
      have hbits : ∀ i, l.isBranch i = false := fun i => by
        by_contra hi
        have hset : ∃ i, l.isBranch i = true := ⟨i, by simpa using hi⟩
        exact hsha.nonzero (.inner l noChildren) ((if_pos hset).symm.trans hhash)
      have hv2 : l.v2 = none := by
        by_contra hsome
        exact hcall.2 _ hmake (Option.ne_none_iff_isSome.mp hsome) hhash
      exact matches_empty hnil hbits hv2 (hwhole.1 hv2)
  · exact matches_of_hash node (source_of_wellFormed hM hsha) hwhole hzero hhash

theorem step_onTheWay (hM : WellFormed sha M) (hsha : Binding sha M) {s : SyncMap}
    (hcall : c.Proper sha) (h : OnTheWay sha M s) :
    OnTheWay sha M (acquireStep sha M s c) := by
  rw [acquireStep]
  obtain hs | ⟨rootNode, format, node, rfl, -, hmake, hhash, hs⟩ |
    ⟨node, rawNode, loc, newNode, invalid, root', rfl, -, hmake, hwalk, hs⟩ :=
      step_cases sha (getHash (hashingV1 sha) M) s c
  · rwa [hs]
  · have hroot := matches_root hM hsha hcall hmake hhash
    have hleaf : isLeaf node = false := by
      obtain ⟨ch', rfl⟩ := hM.inner
      cases node with
      | nil => rfl
      | leaf k v => exact absurd hroot.same nofun
      | inner l ch => rfl
    rw [hs, hleaf]
    exact ⟨h.state, .inr hroot⟩
  · rw [hs]
    obtain hfresh | hroot := h.root
    · rw [hfresh] at hwalk
      obtain ⟨rfl, rfl⟩ := hwalk.of_fresh
      exact ⟨h.state, .inl rfl⟩
    · obtain ⟨rfl, hsame⟩ := hwalk.matches (whole_makeWire hcall.1 hmake) hcall.2 (d := 0) rfl
        (source_of_wellFormed hM hsha) hroot.same
      exact ⟨h.state, .inr ⟨hwalk.present hroot.present, hsame⟩⟩

/-! ## What is sent rightly is taken -/

/-- The node at the end of the first `n` nibbles of the key, below a node at the depth `d`. -/
def nodeAt {L D : Type} [Version L] (k : Key) : ℕ → Tree L D → ℕ → Tree L D
  | 0, t, _ => t
  | n + 1, .inner l ch, d => nodeAt k n (ch (selectBranch (Labelled.depth l d) k)) (Labelled.depth l d + 1)
  | _ + 1, _, _ => .nil

section NodeAt

variable {L D : Type} [Version L]

@[simp] theorem nodeAt_zero (k : Key) (t : Tree L D) (d : ℕ) : nodeAt k 0 t d = t := by
  cases t <;> rfl

@[simp] theorem nodeAt_inner (k : Key) (n : ℕ) (l : L) (ch : Fin 16 → Tree L D) (d : ℕ) :
    nodeAt k (n + 1) (.inner l ch) d =
      nodeAt k n (ch (selectBranch (Labelled.depth l d) k)) (Labelled.depth l d + 1) := rfl

@[simp] theorem nodeAt_nil (k : Key) (n : ℕ) (d : ℕ) : nodeAt k n (.nil : Tree L D) d = .nil := by
  cases n <;> rfl

theorem nodeAt_present {t : Tree L D} (h : (nodeAt k n t d).isNil = false) : t.isNil = false := by
  cases t with
  | nil => simp at h
  | leaf k v => rfl
  | inner l ch => rfl

theorem nodeAt_pred : ∀ {t : Tree L D} {d : ℕ}, (nodeAt k (n + 1) t d).isNil = false →
    (nodeAt k n t d).isNil = false := by
  induction n with
  | zero => exact fun h => by simpa using nodeAt_present h
  | succ n ih =>
    intro t d h
    cases t with
    | nil => simp at h
    | leaf k v => simp [nodeAt] at h
    | inner l ch => exact ih h

end NodeAt

def Kept (k : Key) (t t' : Node) : Prop := ∀ n d, (nodeAt k n t d).isNil = false → (nodeAt k n t' d).isNil = false

theorem kept_of_nil (h : t.isNil = true) (t' : Node) : Kept k t t' := fun n d hn => by
  simp [isNil_iff.mp h] at hn

theorem Kept.update {ch : Fin 16 → Node} {x : Node} (h : Kept k (ch b) x) :
    Kept k (.inner l ch) (.inner l (update ch b x)) := by
  intro n d hn
  cases n with
  | zero => rfl
  | succ n =>
    rw [nodeAt_inner] at hn ⊢
    by_cases hb : selectBranch (Labelled.depth l d) k = b
    · rw [hb] at hn ⊢
      rw [update_self]
      exact h n _ hn
    · rwa [update_of_ne hb]

theorem Walked.kept (h : Walked sha newNode node loc asked t id t' invalid) (k : Key) :
    Kept k t t' := by
  induction h with
  | stop | spurious => exact fun _ _ hn => hn
  | attach _ hnil | inconsistent _ hnil => exact (kept_of_nil hnil _).update
  | @down l ch id child child' invalid _ hchild _ _ _ _ ih =>
    refine Kept.update ?_
    rw [descend] at hchild
    split at hchild
    · next hnil => exact kept_of_nil hnil _
    · rwa [hchild]

/-- The call carries the node of the map for the place. -/
def Call.Supplies (sha : Bytes → Key) (M : V1.Map Bytes) (k : Key) : ℕ → Call → Prop
  | 0, .addRootNode rootNode format => rootNode = addRaw sha M format
  | n + 1, .addKnownNode node rawNode _ =>
      node = place (n + 1) k ∧ rawNode = addRaw sha (nodeAt k (n + 1) M 0) .snfWIRE
  | _, _ => False

/-- What the call finds outside of the map says that all is there below some node on the way. -/
def Local.Reports (sha : Bytes → Key) (k : Key) (n : ℕ) (m : V1.Map Bytes) (d : ℕ) (loc : Local) :
    Prop :=
  (∃ e < n, loc.isFullBelow (place (d + e) k) = true) ∨
  ∃ e < n, loc.touchIfExists (nodeHash (hashingV1 sha) (nodeAt k (e + 1) m d)) = true

theorem Local.Reports.up (h : loc.Reports sha k n (ch (selectBranch d k)) (d + 1)) :
    loc.Reports sha k (n + 1) (.inner () ch) d := by
  obtain ⟨e, he, hfull⟩ | ⟨e, he, htouch⟩ := h
  · exact .inl ⟨e + 1, by omega, by rwa [Nat.add_assoc, Nat.add_comm 1 e] at hfull⟩
  · exact .inr ⟨e + 1, by omega, htouch⟩

theorem Local.Reports.mono {n' : ℕ} (h : loc.Reports sha k n m d) (hle : n ≤ n') :
    loc.Reports sha k n' m d := by
  obtain ⟨e, he, hfull⟩ | ⟨e, he, htouch⟩ := h
  · exact .inl ⟨e, by omega, hfull⟩
  · exact .inr ⟨e, by omega, htouch⟩

theorem hook_fits {childHash : Key} (hhash : getNodeHash sha new = childHash)
    (hbound : isInner new = true → node.depth < 64) (hversion : isInconsistentNode new = false) :
    (hook sha (some new) node .nil node childHash).node = new := by
  have hin : ¬(isInner new = true ∧ 64 ≤ node.depth) := fun h => by
    have := hbound h.1
    omega
  simp [hook, hhash, hin, hversion]

theorem loop_round (hloc : Honest sha loc.fetchNodeNT) (newNode : Option Node) (n : ℕ)
    (hb : selectBranch d node.id = selectBranch d k) {ch : Fin 16 → Node}
    (hm : Source sha d (.inner () ch'))
    (hmatch : Matches sha (.inner l ch) (.inner () ch'))
    (hchild : (ch' (selectBranch d k)).isNil = false) :
    loc.Reports sha k (n + 1) (.inner () ch') d ∨
    ∃ child, ((ch (selectBranch d k)).isNil = false → child = ch (selectBranch d k)) ∧
      Matches sha child (ch' (selectBranch d k)) ∧
      (addKnownLoop sha newNode node loc (n + 1) (.inner l ch) (place d k)).node =
        .inner l (update ch (selectBranch d k)
          (if child.isNil then
            hook sha newNode node .nil (place (d + 1) k)
              (nodeHash (hashingV1 sha) (ch' (selectBranch d k)))
          else addKnownLoop sha newNode node loc n child (place (d + 1) k)).node) := by
  obtain ⟨hl, -⟩ := matches_inner.mp hmatch
  have hbranch : l.isBranch (selectBranch d k) = true := by simp [hl, hchild]
  have hhash : l.hashes (selectBranch d k) = nodeHash (hashingV1 sha) (ch' (selectBranch d k)) := by
    rw [hl]
    rfl
  cases hfull : loc.isFullBelow (place d k) with
  | true => exact .inl (.inl ⟨0, Nat.succ_pos n, hfull⟩)
  | false =>
    cases htouch : loc.touchIfExists (l.hashes (selectBranch d k)) with
    | true => exact .inl (.inr ⟨0, Nat.succ_pos n, by simpa [hhash] using htouch⟩)
    | false =>
      have hsame := matches_descend hm hmatch hbranch hloc
      have hversion := (hsame.sound (hm.child _)).1
      refine .inr ⟨_, fun hnil => by simp [descend, hnil], hsame, ?_⟩
      replace hb : selectBranch (place d k).depth.toNat node.id = selectBranch d k := hb
      simp only [addKnownLoop, hb, hfull, hbranch, htouch, hversion, Bool.false_eq_true, if_false, Bool.not_true,
        Bool.and_false, Bool.or_false]
      rw [getChildNodeID_place, hhash]
      split
      · next hnil => rw [isNil_iff.mp hnil]
      · rfl

theorem loop_progress (hloc : Honest sha loc.fetchNodeNT) (hnew : new.isNil = false) (n : ℕ) :
    ∀ {d : ℕ} {t : Node} {m : V1.Map Bytes}, node = place (d + n + 1) k → Source sha d m →
      Matches sha t m → (nodeAt k n t d).isNil = false → (nodeAt k (n + 1) m d).isNil = false →
      Matches sha new (nodeAt k (n + 1) m d) →
      getNodeHash sha new = nodeHash (hashingV1 sha) (nodeAt k (n + 1) m d) →
      loc.Reports sha k (n + 1) m d ∨
      (nodeAt k (n + 1) (addKnownLoop sha (some new) node loc (n + 1) t (place d k)).node d).isNil =
        false := by
  induction n with
  | zero =>
    intro d t m hnode hm hmatch hparent htarget hsame hhash
    cases t with
    | nil => simp at hparent
    | leaf k' v =>
      obtain rfl : m = .leaf k' v := hmatch
      simp [nodeAt] at htarget
    | inner l ch =>
      obtain ⟨ch', rfl, -⟩ := id hmatch
      simp only [nodeAt_inner, nodeAt_zero, V1.depth_unit] at htarget hsame hhash
      have hb : selectBranch d node.id = selectBranch d k := by simp [hnode, selectBranch_prefixOf]
      obtain hrep | ⟨child, -, -, hloop⟩ := loop_round hloc (some new) 0 hb hm hmatch htarget
      · exact .inl hrep
      · obtain ⟨hversion, hbound⟩ := hsame.sound (hm.child _)
        have hhook : (hook sha (some new) node .nil (place (d + 1) k)
            (nodeHash (hashingV1 sha) (ch' (selectBranch d k)))).node = new := by
          rw [← hnode]
          refine hook_fits hhash (fun hin => ?_) hversion
          have := hbound hin
          have hdepth : node.depth = ((d + 1 : ℕ) : ℤ) := by
            rw [hnode]
            rfl
          omega
        right
        rw [hloop, nodeAt_inner, nodeAt_zero, depth_innerNode, update_self]
        split
        · rwa [hhook]
        · next hnil =>
          cases child with
          | nil => simp at hnil
          | leaf k v => rfl
          | inner l ch => rfl
  | succ n ih =>
    intro d t m hnode hm hmatch hparent htarget hsame hhash
    cases t with
    | nil => simp at hparent
    | leaf k' v => simp [nodeAt] at hparent
    | inner l ch =>
      obtain ⟨ch', rfl, -⟩ := id hmatch
      rw [nodeAt_inner, V1.depth_unit] at htarget hsame hhash
      rw [nodeAt_inner, depth_innerNode] at hparent
      have hchild := nodeAt_present hparent
      have hb : selectBranch d node.id = selectBranch d k := by
        have hlt : d < d + (n + 1) + 1 := by omega
        simp [hnode, selectBranch_prefixOf, hlt]
      obtain hrep | ⟨child, hkeep, hmatch', hloop⟩ := loop_round hloc (some new) (n + 1) hb hm hmatch
        (nodeAt_present htarget)
      · exact .inl hrep
      · obtain rfl := hkeep hchild
        have hnode' : node = place (d + 1 + n + 1) k := by
          rw [hnode]
          congr 1
          omega
        obtain hrep | hnext := ih hnode' (hm.child _) hmatch' hparent htarget hsame hhash
        · exact .inl hrep.up
        · right
          rw [hloop, nodeAt_inner, depth_innerNode, update_self, if_neg (by simp [hchild])]
          exact hnext

theorem Source.nodeAt (k : Key) (n : ℕ) : ∀ {d : ℕ} {m : V1.Map Bytes}, Source sha d m →
    Source sha (d + n) (nodeAt k n m d) := by
  induction n with
  | zero =>
    intro d m hm
    simpa using hm
  | succ n ih =>
    intro d m hm
    cases m with
    | nil | leaf k v =>
      exact ⟨trivial, fun _ hp => absurd hp not_mem_nil, fun _ hp => absurd hp not_mem_nil⟩
    | inner l ch =>
      have := ih (hm.child (selectBranch d k))
      rwa [Nat.add_assoc, Nat.add_comm 1 n] at this

/-- A node as it is sent. -/
structure Sent (sha : Bytes → Key) (new : Node) (m : V1.Map Bytes) : Prop where
  attached : Attached sha new m
  hash : getNodeHash sha new = nodeHash (hashingV1 sha) m

theorem sent_inner (htell : HashesTell sha ch) :
    Sent sha (bareInner (childHashes sha ch) none) (.inner () ch) := by
  have hbits : (fun i => decide (childHashes sha ch i ≠ 0)) = fun i => !(ch i).isNil := by
    funext i
    rw [Bool.eq_iff_iff, decide_eq_true_iff, ne_eq, htell i]
    simp
  refine ⟨⟨rfl, ch, rfl, by rw [hbits], fun _ => trivial⟩, ?_⟩
  rw [bareInner, hbits, getNodeHash, innerHash]
  by_cases hany : ∃ i, (ch i).isNil = false
  · have hset : ∃ i, (!(ch i).isNil) = true := by simpa using hany
    rw [if_pos hset, nodeHash_inner hany]
    rfl
  · have hset : ¬∃ i, (!(ch i).isNil) = true := by simpa using hany
    rw [if_neg hset, nodeHash_empty hany]

theorem makeWire_sent (hm : Source sha d m) (hnil : m.isNil = false) (id : NodeID) :
    ∃ new, makeWire sha (addRaw sha m .snfWIRE) id = .ok (some new) ∧ Sent sha new m := by
  cases m with
  | nil => simp at hnil
  | leaf k v => exact ⟨_, makeWire_leaf (hm.carried (k, v) (by simp)) id, ⟨rfl, rfl⟩, rfl⟩
  | inner l ch => exact ⟨_, makeWire_inner hm.nodes.1.tell id, sent_inner hm.nodes.1.tell⟩

theorem make_root_sent (hM : WellFormed sha M) (hsha : Binding sha M)
    (format : SHANodeFormat) :
    ∃ new, make sha (addRaw sha M format) format ⟨0, 0⟩ = .ok (some new) ∧
      Sent sha new M := by
  have hsource := source_of_wellFormed hM hsha
  obtain ⟨ch, rfl⟩ := hM.inner
  cases format with
  | snfPREFIX =>
    refine ⟨_, ?_, sent_inner hsource.nodes.1.tell⟩
    simp only [make, addRaw]
    exact makePrefixed_hashesBytes _
  | snfWIRE => exact makeWire_sent hsource rfl ⟨0, 0⟩

def Call.Reports (sha : Bytes → Key) (M : V1.Map Bytes) (k : Key) (n : ℕ) : Call → Prop
  | .addRootNode _ _ => False
  | .addKnownNode _ _ loc => loc.Reports sha k n M 0

theorem Call.Reports.succ (h : c.Reports sha M k n) : c.Reports sha M k (n + 1) := by
  cases c with
  | addRootNode => exact h
  | addKnownNode node rawNode loc => exact Local.Reports.mono h (Nat.le_succ n)

section Run

variable {M : V1.Map Bytes} (hM : WellFormed sha M) (hsha : Binding sha M)
include hM hsha

variable {s : SyncMap} {c : Call} {k : Key} {n : ℕ}

theorem addRootNode_sent (h : OnTheWay sha M s) (format : SHANodeFormat) :
    Attached sha (acquireStep sha M s
      (.addRootNode (addRaw sha M format) format)).root M := by
  obtain ⟨new, hmake, hsent⟩ := make_root_sent hM hsha format
  by_cases hzero : getNodeHash sha s.root = 0
  · have hhash : getNodeHash sha new = getHash (hashingV1 sha) M := hsent.hash
    simp only [step, addRootNode, hzero, ne_eq, not_true, if_false, hmake, hhash]
    exact hsent.attached
  · simp only [step, addRootNode, ne_eq, hzero, not_false_iff, if_true]
    refine h.root.resolve_left fun hfresh => hzero ?_
    simp [hfresh, freshRoot, getNodeHash, innerHash]

theorem step_supplies (h : OnTheWay sha M s) (hcall : c.Proper sha)
    (hsupply : c.Supplies sha M k n) (hnode : (nodeAt k n M 0).isNil = false)
    (hparent : ∀ j, n = j + 1 → Attached sha s.root M ∧ (nodeAt k j s.root 0).isNil = false) :
    c.Reports sha M k n ∨
    Attached sha (acquireStep sha M s c).root M ∧
      (nodeAt k n (acquireStep sha M s c).root 0).isNil = false := by
  cases c with
  | addRootNode rootNode format =>
    cases n with
    | succ n => exact hsupply.elim
    | zero =>
      obtain rfl : rootNode = addRaw sha M format := hsupply
      have hroot := addRootNode_sent hM hsha h format
      exact .inr ⟨hroot, by simpa using hroot.present⟩
  | addKnownNode node rawNode loc =>
    cases n with
    | zero => exact hsupply.elim
    | succ n =>
      obtain ⟨rfl, rfl⟩ := hsupply
      obtain ⟨hroot, hprev⟩ := hparent n rfl
      have hsource := source_of_wellFormed hM hsha
      obtain ⟨new, hmake, hsent⟩ := makeWire_sent (hsource.nodeAt k (n + 1)) hnode (place (n + 1) k)
      have hnext := step_onTheWay hM hsha hcall h
      have hstep : (acquireStep sha M s (.addKnownNode (place (n + 1) k)
          (addRaw sha (nodeAt k (n + 1) M 0) .snfWIRE) loc)).root =
          (addKnownLoop sha (some new) (place (n + 1) k) loc (n + 1) s.root (place 0 k)).node := by
        simp [step, addKnownNode, SyncMap.isSynching, h.state, hmake, place_zero]
      obtain hrep | hthere := loop_progress hcall.2 hsent.attached.present n (d := 0) (k := k)
        (by rw [Nat.zero_add]) hsource hroot.same hprev hnode hsent.attached.same hsent.hash
      · exact .inl hrep
      · rw [← hstep] at hthere
        refine .inr ⟨hnext.root.resolve_left fun hfresh => ?_, hthere⟩
        rw [hfresh] at hthere
        simp [freshRoot, noChildren] at hthere

theorem step_keeps (h : OnTheWay sha M s) (hcall : c.Proper sha)
    (hroot : Attached sha s.root M) (hnode : (nodeAt k n s.root 0).isNil = false) :
    Attached sha (acquireStep sha M s c).root M ∧
      (nodeAt k n (acquireStep sha M s c).root 0).isNil = false := by
  rw [acquireStep]
  obtain hs | ⟨rootNode, format, node, rfl, hzero, hmake, hhash, hs⟩ |
    ⟨node, rawNode, loc, newNode, invalid, root', rfl, -, hmake, hwalk, hs⟩ :=
      step_cases sha (getHash (hashingV1 sha) M) s c
  · rw [hs]
    exact ⟨hroot, hnode⟩
  · have hroot' := matches_root hM hsha hcall hmake hhash
    rw [hs]
    refine ⟨hroot', ?_⟩
    cases n with
    | zero => simpa using hroot'.present
    | succ n =>
      -- a root with a child has a hash other than zero
      obtain ⟨root, state⟩ := s
      cases root with
      | nil => simp at hnode
      | leaf k v => simp [nodeAt] at hnode
      | inner l ch =>
        obtain ⟨ch', rfl, rfl, hch⟩ := hroot.same
        rw [nodeAt_inner, depth_innerNode] at hnode
        have hset : ∃ i, (!(ch' i).isNil) = true :=
          ⟨selectBranch 0 k, by simp [(hch _).present (nodeAt_present hnode)]⟩
        exact absurd ((if_pos hset).symm.trans hzero)
          (hsha.nonzero (.inner ⟨childHashes sha ch', fun i => !(ch' i).isNil, none⟩ ch))
  · obtain ⟨rfl, hsame⟩ := hwalk.matches (whole_makeWire hcall.1 hmake) hcall.2 (d := 0) rfl
      (source_of_wellFormed hM hsha) hroot.same
    rw [hs]
    exact ⟨⟨hwalk.present hroot.present, hsame⟩, hwalk.kept k n 0 hnode⟩

theorem run_onTheWay {calls : List Call} (hcalls : ∀ c ∈ calls, c.Proper sha) :
    OnTheWay sha M (acquire sha M calls) :=
  List.foldlRecOn calls _ (motive := OnTheWay sha M) ⟨rfl, .inl rfl⟩
    fun _ hs c hc => step_onTheWay hM hsha (hcalls c hc) hs

end Run

/-! ## Once everything has been sent -/

/-- Every node of the map is sent, at the time `time`, and after its parent. -/
def InOrder (sha : Bytes → Key) (M : V1.Map Bytes) (calls : List Call) (time : Key → ℕ → ℕ) : Prop :=
  ∀ k n, (nodeAt k n M 0).isNil = false →
    (∃ c, calls[time k n]? = some c ∧ c.Supplies sha M k n) ∧ ∀ j, n = j + 1 → time k j < time k n

theorem acquire_take_succ (M : V1.Map Bytes) {calls : List Call} {j : ℕ} (h : calls[j]? = some c) :
    acquire sha M (calls.take (j + 1)) = acquireStep sha M (acquire sha M (calls.take j)) c := by
  rw [acquire, run, take_add_one, h, foldl_append]
  rfl

def Acquired (sha : Bytes → Key) (M : V1.Map Bytes) (calls : List Call) (j : ℕ) (k : Key) (n : ℕ) : Prop :=
  Attached sha (acquire sha M (calls.take j)).root M ∧
    (nodeAt k n (acquire sha M (calls.take j)).root 0).isNil = false

section Order

variable {M : V1.Map Bytes} (hM : WellFormed sha M) (hsha : Binding sha M)
  {calls : List Call} (hcalls : ∀ c ∈ calls, c.Proper sha)
include hM hsha hcalls

theorem take_onTheWay (j : ℕ) : OnTheWay sha M (acquire sha M (calls.take j)) :=
  run_onTheWay hM hsha fun c hc => hcalls c (mem_of_mem_take hc)

theorem Acquired.mono {j j' : ℕ} (h : Acquired sha M calls j k n) (hle : j ≤ j') :
    Acquired sha M calls j' k n := by
  induction j', hle using Nat.le_induction with
  | base => exact h
  | succ j' _ ih =>
    cases hc : calls[j']? with
    | none =>
      have hlen := getElem?_eq_none_iff.mp hc
      rw [Acquired, take_of_length_le (Nat.le_succ_of_le hlen)]
      rwa [Acquired, take_of_length_le hlen] at ih
    | some c =>
      rw [Acquired, acquire_take_succ M hc]
      exact step_keeps hM hsha (take_onTheWay hM hsha hcalls j') (hcalls c (mem_of_getElem? hc)) ih.1 ih.2

theorem acquired_or_reported {time : Key → ℕ → ℕ} (horder : InOrder sha M calls time) (k : Key) (n : ℕ)
    (hnode : (nodeAt k n M 0).isNil = false) :
    (∃ c ∈ calls, c.Reports sha M k n) ∨ Acquired sha M calls (time k n + 1) k n := by
  have hsent : ∀ {n}, (nodeAt k n M 0).isNil = false →
      (∀ j, n = j + 1 → Acquired sha M calls (time k n) k j) →
      (∃ c ∈ calls, c.Reports sha M k n) ∨ Acquired sha M calls (time k n + 1) k n := by
    intro n hnode hparent
    obtain ⟨⟨c, hc, hsupply⟩, -⟩ := horder k n hnode
    have hmem := mem_of_getElem? hc
    rw [Acquired, acquire_take_succ M hc]
    obtain hrep | hthere := step_supplies hM hsha (take_onTheWay hM hsha hcalls (time k n)) (hcalls c hmem) hsupply
      hnode hparent
    · exact .inl ⟨c, hmem, hrep⟩
    · exact .inr hthere
  induction n with
  | zero => exact hsent hnode nofun
  | succ n ih =>
    obtain ⟨c, hc, hrep⟩ | hprev := ih (nodeAt_pred hnode)
    · exact .inl ⟨c, hc, hrep.succ⟩
    · refine hsent hnode fun j hj => ?_
      obtain rfl : n = j := Nat.succ.inj hj
      exact hprev.mono hM hsha hcalls ((horder k (n + 1) hnode).2 n rfl)

end Order

/-- `SHAMap::findKey` on a map that has a store behind it: a node that the map does not have is
fetched. -/
def findKeyStored (fetch : Key → Node) (id : Key) : ℕ → Node → ℕ → Except IterFault (Option (Leaf Bytes))
  | _, .nil, _ => .error .missingNode
  | _, .leaf k v, _ => .ok (if k = id then some v else none)
  | 0, .inner _ _, _ => .error .outOfFuel
  | n + 1, .inner l ch, d =>
    let branch := selectBranch d id
    if !l.isBranch branch then .ok none
    else
      let child := if (ch branch).isNil then fetch (l.hashes branch) else ch branch
      if (ch branch).isNil && isInconsistentNode child then .error .missingNode
      else findKeyStored fetch id n child (d + 1)

def found (id : Key) : V1.Map Bytes → Option (Leaf Bytes)
  | .leaf k v => if k = id then some v else none
  | _ => none

theorem findKey_eq_found (M : V1.Map Bytes) (id : Key) :
    findKey M id = found id (walkTowardsKey id M 0 []).node := by
  rw [findKey]
  cases (walkTowardsKey id M 0 []).node <;> rfl

def ToBeHad (sha : Bytes → Key) (fetch : Key → Node) (k : Key) (t : Node) (m : V1.Map Bytes)
    (d : ℕ) : Prop :=
  ∀ e, (nodeAt k (e + 1) m d).isNil = false → (nodeAt k (e + 1) t d).isNil = false ∨
    (fetch (nodeHash (hashingV1 sha) (nodeAt k (e + 1) m d))).isNil = false

theorem storedChild (hfetch : Honest sha fetch) {ch : Fin 16 → Node}
    (hm : Source sha d (.inner () ch'))
    (hmatch : Matches sha (.inner l ch) (.inner () ch'))
    (hnil : (ch' (selectBranch d k)).isNil = false)
    (hthere : ToBeHad sha fetch k (.inner l ch) (.inner () ch') d) :
    let child := if (ch (selectBranch d k)).isNil then fetch (l.hashes (selectBranch d k))
      else ch (selectBranch d k)
    Attached sha child (ch' (selectBranch d k)) ∧
      ToBeHad sha fetch k child (ch' (selectBranch d k)) (d + 1) := by
  intro child
  have hbelow : ∀ e, (nodeAt k (e + 1) (ch' (selectBranch d k)) (d + 1)).isNil = false →
      (nodeAt k (e + 1) (ch (selectBranch d k)) (d + 1)).isNil = false ∨
      (fetch (nodeHash (hashingV1 sha)
        (nodeAt k (e + 1) (ch' (selectBranch d k)) (d + 1)))).isNil = false :=
    fun e he => hthere (e + 1) he
  cases hmissing : (ch (selectBranch d k)).isNil with
  | false =>
    have hc : child = ch (selectBranch d k) := by simp [child, hmissing]
    rw [hc]
    exact ⟨⟨hmissing, (matches_inner.mp hmatch).2 _⟩, hbelow⟩
  | true =>
    obtain ⟨hl, -⟩ := matches_inner.mp hmatch
    have hhash : l.hashes (selectBranch d k) = nodeHash (hashingV1 sha) (ch' (selectBranch d k)) := by
      rw [hl]
      rfl
    have hbranch : l.isBranch (selectBranch d k) = true := by simp [hl, hnil]
    have hc : child = fetch (l.hashes (selectBranch d k)) := by simp [child, hmissing]
    have hpresent : child.isNil = false := by
      have := hthere 0 (by simpa using hnil)
      simpa [hc, hhash, hmissing] using this
    rw [hc] at hpresent ⊢
    obtain ⟨hwhole, hsame⟩ := hfetch _ hpresent
    refine ⟨⟨hpresent, matches_child hm hmatch hbranch hwhole hsame⟩,
      fun e he => .inr ((hbelow e he).resolve_left ?_)⟩
    simp [isNil_iff.mp hmissing]

theorem findKeyStored_eq (hfetch : Honest sha fetch) (k : Key) (n : ℕ) :
    ∀ {t : Node} {d : ℕ} {m : V1.Map Bytes}, 64 ≤ d + n → Source sha d m → Attached sha t m →
      ToBeHad sha fetch k t m d →
      findKeyStored fetch k n t d = .ok (found k (walkTowardsKey k m d []).node) := by
  induction n with
  | zero =>
    intro t d m hd hm ht _
    cases t with
    | nil => simpa using ht.present
    | leaf k' v =>
      obtain rfl : m = .leaf k' v := ht.same
      rfl
    | inner l ch =>
      have := (ht.same.sound hm).2 rfl
      omega
  | succ n ih =>
    intro t d m hd hm ht hthere
    cases t with
    | nil => simpa using ht.present
    | leaf k' v =>
      obtain rfl : m = .leaf k' v := ht.same
      rfl
    | inner l ch =>
      obtain ⟨ch', rfl, hl, -⟩ := id ht.same
      have hbit : l.isBranch (selectBranch d k) = !(ch' (selectBranch d k)).isNil := by rw [hl]
      rw [findKeyStored, hbit, walkTowardsKey, V1.admits_unit, V1.depth_unit]
      cases hnil : (ch' (selectBranch d k)).isNil with
      | true => simp [found]
      | false =>
        obtain ⟨hchild, hbelow⟩ := storedChild hfetch hm ht.same hnil hthere
        have hversion := (hchild.same.sound (hm.child _)).1
        simp only [Bool.not_false, Bool.not_true, Bool.false_eq_true, if_false, Bool.true_and, if_true,
          hversion, Bool.and_false]
        rw [walkTowardsKey_stack]
        exact ih (by omega) (hm.child _) hchild hbelow

/-- Nodes that were reported to be in the local store can be fetched. -/
def Resolves (sha : Bytes → Key) (M : V1.Map Bytes) (calls : List Call) (fetch : Key → Node) :
    Prop :=
  ∀ k n, (nodeAt k n M 0).isNil = false → (∃ c ∈ calls, c.Reports sha M k n) →
    (fetch (nodeHash (hashingV1 sha) (nodeAt k n M 0))).isNil = false

/-- What the call finds in the local store is what it asked for. -/
def Call.HonestLocal (sha : Bytes → Key) : Call → Prop
  | .addRootNode _ _ => True
  | .addKnownNode _ _ loc => Honest sha loc.fetchNodeNT

section Main

variable {M : V1.Map Bytes} (hM : WellFormed sha M) (hsha : Binding sha M)
include hM hsha

theorem findKeyStored_acquired {calls : List Call} (hcalls : ∀ c ∈ calls, c.Proper sha)
    {time : Key → ℕ → ℕ} (horder : InOrder sha M calls time) (hfetch : Honest sha fetch)
    (hresolves : Resolves sha M calls fetch) (k : Key) {fuel : ℕ} (hfuel : 64 ≤ fuel) :
    findKeyStored fetch k fuel (acquire sha M calls).root 0 = .ok (findKey M k) := by
  have hend : ∀ {n j}, Acquired sha M calls j k n →
      Attached sha (acquire sha M calls).root M ∧
        (nodeAt k n (acquire sha M calls).root 0).isNil = false := by
    intro n j h
    have := h.mono hM hsha hcalls (Nat.le_max_left j calls.length)
    rwa [Acquired, take_of_length_le (Nat.le_max_right j calls.length)] at this
  have hnil : (nodeAt k 0 M 0).isNil = false := by
    obtain ⟨ch, rfl⟩ := hM.inner
    rfl
  have hroot : Attached sha (acquire sha M calls).root M := by
    obtain ⟨c, -, hrep⟩ | h := acquired_or_reported hM hsha hcalls horder k 0 hnil
    · cases c with
      | addRootNode => exact hrep.elim
      | addKnownNode => simp [Call.Reports, Local.Reports] at hrep
    · exact (hend h).1
  rw [findKey_eq_found]
  refine findKeyStored_eq hfetch k fuel (by omega) (source_of_wellFormed hM hsha) hroot fun e he => ?_
  obtain hrep | h := acquired_or_reported hM hsha hcalls horder k (e + 1) he
  · exact .inr (hresolves k (e + 1) he hrep)
  · exact .inl (hend h).2

theorem proper_of_supplies (hsupply : c.Supplies sha M k n) (hlocal : c.HonestLocal sha) :
    c.Proper sha := by
  have hsource := source_of_wellFormed hM hsha
  have htell : ∀ {d : ℕ} {m : V1.Map Bytes}, Source sha d m →
      ∀ l ch, m = .inner l ch → HashesTell sha ch := by
    rintro d m hm l ch rfl
    exact hm.nodes.1.tell
  cases c with
  | addRootNode rootNode format =>
    cases n with
    | succ n => exact hsupply.elim
    | zero =>
      obtain rfl : rootNode = addRaw sha M format := hsupply
      refine ⟨?_, fun node hmake hversion => ?_⟩
      · rintro rfl
        exact tidy_addRaw (htell hsource)
      · obtain ⟨new, hmake', hsent⟩ := make_root_sent hM hsha format
        obtain rfl : new = node := Option.some.inj (Except.ok.inj (hmake'.symm.trans hmake))
        simp [(hsent.attached.same.sound hsource).1] at hversion
  | addKnownNode node rawNode loc =>
    cases n with
    | zero => exact hsupply.elim
    | succ n =>
      obtain ⟨-, rfl⟩ := hsupply
      exact ⟨tidy_addRaw (htell (hsource.nodeAt k (n + 1))), hlocal⟩

end Main

/-! ## A map with one leaf -/

section OneLeaf

def sevens : Key := fun _ => 0x77

abbrev sevenHash : Bytes → Key := oneLeafHash (selectBranch 0 sevens) sevens

abbrev sevenMap : V1.Map Bytes := oneLeaf (selectBranch 0 sevens) sevens

theorem wellFormed_seven : WellFormed sevenHash sevenMap where
  inner := ⟨_, rfl⟩
  dense := by
    unfold V1.Dense Branching
    decide +kernel
  carried := by
    unfold Carried
    decide +kernel

theorem childHashes_seven :
    childHashes sevenHash (update noChildren (selectBranch 0 sevens) (.leaf sevens ⟨.tnACCOUNT_STATE, []⟩)) =
      (update 0 (selectBranch 0 sevens) fun _ => 1 : Fin 16 → Key) := by
  decide +kernel

theorem unique_seven_leaf : Unique sevenHash (.leaf sevens ⟨.tnACCOUNT_STATE, []⟩) := by
  intro t h
  by_contra hne
  have hone : sevenHash (addRaw sevenHash (.leaf sevens ⟨.tnACCOUNT_STATE, []⟩) .snfPREFIX) 0 = 1 :=
    if_pos rfl
  rw [← h] at hone
  simp only [oneLeafHash, addRaw, hashed, addRawNode, addRawLeaf] at hone hne
  rw [if_neg hne] at hone
  split_ifs at hone <;> exact absurd hone (by decide)

theorem unique_seven_root : Unique sevenHash sevenMap := by
  intro t h
  have hpre : addRaw sevenHash sevenMap .snfPREFIX =
      HashPrefix.innerNode ++ hashesBytes (update 0 (selectBranch 0 sevens) fun _ => 1 : Fin 16 → Key) := by
    rw [← childHashes_seven]
    rfl
  rw [hpre] at h ⊢
  by_contra hne
  have htwo : sevenHash (HashPrefix.innerNode ++
      hashesBytes (update 0 (selectBranch 0 sevens) fun _ => 1 : Fin 16 → Key)) 0 = 2 := by
    decide +kernel
  rw [← h] at htwo
  simp only [oneLeafHash] at htwo
  rw [if_neg hne] at htwo
  split_ifs at htwo <;> exact absurd htwo (by decide)

theorem binding_seven : Binding sevenHash sevenMap where
  nonzero t h := by
    have := congrFun h 0
    simp only [oneLeafHash] at this
    split_ifs at this <;> exact absurd this (by decide)
  leaf p hp := by
    have hitems : sevenMap.items = [(sevens, ⟨.tnACCOUNT_STATE, []⟩)] := by decide +kernel
    rw [hitems] at hp
    obtain rfl := mem_singleton.mp hp
    exact unique_seven_leaf
  inner := by
    refine ⟨unique_seven_root, fun i => ?_⟩
    by_cases hi : i = selectBranch 0 sevens
    · rw [hi, update_self]
      trivial
    · rw [update_of_ne hi]
      trivial

/-- The root of the map, with an entry for the branch 5 that is taken back. -/
def forgedRoot : Bytes :=
  keyBytes (fun _ => 9) ++ [5] ++ (keyBytes 0 ++ [5]) ++ (keyBytes (fun _ => 1) ++ [7]) ++ [3]

def forgedCalls : List Call :=
  [.addRootNode forgedRoot .snfWIRE, .addKnownNode (place 1 fun _ => 0x55) [3] noLocal]

theorem nodeAt_seven (k : Key) (n : ℕ) : nodeAt k (n + 1) sevenMap 0 =
    if selectBranch 0 k = 7 then nodeAt k n (.leaf sevens ⟨.tnACCOUNT_STATE, []⟩) 1 else .nil := by
  have hchild : nodeAt k (n + 1) sevenMap 0 = nodeAt k n (update noChildren 7
      (.leaf sevens ⟨.tnACCOUNT_STATE, []⟩) (selectBranch 0 k)) 1 := rfl
  rw [hchild]
  split
  · next hk => rw [hk, update_self]
  · next hk => rw [update_of_ne hk, noChildren, nodeAt_nil]

theorem supplies_seven_leaf (hk : selectBranch 0 k = 7) :
    (Call.addKnownNode ((place 0 0).getChildNodeID 7) (keyBytes sevens ++ [1]) noLocal).Supplies sevenHash
      sevenMap k 1 := by
  have hleaf : nodeAt k 1 sevenMap 0 = .leaf sevens ⟨.tnACCOUNT_STATE, []⟩ := by
    rw [nodeAt_seven, if_pos hk, nodeAt_zero]
  refine ⟨?_, ?_⟩
  · rw [← getChildNodeID_place, hk, place_zero, place_zero]
  · rw [hleaf]
    rfl

theorem proper_seven : ∀ c ∈ oneLeafCalls 7 sevens, c.Proper sevenHash := by
  intro c hc
  simp only [oneLeafCalls, mem_cons, not_mem_nil, or_false] at hc
  obtain rfl | rfl := hc
  · exact proper_of_supplies wellFormed_seven binding_seven (k := sevens) (n := 0) rfl trivial
  · exact proper_of_supplies wellFormed_seven binding_seven
      (supplies_seven_leaf (k := sevens) (by decide +kernel)) fun _ h => by simp [noLocal] at h

theorem inOrder_seven : InOrder sevenHash sevenMap (oneLeafCalls 7 sevens) fun _ n => n := by
  intro k n hn
  refine ⟨?_, fun j hj => hj ▸ Nat.lt_succ_self j⟩
  match n with
  | 0 => exact ⟨_, rfl, rfl⟩
  | 1 =>
    refine ⟨_, rfl, supplies_seven_leaf ?_⟩
    by_contra hk
    simp [nodeAt_seven, hk] at hn
  | n + 2 =>
    rw [nodeAt_seven] at hn
    split at hn
    · simp [nodeAt] at hn
    · simp at hn

end OneLeaf

end Ripple.SHAMap.Sync
