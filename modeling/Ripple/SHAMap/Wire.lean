import Ripple.SHAMap.V1
import Ripple.SHAMap.V2

/-!
# Ripple.SHAMap.Wire

The nodes of a map as bytes, from `shamap/impl/SHAMapTreeNode.cpp`: `SHAMapAbstractNode::make`, which
reads a node from the bytes that came over the wire or out of a store, `addRaw`, which writes them,
and `updateHash`.

A node that is read has the hashes of its children but not the children. The bits `isBranch` are kept
apart from the hashes: the reader of a compressed node sets the bit of a branch when it meets a hash
other than zero for it, and never clears it.

* `makeWire_leaf`, `makeWire_inner`: reading what was written gives the node back.
-/

namespace Ripple.SHAMap

open Trie List

abbrev Bytes := List UInt8

/-- `SHAMapNodeID`. -/
@[ext] structure NodeID where
  depth : ℤ
  id : Key

instance : DecidableEq NodeID := fun _ _ => decidable_of_iff _ NodeID.ext_iff.symm

def NodeID.getChildNodeID (id : NodeID) (m : Fin 16) : NodeID :=
  let depth := id.depth.toNat
  ⟨id.depth + 1, fun i =>
    if i.val = depth / 2 then id.id i ||| (if depth % 2 = 1 then UInt8.ofNat m else UInt8.ofNat m <<< 4)
    else id.id i⟩

/-- What an inner node has beside its children; a node of version 2 has its depth and the nibbles above
it. -/
structure InnerNode where
  hashes : Fin 16 → Key
  isBranch : Fin 16 → Bool
  v2 : Option NodeID

instance : Version InnerNode where
  depth _ d := d
  admits _ _ := true

@[simp] theorem depth_innerNode (l : InnerNode) (d : ℕ) : Labelled.depth l d = d := rfl

/-- A node of a map that is being acquired; `nil` stands for a null pointer. -/
abbrev Node := Tree InnerNode Bytes

/-! ## Hashes -/

namespace HashPrefix

def transactionID : Bytes := [0x54, 0x58, 0x4E, 0x00]

def txNode : Bytes := [0x53, 0x4E, 0x44, 0x00]

def leafNode : Bytes := [0x4D, 0x4C, 0x4E, 0x00]

def innerNode : Bytes := [0x4D, 0x49, 0x4E, 0x00]

def innerNodeV2 : Bytes := [0x49, 0x4E, 0x52, 0x00]

end HashPrefix

def keyBytes (k : Key) : Bytes := List.ofFn k

@[simp] theorem length_keyBytes (k : Key) : (keyBytes k).length = 32 := by simp [keyBytes]

theorem keyBytes_inj {k k' : Key} : keyBytes k = keyBytes k' ↔ k = k' := ofFn_inj

def hashesBytes (hashes : Fin 16 → Key) : Bytes := (List.finRange 16).flatMap fun i => keyBytes (hashes i)

def leafPreimage (type : TNType) (key : Key) (data : Bytes) : Bytes :=
  match type with
  | .tnTRANSACTION_NM => HashPrefix.transactionID ++ data
  | .tnACCOUNT_STATE => HashPrefix.leafNode ++ data ++ keyBytes key
  | .tnTRANSACTION_MD => HashPrefix.txNode ++ data ++ keyBytes key

def innerPreimage (n : InnerNode) : Bytes :=
  match n.v2 with
  | none => HashPrefix.innerNode ++ hashesBytes n.hashes
  | some l => HashPrefix.innerNodeV2 ++ hashesBytes n.hashes ++ [UInt8.ofNat (l.depth % 256).toNat] ++
      (keyBytes l.id).take ((l.depth + 1) / 2).toNat

def preimage : Node → Bytes
  | .nil => []
  | .leaf k v => leafPreimage v.type k v.data
  | .inner n _ => innerPreimage n

variable (v2 : Option NodeID)

section Hash

variable (sha : Bytes → Key)

def innerHash (n : InnerNode) : Key :=
  if ∃ i, n.isBranch i then sha (innerPreimage n) else 0

def getNodeHash : Node → Key
  | .nil => 0
  | .leaf k v => sha (leafPreimage v.type k v.data)
  | .inner n _ => innerHash sha n

def hashingV1 : Hashing Unit Bytes Key where
  leaf type key data := sha (leafPreimage type key data)
  inner _ hashes := sha (HashPrefix.innerNode ++ hashesBytes hashes)

/-! ## Reading a node -/

def read256 (s : Bytes) (offset : ℕ) : Key := fun i => s.getD (offset + i) 0

def bareInner (hashes : Fin 16 → Key) (v2 : Option NodeID) : Node :=
  .inner ⟨hashes, fun i => hashes i ≠ 0, v2⟩ noChildren

omit sha in
def makeKeyed (tooShort invalid : String) (type : TNType) (s : Bytes) : Except String (Option Node) :=
  if s.length < 32 then .error tooShort
  else if read256 s (s.length - 32) = 0 then .error invalid
  else .ok (some (.leaf (read256 s (s.length - 32)) ⟨type, s.take (s.length - 32)⟩))

def makeFull (s : Bytes) : Except String (Option Node) :=
  if s.length ≠ 512 then .error "invalid FI node"
  else .ok (some (bareInner (fun i => read256 s (i * 32)) v2))

/-- The loop over the entries of a compressed inner node, each a hash and the number of its branch:
`n` of them from number `i` on. -/
def compressedLoop (s : Bytes) : (n i : ℕ) → (Fin 16 → Key) × (Fin 16 → Bool) →
    Except String ((Fin 16 → Key) × (Fin 16 → Bool))
  | 0, _, node => .ok node
  | n + 1, i, (hashes, isBranch) =>
    match s[32 + i * 33]? with
    | none => .error "short CI node"
    | some pos =>
      if h : pos.toNat < 16 then
        compressedLoop s n (i + 1)
          (Function.update hashes ⟨pos.toNat, h⟩ (read256 s (i * 33)),
            if read256 s (i * 33) ≠ 0 then Function.update isBranch ⟨pos.toNat, h⟩ true else isBranch)
      else .error "invalid CI node"

def makeCompressed (s : Bytes) : Except String (Option Node) :=
  match compressedLoop s (s.length / 33) 0 (fun _ => 0, fun _ => false) with
  | .error e => .error e
  | .ok (hashes, isBranch) => .ok (some (.inner ⟨hashes, isBranch, v2⟩ noChildren))

/-- `SHAMapAbstractNode::make` for the format `snfWIRE`: the last byte is the type of the node. -/
def makeWire (rawNode : Bytes) (id : NodeID) : Except String (Option Node) :=
  let s := rawNode.dropLast
  match rawNode.getLast? with
  | none => .ok none
  | some type =>
    match type.toNat with
    | 0 => .ok (some (.leaf (sha (HashPrefix.transactionID ++ s)) ⟨.tnTRANSACTION_NM, s⟩))
    | 1 => makeKeyed "short AS node" "invalid AS node" .tnACCOUNT_STATE s
    | 2 => makeFull none s
    | 3 => makeCompressed none s
    | 4 => makeKeyed "short TM node" "invalid TM node" .tnTRANSACTION_MD s
    | 5 => makeFull (some id) s
    | 6 => makeCompressed (some id) s
    | _ => .ok none

/-- An inner node in the format `snfPREFIX`. -/
def makePrefixedInner (isV2 : Bool) (s : Bytes) : Except String (Option Node) :=
  if s.length < 512 ∨ (!isV2 ∧ s.length ≠ 512) ∨ (isV2 ∧ s.length = 512) then .error "invalid PIN node"
  else
    let depth := (s.getD 512 0).toNat
    let n := (depth + 1) / 2
    if isV2 ∧ s.length ≠ 512 + 1 + n then .error "invalid PIN node"
    else
      let common : Key := fun i => if i.val < n then s.getD (512 + 1 + i) 0 else 0
      .ok (some (bareInner (fun i => read256 s (i * 32)) (if isV2 then some ⟨depth, common⟩ else none)))

/-- `SHAMapAbstractNode::make` for the format `snfPREFIX`: the first four bytes are the hash prefix.
-/
def makePrefixed (rawNode : Bytes) : Except String (Option Node) :=
  let s := rawNode.drop 4
  if rawNode.length < 4 then .error "invalid P node"
  else if rawNode.take 4 = HashPrefix.transactionID then
    .ok (some (.leaf (sha rawNode) ⟨.tnTRANSACTION_NM, s⟩))
  else if rawNode.take 4 = HashPrefix.leafNode then
    makeKeyed "short PLN node" "invalid PLN node" .tnACCOUNT_STATE s
  else if rawNode.take 4 = HashPrefix.innerNode then makePrefixedInner false s
  else if rawNode.take 4 = HashPrefix.innerNodeV2 then makePrefixedInner true s
  else if rawNode.take 4 = HashPrefix.txNode then
    if s.length < 32 then .error "short TXN node"
    else .ok (some (.leaf (read256 s (s.length - 32)) ⟨.tnTRANSACTION_MD, s.take (s.length - 32)⟩))
  else .error "invalid node prefix"

inductive SHANodeFormat where
  | snfPREFIX
  | snfWIRE

def make (rawNode : Bytes) (format : SHANodeFormat) (id : NodeID) : Except String (Option Node) :=
  match format with
  | .snfPREFIX => makePrefixed sha rawNode
  | .snfWIRE => makeWire sha rawNode id

end Hash

/-! ## Writing a node -/

namespace InnerNode

variable (n : InnerNode)

def branches : List (Fin 16) := (List.finRange 16).filter fun i => n.isBranch i

def getBranchCount : ℕ := n.branches.length

/-- `SHAMapInnerNode::addRaw` for the format `snfWIRE`. -/
def addWire : Bytes :=
  if n.getBranchCount < 12 then
    (n.branches.flatMap fun i => keyBytes (n.hashes i) ++ [UInt8.ofNat i]) ++ [3]
  else hashesBytes n.hashes ++ [2]

/-- `data.back() += 3`. -/
def addThree (data : Bytes) : Bytes := data.dropLast ++ (data.getLast?.map (· + 3)).toList

/-- `SHAMapInnerNode::addRaw` and `SHAMapInnerNodeV2::addRaw`. -/
def addRaw : SHANodeFormat → Bytes
  | .snfPREFIX => innerPreimage n
  | .snfWIRE =>
    match n.v2 with
    | none => n.addWire
    | some _ => addThree n.addWire

end InnerNode

def addRawLeaf (key : Key) (v : Leaf Bytes) : SHANodeFormat → Bytes
  | .snfPREFIX => leafPreimage v.type key v.data
  | .snfWIRE =>
    match v.type with
    | .tnTRANSACTION_NM => v.data ++ [0]
    | .tnACCOUNT_STATE => v.data ++ keyBytes key ++ [1]
    | .tnTRANSACTION_MD => v.data ++ keyBytes key ++ [4]

def addRawNode : Node → SHANodeFormat → Bytes
  | .nil, _ => []
  | .leaf k v, format => addRawLeaf k v format
  | .inner n _, format => n.addRaw format

section Hash

variable (sha : Bytes → Key)

def childHashes (ch : Fin 16 → V1.Map Bytes) : Fin 16 → Key :=
  fun i => nodeHash (hashingV1 sha) (ch i)

/-- A node of a map of version 1 with the hashes of its children in their place. -/
def hashed : V1.Map Bytes → Node
  | .nil => .nil
  | .leaf k v => .leaf k v
  | .inner _ ch => .inner ⟨childHashes sha ch, fun i => !(ch i).isNil, none⟩ noChildren

def addRaw (node : V1.Map Bytes) (format : SHANodeFormat) : Bytes := addRawNode (hashed sha node) format

end Hash

/-! ## Chunks of bytes -/

theorem read256_drop (s : Bytes) (offset : ℕ) : read256 s offset = read256 (s.drop offset) 0 := by
  funext i
  simp [read256, getD_eq_getElem?_getD]

theorem read256_keyBytes (k : Key) (rest : Bytes) : read256 (keyBytes k ++ rest) 0 = k := by
  funext i
  have hi : i.val < (keyBytes k).length := by
    rw [length_keyBytes]
    exact i.isLt
  rw [read256, Nat.zero_add, List.getD_eq_getElem?_getD, List.getElem?_append_left hi, keyBytes,
    List.getElem?_ofFn, dif_pos i.isLt]
  rfl

theorem read256_append_key (s : Bytes) (k : Key) : read256 (s ++ keyBytes k) s.length = k := by
  rw [read256_drop, drop_left, ← append_nil (keyBytes k)]
  exact read256_keyBytes k []

variable {α : Type} {f : α → Bytes} {xs : List α} {c : ℕ} {hashes : Fin 16 → Key} {s : Bytes}

theorem drop_flatMap (h : ∀ x ∈ xs, (f x).length = c) :
    ∀ i, (xs.flatMap f).drop (i * c) = (xs.drop i).flatMap f := by
  induction xs with
  | nil => simp
  | cons x xs ih =>
    intro i
    cases i with
    | zero => simp
    | succ i =>
      have hlen : (i + 1) * c = (f x).length + i * c := by
        rw [h x mem_cons_self]
        ring
      rw [flatMap_cons, hlen, ← drop_drop, drop_left, drop_succ_cons]
      exact ih (fun y hy => h y (mem_cons_of_mem x hy)) i

theorem length_flatMap_const (h : ∀ x ∈ xs, (f x).length = c) :
    (xs.flatMap f).length = xs.length * c := by
  rw [length_flatMap, map_congr_left h]
  simp

theorem length_hashesBytes (hashes : Fin 16 → Key) : (hashesBytes hashes).length = 512 := by
  rw [hashesBytes, length_flatMap_const (c := 32) (by simp)]
  simp

theorem read256_hashesBytes (hashes : Fin 16 → Key) (rest : Bytes) (i : Fin 16) :
    read256 (hashesBytes hashes ++ rest) (i * 32) = hashes i := by
  have hdrop : (hashesBytes hashes).drop (i * 32) =
      ((List.finRange 16).drop i).flatMap fun j => keyBytes (hashes j) :=
    drop_flatMap (by simp) i
  have hcons : (List.finRange 16).drop i = i :: (List.finRange 16).drop (i + 1) := by
    rw [drop_eq_getElem_cons (by simp)]
    simp
  have hle : i * 32 ≤ (hashesBytes hashes).length := by
    rw [length_hashesBytes]
    omega
  rw [read256_drop, drop_append_of_le_length hle, hdrop, hcons, flatMap_cons, append_assoc]
  exact read256_keyBytes _ _

theorem hashesBytes_inj {hashes' : Fin 16 → Key} (h : hashesBytes hashes = hashesBytes hashes') :
    hashes = hashes' := by
  funext i
  have := read256_hashesBytes hashes [] i
  rw [append_nil, h] at this
  rw [← this]
  have := read256_hashesBytes hashes' [] i
  rwa [append_nil] at this

/-! ## Reading what was written -/

theorem compressedLoop_entries (s : Bytes) (hs : Fin 16 → Key) (rest : Bytes) (bs : List (Fin 16)) :
    ∀ (i : ℕ) (hashes : Fin 16 → Key) (isBranch : Fin 16 → Bool),
      s.drop (i * 33) = (bs.flatMap fun b => keyBytes (hs b) ++ [UInt8.ofNat b]) ++ rest →
      compressedLoop s bs.length i (hashes, isBranch) =
        .ok (fun b => if b ∈ bs then hs b else hashes b,
          fun b => isBranch b || (b ∈ bs ∧ hs b ≠ 0)) := by
  induction bs with
  | nil =>
    intro i hashes isBranch _
    simp [compressedLoop]
  | cons b bs ih =>
    intro i hashes isBranch hs'
    have hchunk : (keyBytes (hs b) ++ [UInt8.ofNat b.val]).length = 33 := by simp
    rw [flatMap_cons, append_assoc] at hs'
    have hpos : s[32 + i * 33]? = some (UInt8.ofNat b) := by
      rw [Nat.add_comm, ← getElem?_drop, hs', append_assoc, getElem?_append_right (by simp)]
      simp
    have hread : read256 s (i * 33) = hs b := by
      rw [read256_drop, hs', append_assoc]
      exact read256_keyBytes _ _
    have hb : (UInt8.ofNat b.val).toNat = b.val := by
      rw [UInt8.toNat_ofNat']
      omega
    have hlt : (UInt8.ofNat b.val).toNat < 16 := by
      rw [hb]
      exact b.isLt
    have hfin : (⟨(UInt8.ofNat b.val).toNat, hlt⟩ : Fin 16) = b := Fin.ext hb
    have hnext : s.drop ((i + 1) * 33) =
        (bs.flatMap fun b => keyBytes (hs b) ++ [UInt8.ofNat b]) ++ rest := by
      rw [Nat.succ_mul, ← drop_drop, hs', drop_left' hchunk]
    rw [length_cons, compressedLoop, hpos]
    simp only [hlt, dif_pos, hread, hfin]
    rw [ih (i + 1) _ _ hnext]
    congr 2
    · funext b'
      by_cases hb' : b' = b
      · subst hb'
        simp
      · simp [hb']
    · funext b'
      by_cases hb' : b' = b
      · subst hb'
        by_cases hzero : hs b' = 0
        · simp [hzero]
        · simp [hzero]
      · by_cases hzero : hs b = 0
        · simp [hb', hzero]
        · simp [hb', hzero]

section RoundTrip

variable (sha : Bytes → Key)

/-- A leaf that the format can carry: a transaction without metadata is known by its hash, and no
other key is zero. -/
def Carried (p : Key × Leaf Bytes) : Prop :=
  if p.2.type = .tnTRANSACTION_NM then p.1 = sha (HashPrefix.transactionID ++ p.2.data) else p.1 ≠ 0

variable {sha}

omit sha in
variable {k : Key}

theorem makeKeyed_append (tooShort invalid : String) (type : TNType) (data : Bytes) (hk : k ≠ 0) :
    makeKeyed tooShort invalid type (data ++ keyBytes k) = .ok (some (.leaf k ⟨type, data⟩)) := by
  have hlen : (data ++ keyBytes k).length - 32 = data.length := by simp
  have hlong : ¬(data ++ keyBytes k).length < 32 := by simp
  rw [makeKeyed, if_neg hlong, hlen, read256_append_key, if_neg hk, take_left]

theorem makeWire_leaf {v : Leaf Bytes} (h : Carried sha (k, v)) (id : NodeID) :
    makeWire sha (addRawLeaf k v .snfWIRE) id = .ok (some (.leaf k v)) := by
  obtain ⟨type, data⟩ := v
  cases type with
  | tnTRANSACTION_NM =>
    have hk : k = sha (HashPrefix.transactionID ++ data) := h
    simp [makeWire, addRawLeaf, hk]
  | tnTRANSACTION_MD | tnACCOUNT_STATE =>
    have hk : k ≠ 0 := h
    simp only [makeWire, addRawLeaf, getLast?_append, getLast?_singleton, Option.some_or,
      dropLast_concat]
    exact makeKeyed_append _ _ _ data hk

def HashesTell (sha : Bytes → Key) (ch : Fin 16 → V1.Map Bytes) : Prop :=
  ∀ i, childHashes sha ch i = 0 ↔ (ch i).isNil

omit sha in
theorem makeCompressed_flatMap {hs : Fin 16 → Key} {bs : List (Fin 16)}
    (hmem : ∀ i, i ∈ bs ↔ hs i ≠ 0) :
    makeCompressed v2 (bs.flatMap fun i => keyBytes (hs i) ++ [UInt8.ofNat i]) =
      .ok (some (bareInner hs v2)) := by
  set s := bs.flatMap fun i => keyBytes (hs i) ++ [UInt8.ofNat i.val] with hs'
  have hcount : s.length / 33 = bs.length := by
    have hlen : s.length = bs.length * 33 := length_flatMap_const (by simp)
    rw [hlen]
    exact Nat.mul_div_cancel _ (by omega)
  have hloop := compressedLoop_entries s hs [] bs 0 (fun _ => 0) (fun _ => false) (by simp [hs'])
  have hhashes : (fun i => if i ∈ bs then hs i else 0) = hs := by
    funext i
    by_cases hi : i ∈ bs
    · simp [hi]
    · have := not_not.mp ((hmem i).not.mp hi)
      simp [hi, this]
  have hbits : (fun i => false || decide (i ∈ bs ∧ hs i ≠ 0)) = fun i => decide (hs i ≠ 0) := by
    funext i
    simp [hmem]
  rw [hhashes, hbits] at hloop
  rw [makeCompressed, hcount, hloop]
  rfl

variable (hs : Fin 16 → Key)

omit sha in
theorem read256_hashesBytes_eq : (fun i : Fin 16 => read256 (hashesBytes hs) (i * 32)) = hs := by
  funext i
  have := read256_hashesBytes hs [] i
  rwa [append_nil] at this

omit sha in
theorem makeFull_hashesBytes : makeFull v2 (hashesBytes hs) = .ok (some (bareInner hs v2)) := by
  have hlen : ¬(hashesBytes hs).length ≠ 512 := by simp [length_hashesBytes]
  rw [makeFull, if_neg hlen, read256_hashesBytes_eq]

variable {n : InnerNode}

/-- The bits of the branches are those of the hashes. -/
def Coherent (n : InnerNode) : Prop := ∀ i, n.isBranch i = true ↔ n.hashes i ≠ 0

theorem Coherent.mem_branches (h : Coherent n) (i : Fin 16) : i ∈ n.branches ↔ n.hashes i ≠ 0 := by
  rw [← h i, InnerNode.branches, mem_filter]
  simp

theorem Coherent.bareInner_eq (h : Coherent n) (v2 : Option NodeID) :
    bareInner n.hashes v2 = .inner ⟨n.hashes, n.isBranch, v2⟩ noChildren := by
  have hbits : (fun i => decide (n.hashes i ≠ 0)) = n.isBranch := by
    funext i
    by_cases hi : n.hashes i = 0
    · simp [hi, Bool.eq_false_iff.mpr fun hbit => (h i).mp hbit hi]
    · simp [hi, (h i).mpr hi]
  rw [bareInner, hbits]

omit sha in
theorem InnerNode.addWire_eq (n : InnerNode) :
    ∃ s type, n.addWire = s ++ [type] ∧
      ((type = 3 ∧ s = n.branches.flatMap fun i => keyBytes (n.hashes i) ++ [UInt8.ofNat i]) ∨
        (type = 2 ∧ s = hashesBytes n.hashes)) := by
  unfold addWire
  split
  · exact ⟨_, 3, rfl, .inl ⟨rfl, rfl⟩⟩
  · exact ⟨_, 2, rfl, .inr ⟨rfl, rfl⟩⟩

theorem makeWire_addRaw (h : Coherent n) (id : NodeID)
    (hid : ∀ l, n.v2 = some l → id = l) :
    makeWire sha (n.addRaw .snfWIRE) id = .ok (some (.inner n noChildren)) := by
  obtain ⟨s, type, hwire, hs⟩ := n.addWire_eq
  obtain ⟨hashes, isBranch, v2⟩ := n
  rw [InnerNode.addRaw]
  cases v2 with
  | none =>
    have hread : ∀ t : Node, t = bareInner hashes none → t = .inner ⟨hashes, isBranch, none⟩ noChildren :=
      fun t ht => ht.trans (h.bareInner_eq none)
    simp only [hwire, makeWire, getLast?_append, getLast?_singleton, Option.some_or,
      dropLast_concat]
    rcases hs with ⟨rfl, rfl⟩ | ⟨rfl, rfl⟩
    · rw [← hread _ rfl]
      exact makeCompressed_flatMap none h.mem_branches
    · rw [← hread _ rfl]
      exact makeFull_hashesBytes none hashes
  | some l =>
    have hbare := h.bareInner_eq (some l)
    have hlabel := hid l rfl
    simp only [hwire, InnerNode.addThree, dropLast_concat, getLast?_append, getLast?_singleton,
      Option.some_or, Option.map_some, Option.toList_some, makeWire]
    rcases hs with ⟨rfl, rfl⟩ | ⟨rfl, rfl⟩
    · rw [← hbare, hlabel]
      exact makeCompressed_flatMap (some l) h.mem_branches
    · rw [← hbare, hlabel]
      exact makeFull_hashesBytes (some l) hashes

theorem makeWire_inner {l : Unit} {ch : Fin 16 → V1.Map Bytes} (h : HashesTell sha ch) (id : NodeID) :
    makeWire sha (addRaw sha (.inner l ch) .snfWIRE) id =
      .ok (some (bareInner (childHashes sha ch) none)) := by
  have hcoherent : Coherent ⟨childHashes sha ch, fun i => !(ch i).isNil, none⟩ := fun i => by
    simp [(h i).not]
  rw [hcoherent.bareInner_eq]
  exact makeWire_addRaw hcoherent id nofun

theorem makePrefixed_hashesBytes :
    makePrefixed sha (HashPrefix.innerNode ++ hashesBytes hs) = .ok (some (bareInner hs none)) := by
  have hlen := length_hashesBytes hs
  rw [makePrefixed]
  simp only [HashPrefix.innerNode, HashPrefix.transactionID, HashPrefix.leafNode, cons_append,
    nil_append, length_cons, drop_succ_cons, drop_zero, take_succ_cons,
    take_zero, List.cons.injEq, makePrefixedInner, hlen, read256_hashesBytes_eq]
  simp

end RoundTrip

/-! ## What is read -/

/-- In a compressed inner node no branch gets the hash zero after another hash. -/
def Tidy (rawNode : Bytes) : Prop :=
  rawNode.getLast? = some 3 → ∀ i j, i < j → j < rawNode.dropLast.length / 33 →
    rawNode.dropLast[32 + i * 33]? = rawNode.dropLast[32 + j * 33]? →
    read256 rawNode.dropLast (j * 33) = 0 → read256 rawNode.dropLast (i * 33) = 0

theorem read256_entry {hs : Fin 16 → Key} {bs : List (Fin 16)} {j : ℕ} (hj : j < bs.length) :
    read256 (bs.flatMap fun b => keyBytes (hs b) ++ [UInt8.ofNat b.val]) (j * 33) = hs bs[j] := by
  rw [read256_drop, drop_flatMap (c := 33) (by simp), drop_eq_getElem_cons hj, flatMap_cons,
    append_assoc]
  exact read256_keyBytes _ _

theorem tidy_addRaw {sha : Bytes → Key} {m : V1.Map Bytes}
    (htell : ∀ l ch, m = .inner l ch → HashesTell sha ch) : Tidy (addRaw sha m .snfWIRE) := by
  intro hlast i j _ hj _ hzero
  cases m with
  | nil => simp [addRaw, hashed, addRawNode] at hlast
  | leaf k v =>
    obtain ⟨type, data⟩ := v
    cases type <;> simp [addRaw, hashed, addRawNode, addRawLeaf] at hlast
  | inner l ch =>
    simp only [addRaw, hashed, addRawNode, InnerNode.addRaw, InnerNode.addWire] at hlast hj hzero
    split at hlast
    · next hfew =>
      have hbranches : InnerNode.branches ⟨childHashes sha ch, fun i => !(ch i).isNil, none⟩ =
        branches ch := rfl
      rw [if_pos hfew, dropLast_concat, hbranches] at hj hzero
      have hlen : j < (branches ch).length := by
        rw [length_flatMap_const (c := 33) (by simp)] at hj
        omega
      rw [read256_entry hlen] at hzero
      have hin := mem_branches.mp (getElem_mem hlen)
      rw [(htell l ch rfl _).mp hzero] at hin
      simp at hin
    · simp at hlast

structure EntriesRead (s : Bytes) (i : ℕ) (hashes : Fin 16 → Key) (isBranch : Fin 16 → Bool) : Prop where
  bits : ∀ b, isBranch b = true ↔ hashes b ≠ 0
  source : ∀ b, hashes b ≠ 0 → ∃ j < i, s[32 + j * 33]?.map UInt8.toNat = some b.val ∧ read256 s (j * 33) ≠ 0

theorem EntriesRead.next {i : ℕ} {isBranch : Fin 16 → Bool} (h : EntriesRead s i hashes isBranch)
    {pos : UInt8} (hpos : s[32 + i * 33]? = some pos) (hlt : pos.toNat < 16)
    (htidy : ∀ j < i, s[32 + j * 33]? = s[32 + i * 33]? → read256 s (i * 33) = 0 → read256 s (j * 33) = 0) :
    EntriesRead s (i + 1) (Function.update hashes ⟨pos.toNat, hlt⟩ (read256 s (i * 33)))
      (if read256 s (i * 33) ≠ 0 then Function.update isBranch ⟨pos.toNat, hlt⟩ true else isBranch) := by
  refine ⟨fun b => ?_, fun b hb => ?_⟩
  · by_cases hb : b = ⟨pos.toNat, hlt⟩
    · subst hb
      rw [Function.update_self]
      by_cases hzero : read256 s (i * 33) = 0
      · -- the bit was not set before: the entry that set it would have come with a hash
        simp only [hzero, ne_eq, not_true, if_false, iff_false]
        intro hbit
        obtain ⟨j, hj, hjpos, hjne⟩ := h.source _ ((h.bits _).mp hbit)
        refine hjne (htidy j hj ?_ hzero)
        obtain ⟨pos', hpos', heq⟩ := Option.map_eq_some_iff.mp hjpos
        rw [hpos', hpos, UInt8.toNat_inj.mp heq]
      · simp [hzero]
    · rw [Function.update_of_ne hb]
      split
      · rw [Function.update_of_ne hb]
        exact h.bits b
      · exact h.bits b
  · by_cases hb' : b = ⟨pos.toNat, hlt⟩
    · subst hb'
      rw [Function.update_self] at hb
      exact ⟨i, Nat.lt_succ_self i, by simp [hpos], hb⟩
    · rw [Function.update_of_ne hb'] at hb
      obtain ⟨j, hj, hrest⟩ := h.source b hb
      exact ⟨j, Nat.lt_succ_of_lt hj, hrest⟩

theorem compressedLoop_bits (n : ℕ) :
    ∀ {i : ℕ} {hashes : Fin 16 → Key} {isBranch : Fin 16 → Bool} {r : (Fin 16 → Key) × (Fin 16 → Bool)},
      (∀ j j', j < j' → j' < i + n → s[32 + j * 33]? = s[32 + j' * 33]? → read256 s (j' * 33) = 0 →
        read256 s (j * 33) = 0) →
      EntriesRead s i hashes isBranch → compressedLoop s n i (hashes, isBranch) = .ok r →
      ∀ b, r.2 b = true ↔ r.1 b ≠ 0 := by
  induction n with
  | zero =>
    intro i hashes isBranch r _ h hr
    obtain rfl : (hashes, isBranch) = r := Except.ok.inj hr
    exact h.bits
  | succ n ih =>
    intro i hashes isBranch r htidy h hr
    rw [compressedLoop] at hr
    split at hr
    · simp at hr
    · next pos hpos =>
      split at hr
      · next hlt =>
        refine ih (fun j j' hjj' hj' => htidy j j' hjj' (by omega)) (h.next hpos hlt fun j hj => ?_) hr
        exact htidy j i hj (by omega)
      · simp at hr

inductive Read (sha : Bytes → Key) (format : SHANodeFormat) (rawNode : Bytes) : Node → Prop
  | leaf (k : Key) (v : Leaf Bytes)
      (hkey : v.type = .tnTRANSACTION_NM → k = sha (HashPrefix.transactionID ++ v.data)) :
      Read sha format rawNode (.leaf k v)
  | full (hashes : Fin 16 → Key) (v2 : Option NodeID) :
      Read sha format rawNode (bareInner hashes v2)
  | compressed {r : (Fin 16 → Key) × (Fin 16 → Bool)} (v2 : Option NodeID)
      (hformat : format = .snfWIRE)
      (hloop : compressedLoop rawNode.dropLast (rawNode.dropLast.length / 33) 0
        (fun _ => 0, fun _ => false) = .ok r)
      (htype : v2 = none → rawNode.getLast? = some 3) :
      Read sha format rawNode (.inner ⟨r.1, r.2, v2⟩ noChildren)

section Read

variable {sha : Bytes → Key} {format : SHANodeFormat} {rawNode : Bytes} {t : Node}

variable {s : Bytes} {v2 : Option NodeID} {id : NodeID} {ch : Fin 16 → Node} {n : InnerNode}

theorem read_keyed {tooShort invalid : String} {type : TNType} (htype : type ≠ .tnTRANSACTION_NM)
    (h : makeKeyed tooShort invalid type s = .ok (some t)) : Read sha format rawNode t := by
  rw [makeKeyed] at h
  split at h
  · simp at h
  · split at h
    · simp at h
    · obtain rfl := Option.some.inj (Except.ok.inj h)
      exact .leaf _ _ fun heq => absurd heq htype

theorem read_full (h : makeFull v2 s = .ok (some t)) : Read sha format rawNode t := by
  rw [makeFull] at h
  split at h
  · simp at h
  · obtain rfl := Option.some.inj (Except.ok.inj h)
    exact .full _ _

theorem read_compressed (htype : v2 = none → rawNode.getLast? = some 3)
    (h : makeCompressed v2 rawNode.dropLast = .ok (some t)) :
    Read sha .snfWIRE rawNode t := by
  rw [makeCompressed] at h
  split at h
  · simp at h
  · next hashes isBranch hr =>
    obtain rfl := Option.some.inj (Except.ok.inj h)
    exact .compressed v2 rfl hr htype

theorem read_makeWire (h : makeWire sha rawNode id = .ok (some t)) :
    Read sha .snfWIRE rawNode t := by
  rw [makeWire] at h
  split at h
  · simp at h
  · next type htype =>
    split at h
    · obtain rfl := Option.some.inj (Except.ok.inj h)
      exact .leaf _ _ fun _ => rfl
    · exact read_keyed (by simp) h
    · exact read_full h
    · next h3 =>
      have h3' : type = 3 := UInt8.toNat_inj.mp h3
      exact read_compressed (fun _ => by rw [htype, h3']) h
    · exact read_keyed (by simp) h
    · exact read_full h
    · exact read_compressed (by simp) h
    · simp at h

theorem read_prefixedInner {isV2 : Bool} (h : makePrefixedInner isV2 s = .ok (some t)) :
    Read sha format rawNode t := by
  simp only [makePrefixedInner] at h
  split at h
  · simp at h
  · split at h
    · simp at h
    · obtain rfl := Option.some.inj (Except.ok.inj h)
      exact .full _ _

theorem read_makePrefixed (h : makePrefixed sha rawNode = .ok (some t)) :
    Read sha .snfPREFIX rawNode t := by
  simp only [makePrefixed] at h
  split at h
  · simp at h
  split at h
  · next htx =>
    obtain rfl := Option.some.inj (Except.ok.inj h)
    refine .leaf _ _ fun _ => ?_
    rw [← htx, take_append_drop]
  split at h
  · exact read_keyed (by simp) h
  split at h
  · exact read_prefixedInner h
  split at h
  · exact read_prefixedInner h
  split at h
  · split at h
    · simp at h
    · obtain rfl := Option.some.inj (Except.ok.inj h)
      exact .leaf _ _ nofun
  · simp at h

theorem read_make (h : make sha rawNode format id = .ok (some t)) :
    Read sha format rawNode t := by
  cases format with
  | snfPREFIX => exact read_makePrefixed h
  | snfWIRE => exact read_makeWire h

theorem Read.isNil_eq (h : Read sha format rawNode t) : t.isNil = false := by
  cases h <;> rfl

theorem Read.bare (h : Read sha format rawNode (.inner n ch)) : ch = noChildren := by
  cases h with
  | full => rfl
  | compressed => rfl

theorem Read.coherent (h : Read sha format rawNode (.inner n ch))
    (htidy : format = .snfWIRE → Tidy rawNode) (hv1 : n.v2 = none) : Coherent n := by
  cases h with
  | full hashes v2 => exact fun i => by simp
  | @compressed r v2 hformat hloop htype =>
    refine compressedLoop_bits _ (i := 0) (fun j j' hjj' hj' => ?_) ⟨by simp, by simp⟩ hloop
    exact htidy hformat (htype hv1) j j' hjj' (by simpa using hj')

end Read

end Ripple.SHAMap
