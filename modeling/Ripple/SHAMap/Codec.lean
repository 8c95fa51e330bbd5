import Ripple.SHAMap.Wire

/-!
# Ripple.SHAMap.Codec

The nodes of maps of both versions as bytes: `addRaw` for a node with the hashes of its children, and
`SHAMapAbstractNode::make` on what it writes and on any other bytes.
-/

namespace Ripple.SHAMap

open Trie List
open HashPrefix (innerNode innerNodeV2 transactionID leafNode txNode)

/-! ## Reading what was written -/

section RoundTrip

variable {sha : Bytes → Key}

/-- A node in good order: its bits are those of its hashes, and a leaf has a key that can be told
from its bytes. -/
def Valid (sha : Bytes → Key) : Node → Prop
  | .nil => False
  | .leaf k v => Carried sha (k, v)
  | .inner n _ => Coherent n ∧ ∀ l, n.v2 = some l → 0 ≤ l.depth ∧ l.depth ≤ 63

inductive SameLabel : Option NodeID → Option NodeID → Prop
  | none : SameLabel none none
  | some {l l' : NodeID} : l'.depth = l.depth → Agree l.depth.toNat l'.id l.id →
      SameLabel (some l) (some l')

/-- The same type, branches, hashes, depth and common nibbles, key and data; what is read has no
children. -/
inductive SameNode : Node → Node → Prop
  | leaf (k : Key) (v : Leaf Bytes) : SameNode (.leaf k v) (.leaf k v)
  | inner {n n' : InnerNode} {ch : Fin 16 → Node} : n'.hashes = n.hashes → n'.isBranch = n.isBranch →
      SameLabel n.v2 n'.v2 → SameNode (.inner n ch) (.inner n' noChildren)

variable {n : InnerNode} {depth : ℕ}

def frontBytes (depth : ℕ) (k : Key) : Key := fun i => if i.val < (depth + 1) / 2 then k i else 0

theorem agree_frontBytes (depth : ℕ) (k : Key) : Agree depth (frontBytes depth k) k := by
  intro e he
  have hbyte : byte (frontBytes depth k) (e / 2) = byte k (e / 2) := by
    by_cases hlt : e / 2 < 32
    · have hfront : e / 2 < (depth + 1) / 2 := by omega
      rw [byte_of_lt _ hlt, byte_of_lt _ hlt, frontBytes, if_pos hfront]
    · rw [byte_of_le _ (by omega), byte_of_le _ (by omega)]
  simp only [digit_eq, selectBranch, hbyte]

theorem getElem?_keyBytes (k : Key) {i : ℕ} (hi : i < 32) : (keyBytes k)[i]? = some (k ⟨i, hi⟩) := by
  rw [keyBytes, List.getElem?_ofFn, dif_pos hi]

theorem take_keyBytes_frontBytes (hdepth : depth ≤ 63) (k : Key) :
    (keyBytes (frontBytes depth k)).take ((depth + 1) / 2) = (keyBytes k).take ((depth + 1) / 2) := by
  refine ext_getElem? fun i => ?_
  by_cases hi : i < (depth + 1) / 2
  · rw [getElem?_take_of_lt hi, getElem?_take_of_lt hi, getElem?_keyBytes _ (by omega),
      getElem?_keyBytes _ (by omega), frontBytes, if_pos hi]
  · rw [getElem?_take_eq_none (by omega), getElem?_take_eq_none (by omega)]

theorem makePrefixedInner_eq {s : Bytes} (hlen : s.length = 512 + 1 + (depth + 1) / 2)
    (hdepth : (s.getD 512 0).toNat = depth) :
    makePrefixedInner true s = .ok (some (bareInner (fun i => read256 s (i * 32)) (some ⟨depth, fun i =>
      if i.val < (depth + 1) / 2 then s.getD (512 + 1 + i) 0 else 0⟩))) := by
  subst hdepth
  have hsize : ¬(s.length < 512 ∨ (!true) = true ∧ s.length ≠ 512 ∨ true = true ∧ s.length = 512) := by
    simp only [Bool.not_true, Bool.false_eq_true, false_and, true_and, false_or]
    omega
  rw [makePrefixedInner, if_neg hsize, if_neg (by simp [hlen])]
  rfl

theorem makePrefixedInner_v2 (hashes : Fin 16 → Key) (common : Key) (hdepth : depth ≤ 63) :
    makePrefixedInner true (hashesBytes hashes ++ [UInt8.ofNat depth] ++
        (keyBytes common).take ((depth + 1) / 2)) =
      .ok (some (bareInner hashes (some ⟨depth, frontBytes depth common⟩))) := by
  have htake : ((keyBytes common).take ((depth + 1) / 2)).length = (depth + 1) / 2 := by
    rw [length_take, length_keyBytes]
    omega
  have hlen : (hashesBytes hashes ++ [UInt8.ofNat depth] ++
      (keyBytes common).take ((depth + 1) / 2)).length = 512 + 1 + (depth + 1) / 2 := by
    rw [length_append, length_append, length_hashesBytes, htake]
    rfl
  have hbyte : (UInt8.ofNat depth).toNat = depth := by
    rw [UInt8.toNat_ofNat']
    omega
  have hdepth' : (hashesBytes hashes ++ [UInt8.ofNat depth] ++
      (keyBytes common).take ((depth + 1) / 2)).getD 512 0 = UInt8.ofNat depth := by
    rw [append_assoc, getD_append_right _ _ _ _ (by rw [length_hashesBytes])]
    simp [length_hashesBytes]
  have hread : (fun i : Fin 16 => read256 (hashesBytes hashes ++ [UInt8.ofNat depth] ++
      (keyBytes common).take ((depth + 1) / 2)) (i * 32)) = hashes := by
    funext i
    rw [append_assoc, read256_hashesBytes]
  have hcommon : (fun i : Fin 32 => if i.val < (depth + 1) / 2 then
      (hashesBytes hashes ++ [UInt8.ofNat depth] ++
        (keyBytes common).take ((depth + 1) / 2)).getD (512 + 1 + i) 0 else 0) =
      frontBytes depth common := by
    funext i
    rw [frontBytes]
    split
    · rename_i hi
      have hfront : (hashesBytes hashes ++ [UInt8.ofNat depth]).length = 512 + 1 := by
        rw [length_append, length_hashesBytes]
        rfl
      rw [getD_append_right _ _ _ _ (by omega), hfront, Nat.add_sub_cancel_left, getD_eq_getElem?_getD,
        getElem?_take_of_lt hi, getElem?_keyBytes _ i.isLt]
      rfl
    · rfl
  rw [makePrefixedInner_eq hlen (by rw [hdepth', hbyte]), hread, hcommon]

theorem makePrefixed_innerNodeV2 (s : Bytes) :
    makePrefixed sha (innerNodeV2 ++ s) = makePrefixedInner true s := by
  have hlong : ¬(innerNodeV2 ++ s).length < 4 := by
    rw [length_append]
    exact Nat.not_lt.mpr (Nat.le_add_right 4 _)
  have htake : (innerNodeV2 ++ s).take 4 = innerNodeV2 := rfl
  have hdrop : (innerNodeV2 ++ s).drop 4 = s := rfl
  simp only [makePrefixed, if_neg hlong, htake, hdrop]
  rfl

theorem makePrefixed_addRaw (hv2 : ∀ l, n.v2 = some l → 0 ≤ l.depth ∧ l.depth ≤ 63) :
    makePrefixed sha (n.addRaw .snfPREFIX) = .ok (some (bareInner n.hashes
      (n.v2.map fun l => ⟨l.depth, frontBytes l.depth.toNat l.id⟩))) := by
  obtain ⟨hashes, isBranch, v2⟩ := n
  rw [InnerNode.addRaw, innerPreimage]
  cases v2 with
  | none => exact makePrefixed_hashesBytes hashes
  | some l =>
    obtain ⟨depth, common⟩ := l
    obtain ⟨hnonneg, hle⟩ := hv2 _ rfl
    lift depth to ℕ using hnonneg
    have hle : depth ≤ 63 := Int.ofNat_le.mp hle
    have hmod : ((depth : ℤ) % 256).toNat = depth := by omega
    have hhalf : (((depth : ℤ) + 1) / 2).toNat = (depth + 1) / 2 := by omega
    simp only [hmod, hhalf]
    rw [append_assoc, append_assoc, makePrefixed_innerNodeV2, ← append_assoc,
      makePrefixedInner_v2 hashes common hle]
    rfl

theorem make_addRawLeaf {k : Key} {v : Leaf Bytes} (h : Carried sha (k, v)) (format : SHANodeFormat)
    (id : NodeID) : make sha (addRawLeaf k v format) format id = .ok (some (.leaf k v)) := by
  cases format with
  | snfWIRE => exact makeWire_leaf h id
  | snfPREFIX =>
    obtain ⟨type, data⟩ := v
    cases type with
    | tnTRANSACTION_NM =>
      have hk : k = sha (transactionID ++ data) := h
      rw [hk]
      rfl
    | tnACCOUNT_STATE =>
      have hk : k ≠ 0 := h
      have hread := makeKeyed_append "short PLN node" "invalid PLN node" .tnACCOUNT_STATE data hk
      exact hread
    | tnTRANSACTION_MD =>
      have hlong : ¬(data ++ keyBytes k).length < 32 := by simp
      have hlen : (data ++ keyBytes k).length - 32 = data.length := by simp
      change (if (data ++ keyBytes k).length < 32 then Except.error "short TXN node"
        else .ok (some (leaf (read256 (data ++ keyBytes k) ((data ++ keyBytes k).length - 32))
          (⟨.tnTRANSACTION_MD, (data ++ keyBytes k).take ((data ++ keyBytes k).length - 32)⟩ : Leaf Bytes)))) = _
      rw [if_neg hlong, hlen, read256_append_key, take_left]

theorem innerPreimage_congr {n' : InnerNode} (hashes : n'.hashes = n.hashes)
    (hlabel : ∀ l, n.v2 = some l → 0 ≤ l.depth ∧ l.depth ≤ 63)
    (hv2 : n'.v2 = n.v2.map fun l => ⟨l.depth, frontBytes l.depth.toNat l.id⟩) :
    innerPreimage n' = innerPreimage n := by
  rw [innerPreimage, innerPreimage, hv2, hashes]
  cases hn : n.v2 with
  | none => rfl
  | some l =>
    obtain ⟨hnonneg, hle⟩ := hlabel l hn
    have hhalf : ((l.depth + 1) / 2).toNat = (l.depth.toNat + 1) / 2 := by omega
    simp only [Option.map_some, hhalf]
    rw [take_keyBytes_frontBytes (by omega)]

/-- Every node in good order is read back from what is written for it, with the same hash; in the
format `snfWIRE` a node of version 2 is read with its own id. -/
theorem make_addRawNode {t : Node} (h : Valid sha t) (format : SHANodeFormat) (id : NodeID)
    (hid : ∀ n ch l, t = .inner n ch → n.v2 = some l → format = .snfWIRE → id = l) :
    ∃ t', make sha (addRawNode t format) format id = .ok (some t') ∧ SameNode t t' ∧
      getNodeHash sha t' = getNodeHash sha t := by
  cases t with
  | nil => exact h.elim
  | leaf k v => exact ⟨_, make_addRawLeaf h format id, .leaf k v, rfl⟩
  | inner n ch =>
    obtain ⟨hcoherent, hdepth⟩ := h
    cases format with
    | snfWIRE =>
      refine ⟨_, makeWire_addRaw hcoherent id fun l hl => hid n ch l rfl hl rfl, ?_, rfl⟩
      refine .inner rfl rfl ?_
      cases n.v2 with
      | none => exact .none
      | some l => exact .some rfl fun _ _ => rfl
    | snfPREFIX =>
      refine ⟨_, makePrefixed_addRaw hdepth, ?_, ?_⟩
      · rw [hcoherent.bareInner_eq]
        refine .inner rfl rfl ?_
        cases n.v2 with
        | none => exact .none
        | some l => exact .some rfl (agree_frontBytes _ _)
      · rw [hcoherent.bareInner_eq]
        have hpre : innerPreimage ⟨n.hashes, n.isBranch, n.v2.map fun l =>
            ⟨l.depth, frontBytes l.depth.toNat l.id⟩⟩ = innerPreimage n := innerPreimage_congr rfl hdepth rfl
        simp only [getNodeHash, innerHash, hpre]

theorem sevens_ne_zero : (fun _ => 7 : Key) ≠ 0 := fun h => absurd (congrFun h 0) (by decide)

def fullNode : Node := .inner ⟨fun _ _ => 7, fun _ => true, some ⟨5, 0⟩⟩ noChildren

theorem make_addRawNode_full :
    ∃ t', make (fun _ => 0) (addRawNode fullNode .snfWIRE) .snfWIRE ⟨5, 0⟩ = .ok (some t') ∧
      SameNode fullNode t' ∧ getNodeHash (fun _ => 0) t' = getNodeHash (fun _ => 0) fullNode := by
  have hvalid : Valid (fun _ => 0) fullNode := by
    refine ⟨fun _ => iff_of_true rfl sevens_ne_zero, ?_⟩
    rintro l ⟨⟩
    decide
  refine make_addRawNode hvalid .snfWIRE ⟨5, 0⟩ ?_
  rintro n ch l ⟨⟩ ⟨⟩ -
  rfl

/-- A transaction without metadata under a key other than its hash: the key that is read is another
one. -/
theorem transaction_key_not_written : (fun _ => 7 : Key) ≠ 0 ∧
    make (fun _ _ => 8) (addRawLeaf (fun _ => 7) ⟨.tnTRANSACTION_NM, List.replicate 12 0⟩ .snfWIRE) .snfWIRE
      ⟨0, 0⟩ = .ok (some (.leaf (fun _ => 8) ⟨.tnTRANSACTION_NM, List.replicate 12 0⟩)) :=
  ⟨sevens_ne_zero, rfl⟩

end RoundTrip

/-! ## The places that are accessed -/

/-- A place in one of the tables of an inner node: the hashes of the children, or the bytes of the
common nibbles. -/
inductive Access where
  | hash (i : ℕ)
  | common (i : ℕ)

def Access.InRange : Access → Prop
  | .hash i => i < 16
  | .common i => i < 32

/-- A call with the places that it accesses until it returns or throws. -/
structure Traced (α : Type) where
  accesses : List Access
  result : Except String α

namespace Traced

variable {α β : Type}

def andThen (x : Traced α) (f : α → Traced β) : Traced β :=
  match x.result with
  | .error e => ⟨x.accesses, .error e⟩
  | .ok a => ⟨x.accesses ++ (f a).accesses, (f a).result⟩

instance : Monad Traced where
  pure a := ⟨[], .ok a⟩
  bind := andThen

def touch (accesses : List Access) : Traced Unit := ⟨accesses, .ok ()⟩

def untouched (result : Except String α) : Traced α := ⟨[], result⟩

def InBounds (x : Traced α) : Prop := ∀ a ∈ x.accesses, a.InRange

@[simp] theorem result_untouched (r : Except String α) : (untouched r).result = r := rfl

@[simp] theorem inBounds_pure (a : α) : (pure a : Traced α).InBounds := by
  simp [InBounds, pure]

@[simp] theorem inBounds_untouched (r : Except String α) : (untouched r).InBounds := by
  simp [InBounds, untouched]

theorem result_touch_bind (as : List Access) (f : Unit → Traced β) : (touch as >>= f).result = (f ()).result := rfl

theorem InBounds.bind {x : Traced α} {f : α → Traced β} (hx : x.InBounds)
    (hf : ∀ a, x.result = .ok a → (f a).InBounds) : (x >>= f).InBounds := by
  change (andThen x f).InBounds
  unfold andThen
  split
  · exact hx
  · rename_i a hr
    intro b hb
    rcases mem_append.mp hb with hb | hb
    · exact hx b hb
    · exact hf a hr b hb

end Traced

def hashTable : List Access := (List.range 16).map .hash

def commonTable (n : ℕ) : List Access := (List.range n).map .common

/-- The accesses of `updateHash`. -/
def InnerNode.updateHash (n : InnerNode) : Traced Unit :=
  if ∃ i, n.isBranch i then
    match n.v2 with
    | none => Traced.touch hashTable
    | some l => Traced.touch (hashTable ++ commonTable ((l.depth + 1) / 2).toNat)
  else pure ()

section Traced

variable (sha : Bytes → Key) (hashValid : Bool)

/-- The hash of a new node is the one that was given, or it is computed. -/
def finish (n : InnerNode) : Traced (Option Node) :=
  if hashValid then pure (some (.inner n noChildren))
  else do
    n.updateHash
    pure (some (.inner n noChildren))

variable (v2 : Option NodeID)

def makeFullTraced (s : Bytes) : Traced (Option Node) :=
  if s.length ≠ 512 then .untouched (.error "invalid FI node")
  else do
    Traced.touch hashTable
    finish hashValid ⟨fun i => read256 s (i * 32), fun i => read256 s (i * 32) ≠ 0, v2⟩

def compressedLoopTraced (s : Bytes) : (n i : ℕ) → (Fin 16 → Key) × (Fin 16 → Bool) →
    Traced ((Fin 16 → Key) × (Fin 16 → Bool))
  | 0, _, node => pure node
  | n + 1, i, (hashes, isBranch) =>
    match s[32 + i * 33]? with
    | none => .untouched (.error "short CI node")
    | some pos =>
      if h : pos.toNat < 16 then do
        Traced.touch [.hash pos.toNat]
        compressedLoopTraced s n (i + 1)
          (Function.update hashes ⟨pos.toNat, h⟩ (read256 s (i * 33)),
            if read256 s (i * 33) ≠ 0 then Function.update isBranch ⟨pos.toNat, h⟩ true else isBranch)
      else .untouched (.error "invalid CI node")

def makeCompressedTraced (s : Bytes) : Traced (Option Node) := do
  let (hashes, isBranch) ← compressedLoopTraced s (s.length / 33) 0 (fun _ => 0, fun _ => false)
  finish hashValid ⟨hashes, isBranch, v2⟩

variable (rawNode : Bytes)

def makeWireTraced (id : NodeID) : Traced (Option Node) :=
  let s := rawNode.dropLast
  match rawNode.getLast? with
  | none => .untouched (.ok none)
  | some type =>
    match type.toNat with
    | 2 => makeFullTraced hashValid none s
    | 3 => makeCompressedTraced hashValid none s
    | 5 => makeFullTraced hashValid (some id) s
    | 6 => makeCompressedTraced hashValid (some id) s
    -- a leaf, or an unknown type
    | _ => .untouched (makeWire sha rawNode id)

def makePrefixedInnerTraced (isV2 : Bool) (s : Bytes) : Traced (Option Node) :=
  if s.length < 512 ∨ (!isV2 ∧ s.length ≠ 512) ∨ (isV2 ∧ s.length = 512) then
    .untouched (.error "invalid PIN node")
  else do
    Traced.touch hashTable
    let depth := (s.getD 512 0).toNat
    let n := (depth + 1) / 2
    if isV2 ∧ s.length ≠ 512 + 1 + n then .untouched (.error "invalid PIN node")
    else do
      Traced.touch (if isV2 then commonTable n else [])
      let common : Key := fun i => if i.val < n then s.getD (512 + 1 + i) 0 else 0
      finish hashValid ⟨fun i => read256 s (i * 32), fun i => read256 s (i * 32) ≠ 0,
        if isV2 then some ⟨depth, common⟩ else none⟩

def makePrefixedTraced : Traced (Option Node) :=
  let s := rawNode.drop 4
  if rawNode.length < 4 then .untouched (.error "invalid P node")
  else if rawNode.take 4 = innerNode then makePrefixedInnerTraced hashValid false s
  else if rawNode.take 4 = innerNodeV2 then makePrefixedInnerTraced hashValid true s
  -- a leaf, or an unknown hash prefix
  else .untouched (makePrefixed sha rawNode)

variable (format : SHANodeFormat) (id : NodeID)

/-- `SHAMapAbstractNode::make` with the places that it accesses. -/
def makeTraced : Traced (Option Node) :=
  match format with
  | .snfPREFIX => makePrefixedTraced sha hashValid rawNode
  | .snfWIRE => makeWireTraced sha hashValid rawNode id

/-! ### The result -/

variable {sha hashValid}

theorem result_finish (n : InnerNode) : (finish hashValid n).result = .ok (some (.inner n noChildren)) := by
  unfold finish InnerNode.updateHash
  cases hashValid with
  | true => rfl
  | false =>
    by_cases h : ∃ i, n.isBranch i
    · simp only [Bool.false_eq_true, if_false, if_pos h]
      cases n.v2 <;> rfl
    · simp only [Bool.false_eq_true, if_false, if_neg h]
      rfl

theorem result_makeFull (s : Bytes) : (makeFullTraced hashValid v2 s).result = makeFull v2 s := by
  unfold makeFullTraced makeFull
  split
  · rfl
  · rw [Traced.result_touch_bind, result_finish]
    rfl

theorem result_compressedLoop (s : Bytes) (n : ℕ) :
    ∀ (i : ℕ) (node : (Fin 16 → Key) × (Fin 16 → Bool)),
      (compressedLoopTraced s n i node).result = compressedLoop s n i node := by
  induction n with
  | zero => intro i node; rfl
  | succ n ih =>
    rintro i ⟨hashes, isBranch⟩
    unfold compressedLoopTraced compressedLoop
    cases s[32 + i * 33]? with
    | none => rfl
    | some pos =>
      dsimp only
      split
      · rw [Traced.result_touch_bind]
        exact ih _ _
      · rfl

theorem result_makeCompressed (s : Bytes) :
    (makeCompressedTraced hashValid v2 s).result = makeCompressed v2 s := by
  unfold makeCompressedTraced makeCompressed
  rw [← result_compressedLoop]
  change (Traced.andThen _ _).result = _
  unfold Traced.andThen
  cases (compressedLoopTraced s (s.length / 33) 0 (fun _ => 0, fun _ => false)).result with
  | error e => rfl
  | ok node => exact result_finish _

theorem result_makePrefixedInner (isV2 : Bool) (s : Bytes) :
    (makePrefixedInnerTraced hashValid isV2 s).result = makePrefixedInner isV2 s := by
  unfold makePrefixedInnerTraced makePrefixedInner
  split
  · rfl
  · rw [Traced.result_touch_bind]
    dsimp only
    split
    · rfl
    · rw [Traced.result_touch_bind, result_finish]
      rfl

theorem makeTraced_result :
    (makeTraced sha hashValid rawNode format id).result = make sha rawNode format id := by
  cases format with
  | snfPREFIX =>
    simp only [makeTraced, make, makePrefixedTraced]
    split
    · rename_i h
      simp [makePrefixed, h]
    · rename_i hlen
      split
      · rename_i h
        rw [result_makePrefixedInner]
        simp only [makePrefixed, if_neg hlen, h]
        rfl
      · split
        · rename_i h
          rw [result_makePrefixedInner]
          simp only [makePrefixed, if_neg hlen, h]
          rfl
        · rfl
  | snfWIRE =>
    simp only [makeTraced, make, makeWireTraced]
    cases hlast : rawNode.getLast? with
    | none => simp [makeWire, hlast]
    | some type =>
      dsimp only
      split
      · rename_i h
        simp [makeWire, hlast, h, result_makeFull]
      · rename_i h
        simp [makeWire, hlast, h, result_makeCompressed]
      · rename_i h
        simp [makeWire, hlast, h, result_makeFull]
      · rename_i h
        simp [makeWire, hlast, h, result_makeCompressed]
      · rfl

/-! ### The bounds -/

variable {a : Access} {n : InnerNode} {v2 : Option NodeID} {s : Bytes} {isV2 : Bool}

theorem inRange_hashTable (h : a ∈ hashTable) : a.InRange := by
  obtain ⟨i, hi, rfl⟩ := mem_map.mp h
  exact mem_range.mp hi

theorem inRange_commonTable {n : ℕ} (hn : n ≤ 32) (h : a ∈ commonTable n) : a.InRange := by
  obtain ⟨i, hi, rfl⟩ := mem_map.mp h
  exact (mem_range.mp hi).trans_le hn

def Fits (v2 : Option NodeID) : Prop := ∀ l, v2 = some l → l.depth ≤ 64

theorem fits_none : Fits none := nofun

def Shallow (result : Except String (Option Node)) : Prop :=
  ∀ n ch, result = .ok (some (.inner n ch)) → Fits n.v2

theorem shallow_error (text : String) : Shallow (.error text) := by
  rintro n ch ⟨⟩

theorem shallow_leaf (k : Key) (leaf : Leaf Bytes) : Shallow (.ok (some (.leaf k leaf))) := by
  rintro n ch ⟨⟩

theorem shallow_of_ok {result : Except String (Option Node)} {ch : Fin 16 → Node}
    (h : result = .ok (some (.inner n ch))) : Shallow result ↔ Fits n.v2 := by
  subst h
  constructor
  · exact fun hs => hs n ch rfl
  · rintro hfits n' ch' ⟨⟩
    exact hfits

theorem shallow_makeKeyed (tooShort invalid : String) (type : TNType) (s : Bytes) :
    Shallow (makeKeyed tooShort invalid type s) := by
  intro n ch hr
  unfold makeKeyed at hr
  split at hr
  · cases hr
  · split at hr <;> cases hr

/-- The accesses stay in the tables, and so do those that a node that is returned allows. -/
def Traced.Safe (x : Traced (Option Node)) : Prop := x.InBounds ∧ Shallow x.result

theorem safe_untouched {r : Except String (Option Node)} (h : Shallow r) : (Traced.untouched r).Safe :=
  ⟨Traced.inBounds_untouched r, h⟩

theorem Traced.InBounds.safe_bind {α : Type} {x : Traced α} {f : α → Traced (Option Node)} (hx : x.InBounds)
    (hf : ∀ a, x.result = .ok a → (f a).Safe) : (x >>= f).Safe := by
  refine ⟨hx.bind fun a ha => (hf a ha).1, ?_⟩
  change Shallow (andThen x f).result
  unfold andThen
  split
  · exact shallow_error _
  · rename_i a ha
    exact (hf a ha).2

theorem safe_finish (h : Fits n.v2) : (finish hashValid n).Safe := by
  refine ⟨?_, (shallow_of_ok (result_finish n)).mpr h⟩
  unfold finish
  split
  · exact Traced.inBounds_pure _
  · refine Traced.InBounds.bind ?_ fun _ _ => Traced.inBounds_pure _
    unfold InnerNode.updateHash
    split
    · split
      · exact fun a ha => inRange_hashTable ha
      · rename_i l hl
        have hdepth := h l hl
        intro a ha
        rcases mem_append.mp ha with ha | ha
        · exact inRange_hashTable ha
        · exact inRange_commonTable (by omega) ha
    · exact Traced.inBounds_pure _

theorem inBounds_hashTable : (Traced.touch hashTable).InBounds := fun _ ha => inRange_hashTable ha

theorem safe_makeFull (h : s.length = 512 → Fits v2) : (makeFullTraced hashValid v2 s).Safe := by
  unfold makeFullTraced
  split
  · exact safe_untouched (shallow_error _)
  · rename_i hlen
    exact inBounds_hashTable.safe_bind fun _ _ => safe_finish (h (not_not.mp hlen))

theorem inBounds_compressedLoop (s : Bytes) (n : ℕ) :
    ∀ (i : ℕ) (node : (Fin 16 → Key) × (Fin 16 → Bool)), (compressedLoopTraced s n i node).InBounds := by
  induction n with
  | zero =>
    intro i node
    exact Traced.inBounds_pure _
  | succ n ih =>
    rintro i ⟨hashes, isBranch⟩
    unfold compressedLoopTraced
    split
    · exact Traced.inBounds_untouched _
    · rename_i pos _
      split
      · rename_i hlt
        refine Traced.InBounds.bind (fun a ha => ?_) fun _ _ => ih _ _
        obtain rfl := mem_singleton.mp ha
        exact hlt
      · exact Traced.inBounds_untouched _

def NamesBranches (s : Bytes) : Prop :=
  ∀ i < s.length / 33, ∃ pos, s[32 + i * 33]? = some pos ∧ pos.toNat < 16

theorem compressedLoop_isOk (s : Bytes) (n : ℕ) :
    ∀ (i : ℕ) (node : (Fin 16 → Key) × (Fin 16 → Bool)),
      (∃ r, compressedLoop s n i node = .ok r) ↔
        ∀ j, i ≤ j → j < i + n → ∃ pos, s[32 + j * 33]? = some pos ∧ pos.toNat < 16 := by
  induction n with
  | zero =>
    intro i node
    exact iff_of_true ⟨node, rfl⟩ fun j hle hlt => absurd hlt (by omega)
  | succ n ih =>
    rintro i ⟨hashes, isBranch⟩
    -- the first entry, and those behind it
    have hsplit : (∀ j, i ≤ j → j < i + (n + 1) → ∃ pos, s[32 + j * 33]? = some pos ∧ pos.toNat < 16) ↔
        (∃ pos, s[32 + i * 33]? = some pos ∧ pos.toNat < 16) ∧
          ∀ j, i + 1 ≤ j → j < i + 1 + n → ∃ pos, s[32 + j * 33]? = some pos ∧ pos.toNat < 16 := by
      constructor
      · exact fun h => ⟨h i le_rfl (by omega), fun j hle hlt => h j (by omega) (by omega)⟩
      · rintro ⟨hfirst, hrest⟩ j hle hlt
        rcases Nat.eq_or_lt_of_le hle with rfl | hgt
        · exact hfirst
        · exact hrest j hgt (by omega)
    rw [hsplit]
    unfold compressedLoop
    cases hpos : s[32 + i * 33]? with
    | none => simp
    | some pos =>
      by_cases hlt : pos.toNat < 16
      · dsimp only
        rw [dif_pos hlt, ih]
        simp only [Option.some.injEq, exists_eq_left', hlt, true_and]
      · simp [hlt]

theorem makeCompressed_isOk (v2 : Option NodeID) (s : Bytes) (hs : NamesBranches s) :
    ∃ hashes isBranch, makeCompressed v2 s = .ok (some (.inner ⟨hashes, isBranch, v2⟩ noChildren)) := by
  obtain ⟨⟨hashes, isBranch⟩, hr⟩ :=
    (compressedLoop_isOk s (s.length / 33) 0 (fun _ => 0, fun _ => false)).mpr fun j _ hj => hs j (by omega)
  exact ⟨hashes, isBranch, by rw [makeCompressed, hr]⟩

theorem safe_makeCompressed (h : NamesBranches s → Fits v2) :
    (makeCompressedTraced hashValid v2 s).Safe := by
  refine (inBounds_compressedLoop s _ 0 _).safe_bind fun node hnode => safe_finish (h ?_)
  rw [result_compressedLoop] at hnode
  have hall := (compressedLoop_isOk s (s.length / 33) 0 _).mp ⟨node, hnode⟩
  exact fun i hi => hall i (Nat.zero_le i) (by omega)

theorem safe_makePrefixedInner
    (h : isV2 = true → s.length = 512 + 1 + ((s.getD 512 0).toNat + 1) / 2 → (s.getD 512 0).toNat ≤ 64) :
    (makePrefixedInnerTraced hashValid isV2 s).Safe := by
  unfold makePrefixedInnerTraced
  split
  · exact safe_untouched (shallow_error _)
  · refine inBounds_hashTable.safe_bind fun _ _ => ?_
    dsimp only
    split
    · exact safe_untouched (shallow_error _)
    · rename_i hlen
      cases isV2 with
      | false =>
        refine Traced.InBounds.safe_bind (fun a ha => ?_) fun _ _ => safe_finish fits_none
        cases ha
      | true =>
        have hdepth := h rfl (by simpa using hlen)
        refine Traced.InBounds.safe_bind (fun a ha => ?_) fun _ _ => safe_finish ?_
        · exact inRange_commonTable (by omega) ha
        · rintro l ⟨⟩
          exact Int.ofNat_le.mpr hdepth

/-- Bytes from which a node of version 2 with more than 64 nibbles in common is read. -/
def TooDeep : Prop :=
  match format with
  | .snfPREFIX => rawNode.take 4 = innerNodeV2 ∧ 64 < (rawNode.getD 516 0).toNat ∧
      rawNode.length = 517 + ((rawNode.getD 516 0).toNat + 1) / 2
  | .snfWIRE => 64 < id.depth ∧ ((rawNode.getLast? = some 5 ∧ rawNode.length = 513) ∨
      (rawNode.getLast? = some 6 ∧ NamesBranches rawNode.dropLast))

section Wire

variable {rawNode : Bytes} {id : NodeID}

theorem fits_id (h : ¬64 < id.depth) : Fits (some id) := by
  rintro l ⟨⟩
  omega

variable {type : UInt8}

theorem fits_full (h : ¬TooDeep rawNode .snfWIRE id) (hlast : rawNode.getLast? = some type)
    (htype : type.toNat = 5) (hlen : rawNode.dropLast.length = 512) :
    Fits (some id) := by
  refine fits_id fun hdepth => h ⟨hdepth, .inl ⟨?_, ?_⟩⟩
  · rw [hlast, show type = 5 from UInt8.toNat_inj.mp htype]
  · rw [length_dropLast] at hlen
    omega

theorem fits_compressed (h : ¬TooDeep rawNode .snfWIRE id) (hlast : rawNode.getLast? = some type)
    (htype : type.toNat = 6) (hs : NamesBranches rawNode.dropLast) :
    Fits (some id) := by
  refine fits_id fun hdepth => h ⟨hdepth, .inr ⟨?_, hs⟩⟩
  rw [hlast, show type = 6 from UInt8.toNat_inj.mp htype]

theorem safe_makeWire (h : ¬TooDeep rawNode .snfWIRE id) : (makeWireTraced sha hashValid rawNode id).Safe := by
  unfold makeWireTraced
  cases hlast : rawNode.getLast? with
  | none => exact safe_untouched fun _ _ h => by cases h
  | some type =>
    dsimp only
    split
    · exact safe_makeFull fun _ => fits_none
    · exact safe_makeCompressed fun _ => fits_none
    · rename_i htype
      exact safe_makeFull (fits_full h hlast htype)
    · rename_i htype
      exact safe_makeCompressed (fits_compressed h hlast htype)
    · refine safe_untouched ?_
      simp only [makeWire, hlast]
      split
      · exact fun _ _ h => by cases h
      · exact shallow_makeKeyed _ _ _ _
      · contradiction
      · contradiction
      · exact shallow_makeKeyed _ _ _ _
      · contradiction
      · contradiction
      · exact fun _ _ h => by cases h

theorem not_shallow_makeWire (h : TooDeep rawNode .snfWIRE id) : ¬Shallow (makeWire sha rawNode id) := by
  obtain ⟨hdepth, hbytes⟩ := h
  have hdeep : ¬Fits (some id) := by
    intro hfits
    have := hfits _ rfl
    omega
  rcases hbytes with ⟨hlast, hlen⟩ | ⟨hlast, hs⟩
  · have hlen' : rawNode.dropLast.length = 512 := by
      rw [length_dropLast, hlen]
    have hread : makeWire sha rawNode id = .ok (some (bareInner
        (fun i => read256 rawNode.dropLast (i * 32)) (some id))) := by
      simp only [makeWire, hlast]
      change makeFull _ _ = _
      rw [makeFull, if_neg (by omega)]
    rw [shallow_of_ok hread]
    exact hdeep
  · obtain ⟨hashes, isBranch, hok⟩ := makeCompressed_isOk (some id) _ hs
    have hread : makeWire sha rawNode id =
        .ok (some (.inner ⟨hashes, isBranch, some id⟩ noChildren)) := by
      simp only [makeWire, hlast]
      exact hok
    rw [shallow_of_ok hread]
    exact hdeep

end Wire

section Prefixed

variable {rawNode : Bytes} {id : NodeID}

theorem getD_drop_four (rawNode : Bytes) : (rawNode.drop 4).getD 512 0 = rawNode.getD 516 0 := by
  simp [getD_eq_getElem?_getD]

theorem depth_le (h : ¬TooDeep rawNode .snfPREFIX id) (hmagic : rawNode.take 4 = innerNodeV2)
    (hlen : (rawNode.drop 4).length = 512 + 1 + (((rawNode.drop 4).getD 512 0).toNat + 1) / 2) :
    ((rawNode.drop 4).getD 512 0).toNat ≤ 64 := by
  rw [getD_drop_four, length_drop] at *
  by_contra hdepth
  exact h ⟨hmagic, by omega, by omega⟩

theorem safe_makePrefixed (h : ¬TooDeep rawNode .snfPREFIX id) :
    (makePrefixedTraced sha hashValid rawNode).Safe := by
  simp only [makePrefixedTraced]
  split
  · exact safe_untouched (shallow_error _)
  rename_i hlong
  split
  · exact safe_makePrefixedInner nofun
  rename_i hinner
  split
  · rename_i hmagic
    exact safe_makePrefixedInner fun _ => depth_le h hmagic
  rename_i hinnerV2
  refine safe_untouched ?_
  simp only [makePrefixed, if_neg hlong, if_neg hinner, if_neg hinnerV2]
  split
  · exact shallow_leaf _ _
  split
  · exact shallow_makeKeyed _ _ _ _
  split
  · split
    · exact shallow_error _
    · exact shallow_leaf _ _
  · exact shallow_error _

theorem not_shallow_makePrefixed (h : TooDeep rawNode .snfPREFIX id) :
    ¬Shallow (makePrefixed sha rawNode) := by
  obtain ⟨hmagic, hdepth, hlen⟩ := h
  have hread : makePrefixed sha rawNode = makePrefixedInner true (rawNode.drop 4) := by
    rw [← makePrefixed_innerNodeV2, ← hmagic, take_append_drop]
  have hlen' : (rawNode.drop 4).length = 512 + 1 + ((rawNode.getD 516 0).toNat + 1) / 2 := by
    rw [length_drop]
    omega
  rw [makePrefixedInner_eq hlen' (by rw [getD_drop_four])] at hread
  rw [shallow_of_ok hread]
  intro hfits
  have := hfits _ rfl
  dsimp only at this
  omega

theorem overrun_makePrefixedInner {s : Bytes} (hlen : s.length = 512 + 1 + ((s.getD 512 0).toNat + 1) / 2)
    (hdepth : 64 < (s.getD 512 0).toNat) : .common 32 ∈ (makePrefixedInnerTraced hashValid true s).accesses := by
  have hsize : ¬(s.length < 512 ∨ (!true) = true ∧ s.length ≠ 512 ∨ true = true ∧ s.length = 512) := by
    simp only [Bool.not_true, Bool.false_eq_true, false_and, true_and, false_or]
    omega
  have hmem : .common 32 ∈ commonTable (((s.getD 512 0).toNat + 1) / 2) :=
    mem_map.mpr ⟨32, mem_range.mpr (by omega), rfl⟩
  rw [makePrefixedInnerTraced, if_neg hsize]
  refine mem_append_right _ ?_
  dsimp only
  rw [if_neg (by simp [hlen])]
  exact mem_append_left _ hmem

theorem not_inBounds_makePrefixed (h : TooDeep rawNode .snfPREFIX id) :
    ¬(makePrefixedTraced sha hashValid rawNode).InBounds := by
  obtain ⟨hmagic, hdepth, hlen⟩ := h
  have hlong : ¬rawNode.length < 4 := by omega
  have hread : makePrefixedTraced sha hashValid rawNode =
      makePrefixedInnerTraced hashValid true (rawNode.drop 4) := by
    simp only [makePrefixedTraced, if_neg hlong, hmagic]
    rfl
  rw [← getD_drop_four] at hdepth hlen
  have hlen' : (rawNode.drop 4).length = 512 + 1 + (((rawNode.drop 4).getD 512 0).toNat + 1) / 2 := by
    rw [length_drop]
    omega
  intro hin
  rw [hread] at hin
  exact absurd (hin _ (overrun_makePrefixedInner hlen' hdepth)) (Nat.lt_irrefl 32)

end Prefixed

/-- The accesses of `make` stay in the tables and a node of version 2 has at most 64 nibbles in
common, except where the bytes or the id give it more. -/
theorem makeTraced_inBounds :
    ((makeTraced sha hashValid rawNode format id).InBounds ∧
      Shallow (makeTraced sha hashValid rawNode format id).result) ↔ ¬TooDeep rawNode format id := by
  constructor
  · rintro ⟨-, hshallow⟩ hdeep
    rw [makeTraced_result] at hshallow
    cases format with
    | snfPREFIX => exact not_shallow_makePrefixed hdeep hshallow
    | snfWIRE => exact not_shallow_makeWire hdeep hshallow
  · intro h
    cases format with
    | snfPREFIX => exact safe_makePrefixed h
    | snfWIRE => exact safe_makeWire h

end Traced

/-- A stored node of version 2 that gives its depth as 65: its bytes are written behind the end of
the common nibbles. -/
theorem common_overrun : ¬(makeTraced (fun _ => 0) true
    (innerNodeV2 ++ hashesBytes (fun _ => 0) ++ ([65] ++ List.replicate 33 0)) .snfPREFIX
      ⟨0, 0⟩).InBounds := by
  have hfront : (innerNodeV2 ++ hashesBytes fun _ => 0).length = 516 := by
    rw [length_append, length_hashesBytes]
    rfl
  have hdepth : (innerNodeV2 ++ hashesBytes (fun _ => 0) ++ ([65] ++ List.replicate 33 0)).getD 516 0 =
      65 := by
    rw [getD_append_right _ _ _ _ (by rw [hfront]), hfront]
    rfl
  have hdeep : TooDeep (innerNodeV2 ++ hashesBytes (fun _ => 0) ++ ([65] ++ List.replicate 33 0))
      .snfPREFIX ⟨0, 0⟩ := by
    refine ⟨rfl, ?_, ?_⟩
    · rw [hdepth]
      decide
    · rw [hdepth, length_append, hfront]
      rfl
  simp only [makeTraced]
  exact not_inBounds_makePrefixed hdeep

end Ripple.SHAMap
