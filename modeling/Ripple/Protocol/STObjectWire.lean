import Ripple.Protocol.STObject

/-!
# Ripple.Protocol.STObjectWire

Serialized objects are read back as they were written.
-/

namespace Ripple.Protocol

open Serializer SerialIter List
open SerializedTypeID
open Ripple.Parser (bind_apply bind_eq_ok Shrinks isEmpty_apply Reads)

/-! ## Sorted fields -/

variable {t : SerializedTypeID} {f : SField} {v : Fields} {p : SField × STValue} {v' : Fields}
  {α : Type} {xs : List α} {β : Type} {R : α → β → Prop} {d : Fields} {room : Nat} {name : SField}
  {type : SOTemplate} {P : SField → STValue → Prop} {mType : Option SOTemplate}

theorem code_injective {s : SerializedTypeID} (h : s.code = t.code) : s = t := by
  revert h
  cases s <;> cases t <;> decide

theorem SField.fieldCode_eq (h : f.isBinary = true) :
    f.fieldCode = 65536 * f.fieldType.code + f.fieldValue := by
  have hlt : f.fieldValue < 2 ^ 16 := by
    have : f.fieldValue < 256 := of_decide_eq_true h
    omega
  rw [fieldCode, Nat.shiftLeft_eq, Nat.mul_comm, ← Nat.two_pow_add_eq_or_of_lt hlt]

theorem SField.fieldCode_inj {g : SField} (hf : f.isBinary = true) (hg : g.isBinary = true)
    (h : f.fieldCode = g.fieldCode) : f = g := by
  have hf' : f.fieldValue < 256 := of_decide_eq_true hf
  have hg' : g.fieldValue < 256 := of_decide_eq_true hg
  rw [fieldCode_eq hf, fieldCode_eq hg] at h
  have htype : f.fieldType = g.fieldType := code_injective (by omega)
  have hvalue : f.fieldValue = g.fieldValue := by
    rw [htype] at h
    omega
  cases f
  cases g
  simp_all

def included (v : Fields) : Fields := v.filter fun p => p.2.isPresent && p.1.isBinary

theorem mem_included : p ∈ included v ↔ p ∈ v ∧ p.2.isPresent = true ∧ p.1.isBinary = true := by
  simp [included]

theorem getSortedFields_perm (v : Fields) : (getSortedFields v).Perm (included v) := perm_insertionSort _ _

theorem mem_getSortedFields :
    p ∈ getSortedFields v ↔ p ∈ v ∧ p.2.isPresent = true ∧ p.1.isBinary = true :=
  (getSortedFields_perm v).mem_iff.trans mem_included

theorem getSortedFields_sorted (v : Fields) :
    (getSortedFields v).Pairwise fun lhs rhs => lhs.1.fieldCode ≤ rhs.1.fieldCode := by
  have : Std.Total fun lhs rhs : SField × STValue => lhs.1.fieldCode ≤ rhs.1.fieldCode := ⟨fun _ _ => le_total _ _⟩
  have : IsTrans (SField × STValue) fun lhs rhs => lhs.1.fieldCode ≤ rhs.1.fieldCode := ⟨fun _ _ _ => le_trans⟩
  exact pairwise_insertionSort _ _

theorem names_sorted (v : Fields) :
    ((getSortedFields v).map Prod.fst).Pairwise fun f g => f.fieldCode ≤ g.fieldCode :=
  pairwise_map.mpr (getSortedFields_sorted v)

theorem sorted_names_eq (h : ((included v).map Prod.fst).Perm ((included v').map Prod.fst)) :
    (getSortedFields v).map Prod.fst = (getSortedFields v').map Prod.fst := by
  refine List.Perm.eq_of_pairwise ?_ (names_sorted v) (names_sorted v') ?_
  · intro f g hf hg hfg hgf
    obtain ⟨p, hp, rfl⟩ := mem_map.mp hf
    obtain ⟨q, hq, rfl⟩ := mem_map.mp hg
    exact SField.fieldCode_inj (mem_getSortedFields.mp hp).2.2 (mem_getSortedFields.mp hq).2.2 (le_antisymm hfg hgf)
  · exact ((getSortedFields_perm v).map _).trans (h.trans ((getSortedFields_perm v').map _).symm)

theorem forall₂_of_map_eq {γ : Type} {f : α → γ} {g : β → γ} {ys : List β} (h : xs.map f = ys.map g)
    (hR : ∀ x ∈ xs, ∀ y ∈ ys, f x = g y → R x y) : List.Forall₂ R xs ys := by
  refine forall₂_iff_get.mpr ⟨by simpa using congrArg List.length h, fun i h₁ h₂ => ?_⟩
  refine hR _ (get_mem _ _) _ (get_mem _ _) ?_
  simpa [h₁, h₂] using congrArg (·[i]?) h

theorem exists_of_forall₂ {ys : List β} (h : List.Forall₂ R xs ys) {x : α} (hx : x ∈ xs) :
    ∃ y ∈ ys, R x y := by
  obtain ⟨hlen, hget⟩ := forall₂_iff_get.mp h
  obtain ⟨i, rfl⟩ := get_of_mem hx
  exact ⟨_, get_mem _ _, hget i i.isLt (hlen ▸ i.isLt)⟩

/-! ## Comparison -/

structure Same (a b : STValue) : Prop where
  type : a.getSType = b.getSType
  fwd : isEquivalent a b = true
  back : isEquivalent b a = true

theorem Same.symm {a b : STValue} (h : Same a b) : Same b a := ⟨h.type.symm, h.back, h.fwd⟩

theorem samePath_self (p : STPathSet.STPath) : samePath p p = true := by
  induction p with
  | nil => rfl
  | cons e es ih => simp [samePath, STPathElement.same, ih]

theorem samePaths_self (ps : List STPathSet.STPath) : samePaths ps ps = true := by
  induction ps with
  | nil => rfl
  | cons p ps ih => rw [samePaths, samePath_self, ih]; rfl

theorem isEquivalent_self {t : STValue} (hobject : t.getSType ≠ STI_OBJECT) (harray : t.getSType ≠ STI_ARRAY) :
    isEquivalent t t = true := by
  cases t with
  | object mType v => exact absurd rfl hobject
  | array v => exact absurd rfl harray
  | pathSet value => rw [isEquivalent, samePaths_self]
  | amount value => simp [isEquivalent, STAmount.equal, STAmount.areComparable]
  | _ => simp [isEquivalent]

theorem equalFields_of_forall₂ (h : List.Forall₂ (fun p q => Same p.2 q.2) v v') : equalFields v v' = true := by
  induction h with
  | nil => rw [equalFields]
  | @cons p q v v' hpq _ ih =>
    obtain ⟨f, s⟩ := p
    obtain ⟨g, t⟩ := q
    rw [equalFields, ih, hpq.fwd]
    simpa using hpq.type

theorem equalFields_of_names (hnames : v.map Prod.fst = v'.map Prod.fst)
    (h : ∀ p ∈ v, ∀ q ∈ v', p.1 = q.1 → Same p.2 q.2) :
    equalFields v v' = true ∧ equalFields v' v = true :=
  ⟨equalFields_of_forall₂ (forall₂_of_map_eq hnames h), equalFields_of_forall₂
    (forall₂_of_map_eq hnames.symm fun q hq p hp hqp => (h p hp q hq hqp.symm).symm)⟩

/-- `d` holds the present fields of `v`, in some order, with values that compare as equal. -/
structure Mirrors (d v : Fields) : Prop where
  present : ∀ p ∈ d, p.2.isPresent = true ∧ p.1.isBinary = true
  names : (d.map Prod.fst).Perm ((included v).map Prod.fst)
  same : ∀ p ∈ d, ∀ q ∈ v, q.2.isPresent = true → p.1 = q.1 → Same p.2 q.2

theorem Mirrors.included_eq (h : Mirrors d v) : included d = d :=
  filter_eq_self.mpr fun p hp => by simp [h.present p hp]

theorem Mirrors.perm {d' : Fields} (h : Mirrors d v) (hperm : d'.Perm d) : Mirrors d' v where
  present p hp := h.present p (hperm.mem_iff.mp hp)
  names := (hperm.map _).trans h.names
  same p hp := h.same p (hperm.mem_iff.mp hp)

theorem Mirrors.equalSorted (h : Mirrors d v) :
    equalFields (getSortedFields d) (getSortedFields v) = true ∧
      equalFields (getSortedFields v) (getSortedFields d) = true :=
  equalFields_of_names (sorted_names_eq (h.included_eq.symm ▸ h.names)) fun p hp q hq =>
    h.same p (mem_getSortedFields.mp hp).1 q (mem_getSortedFields.mp hq).1 (mem_getSortedFields.mp hq).2.1

/-- No field has two values, or a value and the mark of one that is not present. -/
structure Distinct (v : Fields) : Prop where
  nodup : ((v.filter fun p => p.2.isPresent).map Prod.fst).Nodup
  absent : ∀ p ∈ v, p.2.isPresent = false → ∀ q ∈ v, q.2.isPresent = true → p.1 ≠ q.1

theorem Distinct.findField_eq (h : Distinct v) (hp : p ∈ v) (hpresent : p.2.isPresent = true) :
    findField v p.1 = some p.2 := by
  have hsome : ∃ q, v.find? (fun q => q.1 = p.1) = some q := by
    rw [← Option.isSome_iff_exists, find?_isSome]
    exact ⟨p, hp, by simp⟩
  obtain ⟨q, hq⟩ := hsome
  have hname : q.1 = p.1 := by simpa using find?_some hq
  have hmem : q ∈ v := mem_of_find?_eq_some hq
  have hqp : q.2.isPresent = true := by
    by_contra hnot
    exact h.absent q hmem (by simpa using hnot) p hp hpresent hname
  have heq : q = p :=
    inj_on_of_nodup_map h.nodup (mem_filter.mpr ⟨hmem, hqp⟩) (mem_filter.mpr ⟨hp, hpresent⟩) hname
  rw [findField, hq, heq]
  rfl

theorem matchFields_of (h : ∀ p ∈ v, p.2.isPresent = true → p.1.isBinary = true →
    ∃ t, findField v' p.1 = some t ∧ isEquivalent t p.2 = true) : matchFields v v' = true := by
  induction v with
  | nil => rw [matchFields]
  | cons p v ih =>
    obtain ⟨f, t1⟩ := p
    have hrest := ih fun p hp => h p (mem_cons_of_mem _ hp)
    rw [matchFields]
    split
    · next hin =>
      rw [Bool.and_eq_true] at hin
      obtain ⟨t, ht, hequiv⟩ := h (f, t1) mem_cons_self hin.1 hin.2
      split
      · next hnone => simp [hnone] at ht
      · next t2 hsome =>
        obtain rfl : t2 = t := Option.some.inj (hsome.symm.trans ht)
        rw [hequiv, hrest]
        rfl
    · exact hrest

theorem countFields_eq (v : Fields) : countFields v = (included v).length := countP_eq_length_filter

theorem Mirrors.nodup (h : Mirrors d v) (hv : Distinct v) : (d.map Prod.fst).Nodup := by
  refine h.names.nodup_iff.mpr (hv.nodup.sublist (List.Sublist.map _ ?_))
  rw [included, ← filter_filter]
  exact filter_sublist.filter _

theorem Mirrors.sameObject (h : Mirrors d v) (hv : Distinct v) :
    sameObject d v = true ∧ sameObject v d = true := by
  have hcount : countFields v = countFields d := by
    rw [countFields_eq, countFields_eq, h.included_eq, ← length_map Prod.fst, ← h.names.length_eq,
      length_map]
  have hd : Distinct d := by
    refine ⟨(h.nodup hv).sublist (filter_sublist.map _), fun p hp hnot => ?_⟩
    simp [(h.present p hp).1] at hnot
  rw [Protocol.sameObject, Protocol.sameObject]
  constructor
  · have hmatch : matchFields d v = true := by
      refine matchFields_of fun p hp _ _ => ?_
      obtain ⟨q, hq, hqp⟩ := mem_map.mp (h.names.mem_iff.mp (mem_map.mpr ⟨p, hp, rfl⟩))
      obtain ⟨hqv, hqpres, -⟩ := mem_included.mp hq
      exact ⟨q.2, hqp ▸ hv.findField_eq hqv hqpres, (h.same p hp q hqv hqpres hqp.symm).back⟩
    simp [hmatch, hcount]
  · have hmatch : matchFields v d = true := by
      refine matchFields_of fun q hq hqpres hqbin => ?_
      obtain ⟨p, hp, hpq⟩ := mem_map.mp
        (h.names.mem_iff.mpr (mem_map.mpr ⟨q, mem_included.mpr ⟨hq, hqpres, hqbin⟩, rfl⟩))
      exact ⟨p.2, hpq ▸ hd.findField_eq hp (h.present p hp).1, (h.same p hp q hq hqpres hpq).fwd⟩
    simp [hmatch, hcount]

/-! ## What can be written -/

/-- A field whose name fits two bytes and is not an end marker. -/
structure SField.Writable (f : SField) : Prop where
  pos : 0 < f.fieldValue
  lt : f.fieldValue < 256
  type : f.fieldType ≠ STI_NOTPRESENT
  marker : f.fieldType = STI_OBJECT ∨ f.fieldType = STI_ARRAY → f.fieldValue ≠ 1

theorem code_lt (t : SerializedTypeID) : t.code < 256 := by
  cases t <;> decide

theorem ofCode_code (h : t ≠ STI_NOTPRESENT) : 0 < t.code ∧ ofCode t.code = some t := by
  revert h
  cases t <;> decide

namespace SField.Writable

variable {f : SField}

theorem reads (h : f.Writable) : Reads getFieldID f.addFieldID (f.fieldType.code, f.fieldValue) :=
  reads_getFieldID (ofCode_code h.type).1 (code_lt _) h.pos h.lt

theorem getField (h : f.Writable) : SField.getField f.fieldType.code f.fieldValue = some f := by
  rw [SField.getField, if_neg (by have := h.lt; omega), (ofCode_code h.type).2]
  rfl

theorem ne_marker (h : f.Writable) {t : SerializedTypeID} (ht : t = STI_OBJECT ∨ t = STI_ARRAY) :
    (f.fieldType.code, f.fieldValue) ≠ (t.code, 1) := by
  intro heq
  obtain ⟨hcode, hvalue⟩ := Prod.mk.inj heq
  exact h.marker ((code_injective hcode).symm ▸ ht) hvalue

theorem isBinary (h : f.Writable) : f.isBinary = true := decide_eq_true h.lt

end SField.Writable

def maxLength : Nat := 918744

/-- The fields that are present can be written, and are distinct. -/
structure WellFormed (P : SField → STValue → Prop) (v : Fields) : Prop where
  fields : ∀ p ∈ v, p.2.isPresent = true → P p.1 p.2
  distinct : Distinct v

/-- An inner object has the fields that the template of its name asks for, and no others. -/
def Satisfies (name : SField) (v : Fields) : Prop :=
  ∀ type, findSOTemplateBySField name = some type →
    (∀ e ∈ type.all, e.flags = .SOE_REQUIRED → ∃ p ∈ v, p.1 = e.e_field ∧ p.2.isPresent = true) ∧
    (∀ e ∈ type.all, e.flags = .SOE_DEFAULT → ∀ p ∈ v, p.1 = e.e_field → p.2.isPresent = true →
      p.2.isDefault = false) ∧
    ∀ p ∈ v, p.2.isPresent = true → p.1 ∈ type.all.map SOElement.e_field

/-- An object that was made with the template of its name has its fields in the order of the
template. -/
def LaidOut (name : SField) (mType : Option SOTemplate) (v : Fields) : Prop :=
  ∀ type, findSOTemplateBySField name = some type → mType = some type →
    v.map Prod.fst = type.all.map SOElement.e_field

/-- A value that can be written and read where `room` levels are left. -/
def Serializable : (room : Nat) → SField → STValue → Prop
  | 0, _, _ => False
  | room + 1, f, t => f.Writable ∧ t.getSType = f.fieldType ∧
    match t with
    | .amount value => value.Wired
    | .blob value => value.length ≤ maxLength
    | .vector256 value => 32 * value.length ≤ maxLength
    | .pathSet value => STPathSet.Valid value
    | .object mType v => WellFormed (Serializable room) v ∧ Satisfies f v ∧ LaidOut f mType v
    | .array objects => ∀ o ∈ objects, o.fName.Writable ∧ o.fName.fieldType = STI_OBJECT ∧
      Satisfies o.fName o.v ∧ match room with
        | 0 => False
        | deeper + 1 => WellFormed (Serializable deeper) o.v
    | _ => True

/-! ## Readers that leave no more than they got -/

section Shrinks

variable (getName : SField → String)

variable {rest : Blob}

theorem getFieldID_shorter {id : Nat × Nat} {sit : Blob} (h : getFieldID sit = .ok (id, rest)) :
    rest.length < sit.length := by
  rw [(getFieldID_eq_ok h).2.2, addFieldID_eq]
  simp only [add8, length_append, BigEndian.length_encode]
  omega

variable {read : SField → Get STValue}

theorem setStep_eq_ok {v : Fields} {r : Fields ⊕ Fields × Bool} {input : Blob}
    (h : setStep getName read v input = .ok (r, rest)) :
    (∃ flag, r = .inr (v, flag) ∧ rest.length ≤ input.length) ∨
    ∃ (id : Nat × Nat) (sit : Blob) (fn : SField) (t t' : STValue), sit.length < input.length ∧
      SField.getField id.1 id.2 = some fn ∧
      read fn sit = .ok (t, rest) ∧ withTemplate getName fn t = .ok t' ∧ r = .inl (v ++ [(fn, t')]) := by
  obtain ⟨done, sit₁, hdone, h⟩ := bind_eq_ok h
  cases hdone
  split at h
  · cases h
    exact .inl ⟨false, rfl, le_rfl⟩
  obtain ⟨id, sit, hid, h⟩ := bind_eq_ok h
  have hshort := getFieldID_shorter hid
  split at h
  · cases h
    exact .inl ⟨true, rfl, hshort.le⟩
  split at h
  · cases h
  cases hfield : SField.getField id.1 id.2 with
  | none =>
    rw [hfield] at h
    cases h
  | some fn =>
    rw [hfield] at h
    obtain ⟨t, sit₂, ht, h⟩ := bind_eq_ok h
    obtain ⟨t', sit₃, hlift, hpure⟩ := bind_eq_ok h
    obtain ⟨ht', rfl⟩ := Parser.lift_eq_ok hlift
    cases hpure
    exact .inr ⟨id, sit, fn, t, t', hshort, hfield, ht, ht', rfl⟩

variable (hread : ∀ f, Shrinks (read f))

include hread

theorem shrinks_setStep (v : Fields) : Shrinks (setStep getName read v) := by
  intro input r rest h
  rcases setStep_eq_ok getName h with ⟨_, -, hle⟩ | ⟨id, sit, fn, t, t', hshort, -, ht, -, -⟩
  · exact hle
  · exact (hread _ _ _ _ ht).trans hshort.le

theorem consumes_setStep : Parser.Consumes (setStep getName read) := by
  intro v input v' rest h
  rcases setStep_eq_ok getName h with ⟨_, hr, -⟩ | ⟨id, sit, fn, t, t', hshort, -, ht, -, -⟩
  · cases hr
  · exact (hread _ _ _ _ ht).trans_lt hshort

theorem shrinks_set : Shrinks (set getName read) := by
  refine (Shrinks.loop (shrinks_setStep getName hread) _).bind fun r => ?_
  split
  · exact .fail _
  · exact .pure _

end Shrinks

section Arrays

variable (getName : SField → String) {read : Get (Fields × Bool)}

theorem arrayStep_eq_ok {v : List (STObject STValue)} {x : List (STObject STValue) ⊕ List (STObject STValue)}
    {input rest : Blob} (h : arrayStep getName read v input = .ok (x, rest)) :
    (x = .inr v ∧ rest.length ≤ input.length) ∨
    ∃ fn sit r r', sit.length < input.length ∧ fn.fieldType = STI_OBJECT ∧ read sit = .ok (r, rest) ∧
      applyTemplateFromSField getName fn r.1 = .ok r' ∧ x = .inl (v ++ [⟨fn, r'.1, r'.2⟩]) := by
  obtain ⟨done, sit₁, hdone, h⟩ := bind_eq_ok h
  cases hdone
  split at h
  · cases h
    exact .inl ⟨rfl, le_rfl⟩
  obtain ⟨id, sit, hid, h⟩ := bind_eq_ok h
  have hshort := getFieldID_shorter hid
  split at h
  · cases h
    exact .inl ⟨rfl, hshort.le⟩
  split at h
  · cases h
  cases hfield : SField.getField id.1 id.2 with
  | none =>
    rw [hfield] at h
    cases h
  | some fn =>
    rw [hfield] at h
    dsimp only at h
    split at h
    · cases h
    · rename_i htype
      obtain ⟨r, sit₂, hr, h⟩ := bind_eq_ok h
      obtain ⟨r', sit₃, hlift, hpure⟩ := bind_eq_ok h
      obtain ⟨hr', rfl⟩ := Parser.lift_eq_ok hlift
      cases hpure
      exact .inr ⟨fn, sit, r, r', hshort, not_not.mp htype, hr, hr', rfl⟩

variable (hread : Shrinks read)

include hread

theorem shrinks_arrayStep (v : List (STObject STValue)) : Shrinks (arrayStep getName read v) := by
  intro input x rest h
  rcases arrayStep_eq_ok getName h with ⟨-, hle⟩ | ⟨fn, sit, r, r', hshort, -, hr, -, -⟩
  · exact hle
  · exact (hread _ _ _ hr).trans hshort.le

theorem consumes_arrayStep : Parser.Consumes (arrayStep getName read) := by
  intro v input v' rest h
  rcases arrayStep_eq_ok getName h with ⟨hx, -⟩ | ⟨fn, sit, r, r', hshort, -, hr, -, -⟩
  · cases hx
  · exact (hread _ _ _ hr).trans_lt hshort

end Arrays

theorem shrinks_makeAccount (v : Blob) : Shrinks (makeAccount v) := by
  unfold makeAccount
  split
  · exact .pure _
  · split
    · exact .fail _
    · exact .pure _

theorem shrinks_getVar (getName : SField → String) (room : Nat) : ∀ f, Shrinks (getVar getName room f) := by
  induction room using Nat.strong_induction_on with
  | _ room ih =>
    intro f
    cases room with
    | zero => exact .fail _
    | succ room =>
      unfold getVar
      cases f.fieldType with
      | STI_NOTPRESENT => exact .pure _
      | STI_AMOUNT => exact STAmount.shrinks_construct.bind fun _ => .pure _
      | STI_HASH128 | STI_HASH160 | STI_HASH256 => exact (shrinks_getBitString _).bind fun _ => .pure _
      | STI_VECTOR256 | STI_VL => exact shrinks_getVL.bind fun _ => .pure _
      | STI_ACCOUNT => exact shrinks_getVL.bind shrinks_makeAccount
      | STI_PATHSET => exact STPathSet.shrinks_construct.bind fun _ => .pure _
      | STI_OBJECT => exact (shrinks_set getName (ih room (Nat.lt_succ_self _))).bind fun _ => .pure _
      | STI_ARRAY =>
        refine (Shrinks.loop (shrinks_arrayStep getName ?_) _).bind fun _ => .pure _
        cases room with
        | zero => exact .fail _
        | succ deeper => exact shrinks_set getName (ih deeper (by omega))
      | _ => exact (shrinks_getNumber _ _).bind fun _ => .pure _

/-! ## Values without objects -/

theorem length_addBitString {bits : Nat} (v : BitVec bits) : (addBitString v).length = bits / 8 :=
  BigEndian.length_encode _ _

theorem ofNat_toNat_addBitString (v : BitVec 160) : BitVec.ofNat 160 (BigEndian.toNat (addBitString v)) = v := by
  rw [addBitString, BigEndian.toNat_encode_of_lt (lt_of_lt_of_eq v.isLt (by norm_num)), BitVec.ofNat_toNat,
    BitVec.setWidth_eq]

theorem length_hashes (hs : List (BitVec 256)) : (hs.flatMap addBitString).length = 32 * hs.length := by
  induction hs with
  | nil => rfl
  | cons h hs ih =>
    rw [flatMap_cons, length_append, ih, length_addBitString, length_cons]
    omega

theorem takeHashes_flatMap (hs : List (BitVec 256)) : takeHashes hs.length (hs.flatMap addBitString) = hs := by
  induction hs with
  | nil => rfl
  | cons h hs ih =>
    have hlen : (addBitString h).length = 32 := length_addBitString h
    rw [length_cons, takeHashes, flatMap_cons, take_left' hlen, drop_left' hlen, ih,
      addBitString, BigEndian.toNat_encode_of_lt (lt_of_lt_of_eq h.isLt (by norm_num)), BitVec.ofNat_toNat,
      BitVec.setWidth_eq]

variable (getName : SField → String)

theorem reads_getVar_leaf {t : STValue} (h : Serializable (room + 1) f t)
    (hobject : t.getSType ≠ STI_OBJECT) (harray : t.getSType ≠ STI_ARRAY) :
    ∃ bytes, t.add = .ok bytes ∧ Reads (getVar getName (room + 1) f) bytes t := by
  unfold Serializable at h
  obtain ⟨hw, htype, hok⟩ := h
  obtain ⟨type, value⟩ := f
  obtain rfl : t.getSType = type := htype
  cases t with
  | notPresent => exact absurd rfl hw.type
  | uint8 value =>
    have hread := (reads_get8 value.toNat_lt).map fun n => STValue.uint8 (UInt8.ofNat n)
    rw [UInt8.ofNat_toNat] at hread
    exact ⟨_, by rw [STValue.add], hread⟩
  | uint16 value =>
    have hread := (reads_get16 value.toNat_lt).map fun n => STValue.uint16 (UInt16.ofNat n)
    rw [UInt16.ofNat_toNat] at hread
    exact ⟨_, by rw [STValue.add], hread⟩
  | uint32 value =>
    have hread := (reads_get32 value.toNat_lt).map fun n => STValue.uint32 (UInt32.ofNat n)
    rw [UInt32.ofNat_toNat] at hread
    exact ⟨_, by rw [STValue.add], hread⟩
  | uint64 value =>
    have hread := (reads_get64 value.toNat_lt).map fun n => STValue.uint64 (UInt64.ofNat n)
    rw [UInt64.ofNat_toNat] at hread
    exact ⟨_, by rw [STValue.add], hread⟩
  | hash128 value => exact ⟨_, by rw [STValue.add], (reads_getBitString rfl value).map STValue.hash128⟩
  | hash160 value => exact ⟨_, by rw [STValue.add], (reads_getBitString rfl value).map STValue.hash160⟩
  | hash256 value => exact ⟨_, by rw [STValue.add], (reads_getBitString rfl value).map STValue.hash256⟩
  | amount value => exact ⟨_, by rw [STValue.add], (STAmount.reads_construct hok).map STValue.amount⟩
  | blob value =>
    obtain ⟨bytes, hbytes, hread⟩ := reads_getVL hok
    exact ⟨bytes, by rw [STValue.add, hbytes], hread.map STValue.blob⟩
  | account value =>
    have hlen : ((value.map addBitString).getD []).length ≤ 918744 := by
      cases value with
      | none => simp
      | some value => simp [length_addBitString]
    obtain ⟨bytes, hbytes, hread⟩ := reads_getVL hlen
    refine ⟨bytes, by rw [STValue.add, hbytes], fun rest => ?_⟩
    refine (bind_apply (hread rest)).trans ?_
    cases value with
    | none => rfl
    | some value =>
      have hpos : 0 < (addBitString value).length := by
        rw [length_addBitString]
        decide
      have hne : (addBitString value).isEmpty = false :=
        isEmpty_eq_false_iff.mpr (ne_nil_of_length_pos hpos)
      simp [makeAccount, hne, length_addBitString, ofNat_toNat_addBitString]
  | pathSet value => exact ⟨_, by rw [STValue.add], (STPathSet.reads_construct hok).map STValue.pathSet⟩
  | vector256 value =>
    have hlen : (value.flatMap addBitString).length ≤ 918744 := (length_hashes value).trans_le hok
    obtain ⟨bytes, hbytes, hread⟩ := reads_getVL hlen
    have hmap := hread.map fun data => STValue.vector256 (takeHashes (data.length / 32) data)
    rw [length_hashes, Nat.mul_div_cancel_left _ (by decide : 0 < 32), takeHashes_flatMap] at hmap
    exact ⟨bytes, by rw [STValue.add, hbytes], hmap⟩
  | object mType v => exact absurd rfl hobject
  | array v => exact absurd rfl harray

/-! ## The loop over the fields -/

section Loop

variable {getName} {read : SField → Get STValue} (hread : ∀ f, Shrinks (read f))

structure Carried (getName : SField → String) (read : SField → Get STValue) (f : SField) (t : STValue) : Prop where
  writable : f.Writable
  reads : ∃ bytes t', t.add = .ok bytes ∧ Same t' t ∧
    Reads (read f >>= fun t => Parser.lift (withTemplate getName f t)) (bytes ++ endMarker t) t'

include hread

theorem loop_field {f : SField} {t : STValue} (h : Carried getName read f t) :
    ∃ bytes t', t.add = .ok bytes ∧ Same t' t ∧ ∀ v rest,
      Parser.loop (setStep getName read) v (f.addFieldID ++ (bytes ++ (endMarker t ++ rest))) =
        Parser.loop (setStep getName read) (v ++ [(f, t')]) rest := by
  obtain ⟨bytes, t', hbytes, hsame, hreads⟩ := h.reads
  refine ⟨bytes, t', hbytes, hsame, fun v rest => Parser.loop_next (consumes_setStep getName hread) ?_⟩
  have hne : (f.addFieldID ++ (bytes ++ (endMarker t ++ rest))).isEmpty = false := by
    rw [SField.addFieldID, addFieldID_eq]
    rfl
  obtain ⟨t₁, rest₁, ht₁, hlift⟩ := bind_eq_ok (hreads rest)
  rw [append_assoc] at ht₁
  rw [setStep, bind_apply (isEmpty_apply _), hne, if_neg (by simp),
    bind_apply (h.writable.reads _), if_neg (h.writable.ne_marker (.inl rfl)),
    if_neg (h.writable.ne_marker (.inr rfl)), h.writable.getField]
  exact (bind_apply ht₁).trans (bind_apply hlift)

theorem loop_fields {fields : Fields} (h : ∀ p ∈ fields, Carried getName read p.1 p.2) :
    ∃ bytes d, addFields fields = .ok bytes ∧ List.Forall₂ (fun p q => p.1 = q.1 ∧ Same p.2 q.2) d fields ∧
      ∀ v rest, Parser.loop (setStep getName read) v (bytes ++ rest) =
        Parser.loop (setStep getName read) (v ++ d) rest := by
  induction fields with
  | nil => exact ⟨[], [], by rw [addFields], .nil, by simp⟩
  | cons p fields ih =>
    obtain ⟨f, t⟩ := p
    obtain ⟨bytes, t', hbytes, hsame, hloop⟩ := loop_field hread (h (f, t) mem_cons_self)
    obtain ⟨rest, d, hrest, hd, hloops⟩ := ih fun p hp => h p (mem_cons_of_mem _ hp)
    refine ⟨f.addFieldID ++ (bytes ++ (endMarker t ++ rest)), (f, t') :: d, ?_, .cons ⟨rfl, hsame⟩ hd, ?_⟩
    · rw [addFields, hbytes, hrest]
      rfl
    · intro v tail
      simp only [append_assoc] at hloop ⊢
      rw [hloop, hloops]
      simp

variable {v : Fields}

omit hread in
theorem adjacentFind_of_nodup (h : (v.map Prod.fst).Nodup) : adjacentFind v = false := by
  induction v with
  | nil => rfl
  | cons p v ih =>
    rw [map_cons, nodup_cons] at h
    cases v with
    | nil => rfl
    | cons q v =>
      have hne : p.1 ≠ q.1 := fun heq => h.1 (mem_map.mpr ⟨q, mem_cons_self, heq.symm⟩)
      rw [adjacentFind, ih h.2]
      simpa using hne

omit hread in
theorem mirrors_of_forall₂ {d : Fields} (hv : Distinct v)
    (h : List.Forall₂ (fun p q => p.1 = q.1 ∧ Same p.2 q.2) d (getSortedFields v)) :
    Mirrors d v := by
  have hnames : d.map Prod.fst = (getSortedFields v).map Prod.fst := by
    rw [← forall₂_eq_eq_eq, forall₂_map_left_iff, forall₂_map_right_iff]
    exact h.imp fun _ _ hpq => hpq.1
  have hsome : ∀ p ∈ d, ∃ q ∈ getSortedFields v, p.1 = q.1 ∧ Same p.2 q.2 := fun p hp => exists_of_forall₂ h hp
  refine ⟨fun p hp => ?_, ?_, fun p hp q hq hqpres hpq => ?_⟩
  · obtain ⟨q, hq, hname, hsame⟩ := hsome p hp
    obtain ⟨-, hpres, hbin⟩ := mem_getSortedFields.mp hq
    exact ⟨by rwa [STValue.isPresent, hsame.type], hname ▸ hbin⟩
  · rw [hnames]
    exact (getSortedFields_perm v).map _
  · obtain ⟨q', hq', hname, hsame⟩ := hsome p hp
    obtain ⟨hmem, hpres, -⟩ := mem_getSortedFields.mp hq'
    have heq : q' = q := inj_on_of_nodup_map hv.nodup (mem_filter.mpr ⟨hmem, hpres⟩)
      (mem_filter.mpr ⟨hq, hqpres⟩) (hname.symm.trans hpq)
    exact heq ▸ hsame

theorem reads_set (h : WellFormed (Carried getName read) v) :
    ∃ bytes d, add v = .ok bytes ∧ Mirrors d v ∧ set getName read bytes = .ok ((d, false), []) ∧
      Reads (set getName read) (bytes ++ addFieldID STI_OBJECT.code 1) (d, true) := by
  have hfields : ∀ p ∈ getSortedFields v, Carried getName read p.1 p.2 := fun p hp =>
    h.fields p (mem_getSortedFields.mp hp).1 (mem_getSortedFields.mp hp).2.1
  obtain ⟨bytes, d, hbytes, hd, hloop⟩ := loop_fields hread hfields
  have hmirror := mirrors_of_forall₂ h.distinct hd
  have hsorted : ((getSortedFields d).map Prod.fst).Nodup := by
    refine ((getSortedFields_perm d).map _).nodup_iff.mpr ?_
    rw [hmirror.included_eq]
    exact hmirror.nodup h.distinct
  have hend : ∀ (flag : Bool) (input : Blob) {rest : Blob},
      setStep getName read d input = .ok (.inr (d, flag), rest) →
      set getName read (bytes ++ input) = .ok ((d, flag), rest) := by
    intro flag input rest hstep
    rw [set, bind_apply ((hloop [] input).trans (Parser.loop_done hstep)), adjacentFind_of_nodup hsorted,
      if_neg (by simp)]
    rfl
  refine ⟨bytes, d, hbytes, hmirror, ?_, fun rest => ?_⟩
  · have := hend false [] rfl
    rwa [append_nil] at this
  · rw [append_assoc]
    refine hend true _ ?_
    have hne : (addFieldID STI_OBJECT.code 1 ++ rest).isEmpty = false := rfl
    rw [setStep, bind_apply (isEmpty_apply _), hne, if_neg (by simp),
      bind_apply (reads_getFieldID (by decide) (by decide) (by decide) (by decide) rest), if_pos rfl]
    rfl

end Loop

/-! ## Templates -/

theorem template_required (h : findSOTemplateBySField name = some type) :
    (∀ e ∈ type.all, e.flags = .SOE_REQUIRED) ∧ (type.all.map SOElement.e_field).Nodup := by
  unfold findSOTemplateBySField at h
  split at h
  · cases h
    decide
  · split at h
    · cases h
      decide
    · cases h

theorem applyElements_eq {es : List SOElement} (hreq : ∀ e ∈ es, e.flags = .SOE_REQUIRED) :
    ∀ {d : Fields}, (d.map Prod.fst).Perm (es.map SOElement.e_field) →
      ∃ placed, applyElements getName es d = .ok (placed, []) ∧ placed.Perm d ∧
        placed.map Prod.fst = es.map SOElement.e_field := by
  induction es with
  | nil =>
    intro d h
    obtain rfl : d = [] := by simpa using h.eq_nil
    exact ⟨[], rfl, List.Perm.refl _, rfl⟩
  | cons e es ih =>
    intro d h
    obtain ⟨q, hq, hqe⟩ := mem_map.mp (h.mem_iff.mpr mem_cons_self)
    obtain ⟨found, l₁, l₂, hnot, hfound, hd, herase⟩ :=
      exists_of_eraseP hq (p := fun b => decide (b.1 = e.e_field)) (by simpa using hqe)
    have hname : found.1 = e.e_field := by simpa using hfound
    have hfind : d.find? (fun b => b.1 = e.e_field) = some found := by
      rw [hd, find?_append, find?_eq_none.mpr hnot]
      simp [hname]
    have hperm : d.Perm (found :: d.eraseP fun b => b.1 = e.e_field) := by
      rw [herase, hd]
      exact perm_middle
    have hrest : ((d.eraseP fun b => b.1 = e.e_field).map Prod.fst).Perm (es.map SOElement.e_field) := by
      have := (hperm.map Prod.fst).symm.trans h
      rw [map_cons, map_cons, hname] at this
      exact this.cons_inv
    obtain ⟨placed, happly, hplaced, hnames⟩ := ih (fun e he => hreq e (mem_cons_of_mem _ he)) hrest
    refine ⟨found :: placed, ?_, (hplaced.cons found).trans hperm.symm, by rw [map_cons, hname, hnames]; rfl⟩
    have hflag : ¬(e.flags = .SOE_DEFAULT ∧ found.2.isDefault = true) := by simp [hreq e mem_cons_self]
    rw [applyElements, hfind]
    dsimp only
    rw [if_neg hflag, happly]
    rfl

theorem applyTemplateFromSField_eq (h : Mirrors d v) (hv : Distinct v)
    (hbinary : ∀ p ∈ v, p.2.isPresent = true → p.1.isBinary = true) (hsat : Satisfies name v) :
    ∃ d', applyTemplateFromSField getName name d = .ok (findSOTemplateBySField name, d') ∧ Mirrors d' v ∧
      ∀ type, findSOTemplateBySField name = some type → d'.map Prod.fst = type.all.map SOElement.e_field := by
  rw [applyTemplateFromSField]
  cases htype : findSOTemplateBySField name with
  | none => exact ⟨d, rfl, h, nofun⟩
  | some type =>
    obtain ⟨hreq, hnodup⟩ := template_required htype
    obtain ⟨hpresent, -, honly⟩ := hsat type htype
    have hnames : (d.map Prod.fst).Perm (type.all.map SOElement.e_field) := by
      refine (perm_ext_iff_of_nodup (h.nodup hv) hnodup).mpr fun f => ?_
      rw [h.names.mem_iff]
      constructor
      · intro hf
        obtain ⟨p, hp, rfl⟩ := mem_map.mp hf
        exact honly p (mem_included.mp hp).1 (mem_included.mp hp).2.1
      · intro hf
        obtain ⟨e, he, rfl⟩ := mem_map.mp hf
        obtain ⟨p, hp, hpe, hpres⟩ := hpresent e he (hreq e he)
        exact mem_map.mpr ⟨p, mem_included.mpr ⟨hp, hpres, hbinary p hp hpres⟩, hpe⟩
    obtain ⟨placed, happly, hperm, hplaced⟩ := applyElements_eq getName hreq hnames
    refine ⟨placed, ?_, h.perm hperm, fun type' htype' => ?_⟩
    · dsimp only
      rw [applyTemplate, happly]
      rfl
    · rw [hplaced, Option.some.inj htype']

/-! ## Objects and arrays -/

theorem WellFormed.binary (h : WellFormed P v) (hP : ∀ f t, P f t → f.Writable) :
    ∀ p ∈ v, p.2.isPresent = true → p.1.isBinary = true :=
  fun p hp hpres => (hP _ _ (h.fields p hp hpres)).isBinary

theorem Mirrors.sameValue {m' m : Option SOTemplate} (h : Mirrors d v)
    (hlaid : m' ≠ none → m = m' → d.map Prod.fst = v.map Prod.fst ∧ ∀ q ∈ v, q.2.isPresent = true) :
    Same (.object m' d) (.object m v) := by
  have hequal : m' ≠ none → m = m' → equalFields d v = true ∧ equalFields v d = true := by
    intro hm' hm
    obtain ⟨hnames, hpres⟩ := hlaid hm' hm
    exact equalFields_of_names hnames fun p hp q hq => h.same p hp q hq (hpres q hq)
  refine ⟨rfl, ?_, ?_⟩
  · rw [isEquivalent]
    split
    · next hm => exact (hequal hm.1 hm.2).1
    · exact h.equalSorted.1
  · rw [isEquivalent]
    split
    · next hm => exact (hequal (hm.2.symm ▸ hm.1) hm.2.symm).2
    · exact h.equalSorted.2

theorem LaidOut.present (h : LaidOut name mType v) (hsat : Satisfies name v) (hv : Distinct v)
    (htype : findSOTemplateBySField name = some type) (hm : mType = some type) :
    ∀ q ∈ v, q.2.isPresent = true := by
  intro q hq
  have hin : q.1 ∈ type.all.map SOElement.e_field := by
    rw [← h type htype hm]
    exact mem_map.mpr ⟨q, hq, rfl⟩
  obtain ⟨e, he, hqe⟩ := mem_map.mp hin
  obtain ⟨p, hp, hpe, hpres⟩ := (hsat type htype).1 e he ((template_required htype).1 e he)
  by_contra hnot
  exact hv.absent q hq (by simpa using hnot) p hp hpres (hqe.symm.trans hpe.symm)

theorem sameObjects_of_forall₂ {os' os : List (STObject STValue)}
    (h : List.Forall₂ (fun o' o => Mirrors o'.v o.v ∧ Distinct o.v) os' os) :
    sameObjects os' os = true ∧ sameObjects os os' = true := by
  induction h with
  | nil => exact ⟨by rw [sameObjects], by rw [sameObjects]⟩
  | @cons o' o os' os hoo _ ih =>
    obtain ⟨hfwd, hback⟩ := hoo.1.sameObject hoo.2
    obtain ⟨n', m', v'⟩ := o'
    obtain ⟨n, m, v⟩ := o
    exact ⟨by rw [sameObjects, hfwd, ih.1]; rfl, by rw [sameObjects, hback, ih.2]; rfl⟩

section Objects

variable {getName} {read : SField → Get STValue} (hread : ∀ f, Shrinks (read f))

structure CarriedObject (getName : SField → String) (read : SField → Get STValue)
    (o : STObject STValue) : Prop where
  writable : o.fName.Writable
  type : o.fName.fieldType = STI_OBJECT
  satisfies : Satisfies o.fName o.v
  wellFormed : WellFormed (Carried getName read) o.v

include hread

theorem loop_object {o : STObject STValue} (h : CarriedObject getName read o) :
    ∃ bytes o', add o.v = .ok bytes ∧ Mirrors o'.v o.v ∧ ∀ v rest,
      Parser.loop (arrayStep getName (set getName read)) v
          (o.fName.addFieldID ++ (bytes ++ (addFieldID STI_OBJECT.code 1 ++ rest))) =
        Parser.loop (arrayStep getName (set getName read)) (v ++ [o']) rest := by
  obtain ⟨bytes, d, hbytes, hmirror, -, hset⟩ := reads_set hread h.wellFormed
  obtain ⟨d', happly, hmirror', -⟩ := applyTemplateFromSField_eq getName hmirror h.wellFormed.distinct
    (h.wellFormed.binary fun _ _ hc => hc.writable) h.satisfies
  refine ⟨bytes, ⟨o.fName, findSOTemplateBySField o.fName, d'⟩, hbytes, hmirror', fun v rest => ?_⟩
  refine Parser.loop_next (consumes_arrayStep getName (shrinks_set getName hread)) ?_
  have hne : (o.fName.addFieldID ++ (bytes ++ (addFieldID STI_OBJECT.code 1 ++ rest))).isEmpty = false := by
    rw [SField.addFieldID, addFieldID_eq]
    rfl
  have hobject := hset rest
  rw [append_assoc] at hobject
  rw [arrayStep, bind_apply (isEmpty_apply _), hne, if_neg (by simp),
    bind_apply (h.writable.reads _), if_neg (h.writable.ne_marker (.inr rfl)),
    if_neg (h.writable.ne_marker (.inl rfl)), h.writable.getField]
  dsimp only
  rw [if_neg (not_not.mpr h.type), bind_apply hobject, happly]
  rfl

theorem loop_objects {objects : List (STObject STValue)} (h : ∀ o ∈ objects, CarriedObject getName read o) :
    ∃ bytes os, addObjects objects = .ok bytes ∧
      List.Forall₂ (fun o' o => Mirrors o'.v o.v ∧ Distinct o.v) os objects ∧ ∀ v rest,
        Parser.loop (arrayStep getName (set getName read)) v (bytes ++ rest) =
          Parser.loop (arrayStep getName (set getName read)) (v ++ os) rest := by
  induction objects with
  | nil => exact ⟨[], [], by rw [addObjects], .nil, by simp⟩
  | cons o objects ih =>
    have ho := h o mem_cons_self
    obtain ⟨bytes, o', hbytes, hmirror, hloop⟩ := loop_object hread ho
    obtain ⟨rest, os, hrest, hos, hloops⟩ := ih fun o ho => h o (mem_cons_of_mem _ ho)
    refine ⟨o.fName.addFieldID ++ (bytes ++ (addFieldID STI_OBJECT.code 1 ++ rest)), o' :: os, ?_,
      .cons ⟨hmirror, ho.wellFormed.distinct⟩ hos, ?_⟩
    · rw [add] at hbytes
      rw [addObjects, hbytes, hrest]
      rfl
    · intro v tail
      simp only [append_assoc] at hloop ⊢
      rw [hloop, hloops]
      simp

end Objects

theorem arrayStep_end (read : Get (Fields × Bool)) (v : List (STObject STValue)) (rest : Blob) :
    arrayStep getName read v (addFieldID STI_ARRAY.code 1 ++ rest) = .ok (.inr v, rest) := by
  have hne : (addFieldID STI_ARRAY.code 1 ++ rest).isEmpty = false := rfl
  rw [arrayStep, bind_apply (isEmpty_apply _), hne, if_neg (by simp),
    bind_apply (reads_getFieldID (by decide) (by decide) (by decide) (by decide) rest), if_pos rfl]
  rfl

/-! ## The round trip -/

theorem WellFormed.imp {Q : SField → STValue → Prop} (h : WellFormed P v)
    (hPQ : ∀ f t, P f t → Q f t) : WellFormed Q v :=
  ⟨fun p hp hpres => hPQ _ _ (h.fields p hp hpres), h.distinct⟩

theorem carried_leaf {t : STValue} (h : Serializable (room + 1) f t)
    (hobject : t.getSType ≠ STI_OBJECT) (harray : t.getSType ≠ STI_ARRAY) :
    Carried getName (getVar getName (room + 1)) f t := by
  obtain ⟨bytes, hbytes, hreads⟩ := reads_getVar_leaf getName h hobject harray
  have hself := isEquivalent_self hobject harray
  have hend : endMarker t = [] := by
    cases t with
    | object mType v => exact absurd rfl hobject
    | array v => exact absurd rfl harray
    | _ => rfl
  have htemplate : withTemplate getName f t = .ok t := by
    cases t with
    | object mType v => exact absurd rfl hobject
    | _ => rfl
  unfold Serializable at h
  refine ⟨h.1, bytes, t, hbytes, ⟨rfl, hself, hself⟩, fun rest => ?_⟩
  rw [hend, append_nil, bind_apply (hreads rest), htemplate]
  rfl

theorem carried_object
    (ih : ∀ f t, Serializable room f t → Carried getName (getVar getName room) f t)
    (h : Serializable (room + 1) f (.object mType v)) :
    Carried getName (getVar getName (room + 1)) f (.object mType v) := by
  unfold Serializable at h
  obtain ⟨hw, htype, hwf, hsat, hlaid⟩ := h
  have hfields := hwf.imp ih
  obtain ⟨bytes, d, hbytes, hmirror, -, hset⟩ := reads_set (shrinks_getVar getName room) hfields
  obtain ⟨d', happly, hmirror', hnames⟩ := applyTemplateFromSField_eq getName hmirror hwf.distinct
    (hfields.binary fun _ _ hc => hc.writable) hsat
  refine ⟨hw, bytes, .object (findSOTemplateBySField f) d', by rw [STValue.add, ← add, hbytes], ?_, ?_⟩
  · refine hmirror'.sameValue fun hsome hm => ?_
    obtain ⟨type, htemplate⟩ := Option.ne_none_iff_exists'.mp hsome
    rw [htemplate] at hm
    exact ⟨(hnames type htemplate).trans (hlaid type htemplate hm).symm,
      hlaid.present hsat hwf.distinct htemplate hm⟩
  · intro rest
    obtain ⟨type, value⟩ := f
    obtain rfl : STI_OBJECT = type := htype
    refine (bind_apply (?_ : _ = Except.ok (STValue.object none d, rest))).trans ?_
    · exact bind_apply (hset rest)
    · rw [withTemplate, happly]
      rfl

/-- The objects of an array are two levels above their fields; an array at the last level is empty.
-/
theorem carried_array
    (ih : ∀ deeper, room = deeper + 1 → ∀ f t, Serializable deeper f t →
      Carried getName (getVar getName deeper) f t)
    {objects : List (STObject STValue)} (h : Serializable (room + 1) f (.array objects)) :
    Carried getName (getVar getName (room + 1)) f (.array objects) := by
  unfold Serializable at h
  obtain ⟨hw, htype, hobjects⟩ := h
  obtain ⟨type, value⟩ := f
  obtain rfl : STI_ARRAY = type := htype
  cases room with
  | zero =>
    obtain rfl : objects = [] := eq_nil_iff_forall_not_mem.mpr fun o ho => (hobjects o ho).2.2.2.elim
    refine ⟨hw, [], .array [], by rw [STValue.add, addObjects], ⟨rfl, ?_, ?_⟩, fun rest => ?_⟩
    · rw [isEquivalent, sameObjects]
    · rw [isEquivalent, sameObjects]
    · refine (bind_apply (?_ : _ = Except.ok (STValue.array [], rest))).trans rfl
      exact bind_apply (Parser.loop_done (arrayStep_end getName _ [] rest))
  | succ deeper =>
    have hcarried : ∀ o ∈ objects, CarriedObject getName (getVar getName deeper) o := by
      intro o ho
      obtain ⟨hwo, hto, hsat, hwf⟩ := hobjects o ho
      exact ⟨hwo, hto, hsat, hwf.imp (ih deeper rfl)⟩
    obtain ⟨bytes, os, hbytes, hos, hloop⟩ := loop_objects (shrinks_getVar getName deeper) hcarried
    obtain ⟨hfwd, hback⟩ := sameObjects_of_forall₂ hos
    refine ⟨hw, bytes, .array os, by rw [STValue.add, hbytes],
      ⟨rfl, by rw [isEquivalent, hfwd], by rw [isEquivalent, hback]⟩, fun rest => ?_⟩
    refine (bind_apply (?_ : _ = Except.ok (STValue.array os, rest))).trans rfl
    refine bind_apply (?_ : _ = Except.ok (os, rest))
    rw [append_assoc, hloop]
    exact Parser.loop_done (arrayStep_end getName _ _ rest)

theorem carried (room : Nat) : ∀ f t, Serializable room f t → Carried getName (getVar getName room) f t := by
  induction room using Nat.strong_induction_on with
  | _ room ih =>
    intro f t h
    cases room with
    | zero => exact h.elim
    | succ room =>
      cases t with
      | object mType v => exact carried_object getName (ih room (Nat.lt_succ_self _)) h
      | array objects => exact carried_array getName (fun deeper hroom => ih deeper (by omega)) h
      | _ => exact carried_leaf getName h nofun nofun

end Ripple.Protocol
