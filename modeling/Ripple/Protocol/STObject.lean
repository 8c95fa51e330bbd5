import Mathlib.Data.List.Sort
import Ripple.Protocol.STAmountWire
import Ripple.Protocol.STPathSet

/-!
# Ripple.Protocol.STObject

Serialized objects, from `protocol/impl/STObject.cpp`, `STArray.cpp` and `STVar.cpp`, with the fields of
`SField.cpp` and the templates of `InnerObjectFormats.cpp`.

The name of a field occurs in error texts only and is a parameter, `getName`.
-/

namespace Ripple.Protocol

open Serializer SerialIter

/-! ## Fields -/

/-- The types that a field of an object may have, and that of a field that is not present. -/
inductive SerializedTypeID where
  | STI_NOTPRESENT
  | STI_UINT16
  | STI_UINT32
  | STI_UINT64
  | STI_HASH128
  | STI_HASH256
  | STI_AMOUNT
  | STI_VL
  | STI_ACCOUNT
  | STI_OBJECT
  | STI_ARRAY
  | STI_UINT8
  | STI_HASH160
  | STI_PATHSET
  | STI_VECTOR256
  deriving DecidableEq

namespace SerializedTypeID

def code : SerializedTypeID → Nat
  | STI_NOTPRESENT => 0
  | STI_UINT16 => 1
  | STI_UINT32 => 2
  | STI_UINT64 => 3
  | STI_HASH128 => 4
  | STI_HASH256 => 5
  | STI_AMOUNT => 6
  | STI_VL => 7
  | STI_ACCOUNT => 8
  | STI_OBJECT => 14
  | STI_ARRAY => 15
  | STI_UINT8 => 16
  | STI_HASH160 => 17
  | STI_PATHSET => 18
  | STI_VECTOR256 => 19

/-- The types of the fields that `SField::getField` knows or makes. -/
def ofCode : Nat → Option SerializedTypeID
  | 1 => some STI_UINT16
  | 2 => some STI_UINT32
  | 3 => some STI_UINT64
  | 4 => some STI_HASH128
  | 5 => some STI_HASH256
  | 6 => some STI_AMOUNT
  | 7 => some STI_VL
  | 8 => some STI_ACCOUNT
  | 14 => some STI_OBJECT
  | 15 => some STI_ARRAY
  | 16 => some STI_UINT8
  | 17 => some STI_HASH160
  | 18 => some STI_PATHSET
  | 19 => some STI_VECTOR256
  | _ => none

end SerializedTypeID

open SerializedTypeID

structure SField where
  fieldType : SerializedTypeID
  fieldValue : Nat
  deriving DecidableEq

namespace SField

def fieldCode (f : SField) : Nat := (f.fieldType.code <<< 16) ||| f.fieldValue

def isBinary (f : SField) : Bool := f.fieldValue < 256

def isDiscardable (f : SField) : Bool := f.fieldValue > 256

/-- `SField::getField`, which answers `sfInvalid` for `none`. Its other fields are not made from two
bytes. -/
def getField (type value : Nat) : Option SField :=
  if value > 255 then none else (ofCode type).map fun t => ⟨t, value⟩

def addFieldID (f : SField) : Blob := Serializer.addFieldID f.fieldType.code f.fieldValue

end SField

def sfAccount : SField := ⟨STI_ACCOUNT, 1⟩
def sfSignerWeight : SField := ⟨STI_UINT16, 3⟩
def sfSigningPubKey : SField := ⟨STI_VL, 3⟩
def sfTxnSignature : SField := ⟨STI_VL, 4⟩
def sfSignerEntry : SField := ⟨STI_OBJECT, 11⟩
def sfSigner : SField := ⟨STI_OBJECT, 16⟩

/-! ## Templates -/

inductive SOEFlags where
  | SOE_REQUIRED
  | SOE_OPTIONAL
  | SOE_DEFAULT
  deriving DecidableEq

structure SOElement where
  e_field : SField
  flags : SOEFlags
  deriving DecidableEq

/-- A template. Objects hold pointers to templates, so that its address tells it from others. -/
structure SOTemplate where
  address : Nat
  all : List SOElement
  deriving DecidableEq

def findSOTemplateBySField (sField : SField) : Option SOTemplate :=
  if sField = sfSignerEntry then
    some ⟨0, [⟨sfAccount, .SOE_REQUIRED⟩, ⟨sfSignerWeight, .SOE_REQUIRED⟩]⟩
  else if sField = sfSigner then
    some ⟨1, [⟨sfAccount, .SOE_REQUIRED⟩, ⟨sfSigningPubKey, .SOE_REQUIRED⟩, ⟨sfTxnSignature, .SOE_REQUIRED⟩]⟩
  else none

/-! ## Values -/

structure STObject (V : Type) where
  fName : SField
  mType : Option SOTemplate
  v : List (SField × V)

/-- What a field holds. An account that is default has no value. -/
inductive STValue where
  | notPresent
  | uint8 (value : UInt8)
  | uint16 (value : UInt16)
  | uint32 (value : UInt32)
  | uint64 (value : UInt64)
  | hash128 (value : BitVec 128)
  | hash160 (value : BitVec 160)
  | hash256 (value : BitVec 256)
  | amount (value : STAmount)
  | blob (value : Blob)
  | account (value : Option (BitVec 160))
  | pathSet (value : List STPathSet.STPath)
  | vector256 (value : List (BitVec 256))
  | object (mType : Option SOTemplate) (v : List (SField × STValue))
  | array (v : List (STObject STValue))

abbrev Fields := List (SField × STValue)

namespace STValue

def getSType : STValue → SerializedTypeID
  | notPresent => STI_NOTPRESENT
  | uint8 _ => STI_UINT8
  | uint16 _ => STI_UINT16
  | uint32 _ => STI_UINT32
  | uint64 _ => STI_UINT64
  | hash128 _ => STI_HASH128
  | hash160 _ => STI_HASH160
  | hash256 _ => STI_HASH256
  | amount _ => STI_AMOUNT
  | blob _ => STI_VL
  | account _ => STI_ACCOUNT
  | pathSet _ => STI_PATHSET
  | vector256 _ => STI_VECTOR256
  | object _ _ => STI_OBJECT
  | array _ => STI_ARRAY

def isDefault : STValue → Bool
  | notPresent => true
  | uint8 value => value = 0
  | uint16 value => value = 0
  | uint32 value => value = 0
  | uint64 value => value = 0
  | hash128 value => value = 0
  | hash160 value => value = 0
  | hash256 value => value = 0
  | amount value => value.mValue = 0 && value.mIsNative
  | blob value => value.isEmpty
  | account value => value.isNone
  | pathSet value => value.isEmpty
  | vector256 value => value.isEmpty
  | object _ v => v.isEmpty
  | array v => v.isEmpty

def isPresent (t : STValue) : Bool := t.getSType ≠ STI_NOTPRESENT

end STValue

variable (v : Fields)

/-- `getSortedFields (objToSort, withAllFields)`. -/
def getSortedFields : Fields :=
  (v.filter fun p => p.2.isPresent && p.1.isBinary).insertionSort fun lhs rhs => lhs.1.fieldCode ≤ rhs.1.fieldCode

theorem sizeOf_sublist {α : Type} [SizeOf α] {xs ys : List α} (h : xs.Sublist ys) : sizeOf xs ≤ sizeOf ys := by
  induction h with
  | slnil => exact le_rfl
  | cons a _ ih | cons_cons a _ ih =>
    simp only [List.cons.sizeOf_spec]
    omega

theorem sizeOf_getSortedFields : sizeOf (getSortedFields v) ≤ sizeOf v := by
  rw [getSortedFields, (List.perm_insertionSort _ _).sizeOf_eq_sizeOf]
  exact sizeOf_sublist List.filter_sublist

/-! ## Writing -/

def endMarker : STValue → Blob
  | .object _ _ => addFieldID STI_OBJECT.code 1
  | .array _ => addFieldID STI_ARRAY.code 1
  | _ => []

mutual

/-- The `add` of the types of values. -/
def STValue.add : STValue → Except String Blob
  | .notPresent => .ok []
  | .uint8 value => .ok (add8 value.toNat)
  | .uint16 value => .ok (add16 value.toNat)
  | .uint32 value => .ok (add32 value.toNat)
  | .uint64 value => .ok (add64 value.toNat)
  | .hash128 value => .ok (addBitString value)
  | .hash160 value => .ok (addBitString value)
  | .hash256 value => .ok (addBitString value)
  | .amount value => .ok value.addTo
  | .blob value => addVL value
  | .account value => addVL ((value.map addBitString).getD [])
  | .pathSet value => .ok (STPathSet.addTo value)
  | .vector256 value => addVL (value.flatMap addBitString)
  | .object _ v => addFields (getSortedFields v)
  | .array v => addObjects v
termination_by t => sizeOf t
decreasing_by
  · have := sizeOf_getSortedFields v
    simp only [STValue.object.sizeOf_spec]
    omega
  · simp only [STValue.array.sizeOf_spec]
    omega

/-- The loop of `STObject::add` over the sorted fields. -/
def addFields : Fields → Except String Blob
  | [] => .ok []
  | (f, t) :: fields => do
    let bytes ← t.add
    let rest ← addFields fields
    return f.addFieldID ++ (bytes ++ (endMarker t ++ rest))
termination_by fields => sizeOf fields

/-- The loop of `STArray::add`. -/
def addObjects : List (STObject STValue) → Except String Blob
  | [] => .ok []
  | ⟨fName, _, v⟩ :: objects => do
    let bytes ← addFields (getSortedFields v)
    let rest ← addObjects objects
    return fName.addFieldID ++ (bytes ++ (addFieldID STI_OBJECT.code 1 ++ rest))
termination_by objects => sizeOf objects
decreasing_by
  · have := sizeOf_getSortedFields v
    simp only [List.cons.sizeOf_spec, STObject.mk.sizeOf_spec]
    omega
  · simp only [List.cons.sizeOf_spec]
    omega

end

/-- `STObject::add`. -/
def add : Except String Blob := addFields (getSortedFields v)

/-! ## Comparison -/

def samePath : STPathSet.STPath → STPathSet.STPath → Bool
  | [], [] => true
  | e :: es, t :: ts => e.same t && samePath es ts
  | _, _ => false

def samePaths : List STPathSet.STPath → List STPathSet.STPath → Bool
  | [], [] => true
  | p :: ps, q :: qs => samePath p q && samePaths ps qs
  | _, _ => false

def findField (f : SField) : Option STValue := (v.find? fun p => p.1 = f).map Prod.snd

theorem sizeOf_findField {v : Fields} {f : SField} {t : STValue} (h : findField v f = some t) :
    sizeOf t < sizeOf v := by
  rw [findField, Option.map_eq_some_iff] at h
  obtain ⟨p, hp, rfl⟩ := h
  have hmem := List.sizeOf_lt_of_mem (List.mem_of_find?_eq_some hp)
  have hsnd : sizeOf p.2 < sizeOf p := by
    obtain ⟨f, t⟩ := p
    simp only [Prod.mk.sizeOf_spec]
    omega
  omega

def countFields : Nat := v.countP fun p => p.2.isPresent && p.1.isBinary

mutual

/-- The `isEquivalent` of the types of values: `a.isEquivalent (b)`. -/
def isEquivalent : STValue → STValue → Bool
  | .notPresent, .notPresent => true
  | .uint8 a, .uint8 b => a = b
  | .uint16 a, .uint16 b => a = b
  | .uint32 a, .uint32 b => a = b
  | .uint64 a, .uint64 b => a = b
  | .hash128 a, .hash128 b => a = b
  | .hash160 a, .hash160 b => a = b
  | .hash256 a, .hash256 b => a = b
  | .amount a, .amount b => STAmount.equal b a
  | .blob a, .blob b => a = b
  | .account a, .account b => a = b
  | .pathSet a, .pathSet b => samePaths a b
  | .vector256 a, .vector256 b => a = b
  | .object mType v, .object mType' v' =>
    if mType ≠ none ∧ mType' = mType then equalFields v v'
    else equalFields (getSortedFields v) (getSortedFields v')
  | .array v, .array v' => sameObjects v v'
  | _, _ => false
termination_by a b => (sizeOf a + sizeOf b, 0)
decreasing_by
  · simp only [STValue.object.sizeOf_spec]
    exact Prod.Lex.left _ _ (by omega)
  · have := sizeOf_getSortedFields v
    have := sizeOf_getSortedFields v'
    simp only [STValue.object.sizeOf_spec]
    exact Prod.Lex.left _ _ (by omega)
  · simp only [STValue.array.sizeOf_spec]
    exact Prod.Lex.left _ _ (by omega)

/-- `std::equal` over two lists of fields. The names of the fields do not count. -/
def equalFields : Fields → Fields → Bool
  | [], [] => true
  | (_, st1) :: v, (_, st2) :: v' =>
    st1.getSType = st2.getSType && isEquivalent st1 st2 && equalFields v v'
  | _, _ => false
termination_by v v' => (sizeOf v + sizeOf v', 0)

def sameObjects : List (STObject STValue) → List (STObject STValue) → Bool
  | [], [] => true
  | ⟨_, _, v⟩ :: os, ⟨_, _, v'⟩ :: os' => sameObject v v' && sameObjects os os'
  | _, _ => false
termination_by os os' => (sizeOf os + sizeOf os', 0)

/-- `STObject::operator==`. The loop ends with `matches` at the number of its own fields. -/
def sameObject (v v' : Fields) : Bool := matchFields v v' && countFields v' = countFields v
termination_by (sizeOf v + sizeOf v', 1)

/-- Each present field of the first object has a field of its name in the second, `t2`, that is
equivalent to it. -/
def matchFields : Fields → Fields → Bool
  | [], _ => true
  | (f, t1) :: v, v' =>
    if t1.isPresent && f.isBinary then
      match _hfind : findField v' f with
      | none => false
      | some t2 => isEquivalent t2 t1 && matchFields v v'
    else matchFields v v'
termination_by v v' => (sizeOf v + sizeOf v', 0)
decreasing_by
  · have := sizeOf_findField _hfind
    simp only [List.cons.sizeOf_spec, Prod.mk.sizeOf_spec]
    exact Prod.Lex.left _ _ (by omega)
  · simp only [List.cons.sizeOf_spec]
    exact Prod.Lex.left _ _ (by omega)
  · simp only [List.cons.sizeOf_spec]
    exact Prod.Lex.left _ _ (by omega)

end

/-! ## Reading -/

section Read

variable (getName : SField → String)

def fieldErr (f : SField) (description : String) : String := "Field '" ++ getName f ++ "' " ++ description

/-- The loop of `STObject::applyTemplate`: the fields in the order of the template, and those left
over. -/
def applyElements : List SOElement → Fields → Except String (Fields × Fields)
  | [], v => .ok ([], v)
  | e :: es, v =>
    match v.find? fun b => b.1 = e.e_field with
    | some found =>
      if e.flags = .SOE_DEFAULT ∧ found.2.isDefault then
        .error (fieldErr getName e.e_field "may not be explicitly set to default.")
      else do
        let (placed, left) ← applyElements es (v.eraseP fun b => b.1 = e.e_field)
        return (found :: placed, left)
    | none =>
      if e.flags = .SOE_REQUIRED then .error (fieldErr getName e.e_field "is required but missing.")
      else do
        let (placed, left) ← applyElements es v
        return ((e.e_field, .notPresent) :: placed, left)

def applyTemplate (type : SOTemplate) (v : Fields) : Except String Fields := do
  let (placed, left) ← applyElements getName type.all v
  match left.find? fun e => !e.1.isDiscardable with
  | some e => .error (fieldErr getName e.1 "found in disallowed location.")
  | none => .ok placed

/-- `applyTemplateFromSField`: the new template and the fields of an object of the name. -/
def applyTemplateFromSField (sField : SField) (v : Fields) : Except String (Option SOTemplate × Fields) :=
  match findSOTemplateBySField sField with
  | some elements => (applyTemplate getName elements v).map (some elements, ·)
  | none => .ok (none, v)

/-- A value that `STObject::set` has read, with the template of its field if it is an object. -/
def withTemplate (fn : SField) : STValue → Except String STValue
  | .object _ v => (applyTemplateFromSField getName fn v).map fun r => .object r.1 r.2
  | t => .ok t

def adjacentFind : Fields → Bool
  | [] => false
  | [_] => false
  | lhs :: rhs :: rest => lhs.1 = rhs.1 || adjacentFind (rhs :: rest)

/-- One round of the loop of `STObject::set`; `.inr` with the flag `reachedEndOfObject`. -/
def setStep (read : SField → Get STValue) (v : Fields) : Get (Fields ⊕ Fields × Bool) := do
  let done ← Parser.isEmpty
  if done then pure (.inr (v, false))
  else do
    let id ← getFieldID
    if id = (STI_OBJECT.code, 1) then pure (.inr (v, true))
    else if id = (STI_ARRAY.code, 1) then Parser.fail "Illegal end-of-array marker in object"
    else match SField.getField id.1 id.2 with
      | none => Parser.fail "Unknown field"
      | some fn => do
        let t ← read fn
        let t ← Parser.lift (withTemplate getName fn t)
        pure (.inl (v ++ [(fn, t)]))

/-- `STObject::set`, with a reader for the fields. -/
def set (read : SField → Get STValue) : Get (Fields × Bool) := do
  let r ← Parser.loop (setStep getName read) []
  if adjacentFind (getSortedFields r.1) then Parser.fail "Duplicate field detected" else pure r

/-- One round of the loop of the constructor of `STArray`, with a reader for the fields of an
object. -/
def arrayStep (read : Get (Fields × Bool)) (v : List (STObject STValue)) :
    Get (List (STObject STValue) ⊕ List (STObject STValue)) := do
  let done ← Parser.isEmpty
  if done then pure (.inr v)
  else do
    let id ← getFieldID
    if id = (STI_ARRAY.code, 1) then pure (.inr v)
    else if id = (STI_OBJECT.code, 1) then Parser.fail "Illegal terminator in array"
    else match SField.getField id.1 id.2 with
      | none => Parser.fail "Unknown field"
      | some fn =>
        if fn.fieldType ≠ STI_OBJECT then Parser.fail "Non-object in array"
        else do
          let r ← read
          let r ← Parser.lift (applyTemplateFromSField getName fn r.1)
          pure (.inl (v ++ [⟨fn, r.1, r.2⟩]))

def takeHashes : Nat → Blob → List (BitVec 256)
  | 0, _ => []
  | n + 1, data => BitVec.ofNat 256 (BigEndian.toNat (data.take 32)) :: takeHashes n (data.drop 32)

/-- `STAccount (SField const& n, Buffer&& v)`. -/
def makeAccount (v : Blob) : Get STValue :=
  if v.isEmpty then pure (.account none)
  else if v.length ≠ 20 then Parser.fail "Invalid STAccount size"
  else pure (.account (some (BitVec.ofNat 160 (BigEndian.toNat v))))

/-- `STVar (SerialIter& sit, SField const& name, int depth)`, by `room = 11 - depth`. -/
def getVar : (room : Nat) → SField → Get STValue
  | 0, _ => Parser.fail "Maximum nesting depth of STVar exceeded"
  | room + 1, name =>
    match name.fieldType with
    | STI_NOTPRESENT => pure .notPresent
    | STI_UINT8 => get8 >>= fun n => pure (.uint8 (UInt8.ofNat n))
    | STI_UINT16 => get16 >>= fun n => pure (.uint16 (UInt16.ofNat n))
    | STI_UINT32 => get32 >>= fun n => pure (.uint32 (UInt32.ofNat n))
    | STI_UINT64 => get64 >>= fun n => pure (.uint64 (UInt64.ofNat n))
    | STI_AMOUNT => STAmount.construct >>= fun a => pure (.amount a)
    | STI_HASH128 => getBitString 128 >>= fun h => pure (.hash128 h)
    | STI_HASH160 => getBitString 160 >>= fun h => pure (.hash160 h)
    | STI_HASH256 => getBitString 256 >>= fun h => pure (.hash256 h)
    | STI_VECTOR256 => getVL >>= fun data => pure (.vector256 (takeHashes (data.length / 32) data))
    | STI_VL => getVL >>= fun data => pure (.blob data)
    | STI_ACCOUNT => getVL >>= makeAccount
    | STI_PATHSET => STPathSet.construct >>= fun value => pure (.pathSet value)
    | STI_OBJECT => set getName (getVar room) >>= fun r => pure (.object none r.1)
    | STI_ARRAY =>
      let readObject := match room with
        | 0 => Parser.fail "Maximum nesting depth of STObject exceeded"
        | deeper + 1 => set getName (getVar deeper)
      Parser.loop (arrayStep getName readObject) [] >>= fun v => pure (.array v)

/-- `STObject::set (sit, 0)`. -/
def setObject : Get (Fields × Bool) := set getName (getVar getName 10)

end Read

end Ripple.Protocol
