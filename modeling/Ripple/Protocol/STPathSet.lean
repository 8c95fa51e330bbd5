import Mathlib.Algebra.Order.BigOperators.Group.List
import Ripple.Protocol.Serializer

/-!
# Ripple.Protocol.STPathSet

Path sets as bytes, from `protocol/STPathSet.h` and `STPathSet.cpp`. The type of an element says which
of its parts follow; a boundary stands between two paths, and the type `typeNone` ends the set.

An element is read back if its type has the bits of its parts that are not zero (`Matching`) and it has
such a part at all. One without a part has the type that ends the set.

The reader does not keep the type but finds it anew (`remake`), and so loses an account or issuer that
is zero: `construct_addTo_iff`.
-/

namespace Ripple.Protocol

open Serializer SerialIter List Ripple.Parser

structure STPathElement where
  mType : Nat
  mAccountID : BitVec 160
  mCurrencyID : BitVec 160
  mIssuerID : BitVec 160
  deriving DecidableEq

namespace STPathElement

def typeNone : Nat := 0x00
def typeAccount : Nat := 0x01
def typeCurrency : Nat := 0x10
def typeIssuer : Nat := 0x20
def typeBoundary : Nat := 0xFF
def typeAll : Nat := typeAccount ||| typeCurrency ||| typeIssuer

def typeOf (account currency issuer : Bool) : Nat :=
  (if account then typeAccount else typeNone) ||| (if currency then typeCurrency else typeNone) |||
    (if issuer then typeIssuer else typeNone)

/-- The constructor that finds the type; `forceCurrency` sets the bit of a currency that is zero. -/
def make (account currency issuer : BitVec 160) (forceCurrency : Bool) : STPathElement where
  mType := typeOf (account ≠ 0) (forceCurrency || currency ≠ 0) (issuer ≠ 0)
  mAccountID := account
  mCurrencyID := currency
  mIssuerID := issuer

def hasBit (iType bit : Nat) : Bool := iType &&& bit ≠ 0

/-- `operator==`; the hash value is a function of the three parts. -/
def same (e t : STPathElement) : Bool :=
  (e.mType &&& typeAccount) == (t.mType &&& typeAccount) && e.mAccountID == t.mAccountID &&
    e.mCurrencyID == t.mCurrencyID && e.mIssuerID == t.mIssuerID

def addPart (iType bit : Nat) (part : BitVec 160) : Blob := if hasBit iType bit then addBitString part else []

variable (e : STPathElement)

/-- What `STPathSet::add` appends for an element. -/
def addTo : Blob :=
  add8 e.mType ++ (addPart e.mType typeAccount e.mAccountID ++
    (addPart e.mType typeCurrency e.mCurrencyID ++ addPart e.mType typeIssuer e.mIssuerID))

def getPart (iType bit : Nat) : Get (BitVec 160) := if hasBit iType bit then getBitString 160 else pure 0

def getParts (iType : Nat) : Get STPathElement := do
  let account ← getPart iType typeAccount
  let currency ← getPart iType typeCurrency
  let issuer ← getPart iType typeIssuer
  pure (make account currency issuer (hasBit iType typeCurrency))

/-- The type has the bits of the parts that are not zero. -/
def Matching : Prop :=
  e.mType = (make e.mAccountID e.mCurrencyID e.mIssuerID false).mType

instance (e : STPathElement) : Decidable (Matching e) := inferInstanceAs (Decidable (_ = _))

def remake : STPathElement :=
  make e.mAccountID e.mCurrencyID e.mIssuerID (hasBit e.mType typeCurrency)

/-- An element as the bytes have it: one of the known types, and zero for the parts that the type does
not name. -/
structure Written (e : STPathElement) : Prop where
  type_eq : e.mType =
    typeOf (hasBit e.mType typeAccount) (hasBit e.mType typeCurrency) (hasBit e.mType typeIssuer)
  ne_none : e.mType ≠ typeNone
  account : e.mAccountID ≠ 0 → hasBit e.mType typeAccount
  currency : e.mCurrencyID ≠ 0 → hasBit e.mType typeCurrency
  issuer : e.mIssuerID ≠ 0 → hasBit e.mType typeIssuer

/-- No account and no issuer that the type names is zero. -/
def Kept : Prop :=
  (hasBit e.mType typeAccount → e.mAccountID ≠ 0) ∧ (hasBit e.mType typeIssuer → e.mIssuerID ≠ 0)

structure Bits (iType : Nat) (account currency issuer : Bool) : Prop where
  account : hasBit iType typeAccount = account
  currency : hasBit iType typeCurrency = currency
  issuer : hasBit iType typeIssuer = issuer
  known : iType &&& (0xFF ^^^ typeAll) = 0
  lt : iType < 256
  ne_boundary : iType ≠ typeBoundary

theorem bits_typeOf (account currency issuer : Bool) :
    Bits (typeOf account currency issuer) account currency issuer := by
  cases account <;> cases currency <;> cases issuer <;> constructor <;> decide

variable {e : STPathElement} {part : BitVec 160} {iType bit : Nat} {rest sit : Blob}

theorem Matching.bits (h : Matching e) :
    Bits e.mType (e.mAccountID ≠ 0) (e.mCurrencyID ≠ 0) (e.mIssuerID ≠ 0) := by
  rw [h]
  exact bits_typeOf _ _ _

theorem Matching.make_eq (h : Matching e) : remake e = e := by
  have hforce : (hasBit e.mType typeCurrency || decide (e.mCurrencyID ≠ 0)) = decide (e.mCurrencyID ≠ 0) := by
    rw [h.bits.currency, Bool.or_self]
  rw [remake, make, hforce]
  exact congrArg (fun t => STPathElement.mk t e.mAccountID e.mCurrencyID e.mIssuerID) h.symm

theorem reads_getPart (h : hasBit iType bit = decide (part ≠ 0)) :
    Parser.Reads (getPart iType bit) (addPart iType bit part) part := by
  rw [getPart, addPart, h]
  by_cases hpart : part = 0
  · subst hpart
    exact Parser.Reads.pure _
  · rw [if_pos (decide_eq_true hpart), if_pos (decide_eq_true hpart)]
    exact reads_getBitString rfl part

theorem Matching.reads_getParts (h : Matching e) :
    Parser.Reads (getParts e.mType) (addPart e.mType typeAccount e.mAccountID ++
      (addPart e.mType typeCurrency e.mCurrencyID ++ addPart e.mType typeIssuer e.mIssuerID)) e := by
  intro rest
  rw [append_assoc, append_assoc, getParts, bind_apply (reads_getPart h.bits.account _),
    bind_apply (reads_getPart h.bits.currency _), bind_apply (reads_getPart h.bits.issuer rest),
    pure_apply, ← remake, h.make_eq]

theorem getPart_eq_ok (h : getPart iType bit sit = .ok (part, rest)) :
    sit = addPart iType bit part ++ rest ∧ (part ≠ 0 → hasBit iType bit) := by
  unfold getPart at h
  unfold addPart
  split at h
  · next hbit =>
    obtain ⟨n, rest', hget, hpure⟩ := bind_eq_ok h
    obtain ⟨hlt, rfl⟩ := getNumber_eq_ok hget
    have hlt : n < 2 ^ 160 := hlt
    cases hpure
    rw [if_pos hbit, addBitString, BitVec.toNat_ofNat, Nat.mod_eq_of_lt hlt]
    exact ⟨rfl, fun _ => hbit⟩
  · next hbit =>
    cases h
    rw [if_neg hbit]
    exact ⟨rfl, fun hne => absurd rfl hne⟩

theorem getParts_eq_ok (hlt : iType < 256) (hnone : iType ≠ typeNone)
    (hknown : iType &&& (0xFF ^^^ typeAll) = 0) (h : getParts iType sit = .ok (e, rest)) :
    ∃ w : STPathElement, Written w ∧ e = remake w ∧ add8 iType ++ sit = w.addTo ++ rest := by
  obtain ⟨account, rest₁, haccount, h₁⟩ := bind_eq_ok h
  obtain ⟨currency, rest₂, hcurrency, h₂⟩ := bind_eq_ok h₁
  obtain ⟨issuer, rest₃, hissuer, hmake⟩ := bind_eq_ok h₂
  obtain ⟨rfl, ha⟩ := getPart_eq_ok haccount
  obtain ⟨rfl, hc⟩ := getPart_eq_ok hcurrency
  obtain ⟨rfl, hi⟩ := getPart_eq_ok hissuer
  cases hmake
  have htypes : ∀ t < 256, t &&& (0xFF ^^^ typeAll) = 0 →
      t = typeOf (hasBit t typeAccount) (hasBit t typeCurrency) (hasBit t typeIssuer) := by decide +kernel
  refine ⟨⟨iType, account, currency, issuer⟩, ⟨htypes iType hlt hknown, hnone, ha, hc, hi⟩, rfl, ?_⟩
  simp only [addTo, append_assoc]

theorem Written.forced (h : Written e) :
    (hasBit e.mType typeCurrency || decide (e.mCurrencyID ≠ 0)) = hasBit e.mType typeCurrency := by
  by_cases hc : e.mCurrencyID = 0
  · simp [hc]
  · simp [h.currency hc]

theorem named_part {named : Bool} (h : part ≠ 0 → named) : (decide (part ≠ 0)).toNat ≤ named.toNat ∧
      ((named → part ≠ 0) ↔ (decide (part ≠ 0)).toNat = named.toNat) := by
  by_cases hpart : part = 0
  · cases named <;> simp [hpart]
  · rw [h hpart, decide_eq_true hpart]
    simp only [le_refl, forall_const, iff_true, true_and]
    exact hpart

theorem Written.remake_eq (h : Written e) (hk : Kept e) : remake e = e := by
  have inj : ∀ a b : Bool, a.toNat = b.toNat → a = b := by decide
  have ha := inj _ _ ((named_part h.account).2.mp hk.1)
  have hi := inj _ _ ((named_part h.issuer).2.mp hk.2)
  rw [remake, make, ha, hi, h.forced, ← h.type_eq]

theorem length_addTo (e : STPathElement) {account currency issuer : Bool}
    (h : Bits e.mType account currency issuer) :
    e.addTo.length = 1 + 20 * (account.toNat + currency.toNat + issuer.toNat) := by
  have hlen : ∀ v : BitVec 160, (addBitString v).length = 20 := fun v => BigEndian.length_encode ..
  simp only [addTo, addPart, h.account, h.currency, h.issuer, length_append]
  cases account <;> cases currency <;> cases issuer <;> simp [hlen, add8]

theorem Written.length_remake (h : Written e) :
    (remake e).addTo.length ≤ e.addTo.length ∧ (¬ Kept e → (remake e).addTo.length < e.addTo.length) := by
  have hnew := length_addTo (remake e) (bits_typeOf _ _ _)
  have hold := length_addTo e (h.type_eq ▸ bits_typeOf _ _ _)
  obtain ⟨ha, ha'⟩ := named_part h.account
  obtain ⟨hi, hi'⟩ := named_part h.issuer
  rw [h.forced] at hnew
  rw [hnew, hold, Kept, ha', hi']
  omega

end STPathElement

namespace STPathSet

open STPathElement

abbrev STPath := List STPathElement

/-- `STPathSet::add`. -/
def addTo (value : List STPath) : Blob :=
  paths true value ++ add8 typeNone
where
  paths (first : Bool) : List STPath → Blob
    | [] => []
    | spPath :: rest =>
      (if first then [] else add8 typeBoundary) ++ (spPath.flatMap STPathElement.addTo ++ paths false rest)

/-- One round of the loop that reads a set: the paths, and the path at hand. -/
def step (s : List STPath × STPath) : Get ((List STPath × STPath) ⊕ List STPath) := do
  let iType ← get8
  if iType = typeNone ∨ iType = typeBoundary then
    if s.2.isEmpty then Parser.fail "empty path"
    else if iType = typeNone then pure (.inr (s.1 ++ [s.2]))
    else pure (.inl (s.1 ++ [s.2], []))
  else if iType &&& (0xFF ^^^ typeAll) ≠ 0 then Parser.fail "bad path element"
  else do
    let e ← getParts iType
    pure (.inl (s.1, s.2 ++ [e]))

/-- `STPathSet (SerialIter& sit, SField const& name)`. -/
def construct : Get (List STPath) := Parser.loop step ([], [])

variable {rest sit : Blob} {value : List STPath}

theorem step_eq_ok {paths : List STPath} {path : STPath} {r : (List STPath × STPath) ⊕ List STPath}
    (h : step (paths, path) sit = .ok (r, rest)) :
    (r = .inl (paths ++ [path], []) ∧ sit = add8 typeBoundary ++ rest) ∨
    (r = .inr (paths ++ [path]) ∧ sit = add8 typeNone ++ rest) ∨
    ∃ w, Written w ∧ r = .inl (paths, path ++ [remake w]) ∧ sit = w.addTo ++ rest := by
  obtain ⟨iType, rest₁, hget, h₁⟩ := bind_eq_ok h
  obtain ⟨hlt, rfl⟩ := getNumber_eq_ok hget
  split at h₁
  · next hmark =>
    split at h₁
    · cases h₁
    · split at h₁
      · next hnone =>
        cases h₁
        exact .inr (.inl ⟨rfl, by rw [hnone]; rfl⟩)
      · next hnone =>
        cases h₁
        exact .inl ⟨rfl, by rw [hmark.resolve_left hnone]; rfl⟩
  · next hmark =>
    split at h₁
    · cases h₁
    · next hknown =>
      obtain ⟨e, rest₂, hparts, hpure⟩ := bind_eq_ok h₁
      cases hpure
      obtain ⟨w, hw, rfl, hsit⟩ := getParts_eq_ok (by simpa using hlt) (fun h => hmark (.inl h))
        (not_not.mp hknown) hparts
      exact .inr (.inr ⟨w, hw, rfl, hsit⟩)

theorem consumes_step : Parser.Consumes step := by
  intro s input s' rest h
  rcases step_eq_ok h with ⟨-, rfl⟩ | ⟨hr, -⟩ | ⟨w, -, -, rfl⟩
  · simp [add8]
  · cases hr
  · simp only [STPathElement.addTo, add8, length_append, BigEndian.length_encode]
    omega

theorem shrinks_step (s : List STPath × STPath) : Parser.Shrinks (step s) := by
  intro input r rest h
  rcases step_eq_ok h with ⟨-, rfl⟩ | ⟨-, rfl⟩ | ⟨w, -, -, rfl⟩ <;> simp

theorem shrinks_construct : Parser.Shrinks construct := Parser.Shrinks.loop shrinks_step _

def Readable (e : STPathElement) : Prop := Matching e ∧ e.mType ≠ typeNone

theorem loop_element {e : STPathElement} (h : Readable e) (paths : List STPath) (path : STPath) (rest : Blob) :
    Parser.loop step (paths, path) (e.addTo ++ rest) = Parser.loop step (paths, path ++ [e]) rest := by
  have hbits := h.1.bits
  refine loop_next consumes_step ?_
  rw [STPathElement.addTo, append_assoc, step, bind_apply (reads_get8 hbits.lt _),
    if_neg (not_or.mpr ⟨h.2, hbits.ne_boundary⟩), if_neg (not_not.mpr hbits.known)]
  exact bind_apply (h.1.reads_getParts rest)

theorem loop_elements {es : STPath} (h : ∀ e ∈ es, Readable e) (paths : List STPath) (rest : Blob) :
    ∀ path, Parser.loop step (paths, path) (es.flatMap STPathElement.addTo ++ rest) =
      Parser.loop step (paths, path ++ es) rest := by
  induction es with
  | nil => simp
  | cons e es ih =>
    intro path
    rw [flatMap_cons, append_assoc, loop_element (h e mem_cons_self),
      ih fun e he => h e (mem_cons_of_mem _ he)]
    simp

theorem loop_paths (hpaths : ∀ path ∈ value, path ≠ [] ∧ ∀ e ∈ path, Readable e) (rest : Blob) :
    ∀ (paths : List STPath) {path : STPath}, path ≠ [] →
      Parser.loop step (paths, path) (addTo.paths false value ++ (add8 typeNone ++ rest)) =
        .ok (paths ++ path :: value, rest) := by
  induction value with
  | nil =>
    intro paths path hne
    refine loop_done ?_
    rw [addTo.paths, nil_append, step, bind_apply (reads_get8 (by decide) rest), if_pos (.inl rfl),
      if_neg (by simpa using hne), if_pos rfl]
    rfl
  | cons next value ih =>
    intro paths path hne
    obtain ⟨hnext, hread⟩ := hpaths next mem_cons_self
    have hboundary : step (paths, path) (add8 typeBoundary ++ (next.flatMap STPathElement.addTo ++
        (addTo.paths false value ++ (add8 typeNone ++ rest)))) = .ok (.inl (paths ++ [path], []),
          next.flatMap STPathElement.addTo ++ (addTo.paths false value ++ (add8 typeNone ++ rest))) := by
      rw [step, bind_apply (reads_get8 (by decide) _), if_pos (.inr rfl), if_neg (by simpa using hne),
        if_neg (by decide)]
      rfl
    rw [addTo.paths, if_neg (by simp), append_assoc, append_assoc,
      loop_next consumes_step hboundary, loop_elements hread,
      ih (fun path hp => hpaths path (mem_cons_of_mem _ hp)) _ (by simpa using hnext)]
    simp

structure Valid (value : List STPath) : Prop where
  ne_nil : value ≠ []
  paths : ∀ path ∈ value, path ≠ [] ∧ ∀ e ∈ path, Readable e

theorem reads_construct (h : Valid value) : Parser.Reads construct (addTo value) value := by
  intro rest
  cases value with
  | nil => exact absurd rfl h.ne_nil
  | cons path value =>
    obtain ⟨hne, hread⟩ := h.paths path mem_cons_self
    rw [construct, addTo, addTo.paths, if_pos rfl, nil_append, append_assoc, append_assoc,
      loop_elements hread, loop_paths (fun path hp => h.paths path (mem_cons_of_mem _ hp)) _ _ (by simpa using hne)]
    simp

theorem paths_append (path : STPath) (read : List STPath) : ∀ first, addTo.paths first (read ++ [path]) =
    (if first then [] else add8 typeBoundary) ++
      (read.flatMap (fun p => p.flatMap STPathElement.addTo ++ add8 typeBoundary) ++
        path.flatMap STPathElement.addTo) := by
  induction read with
  | nil => simp [addTo.paths]
  | cons p read ih =>
    intro first
    rw [cons_append, addTo.paths, ih]
    simp

theorem construct_eq_ok (h : construct sit = .ok (value, rest)) :
    ∃ read : List STPath, (∀ e ∈ read.flatten, Written e) ∧ value = read.map (·.map remake) ∧
      sit = addTo read ++ rest := by
  -- what was read stands in front of what is left, with a boundary behind each path
  refine loop_invariant
    (P := fun s input => ∃ read path, (∀ e ∈ read.flatten ++ path, Written e) ∧
      s = (read.map (·.map remake), path.map remake) ∧
      sit = read.flatMap (fun p => p.flatMap STPathElement.addTo ++ add8 typeBoundary) ++
        (path.flatMap STPathElement.addTo ++ input))
    (Q := fun value rest => ∃ read : List STPath, (∀ e ∈ read.flatten, Written e) ∧
      value = read.map (·.map remake) ∧ sit = addTo read ++ rest)
    ?_ ?_ ⟨[], [], by simp, rfl, rfl⟩ h
  · rintro s input s' rest ⟨read, path, hw, rfl, rfl⟩ hstep
    rcases step_eq_ok hstep with ⟨hs, rfl⟩ | ⟨hs, -⟩ | ⟨w, hwritten, hs, rfl⟩
    · cases hs
      exact ⟨read ++ [path], [], by simpa using hw, by simp, by simp⟩
    · cases hs
    · cases hs
      refine ⟨read, path ++ [w], ?_, by simp, by simp⟩
      intro e he
      rw [← append_assoc, mem_append, mem_singleton] at he
      rcases he with he | rfl
      · exact hw e he
      · exact hwritten
  · rintro s input a rest ⟨read, path, hw, rfl, rfl⟩ hstep
    rcases step_eq_ok hstep with ⟨hs, -⟩ | ⟨hs, rfl⟩ | ⟨w, -, hs, -⟩
    · cases hs
    · cases hs
      exact ⟨read ++ [path], by simpa using hw, by simp, by simp [addTo, paths_append]⟩
    · cases hs

theorem length_addTo (value : List STPath) : (addTo value).length =
    (value.flatten.map fun e => e.addTo.length).sum + (value.length - 1) + 1 := by
  have hpaths : ∀ value, (addTo.paths false value).length =
      (value.flatten.map fun e => e.addTo.length).sum + value.length := by
    intro value
    induction value with
    | nil => rfl
    | cons path value ih =>
      simp [addTo.paths, ih, length_flatMap, add8]
      omega
  cases value with
  | nil => rfl
  | cons path value =>
    simp [addTo, addTo.paths, hpaths, length_flatMap, add8]
    omega

/-- What is read stands in the bytes with its types. Written again, it gives the same bytes exactly if
no account and no issuer that a type names is zero. -/
theorem construct_addTo_iff {sit rest : Blob} {value : List STPath} (h : construct sit = .ok (value, rest)) :
    ∃ read : List STPath, (∀ e ∈ read.flatten, Written e) ∧ sit = addTo read ++ rest ∧
      value = read.map (·.map remake) ∧ (sit = addTo value ++ rest ↔ ∀ e ∈ read.flatten, Kept e) := by
  obtain ⟨read, hw, rfl, rfl⟩ := construct_eq_ok h
  refine ⟨read, hw, rfl, rfl, ?_, ?_⟩
  · intro heq
    by_contra hlost
    push Not at hlost
    have hlen := congrArg List.length (append_cancel_right heq)
    rw [length_addTo, length_addTo, ← map_flatten, map_map, length_map] at hlen
    have hlt := sum_lt_sum (l := read.flatten) ((fun e : STPathElement => e.addTo.length) ∘ remake)
      (fun e => e.addTo.length) (fun e he => (hw e he).length_remake.1)
      (by obtain ⟨e, he, hk⟩ := hlost; exact ⟨e, he, (hw e he).length_remake.2 hk⟩)
    omega
  · intro hk
    have hsame : ∀ path ∈ read, path.map remake = path := by
      intro path hp
      refine (map_congr_left fun e he => ?_).trans (map_id' path)
      have hmem := mem_flatten.mpr ⟨path, hp, he⟩
      exact (hw e hmem).remake_eq (hk e hmem)
    rw [map_congr_left hsame, map_id']

theorem zero_currency_kept : ∃ read : List STPath,
    addTo [[make 0 0 0 true]] = addTo read ++ [] ∧ ∀ e ∈ read.flatten, Kept e := by
  have h : construct (addTo [[make 0 0 0 true]]) = .ok ([[make 0 0 0 true]], []) := rfl
  obtain ⟨read, -, hsit, -, hiff⟩ := construct_addTo_iff h
  exact ⟨read, hsit, hiff.mp (append_nil _).symm⟩

/-- An account that is zero: its element is written as two ends of the set. -/
theorem zero_account_lost :
    construct (add8 typeAccount ++ (addBitString (0 : BitVec 160) ++ add8 typeNone)) =
      .ok ([[make 0 0 0 false]], []) ∧
    addTo [[make 0 0 0 false]] = add8 typeNone ++ add8 typeNone ∧
    addTo [[make 0 0 0 false]] ≠ add8 typeAccount ++ (addBitString (0 : BitVec 160) ++ add8 typeNone) :=
  ⟨rfl, rfl, by decide +kernel⟩

end STPathSet

end Ripple.Protocol
