import Ripple.Lib.Overlay

/-!
# Ripple.Ledger.StateTable

The tables that hold the pending changes of a view: `ledger/impl/RawStateTable.cpp` under an `OpenView`
and `ledger/impl/ApplyStateTable.cpp` under an `ApplyViewBase`. A view reads through its table into the
view below, and applies its table onto the view below; at the bottom is the state map of a ledger.

A pointer to an entry is its identity together with what it points at when the call is made: `update`
and `erase` are given back the pointer that `peek` handed out, with the entry changed by the caller.

* `step_spec`: one call on a stack. `tables_transparent`: any sequence of calls.
-/

namespace Ripple.Ledger.StateTable

open OrderedMap

variable {K V : Type} [LinearOrder K]

abbrev LogicError := String

/-- A key and the check of the type of its entry. -/
structure Keylet (K V : Type) where
  key : K
  check : V → Bool

def Keylet.unchecked (key : K) : Keylet K V := ⟨key, fun _ => true⟩

/-- `ReadView`: the key behind a key is greater. -/
structure ReadView (K V : Type) [LinearOrder K] where
  existsSLE : Keylet K V → Bool
  read : Keylet K V → Option V
  succ : K → Option K → Option K
  succ_gt : ∀ {key last next}, succ key last = some next → key < next

/-- `std::shared_ptr<SLE>`. -/
structure Pointer (V : Type) where
  id : ℕ
  sle : V

/-! ## Reading through a table

Both tables read in the same way; an item shows an entry or hides the key. -/

section Through

variable {A : Type} (shown : A → Option V) (items : OrderedMap K A) (base : ReadView K V)

def existsThrough (k : Keylet K V) : Bool :=
  match items.find? k.key with
  | none => base.existsSLE k
  | some item =>
    match shown item with
    | none => false
    | some sle => k.check sle

def readThrough (k : Keylet K V) : Option V :=
  match items.find? k.key with
  | none => base.read k
  | some item =>
    match shown item with
    | none => none
    | some sle => if k.check sle then some sle else none

def succThrough (key : K) (last : Option K) : Option K :=
  OrderedMap.succLayer (fun k => base.succ k last) (fun _ _ => base.succ_gt) items shown key last

def through : ReadView K V where
  existsSLE := existsThrough shown items base
  read := readThrough shown items base
  succ := succThrough shown items base
  succ_gt := succLayer_gt

end Through

/-! ## RawStateTable -/

inductive RawAction where
  | erase
  | insert
  | replace
deriving DecidableEq

def RawAction.shown : RawAction × Pointer V → Option V
  | (.erase, _) => none
  | (.insert, sle) => some sle.sle
  | (.replace, sle) => some sle.sle

structure RawStateTable (K V : Type) [LinearOrder K] where
  items : OrderedMap K (RawAction × Pointer V) := .empty
  dropsDestroyed : ℤ := 0

namespace RawStateTable

variable (t : RawStateTable K V)

def view (base : ReadView K V) : ReadView K V := through RawAction.shown t.items base

def setItem (key : K) (action : RawAction) (sle : Pointer V) : RawStateTable K V :=
  { t with items := t.items.insert key (action, sle) }

def erase (key : K) (sle : Pointer V) : Except LogicError (RawStateTable K V) :=
  match t.items.find? key with
  | none => .ok (t.setItem key .erase sle)
  | some (.erase, _) => .error "RawStateTable::erase: already erased"
  | some (.insert, _) => .ok { t with items := t.items.erase key }
  | some (.replace, _) => .ok (t.setItem key .erase sle)

def insert (key : K) (sle : Pointer V) : Except LogicError (RawStateTable K V) :=
  match t.items.find? key with
  | none => .ok (t.setItem key .insert sle)
  | some (.erase, _) => .ok (t.setItem key .replace sle)
  | some (.insert, _) => .error "RawStateTable::insert: already inserted"
  | some (.replace, _) => .error "RawStateTable::insert: already exists"

def replace (key : K) (sle : Pointer V) : Except LogicError (RawStateTable K V) :=
  match t.items.find? key with
  | none => .ok (t.setItem key .replace sle)
  | some (.erase, _) => .error "RawStateTable::replace: was erased"
  | some (.insert, _) => .ok (t.setItem key .insert sle)
  | some (.replace, _) => .ok (t.setItem key .replace sle)

def destroyXRP (fee : ℤ) : RawStateTable K V := { t with dropsDestroyed := t.dropsDestroyed + fee }

end RawStateTable

/-! ## ApplyStateTable -/

inductive Action where
  | cache
  | erase
  | insert
  | modify
deriving DecidableEq

def Action.shown : Action × Pointer V → Option V
  | (.erase, _) => none
  | (.cache, sle) => some sle.sle
  | (.insert, sle) => some sle.sle
  | (.modify, sle) => some sle.sle

structure ApplyStateTable (K V : Type) [LinearOrder K] where
  items : OrderedMap K (Action × Pointer V) := .empty
  dropsDestroyed : ℤ := 0

namespace ApplyStateTable

variable (t : ApplyStateTable K V)

def view (base : ReadView K V) : ReadView K V := through Action.shown t.items base

def setItem (key : K) (action : Action) (sle : Pointer V) : ApplyStateTable K V :=
  { t with items := t.items.insert key (action, sle) }

/-- The copy that is made has the identity `id`. -/
def peek (base : ReadView K V) (k : Keylet K V) (id : ℕ) : ApplyStateTable K V × Option (Pointer V) :=
  match t.items.find? k.key with
  | none =>
    match base.read k with
    | none => (t, none)
    | some sle => (t.setItem k.key .cache ⟨id, sle⟩, some ⟨id, sle⟩)
  | some (.erase, _) => (t, none)
  | some (_, sle) => (t, if k.check sle.sle then some sle else none)

def erase (key : K) (sle : Pointer V) : Except LogicError (ApplyStateTable K V) :=
  match t.items.find? key with
  | none => .error "ApplyStateTable::erase: missing key"
  | some (action, held) =>
    if held.id ≠ sle.id then .error "ApplyStateTable::erase: unknown SLE"
    else
      match action with
      | .erase => .error "ApplyStateTable::erase: double erase"
      | .insert => .ok { t with items := t.items.erase key }
      | .cache => .ok (t.setItem key .erase sle)
      | .modify => .ok (t.setItem key .erase sle)

def rawErase (key : K) (sle : Pointer V) : Except LogicError (ApplyStateTable K V) :=
  match t.items.find? key with
  | none => .ok (t.setItem key .erase sle)
  | some (.erase, _) => .error "ApplyStateTable::rawErase: double erase"
  | some (.insert, _) => .ok { t with items := t.items.erase key }
  | some (.cache, _) => .ok (t.setItem key .erase sle)
  | some (.modify, _) => .ok (t.setItem key .erase sle)

def insert (key : K) (sle : Pointer V) : Except LogicError (ApplyStateTable K V) :=
  match t.items.find? key with
  | none => .ok (t.setItem key .insert sle)
  | some (.cache, _) => .error "ApplyStateTable::insert: already cached"
  | some (.insert, _) => .error "ApplyStateTable::insert: already inserted"
  | some (.modify, _) => .error "ApplyStateTable::insert: already modified"
  | some (.erase, _) => .ok (t.setItem key .modify sle)

def replace (key : K) (sle : Pointer V) : Except LogicError (ApplyStateTable K V) :=
  match t.items.find? key with
  | none => .ok (t.setItem key .modify sle)
  | some (.erase, _) => .error "ApplyStateTable::replace: already erased"
  | some (.cache, _) => .ok (t.setItem key .modify sle)
  | some (.insert, _) => .ok (t.setItem key .insert sle)
  | some (.modify, _) => .ok (t.setItem key .modify sle)

/-- The caller has changed the entry behind the pointer. -/
def update (key : K) (sle : Pointer V) : Except LogicError (ApplyStateTable K V) :=
  match t.items.find? key with
  | none => .error "ApplyStateTable::update: missing key"
  | some (action, held) =>
    if held.id ≠ sle.id then .error "ApplyStateTable::update: unknown SLE"
    else
      match action with
      | .erase => .error "ApplyStateTable::update: erased"
      | .cache => .ok (t.setItem key .modify sle)
      | .insert => .ok (t.setItem key .insert sle)
      | .modify => .ok (t.setItem key .modify sle)

def destroyXRP (fee : ℤ) : ApplyStateTable K V := { t with dropsDestroyed := t.dropsDestroyed + fee }

end ApplyStateTable

/-! ## Views -/

inductive View (K V : Type) [LinearOrder K] where
  | ledger (stateMap : OrderedMap K V) (drops : ℤ)
  | openView (base : View K V) (items : RawStateTable K V)
  | applyView (base : View K V) (items : ApplyStateTable K V)

namespace View

/-- The ledger itself does not check the type in `exists`. -/
def readView : View K V → ReadView K V
  | ledger stateMap _ =>
    { existsSLE := fun k => (stateMap.find? k.key).isSome
      read := fun k => (stateMap.find? k.key).filter k.check
      succ := stateMap.succ
      succ_gt := succ_gt }
  | openView base items => items.view base.readView
  | applyView base items => items.view base.readView

def rawErase (key : K) (sle : Pointer V) : View K V → Except LogicError (View K V)
  | ledger stateMap drops =>
    if (stateMap.find? key).isSome then .ok (ledger (stateMap.erase key) drops)
    else .error "Ledger::rawErase: key not found"
  | openView base items => (items.erase key sle).map (openView base)
  | applyView base items => (items.rawErase key sle).map (applyView base)

def rawInsert (key : K) (sle : Pointer V) : View K V → Except LogicError (View K V)
  | ledger stateMap drops =>
    if (stateMap.find? key).isSome then .error "Ledger::rawInsert: key already exists"
    else .ok (ledger (stateMap.insert key sle.sle) drops)
  | openView base items => (items.insert key sle).map (openView base)
  | applyView base items => (items.insert key sle).map (applyView base)

def rawReplace (key : K) (sle : Pointer V) : View K V → Except LogicError (View K V)
  | ledger stateMap drops =>
    if (stateMap.find? key).isSome then .ok (ledger (stateMap.insert key sle.sle) drops)
    else .error "Ledger::rawReplace: key not found"
  | openView base items => (items.replace key sle).map (openView base)
  | applyView base items => (items.replace key sle).map (applyView base)

def rawDestroyXRP (fee : ℤ) : View K V → View K V
  | ledger stateMap drops => ledger stateMap (drops - fee)
  | openView base items => openView base (items.destroyXRP fee)
  | applyView base items => applyView base (items.destroyXRP fee)

end View

def RawAction.applyItem (target : View K V) : K × RawAction × Pointer V → Except LogicError (View K V)
  | (key, .erase, sle) => target.rawErase key sle
  | (key, .insert, sle) => target.rawInsert key sle
  | (key, .replace, sle) => target.rawReplace key sle

def Action.applyItem (target : View K V) : K × Action × Pointer V → Except LogicError (View K V)
  | (_, .cache, _) => .ok target
  | (key, .erase, sle) => target.rawErase key sle
  | (key, .insert, sle) => target.rawInsert key sle
  | (key, .modify, sle) => target.rawReplace key sle

def RawStateTable.apply (t : RawStateTable K V) (target : View K V) : Except LogicError (View K V) :=
  t.items.entries.foldlM RawAction.applyItem (target.rawDestroyXRP t.dropsDestroyed)

def ApplyStateTable.apply (t : ApplyStateTable K V) (target : View K V) : Except LogicError (View K V) :=
  t.items.entries.foldlM Action.applyItem (target.rawDestroyXRP t.dropsDestroyed)

/-! ## What a view stands for -/

/-- What a view answers if it stands for the map `m`. `Keylet::check` asserts that the entry has the
type of the keylet. -/
structure Shows (view : ReadView K V) (m : OrderedMap K V) : Prop where
  read : ∀ k, view.read k = (m.find? k.key).filter k.check
  existsSLE : ∀ k, (∀ sle, m.find? k.key = some sle → k.check sle = true) →
    view.existsSLE k = (m.find? k.key).isSome
  succ : ∀ key last, view.succ key last = m.succ key last

theorem Shows.through {A : Type} {shown : A → Option V} {items : OrderedMap K A} {base : ReadView K V}
    {m : OrderedMap K V} (h : Shows base m) : Shows (through shown items base) (m.layer items shown) where
  read k := by
    change readThrough shown items base k = _
    rw [readThrough, find?_layer]
    cases items.find? k.key with
    | none => exact h.read k
    | some item =>
      cases hshown : shown item with
      | none => simp [hshown]
      | some sle => simp [hshown, Option.filter_some]
  existsSLE k hk := by
    change existsThrough shown items base k = _
    rw [find?_layer] at hk ⊢
    rw [existsThrough]
    cases hitem : items.find? k.key with
    | none =>
      rw [hitem] at hk
      exact h.existsSLE k hk
    | some item =>
      rw [hitem] at hk
      cases hshown : shown item with
      | none => simp [hshown]
      | some sle => simp [hshown, hk sle hshown]
  succ key last := succLayer_eq _ (fun k => h.succ k last) key

/-- Which items can be over an entry of the base, or over none. -/
def RawAction.Fit : RawAction × Pointer V → Option V → Prop
  | (.insert, _), below => below = none
  | (.erase, _), below => below.isSome = true
  | (.replace, _), below => below.isSome = true

/-- A cached copy is that of the base. -/
def Action.Fit : Action × Pointer V → Option V → Prop
  | (.insert, _), below => below = none
  | (.cache, sle), below => below = some sle.sle
  | (.erase, _), below => below.isSome = true
  | (.modify, _), below => below.isSome = true

section Fits

variable {A : Type}

def Fits (Fit : A → Option V → Prop) (items : OrderedMap K A) (m : OrderedMap K V) : Prop :=
  ∀ key item, items.find? key = some item → Fit item (m.find? key)

structure Amended (Fit : A → Option V → Prop) (shown : A → Option V) (m : OrderedMap K V)
    (items items' : OrderedMap K A)
    (c : K × Option V) : Prop where
  fits : Fits Fit items' m
  layer : m.layer items' shown = (m.layer items shown).change c

variable {Fit : A → Option V → Prop} {shown : A → Option V} {m : OrderedMap K V} {items : OrderedMap K A} {key : K}

theorem Fits.set (h : Fits Fit items m) {item : A} (hitem : Fit item (m.find? key)) :
    Amended Fit shown m items (items.insert key item) (key, shown item) := by
  refine ⟨fun k a ha => ?_, layer_insert m items shown key item⟩
  rw [find?_insert] at ha
  split at ha
  · next hk =>
    obtain rfl := Option.some.inj ha
    exact hk ▸ hitem
  · exact h k a ha

theorem Fits.drop (h : Fits Fit items m) (habsent : m.find? key = none) :
    Amended Fit shown m items (items.erase key) (key, none) := by
  refine ⟨fun k a ha => ?_, habsent ▸ layer_erase m items shown key⟩
  rw [find?_erase] at ha
  split at ha
  · simp at ha
  · exact h k a ha

@[elab_as_elim]
theorem Fits.lookup {motive : Option A → Prop} (h : Fits Fit items m) {C : Option V → Prop}
    (hC : C ((m.layer items shown).find? key)) (hnone : C (m.find? key) → motive none)
    (hsome : ∀ item, Fit item (m.find? key) → C (shown item) → motive (some item)) :
    motive (items.find? key) := by
  rw [find?_layer] at hC
  cases hitem : items.find? key with
  | none =>
    rw [hitem] at hC
    exact hnone hC
  | some item =>
    rw [hitem] at hC
    exact hsome item (h key item hitem) hC

end Fits

namespace RawStateTable

variable {t : RawStateTable K V} {m : OrderedMap K V} {key : K}

def onto (t : RawStateTable K V) (m : OrderedMap K V) : OrderedMap K V := m.layer t.items RawAction.shown

def Makes (t : RawStateTable K V) (m : OrderedMap K V) (result : Except LogicError (RawStateTable K V))
    (c : K × Option V) : Prop :=
  ∃ t', result = .ok t' ∧ t'.dropsDestroyed = t.dropsDestroyed ∧
    Amended RawAction.Fit RawAction.shown m t.items t'.items c

variable (h : Fits RawAction.Fit t.items m) (sle : Pointer V)
include h

theorem insert_spec (habsent : (t.onto m).find? key = none) : t.Makes m (t.insert key sle) (key, some sle.sle) := by
  rw [insert]
  refine h.lookup habsent (fun hbelow => ⟨_, rfl, rfl, h.set hbelow⟩) fun ⟨action, held⟩ hfit hhere => ?_
  cases action with
  | erase => exact ⟨_, rfl, rfl, h.set hfit⟩
  | insert | replace => cases hhere

variable (hpresent : ((t.onto m).find? key).isSome = true)
include hpresent

theorem replace_spec : t.Makes m (t.replace key sle) (key, some sle.sle) := by
  rw [replace]
  refine h.lookup hpresent (fun hbelow => ⟨_, rfl, rfl, h.set hbelow⟩) fun ⟨action, held⟩ hfit hhere => ?_
  cases action with
  | erase => cases hhere
  | insert | replace => exact ⟨_, rfl, rfl, h.set hfit⟩

theorem erase_spec : t.Makes m (t.erase key sle) (key, none) := by
  rw [erase]
  refine h.lookup hpresent (fun hbelow => ⟨_, rfl, rfl, h.set hbelow⟩) fun ⟨action, held⟩ hfit hhere => ?_
  cases action with
  | erase => cases hhere
  | insert => exact ⟨_, rfl, rfl, h.drop hfit⟩
  | replace => exact ⟨_, rfl, rfl, h.set hfit⟩

end RawStateTable

namespace ApplyStateTable

variable {t : ApplyStateTable K V} {m : OrderedMap K V} {key : K}

def onto (t : ApplyStateTable K V) (m : OrderedMap K V) : OrderedMap K V := m.layer t.items Action.shown

def Makes (t : ApplyStateTable K V) (m : OrderedMap K V) (result : Except LogicError (ApplyStateTable K V))
    (c : K × Option V) : Prop :=
  ∃ t', result = .ok t' ∧ t'.dropsDestroyed = t.dropsDestroyed ∧
    Amended Action.Fit Action.shown m t.items t'.items c

theorem isSome_of_fit {action : Action} {held : Pointer V} {below : Option V} (h : Action.Fit (action, held) below)
    (hne : action ≠ .insert) : below.isSome = true := by
  cases action with
  | insert => exact absurd rfl hne
  | cache =>
    have hsame : below = some held.sle := h
    simp [hsame]
  | erase | modify => exact h

section Raw

variable (h : Fits Action.Fit t.items m) (sle : Pointer V)
include h

theorem insert_spec (habsent : (t.onto m).find? key = none) : t.Makes m (t.insert key sle) (key, some sle.sle) := by
  rw [insert]
  refine h.lookup habsent (fun hbelow => ⟨_, rfl, rfl, h.set hbelow⟩) fun ⟨action, held⟩ hfit hhere => ?_
  cases action with
  | erase => exact ⟨_, rfl, rfl, h.set hfit⟩
  | cache | insert | modify => cases hhere

variable (hpresent : ((t.onto m).find? key).isSome = true)
include hpresent

theorem replace_spec : t.Makes m (t.replace key sle) (key, some sle.sle) := by
  rw [replace]
  refine h.lookup hpresent (fun hbelow => ⟨_, rfl, rfl, h.set hbelow⟩) fun ⟨action, held⟩ hfit hhere => ?_
  cases action with
  | erase => cases hhere
  | cache => exact ⟨_, rfl, rfl, h.set (isSome_of_fit hfit (by decide))⟩
  | insert | modify => exact ⟨_, rfl, rfl, h.set hfit⟩

theorem rawErase_spec : t.Makes m (t.rawErase key sle) (key, none) := by
  rw [rawErase]
  refine h.lookup hpresent (fun hbelow => ⟨_, rfl, rfl, h.set hbelow⟩) fun ⟨action, held⟩ hfit hhere => ?_
  cases action with
  | erase => cases hhere
  | cache => exact ⟨_, rfl, rfl, h.set (isSome_of_fit hfit (by decide))⟩
  | insert => exact ⟨_, rfl, rfl, h.drop hfit⟩
  | modify => exact ⟨_, rfl, rfl, h.set hfit⟩

end Raw

/-- The pointer that the table holds for a key with an entry: the one that `peek` hands out. -/
def handedOut (t : ApplyStateTable K V) (key : K) : Option ℕ :=
  match t.items.find? key with
  | none => none
  | some (.erase, _) => none
  | some (_, held) => some held.id

theorem handedOut_eq_some {id : ℕ} (h : t.handedOut key = some id) :
    ∃ action held, t.items.find? key = some (action, held) ∧ action ≠ .erase ∧ held.id = id := by
  rw [handedOut] at h
  split at h
  · simp at h
  · simp at h
  · next action held hne hitem => exact ⟨action, held, hitem, hne, Option.some.inj h⟩

variable {sle : Pointer V}

theorem update_spec (h : Fits Action.Fit t.items m) (hheld : t.handedOut key = some sle.id) :
    t.Makes m (t.update key sle) (key, some sle.sle) := by
  obtain ⟨action, held, hitem, hne, hid⟩ := handedOut_eq_some hheld
  have hfit := h key (action, held) hitem
  simp only [update, hitem, hid, ne_eq, not_true_eq_false, if_false]
  cases action with
  | erase => exact absurd rfl hne
  | cache => exact ⟨_, rfl, rfl, h.set (isSome_of_fit hfit (by decide))⟩
  | insert | modify => exact ⟨_, rfl, rfl, h.set hfit⟩

theorem erase_spec (h : Fits Action.Fit t.items m) (hheld : t.handedOut key = some sle.id) :
    t.Makes m (t.erase key sle) (key, none) := by
  obtain ⟨action, held, hitem, hne, hid⟩ := handedOut_eq_some hheld
  have hfit := h key (action, held) hitem
  simp only [erase, hitem, hid, ne_eq, not_true_eq_false, if_false]
  cases action with
  | erase => exact absurd rfl hne
  | cache => exact ⟨_, rfl, rfl, h.set (isSome_of_fit hfit (by decide))⟩
  | insert => exact ⟨_, rfl, rfl, h.drop hfit⟩
  | modify => exact ⟨_, rfl, rfl, h.set hfit⟩

theorem peek_spec (h : Fits Action.Fit t.items m) {base : ReadView K V} (hbase : Shows base m)
    (k : Keylet K V) (id : ℕ) :
    (t.peek base k id).2.map Pointer.sle = ((t.onto m).find? k.key).filter k.check ∧
      (t.peek base k id).1.dropsDestroyed = t.dropsDestroyed ∧
      Fits Action.Fit (t.peek base k id).1.items m ∧ (t.peek base k id).1.onto m = t.onto m := by
  rw [onto, find?_layer, peek]
  cases hitem : t.items.find? k.key with
  | none =>
    have hread := hbase.read k
    cases hfound : base.read k with
    | none => exact ⟨hread ▸ hfound.symm, rfl, h, rfl⟩
    | some sle =>
      have hkey : m.find? k.key = some sle := Option.eq_some_of_filter_eq_some (hread.symm.trans hfound)
      have hset : Amended Action.Fit Action.shown m t.items (t.items.insert k.key (.cache, ⟨id, sle⟩))
          (k.key, some sle) := h.set hkey
      refine ⟨(hread ▸ hfound).symm, rfl, hset.fits, hset.layer.trans ?_⟩
      -- the copy is that of the base
      refine ext_find? fun key => ?_
      rw [find?_change]
      split
      · next heq =>
        simp only at heq
        rw [heq, find?_layer, hitem]
        exact hkey.symm
      · rfl
  | some item =>
    obtain ⟨action, held⟩ := item
    cases action with
    | erase => exact ⟨rfl, rfl, h, rfl⟩
    | cache | insert | modify =>
      refine ⟨?_, rfl, h, rfl⟩
      by_cases hcheck : k.check held.sle <;> simp [Action.shown, Option.filter_some, hcheck]

end ApplyStateTable

/-! ## Stacks of tables -/

namespace View

def map : View K V → OrderedMap K V
  | ledger stateMap _ => stateMap
  | openView base items => items.onto base.map
  | applyView base items => items.onto base.map

/-- The drops that are left when the whole stack is applied. -/
def drops : View K V → ℤ
  | ledger _ drops => drops
  | openView base items => base.drops - items.dropsDestroyed
  | applyView base items => base.drops - items.dropsDestroyed

def depth : View K V → ℕ
  | ledger _ _ => 0
  | openView base _ => base.depth + 1
  | applyView base _ => base.depth + 1

def Coherent : View K V → Prop
  | ledger _ _ => True
  | openView base items => base.Coherent ∧ Fits RawAction.Fit items.items base.map
  | applyView base items => base.Coherent ∧ Fits Action.Fit items.items base.map

theorem shows (v : View K V) : Shows v.readView v.map := by
  induction v with
  | ledger stateMap drops => exact ⟨fun _ => rfl, fun _ _ => rfl, fun _ _ => rfl⟩
  | openView base items ih | applyView base items ih => exact ih.through

structure Becomes (v v' : View K V) (m : OrderedMap K V) : Prop where
  coherent : v'.Coherent
  map : v'.map = m
  drops : v'.drops = v.drops
  depth : v'.depth = v.depth

variable {base v : View K V} {key : K}

variable {c : K × Option V} {A : Type} {f : View K V → K × A → Except LogicError (View K V)}
  {Fit : A → Option V → Prop} {shown : A → Option V}

theorem openView_makes {t : RawStateTable K V} {result : Except LogicError (RawStateTable K V)}
    (hbase : base.Coherent) (h : t.Makes base.map result c) :
    ∃ v', result.map (openView base) = .ok v' ∧ Becomes (openView base t) v' ((openView base t).map.change c) := by
  obtain ⟨t', rfl, hdrops, hitems⟩ := h
  refine ⟨openView base t', rfl, ⟨hbase, hitems.fits⟩, hitems.layer, ?_, rfl⟩
  rw [drops, drops, hdrops]

theorem applyView_makes {t : ApplyStateTable K V} {result : Except LogicError (ApplyStateTable K V)}
    (hbase : base.Coherent) (h : t.Makes base.map result c) :
    ∃ v', result.map (applyView base) = .ok v' ∧
      Becomes (applyView base t) v' ((applyView base t).map.change c) := by
  obtain ⟨t', rfl, hdrops, hitems⟩ := h
  refine ⟨applyView base t', rfl, ⟨hbase, hitems.fits⟩, hitems.layer, ?_, rfl⟩
  rw [drops, drops, hdrops]

section

variable (h : v.Coherent)
include h

theorem rawInsert_spec (sle : Pointer V) (habsent : v.map.find? key = none) :
    ∃ v', v.rawInsert key sle = .ok v' ∧ Becomes v v' (v.map.change (key, some sle.sle)) := by
  cases v with
  | ledger stateMap drops =>
    have hnone : stateMap.find? key = none := habsent
    refine ⟨ledger (stateMap.insert key sle.sle) drops, ?_, trivial, rfl, rfl, rfl⟩
    simp [rawInsert, hnone]
  | openView base t => exact openView_makes h.1 (RawStateTable.insert_spec h.2 sle habsent)
  | applyView base t => exact applyView_makes h.1 (ApplyStateTable.insert_spec h.2 sle habsent)

theorem rawReplace_spec (sle : Pointer V) (hpresent : (v.map.find? key).isSome = true) :
    ∃ v', v.rawReplace key sle = .ok v' ∧ Becomes v v' (v.map.change (key, some sle.sle)) := by
  cases v with
  | ledger stateMap drops =>
    exact ⟨ledger (stateMap.insert key sle.sle) drops, if_pos hpresent, trivial, rfl, rfl, rfl⟩
  | openView base t => exact openView_makes h.1 (RawStateTable.replace_spec h.2 sle hpresent)
  | applyView base t => exact applyView_makes h.1 (ApplyStateTable.replace_spec h.2 sle hpresent)

theorem rawErase_spec (sle : Pointer V) (hpresent : (v.map.find? key).isSome = true) :
    ∃ v', v.rawErase key sle = .ok v' ∧ Becomes v v' (v.map.change (key, none)) := by
  cases v with
  | ledger stateMap drops =>
    exact ⟨ledger (stateMap.erase key) drops, if_pos hpresent, trivial, rfl, rfl, rfl⟩
  | openView base t => exact openView_makes h.1 (RawStateTable.erase_spec h.2 sle hpresent)
  | applyView base t => exact applyView_makes h.1 (ApplyStateTable.rawErase_spec h.2 sle hpresent)

theorem rawDestroyXRP_spec (fee : ℤ) :
    (v.rawDestroyXRP fee).Coherent ∧ (v.rawDestroyXRP fee).map = v.map ∧
      (v.rawDestroyXRP fee).drops = v.drops - fee ∧ (v.rawDestroyXRP fee).depth = v.depth := by
  cases v with
  | ledger stateMap drops => exact ⟨trivial, rfl, rfl, rfl⟩
  | openView base t =>
    refine ⟨h, rfl, ?_, rfl⟩
    simp only [rawDestroyXRP, drops, RawStateTable.destroyXRP]
    ring
  | applyView base t =>
    refine ⟨h, rfl, ?_, rfl⟩
    simp only [rawDestroyXRP, drops, ApplyStateTable.destroyXRP]
    ring

/-! ## Applying a table -/

theorem rawAction_applyItem_spec {item : RawAction × Pointer V}
    (hfit : RawAction.Fit item (v.map.find? key)) :
    ∃ v', RawAction.applyItem v (key, item) = .ok v' ∧ Becomes v v' (v.map.change (key, RawAction.shown item)) := by
  obtain ⟨action, sle⟩ := item
  cases action with
  | erase => exact rawErase_spec h sle hfit
  | insert => exact rawInsert_spec h sle hfit
  | replace => exact rawReplace_spec h sle hfit

theorem action_applyItem_spec {item : Action × Pointer V} (hfit : Action.Fit item (v.map.find? key)) :
    ∃ v', Action.applyItem v (key, item) = .ok v' ∧ Becomes v v' (v.map.change (key, Action.shown item)) := by
  obtain ⟨action, sle⟩ := item
  cases action with
  | cache =>
    -- a copy that was only looked at is what the base has
    have hsame : v.map.find? key = some sle.sle := hfit
    refine ⟨v, rfl, h, ext_find? fun k => ?_, rfl, rfl⟩
    rw [find?_change]
    split
    · next hk => rw [hk, hsame]; rfl
    · rfl
  | erase => exact rawErase_spec h sle hfit
  | insert => exact rawInsert_spec h sle hfit
  | modify => exact rawReplace_spec h sle hfit

end

theorem foldlM_applyItem
    (hstep : ∀ (v : View K V) (key : K) (item : A), v.Coherent → Fit item (v.map.find? key) →
      ∃ v', f v (key, item) = .ok v' ∧ Becomes v v' (v.map.change (key, shown item)))
    {es : List (K × A)} (hes : es.Pairwise fun a b => a.1 < b.1) (hv : v.Coherent)
    (hfit : ∀ e ∈ es, Fit e.2 (v.map.find? e.1)) :
    ∃ v', es.foldlM f v = .ok v' ∧ Becomes v v' (v.map.overlay (es.map fun e => (e.1, shown e.2))) := by
  induction es generalizing v with
  | nil => exact ⟨v, rfl, hv, rfl, rfl, rfl⟩
  | cons e es ih =>
    obtain ⟨hhead, htail⟩ := List.pairwise_cons.mp hes
    obtain ⟨v₁, hf, hv₁⟩ := hstep v e.1 e.2 hv (hfit e List.mem_cons_self)
    have hrest : ∀ e' ∈ es, Fit e'.2 (v₁.map.find? e'.1) := by
      intro e' he'
      rw [hv₁.map, find?_change, if_neg (hhead e' he').ne']
      exact hfit e' (List.mem_cons_of_mem _ he')
    obtain ⟨v₂, hfold, hv₂⟩ := ih htail hv₁.coherent hrest
    refine ⟨v₂, ?_, hv₂.coherent, ?_, hv₂.drops.trans hv₁.drops, hv₂.depth.trans hv₁.depth⟩
    · rw [List.foldlM_cons, hf]
      exact hfold
    · rw [hv₂.map, hv₁.map]
      rfl

structure Absorbs (base v' : View K V) (m : OrderedMap K V) (fee : ℤ) : Prop where
  coherent : v'.Coherent
  map : v'.map = m
  drops : v'.drops = base.drops - fee
  depth : v'.depth = base.depth

theorem absorbs_of_foldlM
    (hstep : ∀ (v : View K V) (key : K) (item : A), v.Coherent → Fit item (v.map.find? key) →
      ∃ v', f v (key, item) = .ok v' ∧ Becomes v v' (v.map.change (key, shown item)))
    {items : OrderedMap K A} (hbase : base.Coherent) (hfits : Fits Fit items base.map) (fee : ℤ) :
    ∃ v', items.entries.foldlM f (base.rawDestroyXRP fee) = .ok v' ∧
      Absorbs base v' (base.map.layer items shown) fee := by
  obtain ⟨hcoh, hmap, hdrops, hdepth⟩ := rawDestroyXRP_spec hbase fee
  have hfit : ∀ e ∈ items.entries, Fit e.2 ((base.rawDestroyXRP fee).map.find? e.1) := by
    intro e he
    rw [hmap]
    exact hfits e.1 e.2 ((items.mem_entries_iff e.1 e.2).mp he)
  obtain ⟨v', hfold, hv'⟩ := foldlM_applyItem hstep items.sorted hcoh hfit
  exact ⟨v', hfold, hv'.coherent, hv'.map.trans (by rw [hmap]; rfl), hv'.drops.trans hdrops,
    hv'.depth.trans hdepth⟩

end View

/-! ## Calls on a stack -/

/-- A call on the view on top of a stack, a new view on top, or the view on top applied onto the one
below. -/
inductive Op (K V : Type) where
  | rawErase (key : K) (sle : Pointer V)
  | rawInsert (key : K) (sle : Pointer V)
  | rawReplace (key : K) (sle : Pointer V)
  | rawDestroyXRP (fee : ℤ)
  | peek (k : Keylet K V) (id : ℕ)
  | update (key : K) (sle : Pointer V)
  | erase (key : K) (sle : Pointer V)
  | newOpenView
  | newApplyView
  | apply

namespace View

/-- `ApplyViewBase::peek`; the other views have no such function. -/
def peek (v : View K V) (k : Keylet K V) (id : ℕ) : Option (View K V × Option (Pointer V)) :=
  match v with
  | applyView base items =>
    some (applyView base (items.peek base.readView k id).1, (items.peek base.readView k id).2)
  | _ => none

def step (v : View K V) : Op K V → Except LogicError (View K V)
  | .rawErase key sle => v.rawErase key sle
  | .rawInsert key sle => v.rawInsert key sle
  | .rawReplace key sle => v.rawReplace key sle
  | .rawDestroyXRP fee => .ok (v.rawDestroyXRP fee)
  | .peek k id => .ok ((v.peek k id).elim v Prod.fst)
  | .update key sle =>
    match v with
    | applyView base items => (items.update key sle).map (applyView base)
    | _ => .error "not an ApplyView"
  | .erase key sle =>
    match v with
    | applyView base items => (items.erase key sle).map (applyView base)
    | _ => .error "not an ApplyView"
  | .newOpenView => .ok (openView v {})
  | .newApplyView => .ok (applyView v {})
  | .apply =>
    match v with
    | ledger _ _ => .ok v
    | openView base items => items.apply base
    | applyView base items => items.apply base

def run (v : View K V) (ops : List (Op K V)) : Except LogicError (View K V) := ops.foldlM step v

/-- The pointer that the view on top holds for a key. -/
def handedOut (v : View K V) (key : K) : Option ℕ :=
  match v with
  | applyView _ items => items.handedOut key
  | _ => none

/-- Entries are inserted where there is none, replaced and erased where there is one; `update` and
`erase` are given a pointer of the view. -/
def Legal (v : View K V) : Op K V → Prop
  | .rawInsert key _ => v.readView.read (.unchecked key) = none
  | .rawReplace key _ => (v.readView.read (.unchecked key)).isSome = true
  | .rawErase key _ => (v.readView.read (.unchecked key)).isSome = true
  | .update key sle => v.handedOut key = some sle.id
  | .erase key sle => v.handedOut key = some sle.id
  | _ => True

def LegalRun : View K V → List (Op K V) → Prop
  | _, [] => True
  | v, op :: ops => v.Legal op ∧ ∀ v', v.step op = .ok v' → LegalRun v' ops

end View

def Op.onMap (m : OrderedMap K V) : Op K V → OrderedMap K V
  | .rawErase key _ => m.erase key
  | .rawInsert key sle => m.insert key sle.sle
  | .rawReplace key sle => m.insert key sle.sle
  | .update key sle => m.insert key sle.sle
  | .erase key _ => m.erase key
  | _ => m

def Op.fee : Op K V → ℤ
  | .rawDestroyXRP fee => fee
  | _ => 0

namespace View

variable {v : View K V}

theorem read_unchecked (v : View K V) (key : K) : v.readView.read (.unchecked key) = v.map.find? key := by
  rw [v.shows.read]
  change (v.map.find? key).filter (fun _ => true) = v.map.find? key
  cases v.map.find? key <;> rfl

variable {v' : View K V}

theorem Becomes.spec {m : OrderedMap K V} (h : Becomes v v' m) :
    v'.Coherent ∧ v'.map = m ∧ v'.drops = v.drops - 0 := ⟨h.coherent, h.map, h.drops.trans (sub_zero _).symm⟩

theorem apply_spec (h : v.Coherent) : ∃ v', v.step .apply = .ok v' ∧
    v'.Coherent ∧ v'.map = v.map ∧ v'.drops = v.drops ∧ v'.depth = v.depth - 1 := by
  cases v with
  | ledger stateMap drops => exact ⟨_, rfl, trivial, rfl, rfl, rfl⟩
  | openView base t =>
    obtain ⟨v', happly, habs⟩ := absorbs_of_foldlM (fun _ _ _ hv hfit => rawAction_applyItem_spec hv hfit)
      h.1 h.2 t.dropsDestroyed
    exact ⟨v', happly, habs.coherent, habs.map, habs.drops, habs.depth⟩
  | applyView base t =>
    obtain ⟨v', happly, habs⟩ := absorbs_of_foldlM (fun _ _ _ hv hfit => action_applyItem_spec hv hfit)
      h.1 h.2 t.dropsDestroyed
    exact ⟨v', happly, habs.coherent, habs.map, habs.drops, habs.depth⟩

theorem peek_spec (h : v.Coherent) {k : Keylet K V} {id : ℕ} {sle : Option (Pointer V)}
    (hpeek : v.peek k id = some (v', sle)) :
    sle.map Pointer.sle = (v.map.find? k.key).filter k.check ∧ Becomes v v' v.map := by
  cases v with
  | ledger stateMap drops | openView base t => simp [peek] at hpeek
  | applyView base t =>
    obtain ⟨rfl, rfl⟩ := Prod.mk.inj (Option.some.inj hpeek)
    obtain ⟨hread, hdrops, hfits, honto⟩ := ApplyStateTable.peek_spec h.2 base.shows k id
    refine ⟨hread, ⟨h.1, hfits⟩, honto, ?_, rfl⟩
    rw [drops, drops, hdrops]

theorem step_spec (h : v.Coherent) {op : Op K V} (hlegal : v.Legal op) :
    ∃ v', v.step op = .ok v' ∧ v'.Coherent ∧ v'.map = op.onMap v.map ∧ v'.drops = v.drops - op.fee := by
  cases op with
  | rawErase key sle =>
    obtain ⟨v', hcall, hv'⟩ := rawErase_spec h sle (by rwa [← read_unchecked])
    exact ⟨v', hcall, hv'.spec⟩
  | rawInsert key sle =>
    obtain ⟨v', hcall, hv'⟩ := rawInsert_spec h sle (by rwa [← read_unchecked])
    exact ⟨v', hcall, hv'.spec⟩
  | rawReplace key sle =>
    obtain ⟨v', hcall, hv'⟩ := rawReplace_spec h sle (by rwa [← read_unchecked])
    exact ⟨v', hcall, hv'.spec⟩
  | rawDestroyXRP fee =>
    obtain ⟨hcoh, hmap, hdrops, -⟩ := rawDestroyXRP_spec h fee
    exact ⟨_, rfl, hcoh, hmap, hdrops⟩
  | peek k id =>
    refine ⟨_, rfl, ?_⟩
    cases hpeek : v.peek k id with
    | none => exact ⟨h, rfl, (sub_zero _).symm⟩
    | some r => exact (peek_spec h hpeek).2.spec
  | update key sle =>
    cases v with
    | applyView base t =>
      obtain ⟨v', hcall, hv'⟩ := applyView_makes h.1 (ApplyStateTable.update_spec h.2 hlegal)
      exact ⟨v', hcall, hv'.spec⟩
    | ledger stateMap drops | openView base t => simp [Legal, handedOut] at hlegal
  | erase key sle =>
    cases v with
    | applyView base t =>
      obtain ⟨v', hcall, hv'⟩ := applyView_makes h.1 (ApplyStateTable.erase_spec h.2 hlegal)
      exact ⟨v', hcall, hv'.spec⟩
    | ledger stateMap drops | openView base t => simp [Legal, handedOut] at hlegal
  | newOpenView | newApplyView =>
    refine ⟨_, rfl, ⟨h, fun key item hitem => ?_⟩, rfl, rfl⟩
    simp [OrderedMap.find?, OrderedMap.empty] at hitem
  | apply =>
    obtain ⟨v', happly, hcoh, hmap, hdrops, -⟩ := apply_spec h
    exact ⟨v', happly, hcoh, hmap, hdrops.trans (sub_zero _).symm⟩

theorem run_spec (h : v.Coherent) {ops : List (Op K V)} (hlegal : v.LegalRun ops) :
    ∃ v', v.run ops = .ok v' ∧ v'.Coherent ∧ v'.map = ops.foldl Op.onMap v.map ∧
      v'.drops = v.drops - (ops.map Op.fee).sum := by
  induction ops generalizing v with
  | nil => exact ⟨v, rfl, h, rfl, by simp⟩
  | cons op ops ih =>
    obtain ⟨v₁, hstep, hcoh, hmap, hdrops⟩ := step_spec h hlegal.1
    obtain ⟨v₂, hrun, hcoh₂, hmap₂, hdrops₂⟩ := ih hcoh (hlegal.2 v₁ hstep)
    refine ⟨v₂, ?_, hcoh₂, ?_, ?_⟩
    · rw [run, List.foldlM_cons, hstep]
      exact hrun
    · rw [hmap₂, hmap, List.foldl_cons]
    · rw [hdrops₂, hdrops, List.map_cons, List.sum_cons]
      ring

/-- The tables of a stack are applied one onto the next, down to the ledger. -/
def applyAll (v : View K V) : Except LogicError (View K V) := v.run (List.replicate v.depth .apply)

theorem applyAll_spec {n : ℕ} (h : v.Coherent) (hn : v.depth = n) :
    v.run (List.replicate n .apply) = .ok (ledger v.map v.drops) := by
  induction n generalizing v with
  | zero =>
    cases v with
    | ledger stateMap drops => rfl
    | openView base t | applyView base t => simp [depth] at hn
  | succ n ih =>
    obtain ⟨v', happly, hcoh, hmap, hdrops, hdepth⟩ := apply_spec h
    rw [List.replicate_succ, run, List.foldlM_cons, happly, ← hmap, ← hdrops]
    exact ih hcoh (by omega)

end View

/-- After any legal calls the view on top is read as the map on which the calls were made directly,
and the tables, applied one onto the next, make this map. -/
theorem tables_transparent (stateMap : OrderedMap K V) (drops : ℤ) {ops : List (Op K V)}
    (hlegal : (View.ledger stateMap drops).LegalRun ops) :
    ∃ v, (View.ledger stateMap drops).run ops = .ok v ∧
      Shows v.readView (ops.foldl Op.onMap stateMap) ∧
      (∀ k id v' sle, v.peek k id = some (v', sle) →
        sle.map Pointer.sle = ((ops.foldl Op.onMap stateMap).find? k.key).filter k.check) ∧
      v.applyAll = .ok (.ledger (ops.foldl Op.onMap stateMap) (drops - (ops.map Op.fee).sum)) := by
  obtain ⟨v, hrun, hcoh, hmap, hdrops⟩ := View.run_spec (v := .ledger stateMap drops) trivial hlegal
  rw [View.map] at hmap
  rw [View.drops] at hdrops
  refine ⟨v, hrun, hmap ▸ v.shows, fun k id v' sle hpeek => ?_, ?_⟩
  · exact hmap ▸ (View.peek_spec hcoh hpeek).1
  · rw [View.applyAll, View.applyAll_spec hcoh rfl, hmap, hdrops]

/-- An entry is changed in an `ApplyView`, and erased and inserted again in an `OpenView` on top. -/
def sampleOps : List (Op ℕ ℕ) :=
  [.newApplyView, .peek (.unchecked 1) 100, .update 1 ⟨100, 11⟩, .rawInsert 2 ⟨101, 20⟩, .newOpenView,
    .rawErase 1 ⟨102, 11⟩, .rawInsert 1 ⟨103, 12⟩, .rawErase 2 ⟨104, 20⟩, .rawDestroyXRP 10, .apply]

def sampleLedger : OrderedMap ℕ ℕ := OrderedMap.empty.insert 1 10

theorem legal_sampleOps : (View.ledger sampleLedger 1000).LegalRun sampleOps := by
  refine ⟨trivial, ?_⟩; rintro _ ⟨⟩
  refine ⟨trivial, ?_⟩; rintro _ ⟨⟩
  refine ⟨rfl, ?_⟩; rintro _ ⟨⟩
  refine ⟨rfl, ?_⟩; rintro _ ⟨⟩
  refine ⟨trivial, ?_⟩; rintro _ ⟨⟩
  refine ⟨rfl, ?_⟩; rintro _ ⟨⟩
  refine ⟨rfl, ?_⟩; rintro _ ⟨⟩
  refine ⟨rfl, ?_⟩; rintro _ ⟨⟩
  refine ⟨trivial, ?_⟩; rintro _ ⟨⟩
  exact ⟨trivial, fun _ _ => trivial⟩

theorem tables_transparent_sample :
    (View.ledger sampleLedger 1000).LegalRun sampleOps ∧
      ∃ v, (View.ledger sampleLedger 1000).run sampleOps = .ok v ∧
        v.applyAll = .ok (.ledger (OrderedMap.empty.insert 1 12) 990) := by
  refine ⟨legal_sampleOps, ?_⟩
  obtain ⟨v, hrun, -, -, happly⟩ := tables_transparent sampleLedger 1000 legal_sampleOps
  have hmap : sampleOps.foldl Op.onMap sampleLedger = OrderedMap.empty.insert 1 12 := by decide
  exact ⟨v, hrun, hmap ▸ happly⟩

end Ripple.Ledger.StateTable
