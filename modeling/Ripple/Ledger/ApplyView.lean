import Ripple.Lib.OrderedMap
import Ripple.Lib.Proc
import Ripple.Ledger.Entry

/-!
# Ripple.Ledger.ApplyView

The view that a transaction works on: the pending changes of `ledger/impl/ApplyStateTable.cpp` over
a base. The base is an `OpenView`, here the finite map of the entries it shows.

`peek` hands out a pointer to the copy that the table holds of an entry. A pointer is named by its
key, and `write` is an assignment through it; a pointer that the table has let go of changes nothing
in the view.
-/

namespace Ripple.Ledger

open Protocol

/-- How a function comes to no result: `LogicError`, an exception, a null pointer followed. -/
inductive Fault where
  | logicError
  | exception
  | nullPointer
deriving DecidableEq

abbrev ApplyFlags := UInt32

def tapRETRY : ApplyFlags := 0x20

/-! ## The base -/

structure OpenView where
  entries : OrderedMap Uint256 SLE := OrderedMap.empty

namespace OpenView

/-- `read(keylet::unchecked(key))`. -/
def read (b : OpenView) (key : Uint256) : Option SLE := b.entries.find? key

end OpenView

/-! ## The table of changes -/

inductive Action where
  | cache
  | erase
  | insert
  | modify
deriving DecidableEq

abbrev Items := OrderedMap Uint256 (Action × SLE)

structure ApplyView where
  base : OpenView
  items : Items := OrderedMap.empty

namespace ApplyView

def read (v : ApplyView) (key : Uint256) : Option SLE :=
  match v.items.find? key with
  | none => v.base.read key
  | some (.erase, _) => none
  | some (_, sle) => some sle

variable (v : ApplyView) (key : Uint256)

def setItem (action : Action) (sle : SLE) : ApplyView :=
  { v with items := v.items.insert key (action, sle) }

/-- What `peek` leaves in the table. -/
def cached (type : LedgerEntryType) (key : Uint256) : ApplyView :=
  match v.items.find? key with
  | some _ => v
  | none =>
    match v.base.read key with
    | some sle => if sle.getType = type then v.setItem key .cache sle else v
    | none => v

def write (entry : Entry) : ApplyView :=
  match v.items.find? key with
  | some (action, sle) => v.setItem key action { sle with entry := entry }
  | none => v

/-- Reading through a pointer: the copy in the table, whatever became of it. -/
def load : Option Entry := (v.items.find? key).map fun item => item.2.entry

def insertSLE (sle : SLE) : Except Fault ApplyView :=
  match v.items.find? key with
  | none => .ok (v.setItem key .insert sle)
  | some (.erase, _) => .ok (v.setItem key .modify sle)
  | some _ => .error .logicError

def updateKey : Except Fault ApplyView :=
  match v.items.find? key with
  | none => .error .logicError
  | some (.erase, _) => .error .logicError
  | some (.cache, sle) => .ok (v.setItem key .modify sle)
  | some (.insert, _) => .ok v
  | some (.modify, _) => .ok v

def eraseKey : Except Fault ApplyView :=
  match v.items.find? key with
  | none => .error .logicError
  | some (.erase, _) => .error .logicError
  | some (.insert, _) => .ok { v with items := v.items.erase key }
  | some (.cache, sle) => .ok (v.setItem key .erase sle)
  | some (.modify, sle) => .ok (v.setItem key .erase sle)

/-- The entry at a key, without the fields that thread transactions. -/
def entryAt : Option Entry := (v.read key).map SLE.entry

/-- What the base will hold at a key: a copy that was only peeked is not written back. -/
def pending : Option SLE :=
  match v.items.find? key with
  | none => v.base.read key
  | some (.cache, _) => v.base.read key
  | some (.erase, _) => none
  | some (_, sle) => some sle

def pendingAt : Option Entry := (v.pending key).map SLE.entry

/-- What `peek` answers: a key with an entry of another type counts as empty. -/
def readAs (type : LedgerEntryType) (key : Uint256) : Option Entry :=
  (v.entryAt key).filter fun e => e.getType = type

end ApplyView

def OpenView.entryAt (b : OpenView) (key : Uint256) : Option Entry := (b.read key).map SLE.entry

/-! ## Procedures over a view -/

/-- A procedure over the view that returns a result of type `R` early. -/
abbrev Op (R α : Type) := Proc Fault ApplyView R α

namespace Op

variable {R : Type}

def peek (type : LedgerEntryType) (key : Uint256) : Op R (Option Entry) := do
  let v ← Proc.get
  Proc.modify fun v => v.cached type key
  pure (v.readAs type key)

def write (key : Uint256) (entry : Entry) : Op R Unit := Proc.modify fun v => v.write key entry

def load (key : Uint256) : Op R (Option Entry) := do
  let v ← Proc.get
  pure (v.load key)

def insert (key : Uint256) (entry : Entry) : Op R Unit :=
  Proc.attempt fun v => v.insertSLE key { entry := entry }

def update (key : Uint256) : Op R Unit := Proc.attempt fun v => v.updateKey key

def erase (key : Uint256) : Op R Unit := Proc.attempt fun v => v.eraseKey key

end Op

/-! ## Steps -/

/-- One call of a function of the view. `insert` needs an absent key, `update` and `erase` a peeked
one. -/
inductive Step : ApplyView → ApplyView → Prop where
  | peek (v type key) : Step v (v.cached type key)
  | write (v key entry) : Step v (v.write key entry)
  | insert {v v' key sle} (habsent : v.read key = none) (h : v.insertSLE key sle = .ok v') : Step v v'
  | update {v v' key} (h : v.updateKey key = .ok v') : Step v v'
  | erase {v v' key} (h : v.eraseKey key = .ok v') : Step v v'

abbrev Steps : ApplyView → ApplyView → Prop := Relation.ReflTransGen Step

/-- An entry is inserted where the base has none; the other actions are on entries of the base. -/
def Coherent (v : ApplyView) : Prop :=
  ∀ key action sle, v.items.find? key = some (action, sle) →
    (action = .insert ↔ v.base.read key = none)

namespace ApplyView

variable {v v' : ApplyView} {key : Uint256} {sle : SLE} {type : LedgerEntryType} {action : Action}

theorem coherent_fresh (base : OpenView) : Coherent { base } := by
  intro key action sle h
  cases h

theorem find?_setItem (k : Uint256) :
    (v.setItem key action sle).items.find? k = if k = key then some (action, sle) else v.items.find? k :=
  OrderedMap.find?_insert _ _ _ _

theorem setItem_setItem (action' : Action) (sle' : SLE) :
    (v.setItem key action sle).setItem key action' sle' = v.setItem key action' sle' := by
  have hitems : (v.items.insert key (action, sle)).insert key (action', sle') =
      v.items.insert key (action', sle') := by
    refine OrderedMap.ext_find? fun k => ?_
    simp only [OrderedMap.find?_insert]
    split <;> rfl
  simp only [setItem, hitems]

theorem Coherent.setItem (h : Coherent v) (hkey : action = .insert ↔ v.base.read key = none) :
    Coherent (v.setItem key action sle) := by
  intro k a s hk
  rw [find?_setItem] at hk
  split at hk
  · rename_i heq
    cases hk
    rw [heq]
    exact hkey
  · exact h k a s hk

theorem insertSLE_ok (h : v.insertSLE key sle = .ok v') :
    (v.items.find? key = none ∧ v' = v.setItem key .insert sle) ∨
      ∃ old, v.items.find? key = some (.erase, old) ∧ v' = v.setItem key .modify sle := by
  unfold insertSLE at h
  split at h
  · cases h
    exact .inl ⟨‹_›, rfl⟩
  · cases h
    exact .inr ⟨_, ‹_›, rfl⟩
  · cases h

theorem updateKey_ok (h : v.updateKey key = .ok v') :
    ∃ action sle, v.items.find? key = some (action, sle) ∧ action ≠ .erase ∧
      ((action = .cache ∧ v' = v.setItem key .modify sle) ∨ (action ≠ .cache ∧ v' = v)) := by
  unfold updateKey at h
  split at h
  · cases h
  · cases h
  · cases h
    exact ⟨_, _, ‹_›, by decide, .inl ⟨rfl, rfl⟩⟩
  · cases h
    exact ⟨_, _, ‹_›, by decide, .inr ⟨by decide, rfl⟩⟩
  · cases h
    exact ⟨_, _, ‹_›, by decide, .inr ⟨by decide, rfl⟩⟩

theorem eraseKey_ok (h : v.eraseKey key = .ok v') :
    ∃ action sle, v.items.find? key = some (action, sle) ∧ action ≠ .erase ∧
      ((action = .insert ∧ v' = { v with items := v.items.erase key }) ∨
        (action ≠ .insert ∧ v' = v.setItem key .erase sle)) := by
  unfold eraseKey at h
  split at h
  · cases h
  · cases h
  · cases h
    exact ⟨_, _, ‹_›, by decide, .inl ⟨rfl, rfl⟩⟩
  · cases h
    exact ⟨_, _, ‹_›, by decide, .inr ⟨by decide, rfl⟩⟩
  · cases h
    exact ⟨_, _, ‹_›, by decide, .inr ⟨by decide, rfl⟩⟩

theorem cached_eq (v : ApplyView) (type : LedgerEntryType) (key : Uint256) : v.cached type key = v ∨
    ∃ sle, v.items.find? key = none ∧ v.base.read key = some sle ∧
      v.cached type key = v.setItem key .cache sle := by
  unfold cached
  split
  · exact .inl rfl
  · rename_i hitem
    split
    · rename_i sle hbase
      split
      · exact .inr ⟨sle, hitem, hbase, rfl⟩
      · exact .inl rfl
    · exact .inl rfl

end ApplyView

open ApplyView

theorem Step.coherent {v v' : ApplyView} (h : Step v v') (hc : Coherent v) : Coherent v' := by
  cases h with
  | peek type key =>
    obtain heq | ⟨sle, hitem, hbase, heq⟩ := cached_eq v type key
    · rw [heq]; exact hc
    · rw [heq]
      exact Coherent.setItem hc (by simp [hbase])
  | write key entry =>
    unfold ApplyView.write
    split
    · exact Coherent.setItem hc (hc _ _ _ ‹_›)
    · exact hc
  | @insert _ key sle habsent h =>
    obtain ⟨hitem, rfl⟩ | ⟨old, hitem, rfl⟩ := insertSLE_ok h
    · have hbase : v.base.read key = none := by simpa [ApplyView.read, hitem] using habsent
      exact Coherent.setItem hc (by simp [hbase])
    · have hbase := hc _ _ _ hitem
      exact Coherent.setItem hc (by simp [← hbase])
  | @update _ key h =>
    obtain ⟨action, sle, hitem, -, ⟨hact, rfl⟩ | ⟨-, rfl⟩⟩ := updateKey_ok h
    · have hbase := hc _ _ _ hitem
      exact Coherent.setItem hc (by simp [← hbase, hact])
    · exact hc
  | @erase _ key h =>
    obtain ⟨action, sle, hitem, -, ⟨hact, rfl⟩ | ⟨hact, rfl⟩⟩ := eraseKey_ok h
    · intro k a s hk
      have hk' : (v.items.erase key).find? k = some (a, s) := hk
      rw [OrderedMap.find?_erase] at hk'
      split at hk'
      · cases hk'
      · exact hc k a s hk'
    · have hbase := hc _ _ _ hitem
      exact Coherent.setItem hc (by simp [← hbase, hact])

theorem Steps.coherent {v v' : ApplyView} (h : Steps v v') (hc : Coherent v) : Coherent v' := by
  induction h with
  | refl => exact hc
  | tail _ hstep ih => exact hstep.coherent ih

end Ripple.Ledger
