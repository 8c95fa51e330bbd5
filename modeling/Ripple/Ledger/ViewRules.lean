import Ripple.Ledger.ApplyView

/-!
# Ripple.Ledger.ViewRules

What the calls of a view come to, as rules for procedures: `Looks` for `peek`, `Puts` for the calls
that change one entry. They keep `Clean`: what the view shows is what it will leave in the base.
-/

namespace Ripple.Ledger

open Protocol ApplyView

def Has (ok : Action → Prop) (v : ApplyView) (key : Uint256) : Prop :=
  ∃ action sle, v.items.find? key = some (action, sle) ∧ ok action

/-- The table has a copy of the entry: a pointer to it can be had. -/
def Held : ApplyView → Uint256 → Prop := Has fun action => action ≠ .erase

def Marked : ApplyView → Uint256 → Prop := Has fun action => action = .insert ∨ action = .modify

def Clean (v : ApplyView) : Prop := ∀ key, v.pendingAt key = v.entryAt key

structure Looks (v v' : ApplyView) : Prop where
  steps : Steps v v'
  entryAt : ∀ k, v'.entryAt k = v.entryAt k
  clean : Clean v → Clean v'
  held : ∀ k, Held v k → Held v' k

structure Puts (v : ApplyView) (key : Uint256) (entry : Option Entry) (v' : ApplyView) : Prop where
  steps : Steps v v'
  entryAt : ∀ k, v'.entryAt k = if k = key then entry else v.entryAt k
  clean : Clean v → Clean v'
  held : ∀ k, k ≠ key → Held v k → Held v' k

namespace ApplyView

variable {v v' : ApplyView} {key k : Uint256} {sle : SLE} {type : LedgerEntryType} {action : Action}
  {entry : Entry}

theorem held_of_marked (h : Marked v key) : Held v key := by
  obtain ⟨action, sle, hitem, hact⟩ := h
  exact ⟨action, sle, hitem, by rintro rfl; simp at hact⟩

def Action.shown (sle : SLE) : Action → Option SLE
  | .erase => none
  | .cache | .insert | .modify => some sle

theorem read_setItem :
    (v.setItem key action sle).read k = if k = key then Action.shown sle action else v.read k := by
  unfold ApplyView.read
  rw [find?_setItem]
  by_cases hk : k = key
  · cases action with
    | erase | cache | insert | modify => simp [hk, Action.shown]
  · simp only [if_neg hk]
    rfl

theorem pending_setItem : (v.setItem key action sle).pending k =
    if k = key then if action = .cache then v.base.read key else Action.shown sle action else v.pending k := by
  unfold ApplyView.pending
  rw [find?_setItem]
  by_cases hk : k = key
  · cases action with
    | erase | cache | insert | modify => simp [hk, Action.shown, setItem]
  · simp only [if_neg hk]
    rfl

theorem held_setItem {k : Uint256} (h : Held v k) (hne : k = key → action ≠ .erase) :
    Held (v.setItem key action sle) k := by
  obtain ⟨action', sle', hitem, hact⟩ := h
  by_cases hk : k = key
  · exact ⟨action, sle, by rw [find?_setItem, if_pos hk], hne hk⟩
  · exact ⟨action', sle', by rw [find?_setItem, if_neg hk]; exact hitem, hact⟩

theorem puts_setItem (hsteps : Steps v (v.setItem key action sle)) (hne : action ≠ .cache) :
    Puts v key ((Action.shown sle action).map SLE.entry) (v.setItem key action sle) := by
  have hentry : ∀ k, (v.setItem key action sle).entryAt k =
      if k = key then (Action.shown sle action).map SLE.entry else v.entryAt k := by
    intro k
    rw [entryAt, read_setItem]
    split <;> rfl
  refine ⟨hsteps, hentry, fun hclean k => ?_, fun k hk h => held_setItem h fun h => absurd h hk⟩
  rw [hentry, ← hclean k, pendingAt, pending_setItem, if_neg hne]
  split <;> rfl

theorem looks_cached (v : ApplyView) (type : LedgerEntryType) (key : Uint256) :
    Looks v (v.cached type key) := by
  have hsteps : Steps v (v.cached type key) := .single (.peek v type key)
  obtain heq | ⟨sle, hitem, hbase, heq⟩ := cached_eq v type key
  · rw [heq] at hsteps ⊢
    exact ⟨hsteps, fun _ => rfl, fun h => h, fun _ h => h⟩
  · rw [heq] at hsteps ⊢
    have hread : v.read key = some sle := by simp [ApplyView.read, hitem, hbase]
    have hpending : v.pending key = some sle := by simp [ApplyView.pending, hitem, hbase]
    have hentry : ∀ k, (v.setItem key .cache sle).entryAt k = v.entryAt k := by
      intro k
      rw [entryAt, entryAt, read_setItem]
      split
      · rename_i hk; rw [hk, hread]; rfl
      · rfl
    refine ⟨hsteps, hentry, fun hclean k => ?_, fun k h => held_setItem h fun _ => by decide⟩
    rw [hentry, ← hclean k, pendingAt, pendingAt, pending_setItem, if_pos rfl]
    split
    · rename_i hk; rw [hk, hpending, hbase]
    · rfl

theorem held_cached (h : v.readAs type key ≠ none) : Held (v.cached type key) key := by
  have hread : ∃ sle, v.read key = some sle ∧ sle.getType = type := by
    obtain ⟨e, he⟩ := Option.ne_none_iff_exists'.1 h
    obtain ⟨hentry, htype⟩ := Option.filter_eq_some_iff.1 he
    obtain ⟨sle, hsle, rfl⟩ := Option.map_eq_some_iff.1 hentry
    exact ⟨sle, hsle, of_decide_eq_true htype⟩
  obtain ⟨sle, hsle, htype⟩ := hread
  unfold cached
  cases hitem : v.items.find? key with
  | some item =>
    obtain ⟨action, old⟩ := item
    refine ⟨action, old, hitem, ?_⟩
    rintro rfl
    simp [ApplyView.read, hitem] at hsle
  | none =>
    have hbase : v.base.read key = some sle := by simpa [ApplyView.read, hitem] using hsle
    simp only [hbase, htype, if_true]
    exact ⟨.cache, sle, by rw [find?_setItem]; simp, by decide⟩

theorem load_of_held (h : Held v key) : v.load key = v.entryAt key := by
  obtain ⟨action, sle, hitem, hact⟩ := h
  cases action with
  | erase => exact absurd rfl hact
  | cache | insert | modify => simp [ApplyView.load, entryAt, ApplyView.read, hitem]

end ApplyView

/-! ## Rules -/

section Rules

variable {R : Type} {E : Fault → Prop} {P : R → ApplyView → Prop} {v : ApplyView} {key : Uint256}

theorem wp_peek {type : LedgerEntryType} {Q : Option Entry → ApplyView → Prop}
    (hQ : ∀ v', Looks v v' → (v.readAs type key ≠ none → Held v' key) → Q (v.readAs type key) v') :
    Proc.wp (Op.peek type key) E P Q v := by
  simp only [Op.peek, Proc.wp_bind, Proc.wp_get, Proc.wp_modify, Proc.wp_pure]
  exact hQ _ (looks_cached v type key) held_cached

variable {Q : Unit → ApplyView → Prop} {entry : Entry}

theorem wp_insert (habsent : v.entryAt key = none)
    (hQ : ∀ v', Puts v key (some entry) v' → Marked v' key → Q () v') :
    Proc.wp (Op.insert key entry) E P Q v := by
  have hread : v.read key = none := by simpa [entryAt] using habsent
  refine Proc.wp_attempt (fun v' h => ?_) fun e h => ?_
  · have hsteps : Steps v v' := .single (.insert hread h)
    obtain ⟨-, rfl⟩ | ⟨old, -, rfl⟩ := insertSLE_ok h
    · exact hQ _ (puts_setItem hsteps (by decide)) ⟨_, _, by rw [find?_setItem, if_pos rfl], .inl rfl⟩
    · exact hQ _ (puts_setItem hsteps (by decide)) ⟨_, _, by rw [find?_setItem, if_pos rfl], .inr rfl⟩
  · -- an item that is not erased can be read
    exfalso
    unfold insertSLE at h
    unfold ApplyView.read at hread
    cases hitem : v.items.find? key with
    | none => simp [hitem] at h
    | some item =>
      obtain ⟨action, sle⟩ := item
      rw [hitem] at h hread
      cases action with
      | erase => cases h
      | cache | insert | modify => cases hread

/-- An assignment through a pointer, which `update` then makes known. -/
def Op.put (key : Uint256) (entry : Entry) : Op R Unit := do
  Op.write key entry
  Op.update key

theorem wp_put (hheld : Held v key)
    (hQ : ∀ v', Puts v key (some entry) v' → Marked v' key → Q () v') :
    Proc.wp (Op.put key entry) E P Q v := by
  obtain ⟨action, sle, hitem, hne⟩ := hheld
  let sle' : SLE := { sle with entry := entry }
  have hwrite : v.write key entry = v.setItem key action sle' := by
    unfold ApplyView.write
    rw [hitem]
  have hitem' : (v.setItem key action sle').items.find? key = some (action, sle') := by
    rw [find?_setItem, if_pos rfl]
  have hmark : ∀ action', action' = .insert ∨ action' = .modify →
      Marked (v.setItem key action' sle') key := fun action' hact =>
    ⟨action', sle', by rw [find?_setItem, if_pos rfl], hact⟩
  simp only [Op.put, Op.write, Proc.wp_bind, Proc.wp_modify, hwrite]
  refine Proc.wp_attempt (fun v' h => ?_) fun e h => ?_
  · have hsteps : Steps v v' := .tail (.single (hwrite ▸ Step.write v key entry)) (.update h)
    obtain ⟨action', sle'', hfound, -, ⟨-, rfl⟩ | ⟨hcache, rfl⟩⟩ := updateKey_ok h
    · rw [hitem'] at hfound
      cases hfound
      rw [setItem_setItem] at hsteps ⊢
      exact hQ _ (puts_setItem hsteps (by decide)) (hmark .modify (.inr rfl))
    · rw [hitem'] at hfound
      cases hfound
      cases action with
      | erase => exact absurd rfl hne
      | cache => exact absurd rfl hcache
      | insert => exact hQ _ (puts_setItem hsteps (by decide)) (hmark .insert (.inl rfl))
      | modify => exact hQ _ (puts_setItem hsteps (by decide)) (hmark .modify (.inr rfl))
  · exfalso
    unfold updateKey at h
    rw [hitem'] at h
    cases action with
    | erase => exact hne rfl
    | cache | insert | modify => cases h

theorem wp_erase (hc : Coherent v) (hheld : Held v key) (hQ : ∀ v', Puts v key none v' → Q () v') :
    Proc.wp (Op.erase key) E P Q v := by
  obtain ⟨action, sle, hitem, hne⟩ := hheld
  refine Proc.wp_attempt (fun v' h => ?_) fun e h => ?_
  · have hsteps : Steps v v' := .single (.erase h)
    obtain ⟨action', sle', hfound, -, ⟨hact, rfl⟩ | ⟨-, rfl⟩⟩ := eraseKey_ok h
    · have hbase := (hc _ _ _ hfound).1 hact
      have hentry : ∀ k, ({ v with items := v.items.erase key } : ApplyView).entryAt k =
          if k = key then none else v.entryAt k := by
        intro k
        simp only [entryAt, ApplyView.read, OrderedMap.find?_erase]
        by_cases hk : k = key
        · simp [hk, hbase]
        · simp [hk]
      refine hQ _ ⟨hsteps, hentry, fun hclean k => ?_, fun k hk h => ?_⟩
      · rw [hentry, ← hclean k]
        simp only [pendingAt, ApplyView.pending, OrderedMap.find?_erase]
        by_cases hk : k = key
        · simp [hk, hbase]
        · simp [hk]
      · obtain ⟨action, sle, hitem, hne⟩ := h
        exact ⟨action, sle, by rw [OrderedMap.find?_erase, if_neg hk]; exact hitem, hne⟩
    · exact hQ _ (puts_setItem hsteps (by decide))
  · exfalso
    unfold eraseKey at h
    rw [hitem] at h
    cases action with
    | erase => exact hne rfl
    | cache | insert | modify => cases h

end Rules

end Ripple.Ledger
