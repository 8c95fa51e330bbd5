import Ripple.Lib.HashMap

/-!
# Ripple.PeerFinder.Slots

The slots of the peer finder and what it counts about them, from `peerfinder/impl/Logic.h` and
`Counts.h`. The table of slots goes by the remote endpoint; the addresses of the slots and the keys of
the active ones are kept beside it, and the counters of `Counts` are moved by taking a slot out of them
and putting it back around each change.

A call that breaks an assertion about the table or the state of a slot has no result here.
-/

namespace Ripple.PeerFinder

open Multiset

/-- `beast::IP::Endpoint`. -/
structure IPEndpoint (A : Type) where
  address : A
  port : UInt16
  deriving DecidableEq

/-- `Slot::State`. -/
inductive SlotState where
  | accept
  | connect
  | connected
  | active
  | closing
  deriving DecidableEq

/-- `SlotImp`, for addresses `A` and public keys `P`. -/
structure SlotImp (A P : Type) where
  inbound : Bool
  fixed : Bool
  cluster : Bool
  state : SlotState
  remoteEndpoint : IPEndpoint A
  localEndpoint : Option (IPEndpoint A)
  publicKey : Option P

variable {A P : Type}

/-! ## Counters -/

inductive Counter where
  | attempts
  | active
  | inActive
  | outActive
  | fixed
  | fixedActive
  | cluster
  | acceptCount
  | closingCount
  deriving DecidableEq

abbrev Counts := Counter → ℤ

def SlotImp.countsFor (s : SlotImp A P) : Counter → Bool
  | .fixed => s.fixed
  | .cluster => s.cluster
  | .acceptCount => s.state = .accept
  | .attempts => s.state = .connect ∨ s.state = .connected
  | .fixedActive => s.state = .active ∧ s.fixed
  | .inActive => s.state = .active ∧ !s.fixed ∧ !s.cluster ∧ s.inbound
  | .outActive => s.state = .active ∧ !s.fixed ∧ !s.cluster ∧ !s.inbound
  | .active => s.state = .active
  | .closingCount => s.state = .closing

variable (c : Counts)

def Counts.adjust (s : SlotImp A P) (n : ℤ) : Counts := fun k =>
  if s.countsFor k then c k + n else c k

def Counts.add (s : SlotImp A P) : Counts := c.adjust s 1

def Counts.remove (s : SlotImp A P) : Counts := c.adjust s (-1)

/-! ## Calls -/

/-- What is configured: the fixed slots, the limits, and which addresses are public. -/
structure Config (A : Type) where
  fixedEndpoints : List (IPEndpoint A)
  ipLimit : ℕ
  inMax : ℕ
  outMax : ℕ
  isPublic : A → Bool

structure Logic (A P : Type) where
  slots : HashMap (IPEndpoint A) (SlotImp A P)
  connectedAddresses : Multiset A
  keys : Finset P
  counts : Counts

def Logic.init : Logic A P := ⟨∅, 0, ∅, fun _ => 0⟩

inductive Result where
  | duplicate
  | full
  | success

variable [DecidableEq A] [DecidableEq P] (cfg : Config A)

def Config.fixedAddress (address : A) : Bool :=
  cfg.fixedEndpoints.any fun e => e.address = address

def Config.fixed (endpoint : IPEndpoint A) : Bool := cfg.fixedEndpoints.any (· = endpoint)

/-- `Counts::can_activate`. -/
def canActivate (c : Counts) (s : SlotImp A P) : Bool :=
  if s.fixed || s.cluster then true
  else if s.inbound then c .inActive < cfg.inMax
  else c .outActive < cfg.outMax

variable (l : Logic A P)

def Logic.addSlot (slot : SlotImp A P) : Logic A P :=
  { l with
    slots := l.slots.insert slot.remoteEndpoint slot
    connectedAddresses := slot.remoteEndpoint.address ::ₘ l.connectedAddresses
    counts := l.counts.add slot }

def newInboundSlot (localEndpoint remoteEndpoint : IPEndpoint A) :
    Option (Logic A P × Option (SlotImp A P)) :=
  let slot : SlotImp A P :=
    ⟨true, cfg.fixedAddress remoteEndpoint.address, false, .accept, remoteEndpoint, some localEndpoint, none⟩
  if cfg.isPublic remoteEndpoint.address ∧
      cfg.ipLimit < l.connectedAddresses.count remoteEndpoint.address then some (l, none)
  -- the remote address must not be there already
  else if remoteEndpoint ∈ l.slots then none
  else some (l.addSlot slot, some slot)

variable (remoteEndpoint : IPEndpoint A)

def newOutboundSlot : Logic A P × Option (SlotImp A P) :=
  let slot : SlotImp A P := ⟨false, cfg.fixed remoteEndpoint, false, .connect, remoteEndpoint, none, none⟩
  if remoteEndpoint ∈ l.slots then (l, none) else (l.addSlot slot, some slot)

def Logic.recount (slot slot' : SlotImp A P) : Logic A P :=
  { l with
    slots := l.slots.insert slot.remoteEndpoint slot'
    counts := (l.counts.remove slot).add slot' }

def onConnected (remoteEndpoint localEndpoint : IPEndpoint A) : Option (Logic A P × Bool) :=
  match l.slots.lookup remoteEndpoint with
  | none => none
  | some slot =>
    let slot' := { slot with localEndpoint := some localEndpoint }
    let l' := { l with slots := l.slots.insert remoteEndpoint slot' }
    if localEndpoint ∈ l'.slots then some (l', false)
    else if slot.inbound ∨ slot.state ≠ .connect then none
    else some (l'.recount slot' { slot' with state := .connected }, true)

def activate (key : P) (cluster : Bool) : Option (Logic A P × Result) :=
  match l.slots.lookup remoteEndpoint with
  | none => none
  | some slot =>
    if slot.state ≠ .accept ∧ slot.state ≠ .connected then none
    else if key ∈ l.keys then some (l, .duplicate)
    else
      let slot' := { slot with cluster := cluster }
      let l' := l.recount slot slot'
      if !canActivate cfg l'.counts slot' then some (l', .full)
      else
        let slot'' := { slot' with publicKey := some key }
        let l'' := { l' with slots := l'.slots.insert remoteEndpoint slot'', keys := insert key l'.keys }
        some (l''.recount slot'' { slot'' with state := .active }, .success)

/-- `Logic::remove`. -/
def onClosed : Option (Logic A P) :=
  match l.slots.lookup remoteEndpoint with
  | none => none
  | some slot =>
    some
      { slots := l.slots.erase remoteEndpoint
        connectedAddresses := l.connectedAddresses.erase slot.remoteEndpoint.address
        keys := match slot.publicKey with
          | none => l.keys
          | some key => l.keys.erase key
        counts := l.counts.remove slot }

inductive Call (A P : Type) where
  | newInboundSlot (localEndpoint remoteEndpoint : IPEndpoint A)
  | newOutboundSlot (remoteEndpoint : IPEndpoint A)
  | onConnected (remoteEndpoint localEndpoint : IPEndpoint A)
  | activate (remoteEndpoint : IPEndpoint A) (key : P) (cluster : Bool)
  | onClosed (remoteEndpoint : IPEndpoint A)

def step : Call A P → Option (Logic A P)
  | .newInboundSlot loc rem => (newInboundSlot cfg l loc rem).map Prod.fst
  | .newOutboundSlot rem => some (newOutboundSlot cfg l rem).1
  | .onConnected rem loc => (onConnected l rem loc).map Prod.fst
  | .activate rem key cluster => (activate cfg l rem key cluster).map Prod.fst
  | .onClosed rem => onClosed l rem

def run (calls : List (Call A P)) : Option (Logic A P) := calls.foldlM (step cfg) Logic.init

/-! ## The slots in the table -/

def Logic.number (k : Counter) : ℕ := l.slots.values.countP fun s => s.countsFor k

structure Consistent (cfg : Config A) (l : Logic A P) : Prop where
  counts : ∀ k, l.counts k = l.number k
  addresses : l.connectedAddresses = l.slots.values.map fun s => s.remoteEndpoint.address
  keys : l.keys.val = l.slots.values.filterMap SlotImp.publicKey
  active : ∀ s ∈ l.slots.values, s.publicKey.isSome = true ↔ s.state = .active
  located : ∀ r s, l.slots.lookup r = some s → s.remoteEndpoint = r
  inMax : l.counts .inActive ≤ cfg.inMax
  outMax : l.counts .outActive ≤ cfg.outMax

variable {cfg : Config A} {l : Logic A P}

section

omit [DecidableEq A] [DecidableEq P]

@[simp] theorem add_apply (s : SlotImp A P) (k : Counter) :
    c.add s k = c k + if s.countsFor k then 1 else 0 := by
  rw [Counts.add, Counts.adjust]
  split <;> simp

@[simp] theorem remove_apply (s : SlotImp A P) (k : Counter) :
    c.remove s k = c k - if s.countsFor k then 1 else 0 := by
  rw [Counts.remove, Counts.adjust]
  split <;> simp [sub_eq_add_neg]

theorem countP_cons_int (slot : SlotImp A P) (rest : Multiset (SlotImp A P)) (k : Counter) :
    (((slot ::ₘ rest).countP fun s => s.countsFor k : ℕ) : ℤ) =
      (rest.countP fun s => s.countsFor k : ℕ) + if slot.countsFor k then 1 else 0 := by
  rw [countP_cons]
  push_cast
  split <;> rfl

end

omit [DecidableEq P] in
theorem consistent_init : Consistent cfg (Logic.init : Logic A P) where
  counts k := by simp [Logic.init, Logic.number, AList.values]
  addresses := by simp [Logic.init, AList.values]
  keys := by simp [Logic.init, AList.values]
  active s hs := by simp [Logic.init, AList.values] at hs
  located r s hs := by simp [Logic.init] at hs
  inMax := by simp [Logic.init]
  outMax := by simp [Logic.init]

variable {slot slot' : SlotImp A P} {keys' : Finset P} {r : IPEndpoint A} {l' : Logic A P}
  {key : Option P} {c : Counts}

omit [DecidableEq P] in
theorem Consistent.addSlot (h : Consistent cfg l) (hfresh : slot.remoteEndpoint ∉ l.slots)
    (hkey : slot.publicKey = none) (hstate : slot.state ≠ .active) :
    Consistent cfg (l.addSlot slot) := by
  have hvalues : (l.addSlot slot).slots.values = slot ::ₘ l.slots.values :=
    AList.values_insert_of_notMem slot hfresh
  have hin : slot.countsFor .inActive = false := by simp [SlotImp.countsFor, hstate]
  have hout : slot.countsFor .outActive = false := by simp [SlotImp.countsFor, hstate]
  refine ⟨fun k => ?_, ?_, ?_, ?_, ?_, ?_, ?_⟩
  · rw [Logic.number, hvalues, countP_cons_int]
    simp [Logic.addSlot, h.counts k, Logic.number]
  · rw [hvalues, map_cons, Logic.addSlot, h.addresses]
  · rw [hvalues, filterMap_cons_none _ _ hkey]
    exact h.keys
  · intro s hs
    rw [hvalues] at hs
    obtain rfl | hs := mem_cons.mp hs
    · simp [hkey, hstate]
    · exact h.active s hs
  · intro r s hs
    rw [Logic.addSlot, AList.lookup_insert_ite] at hs
    split at hs
    · next hr =>
      cases hs
      exact hr.symm
    · exact h.located r s hs
  · simpa [Logic.addSlot, hin] using h.inMax
  · simpa [Logic.addSlot, hout] using h.outMax

/-- What a change of a slot may do to its key, and to the set of keys. -/
inductive KeyChange (slot slot' : SlotImp A P) (keys : Finset P) : Finset P → Prop
  | same (h : slot'.publicKey = slot.publicKey) : KeyChange slot slot' keys keys
  | set (key : P) (hnone : slot.publicKey = none) (hsome : slot'.publicKey = some key) (hfresh : key ∉ keys) :
      KeyChange slot slot' keys (insert key keys)

omit [DecidableEq A] in
theorem KeyChange.filterMap {keys : Finset P} (h : KeyChange slot slot' keys keys')
    {rest : Multiset (SlotImp A P)} (hkeys : keys.val = (slot ::ₘ rest).filterMap SlotImp.publicKey) :
    keys'.val = (slot' ::ₘ rest).filterMap SlotImp.publicKey := by
  cases h with
  | same hsame =>
    cases hkey : slot.publicKey with
    | none => rwa [filterMap_cons_none _ _ (hsame.trans hkey), ← filterMap_cons_none _ _ hkey]
    | some key =>
      rwa [filterMap_cons_some _ _ _ (hsame.trans hkey), ← filterMap_cons_some _ _ _ hkey]
  | set key hnone hsome hfresh =>
    rw [filterMap_cons_none _ _ hnone] at hkeys
    rw [filterMap_cons_some _ _ _ hsome, Finset.insert_val_of_notMem hfresh, hkeys]

omit [DecidableEq P] in
theorem recount_le {k : Counter} {max : ℕ} (hle : l.counts k ≤ max)
    (hroom : slot'.countsFor k = true → slot.countsFor k = false → l.counts k < max) :
    (l.recount slot slot').counts k ≤ max := by
  change (l.counts.remove slot).add slot' k ≤ max
  rw [add_apply, remove_apply]
  cases hold : slot.countsFor k with
  | true =>
    rw [if_pos rfl]
    split <;> omega
  | false =>
    cases hnew : slot'.countsFor k with
    | true =>
      have := hroom hnew hold
      simp only [Bool.false_eq_true, if_false, if_true]
      omega
    | false => simpa using hle

theorem Consistent.change (h : Consistent cfg l) (slot slot' : SlotImp A P)
    (hslot : l.slots.lookup slot.remoteEndpoint = some slot)
    (hsame : slot'.remoteEndpoint = slot.remoteEndpoint) (hkeys : KeyChange slot slot' l.keys keys')
    (hactive : slot'.publicKey.isSome = true ↔ slot'.state = .active)
    (hin : slot'.countsFor .inActive = true → slot.countsFor .inActive = false → l.counts .inActive < cfg.inMax)
    (hout : slot'.countsFor .outActive = true → slot.countsFor .outActive = false →
      l.counts .outActive < cfg.outMax) :
    Consistent cfg { l.recount slot slot' with keys := keys' } := by
  have hbefore := AList.values_erase hslot
  have hafter : (l.slots.insert slot.remoteEndpoint slot').values =
      slot' ::ₘ (l.slots.erase slot.remoteEndpoint).values := AList.values_insert _ _ _
  refine ⟨fun k => ?_, ?_, ?_, ?_, ?_, recount_le h.inMax hin, recount_le h.outMax hout⟩
  · rw [Logic.number, Logic.recount, hafter, countP_cons_int]
    simp [h.counts k, Logic.number, hbefore, countP_cons_int]
  · simp only [Logic.recount, hafter, map_cons, hsame]
    rw [h.addresses, hbefore, map_cons]
  · simp only [Logic.recount, hafter]
    exact hkeys.filterMap (hbefore ▸ h.keys)
  · intro s hs
    simp only [Logic.recount, hafter] at hs
    obtain rfl | hs := mem_cons.mp hs
    · exact hactive
    · exact h.active s (hbefore ▸ mem_cons_of_mem hs)
  · intro r s hs
    simp only [Logic.recount, AList.lookup_insert_ite] at hs
    split at hs
    · next hr =>
      obtain rfl := Option.some.inj hs
      rw [hr, hsame]
    · exact h.located r s hs

omit [DecidableEq P] in
theorem mem_values_of_lookup (h : l.slots.lookup r = some slot) : slot ∈ l.slots.values := by
  rw [AList.values_erase h]
  exact mem_cons_self _ _

omit [DecidableEq P] in
theorem Consistent.publicKey_eq_none (h : Consistent cfg l) (hslot : l.slots.lookup r = some slot)
    (hstate : slot.state ≠ .active) : slot.publicKey = none := by
  have := (h.active slot (mem_values_of_lookup hslot)).not.mpr hstate
  simpa using this

omit [DecidableEq A] [DecidableEq P] in
theorem remove_add_same (c : Counts) (slot slot' : SlotImp A P) (h : slot'.countsFor = slot.countsFor) :
    (c.remove slot).add slot' = c := by
  funext k
  simp [h]

theorem Consistent.change_idle (h : Consistent cfg l) (slot slot' : SlotImp A P)
    (hslot : l.slots.lookup slot.remoteEndpoint = some slot)
    (hsame : slot'.remoteEndpoint = slot.remoteEndpoint) (hkey : slot.publicKey = none)
    (hkey' : slot'.publicKey = none) (hstate : slot'.state ≠ .active) : Consistent cfg (l.recount slot slot') := by
  refine h.change slot slot' hslot hsame (.same (hkey'.trans hkey.symm)) (by simp [hkey', hstate]) ?_ ?_
  · exact fun hnew => absurd hnew (by simp [SlotImp.countsFor, hstate])
  · exact fun hnew => absurd hnew (by simp [SlotImp.countsFor, hstate])

theorem Consistent.setLocal (h : Consistent cfg l) (loc : IPEndpoint A)
    (hslot : l.slots.lookup slot.remoteEndpoint = some slot) : Consistent cfg
      { l with slots := l.slots.insert slot.remoteEndpoint { slot with localEndpoint := some loc } } := by
  have hcounts := remove_add_same l.counts slot { slot with localEndpoint := some loc } rfl
  have := h.change slot { slot with localEndpoint := some loc } hslot rfl (.same rfl)
    (h.active slot (mem_values_of_lookup hslot)) ?_ ?_
  · rwa [Logic.recount, hcounts] at this
  · exact fun hnew hold => absurd (hnew.symm.trans hold) (by simp)
  · exact fun hnew hold => absurd (hnew.symm.trans hold) (by simp)

def ends (slots : HashMap (IPEndpoint A) (SlotImp A P)) : Multiset (Bool × A) :=
  slots.values.map fun s => (s.inbound, s.remoteEndpoint.address)

omit [DecidableEq P] in
theorem ends_insert (hslot : l.slots.lookup r = some slot) (hin : slot'.inbound = slot.inbound)
    (hsame : slot'.remoteEndpoint = slot.remoteEndpoint) : ends (l.slots.insert r slot') = ends l.slots := by
  rw [ends, ends, AList.values_insert, AList.values_erase hslot, map_cons, map_cons, hin, hsame]

theorem onConnected_consistent (h : Consistent cfg l) {loc : IPEndpoint A} {ok : Bool}
    (hs : onConnected l r loc = some (l', ok)) : Consistent cfg l' ∧ ends l'.slots = ends l.slots := by
  rw [onConnected] at hs
  split at hs
  · cases hs
  · next slot hslot =>
    obtain rfl := h.located r slot hslot
    have hset := h.setLocal loc hslot
    simp only at hs
    split at hs
    · cases hs
      exact ⟨hset, ends_insert hslot rfl rfl⟩
    split at hs
    · simp at hs
    · next hstate =>
      cases hs
      have hconnect : slot.state = .connect := by
        by_contra hne
        exact hstate (.inr hne)
      have hkey := h.publicKey_eq_none hslot (by simp [hconnect])
      refine ⟨hset.change_idle { slot with localEndpoint := some loc } _ (by simp) rfl hkey hkey (by simp), ?_⟩
      simp only [Logic.recount, AList.insert_insert]
      exact ends_insert hslot rfl rfl

omit [DecidableEq A] [DecidableEq P] in
theorem active_room (hroom : canActivate cfg c slot = true) :
    (SlotImp.countsFor { slot with publicKey := key, state := .active } .inActive = true →
      c .inActive < cfg.inMax) ∧
    (SlotImp.countsFor { slot with publicKey := key, state := .active } .outActive = true →
      c .outActive < cfg.outMax) := by
  simp only [SlotImp.countsFor, true_and, decide_eq_true_eq, Bool.not_eq_true']
  constructor
  all_goals
    rintro ⟨hfixed, hcluster, hinbound⟩
    simpa [canActivate, hfixed, hcluster, hinbound] using hroom

theorem activate_consistent (h : Consistent cfg l) {key : P} {cluster : Bool} {result : Result}
    (hs : activate cfg l r key cluster = some (l', result)) :
    Consistent cfg l' ∧ ends l'.slots = ends l.slots := by
  rw [activate] at hs
  split at hs
  · cases hs
  · next slot hslot =>
    obtain rfl := h.located r slot hslot
    split at hs
    · simp at hs
    split at hs
    · cases hs
      exact ⟨h, rfl⟩
    next hstate hfresh =>
    have hidle : slot.state ≠ .active := by
      intro hactive
      exact hstate ⟨by simp [hactive], by simp [hactive]⟩
    have hkey := h.publicKey_eq_none hslot hidle
    have hcluster : Consistent cfg (l.recount slot { slot with cluster := cluster }) :=
      h.change_idle slot _ hslot rfl hkey hkey hidle
    simp only at hs
    split at hs
    · cases hs
      exact ⟨hcluster, ends_insert hslot rfl rfl⟩
    · next hroom =>
      cases hs
      rw [Bool.not_eq_true, Bool.not_eq_false'] at hroom
      have hactive := hcluster.change { slot with cluster := cluster }
        { slot with cluster := cluster, publicKey := some key, state := .active } (by simp [Logic.recount]) rfl
        (.set key hkey rfl hfresh) (by simp) (fun hnew _ => (active_room hroom).1 hnew)
        fun hnew _ => (active_room hroom).2 hnew
      -- the key of a slot is not counted
      have hremove : ∀ c : Counts, c.remove { slot with cluster := cluster, publicKey := some key } =
          c.remove { slot with cluster := cluster } := fun _ => rfl
      refine ⟨by simpa [Logic.recount, hremove] using hactive, ?_⟩
      simp only [Logic.recount, AList.insert_insert]
      exact ends_insert hslot rfl rfl

theorem onClosed_consistent (h : Consistent cfg l) (hs : onClosed l r = some l') :
    Consistent cfg l' := by
  rw [onClosed] at hs
  split at hs
  · cases hs
  · next slot hslot =>
    obtain rfl := h.located r slot hslot
    cases hs
    have hbefore := AList.values_erase hslot
    have hle : ∀ k, (l.counts.remove slot) k ≤ l.counts k := fun k => by
      rw [remove_apply]
      split <;> omega
    refine ⟨fun k => ?_, ?_, ?_, ?_, ?_, (hle _).trans h.inMax, (hle _).trans h.outMax⟩
    · simp [Logic.number, h.counts k, hbefore, countP_cons_int]
    · simp only [h.addresses, hbefore, map_cons, erase_cons_head]
    · have hkeys := h.keys
      rw [hbefore] at hkeys
      cases hkey : slot.publicKey with
      | none => rwa [filterMap_cons_none _ _ hkey] at hkeys
      | some key =>
        rw [filterMap_cons_some _ _ _ hkey] at hkeys
        simp only [Finset.erase_val, hkeys, erase_cons_head]
    · exact fun s hs => h.active s (hbefore ▸ mem_cons_of_mem hs)
    · intro r' s hs
      simp only [AList.lookup_erase_ite] at hs
      split at hs
      · simp at hs
      · exact h.located r' s hs

theorem step_consistent (h : Consistent cfg l) {c : Call A P} (hs : step cfg l c = some l') :
    Consistent cfg l' := by
  cases c with
  | newInboundSlot loc rem =>
    simp only [step, newInboundSlot] at hs
    split at hs
    · cases hs
      exact h
    split at hs
    · simp at hs
    · next hfresh =>
      cases hs
      exact h.addSlot hfresh rfl (by simp)
  | newOutboundSlot rem =>
    simp only [step, newOutboundSlot] at hs
    split at hs
    · cases hs
      exact h
    · next hfresh =>
      cases hs
      exact h.addSlot hfresh rfl (by simp)
  | onConnected rem loc =>
    obtain ⟨⟨l', ok⟩, hcall, rfl⟩ := Option.map_eq_some_iff.mp hs
    exact (onConnected_consistent h hcall).1
  | activate rem key cluster =>
    obtain ⟨⟨l', result⟩, hcall, rfl⟩ := Option.map_eq_some_iff.mp hs
    exact (activate_consistent h hcall).1
  | onClosed rem => exact onClosed_consistent h hs

theorem foldlM_consistent {calls : List (Call A P)} : ∀ {l l' : Logic A P}, Consistent cfg l →
    calls.foldlM (step cfg) l = some l' → Consistent cfg l' := by
  induction calls with
  | nil =>
    intro l l' h hrun
    cases hrun
    exact h
  | cons c calls ih =>
    intro l l' h hrun
    rw [List.foldlM_cons] at hrun
    obtain ⟨l₁, hc, hrun⟩ := Option.bind_eq_some_iff.mp hrun
    exact ih (step_consistent h hc) hrun

/-- After any calls that respect the assertions the counters, addresses and keys are those of the
slots, and the limits on active slots hold. -/
theorem slots_accounted {calls : List (Call A P)} (hrun : run cfg calls = some l) :
    (∀ k, l.counts k = l.number k) ∧
    l.connectedAddresses = l.slots.values.map (fun s => s.remoteEndpoint.address) ∧
    (∀ p, p ∈ l.keys ↔ ∃ s ∈ l.slots.values, s.state = .active ∧ s.publicKey = some p) ∧
    l.number .inActive ≤ cfg.inMax ∧ l.number .outActive ≤ cfg.outMax := by
  have h := foldlM_consistent consistent_init hrun
  refine ⟨h.counts, h.addresses, fun p => ?_, ?_, ?_⟩
  · rw [← Finset.mem_val, h.keys, mem_filterMap]
    constructor
    · rintro ⟨s, hs, hkey⟩
      exact ⟨s, hs, (h.active s hs).mp (by simp [hkey]), hkey⟩
    · rintro ⟨s, hs, -, hkey⟩
      exact ⟨s, hs, hkey⟩
  · have := h.inMax
    rw [h.counts] at this
    exact_mod_cast this
  · have := h.outMax
    rw [h.counts] at this
    exact_mod_cast this

/-- An inbound and an outbound slot become active, and the inbound one is closed again. -/
theorem slots_accounted_two :
    ∃ l : Logic ℕ ℕ, run ⟨[⟨3, 1⟩], 0, 1, 1, fun _ => true⟩ [.newInboundSlot ⟨0, 1⟩ ⟨1, 1⟩,
        .newOutboundSlot ⟨2, 1⟩, .activate ⟨1, 1⟩ 10 false, .onConnected ⟨2, 1⟩ ⟨0, 2⟩, .activate ⟨2, 1⟩ 20 true,
        .onClosed ⟨1, 1⟩] = some l ∧
      (∀ k, l.counts k = l.number k) ∧
      (∀ p, p ∈ l.keys ↔ ∃ s ∈ l.slots.values, s.state = .active ∧ s.publicKey = some p) := by
  obtain ⟨l, hl⟩ : ∃ l : Logic ℕ ℕ, run ⟨[⟨3, 1⟩], 0, 1, 1, fun _ => true⟩ [.newInboundSlot ⟨0, 1⟩ ⟨1, 1⟩,
      .newOutboundSlot ⟨2, 1⟩, .activate ⟨1, 1⟩ 10 false, .onConnected ⟨2, 1⟩ ⟨0, 2⟩, .activate ⟨2, 1⟩ 20 true,
      .onClosed ⟨1, 1⟩] = some l := Option.isSome_iff_exists.mp (by decide)
  obtain ⟨hcounts, -, hkeys, -⟩ := slots_accounted hl
  exact ⟨l, hl, hcounts, hkeys⟩

/-! ## The limit on connections from an address -/

def Logic.inboundAt (l : Logic A P) (address : A) : ℕ := (ends l.slots).count (true, address)

/-- No public address has more inbound slots than are allowed. -/
def Limited (cfg : Config A) (l : Logic A P) : Prop := ∀ a, cfg.isPublic a = true → l.inboundAt a ≤ cfg.ipLimit

/-- An inbound connection comes when all that are allowed are there, and no outbound one. -/
def Exceeds (cfg : Config A) (l : Logic A P) : Call A P → Prop
  | .newInboundSlot _ rem => rem ∉ l.slots ∧ cfg.isPublic rem.address = true ∧
    l.inboundAt rem.address = cfg.ipLimit ∧ l.connectedAddresses.count rem.address = cfg.ipLimit
  | _ => False

omit [DecidableEq P] in
theorem inboundAt_addSlot (slot : SlotImp A P) (hfresh : slot.remoteEndpoint ∉ l.slots) (a : A) :
    (l.addSlot slot).inboundAt a = l.inboundAt a +
      if (true, a) = (slot.inbound, slot.remoteEndpoint.address) then 1 else 0 := by
  rw [Logic.inboundAt, ends, Logic.addSlot, AList.values_insert_of_notMem slot hfresh, map_cons,
    count_cons]
  rfl

omit [DecidableEq P] in
theorem Consistent.inboundAt_le (h : Consistent cfg l) (a : A) : l.inboundAt a ≤ l.connectedAddresses.count a := by
  rw [h.addresses, Logic.inboundAt, ends, count_map, count_map]
  exact card_le_card (monotone_filter_right _ fun s hs => congrArg Prod.snd hs)

theorem step_limited_iff (h : Consistent cfg l) (hlim : Limited cfg l) {c : Call A P}
    (hs : step cfg l c = some l') :
    Limited cfg l' ↔ ¬ Exceeds cfg l c := by
  cases c with
  | newInboundSlot loc rem =>
    simp only [step, newInboundSlot] at hs
    split at hs
    · next hmany =>
      cases hs
      exact iff_of_true hlim fun hex => hmany.2.ne hex.2.2.2.symm
    split at hs
    · simp at hs
    · next hfew hfresh =>
      cases hs
      simp only [Limited, inboundAt_addSlot ⟨true, _, false, .accept, rem, some loc, none⟩ hfresh]
      have hle := h.inboundAt_le rem.address
      constructor
      · rintro hall ⟨-, hpub, hin, -⟩
        have := hall _ hpub
        simp only [if_true] at this
        omega
      · intro hnot a hpub
        have ha := hlim a hpub
        split
        · next heq =>
          cases heq
          have hroom : l.connectedAddresses.count rem.address ≤ cfg.ipLimit := not_lt.mp fun hlt => hfew ⟨hpub, hlt⟩
          by_contra hgt
          exact hnot ⟨hfresh, hpub, by omega, by omega⟩
        · exact ha
  | newOutboundSlot rem =>
    refine iff_of_true ?_ id
    simp only [step, newOutboundSlot] at hs
    split at hs
    · cases hs
      exact hlim
    · next hfresh =>
      cases hs
      intro a hpub
      rw [inboundAt_addSlot _ hfresh, if_neg (by simp)]
      exact hlim a hpub
  | onConnected rem loc =>
    obtain ⟨⟨l', ok⟩, hcall, rfl⟩ := Option.map_eq_some_iff.mp hs
    have hends := (onConnected_consistent h hcall).2
    exact iff_of_true (fun a hpub => by rw [Logic.inboundAt, hends]; exact hlim a hpub) id
  | activate rem key cluster =>
    obtain ⟨⟨l', result⟩, hcall, rfl⟩ := Option.map_eq_some_iff.mp hs
    have hends := (activate_consistent h hcall).2
    exact iff_of_true (fun a hpub => by rw [Logic.inboundAt, hends]; exact hlim a hpub) id
  | onClosed rem =>
    refine iff_of_true (fun a hpub => ?_) id
    simp only [step, onClosed] at hs
    split at hs
    · cases hs
    · next slot hslot =>
      cases hs
      refine le_trans ?_ (hlim a hpub)
      rw [Logic.inboundAt, Logic.inboundAt, ends, ends, AList.values_erase hslot, map_cons]
      exact count_le_count_cons _ _ _

theorem run_concat (cfg : Config A) (calls : List (Call A P)) (c : Call A P) :
    run cfg (calls ++ [c]) = (run cfg calls).bind fun l => step cfg l c := by
  simp [run]

/-- The limit holds all the time exactly if no inbound connection comes from a public address with as many inbound
slots as are allowed and no outbound one: then one more is let in. -/
theorem ip_limit_iff (cfg : Config A) (calls : List (Call A P)) :
    (∀ p l, p <+: calls → run cfg p = some l → Limited cfg l) ↔
      ∀ p c l, p ++ [c] <+: calls → run cfg p = some l → ¬ Exceeds cfg l c := by
  constructor
  · intro hall p c l hp hrun hex
    have hstep : ∃ l', step cfg l c = some l' := by
      cases c with
      | newInboundSlot loc rem =>
        obtain ⟨hfresh, -, -, hcount⟩ := hex
        simp [step, newInboundSlot, hfresh, hcount]
      | _ => exact hex.elim
    obtain ⟨l', hstep⟩ := hstep
    have hlim := hall p l ((List.prefix_append _ _).trans hp) hrun
    have hlim' := hall _ l' hp (by rw [run_concat, hrun]; exact hstep)
    exact (step_limited_iff (foldlM_consistent consistent_init hrun) hlim hstep).mp hlim' hex
  · intro hnot p
    induction p using List.reverseRecOn with
    | nil =>
      intro l _ hrun
      cases hrun
      intro a _
      simp [Logic.inboundAt, ends, Logic.init, AList.values]
    | append_singleton p c ih =>
      intro l' hp hrun
      rw [run_concat] at hrun
      obtain ⟨l, hrun, hstep⟩ := Option.bind_eq_some_iff.mp hrun
      have hlim := ih l ((List.prefix_append _ _).trans hp) hrun
      exact (step_limited_iff (foldlM_consistent consistent_init hrun) hlim hstep).mpr (hnot p c l hp hrun)

/-- With one connection allowed, two come from the same address. -/
theorem ip_limit_exceeded : ∃ l : Logic ℕ ℕ, run ⟨[], 1, 0, 0, fun _ => true⟩
    [.newInboundSlot ⟨0, 1⟩ ⟨1, 1⟩, .newInboundSlot ⟨0, 1⟩ ⟨1, 2⟩] = some l ∧ l.inboundAt 1 = 2 :=
  ⟨_, rfl, rfl⟩

end Ripple.PeerFinder
