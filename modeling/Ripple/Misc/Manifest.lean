import Ripple.Lib.HashMap

/-!
# Ripple.Misc.Manifest

The manifest cache: for every master key the manifest with the highest sequence number, and for
every signing key the master key that uses it. The check of a manifest's two signatures is a
parameter.

* `Backed`: an entry of the inverse map is there for an unrevoked manifest. Every call keeps it.
* `Exact`: the inverse map has an entry for every unrevoked manifest too. A call keeps it when the
  signing key it brings is not in use by another master key (`Unshared`).
* `consistent_iff_unshared`: the two maps agree throughout a run exactly when no manifest accepted in
  it brings a signing key in use.
-/

namespace Ripple.Misc

variable {PublicKey : Type}

structure Manifest (PublicKey : Type) where
  serialized : String
  masterKey : PublicKey
  signingKey : PublicKey
  sequence : UInt32
deriving DecidableEq, Repr

def Manifest.revoked (m : Manifest PublicKey) : Bool := m.sequence == 0xffffffff

inductive ManifestDisposition where
  | accepted
  | stale
  | invalid
deriving DecidableEq, Repr

structure ManifestCache (PublicKey : Type) where
  /-- Active manifests by master key. -/
  map_ : HashMap PublicKey (Manifest PublicKey)
  /-- Master keys by the current ephemeral key. -/
  signingToMasterKeys_ : HashMap PublicKey PublicKey

namespace ManifestCache

def empty : ManifestCache PublicKey := ⟨∅, ∅⟩

variable [DecidableEq PublicKey] (c : ManifestCache PublicKey)

def getSigningKey (pk : PublicKey) : PublicKey :=
  match c.map_.lookup pk with
  | some m => if m.revoked then pk else m.signingKey
  | none => pk

def getMasterKey (pk : PublicKey) : PublicKey := (c.signingToMasterKeys_.lookup pk).getD pk

def revoked (pk : PublicKey) : Bool :=
  match c.map_.lookup pk with
  | some m => m.revoked
  | none => false

variable (m : Manifest PublicKey)

/-- A manifest with this sequence number is not newer than the one stored. -/
def isStale : Bool :=
  match c.map_.lookup m.masterKey with
  | some old => decide (m.sequence ≤ old.sequence)
  | none => false

/-- The inverse map without the entry of the manifest that is replaced. -/
def eraseReplaced (masterKey : PublicKey) : HashMap PublicKey PublicKey :=
  match c.map_.lookup masterKey with
  | some old => c.signingToMasterKeys_.erase old.signingKey
  | none => c.signingToMasterKeys_

/-- The two maps after a manifest was found newer and correctly signed. -/
def accept : ManifestCache PublicKey where
  map_ := c.map_.insert m.masterKey m
  signingToMasterKeys_ :=
    if m.revoked then c.eraseReplaced m.masterKey
    else (c.eraseReplaced m.masterKey).insert m.signingKey m.masterKey

section Apply

variable (verify : Manifest PublicKey → Bool)

def applyManifest (m : Manifest PublicKey) : ManifestDisposition × ManifestCache PublicKey :=
  if c.isStale m then (.stale, c)
  else if !verify m then (.invalid, c)
  else (.accepted, c.accept m)

def applyManifests (ms : List (Manifest PublicKey)) : ManifestCache PublicKey :=
  ms.foldl (fun c m => (c.applyManifest verify m).2) empty

end Apply

/-- Going to the signing key and back ends at the master key, and a key stands for another only as a
current signing key. -/
def Consistent : Prop :=
  (∀ master m, c.map_.lookup master = some m → m.revoked = false →
    c.getMasterKey (c.getSigningKey master) = master) ∧
  ∀ k, c.getMasterKey k ≠ k → ∃ m, c.map_.lookup (c.getMasterKey k) = some m ∧
    m.revoked = false ∧ c.getSigningKey (c.getMasterKey k) = k

/-- No other master key with an unrevoked manifest uses the signing key of `m`. -/
def Unshared : Prop :=
  ∀ master old, c.map_.lookup master = some old → old.revoked = false →
    old.signingKey = m.signingKey → master = m.masterKey

def Signs (master k : PublicKey) : Prop :=
  ∃ m, c.map_.lookup master = some m ∧ m.revoked = false ∧ m.signingKey = k

def Backed : Prop :=
  ∀ k master, c.signingToMasterKeys_.lookup k = some master → c.Signs master k

def Exact : Prop :=
  ∀ k master, c.signingToMasterKeys_.lookup k = some master ↔ c.Signs master k

variable {c} {m : Manifest PublicKey} {k master : PublicKey}

theorem signs_accept : (c.accept m).Signs master k ↔
    if master = m.masterKey then m.revoked = false ∧ m.signingKey = k else c.Signs master k := by
  unfold Signs accept
  by_cases h : master = m.masterKey
  · subst h
    simp
  · simp [h]

theorem lookup_eraseReplaced : (c.eraseReplaced m.masterKey).lookup k = some master ↔
    c.signingToMasterKeys_.lookup k = some master ∧
      ∀ old, c.map_.lookup m.masterKey = some old → k ≠ old.signingKey := by
  unfold eraseReplaced
  cases h : c.map_.lookup m.masterKey with
  | none => simp
  | some old =>
    rw [AList.lookup_erase_ite]
    by_cases hk : k = old.signingKey
    · simp [hk]
    · simp [hk]

theorem lookup_accept : (c.accept m).signingToMasterKeys_.lookup k = some master ↔
    if m.revoked = false ∧ k = m.signingKey then master = m.masterKey
    else (c.eraseReplaced m.masterKey).lookup k = some master := by
  unfold accept
  by_cases hr : m.revoked
  · simp [hr]
  · by_cases hk : k = m.signingKey
    · subst hk
      simp [hr, eq_comm]
    · simp [hr, hk, AList.lookup_insert_ne hk]

/-- `m` passes the checks of `applyManifest`: it is newer than what is stored, and its signatures
are valid. -/
def Accepts (verify : Manifest PublicKey → Bool) (c : ManifestCache PublicKey)
    (m : Manifest PublicKey) : Prop :=
  c.isStale m = false ∧ verify m = true

theorem applyManifest_of_accepts {verify : Manifest PublicKey → Bool} (h : Accepts verify c m) :
    c.applyManifest verify m = (.accepted, c.accept m) := by
  simp [applyManifest, h.1, h.2]

theorem applyManifest_of_not_accepts {verify : Manifest PublicKey → Bool}
    (h : ¬Accepts verify c m) : (c.applyManifest verify m).2 = c := by
  unfold applyManifest
  by_cases hs : c.isStale m
  · simp [hs]
  · have hv : verify m = false := by
      by_contra hv
      exact h ⟨by simpa using hs, by simpa using hv⟩
    simp [hs, hv]

theorem revoked_accept : (c.accept m).revoked k = if k = m.masterKey then m.revoked else c.revoked k := by
  unfold revoked accept
  by_cases hk : k = m.masterKey
  · subst hk
    simp
  · simp [hk]

theorem revoked_applyManifest (verify : Manifest PublicKey → Bool) (k : PublicKey) :
    (c.applyManifest verify m).2.revoked k =
      if (c.applyManifest verify m).1 = .accepted ∧ k = m.masterKey then m.revoked else c.revoked k := by
  unfold applyManifest
  split
  · simp
  · split
    · simp
    · simp [revoked_accept]

theorem unrevoked_of_not_stale {old : Manifest PublicKey} (hfresh : c.isStale m = false)
    (hold : c.map_.lookup m.masterKey = some old) : old.revoked = false := by
  by_contra hr
  have hmax : old.sequence = 0xffffffff := by simpa [Manifest.revoked] using hr
  simp only [isStale, hold, hmax, decide_eq_false_iff_not, UInt32.le_iff_toNat_le] at hfresh
  have hbound := m.sequence.toNat_lt
  have htop : (0xffffffff : UInt32).toNat = 2 ^ 32 - 1 := rfl
  omega

theorem exact_empty : (empty : ManifestCache PublicKey).Exact := by
  intro k master
  simp [empty, Signs]

theorem Backed.accept (h : c.Backed) : (c.accept m).Backed := by
  intro k master hlook
  rw [lookup_accept] at hlook
  rw [signs_accept]
  by_cases hnew : m.revoked = false ∧ k = m.signingKey
  · rw [if_pos hnew] at hlook
    rw [if_pos hlook]
    exact ⟨hnew.1, hnew.2.symm⟩
  · rw [if_neg hnew, lookup_eraseReplaced] at hlook
    obtain ⟨hlook, hkept⟩ := hlook
    have hsigns := h k master hlook
    -- an entry of the master key itself was there for its old signing key, and that one is erased
    have hother : master ≠ m.masterKey := by
      rintro rfl
      obtain ⟨old, hold, -, hk⟩ := hsigns
      exact hkept old hold hk.symm
    rw [if_neg hother]
    exact hsigns

theorem Exact.backed (h : c.Exact) : c.Backed := fun k master hlook => (h k master).mp hlook

theorem Exact.accept (h : c.Exact) (hfresh : c.isStale m = false)
    (hm : m.revoked = false → c.Unshared m) : (c.accept m).Exact := by
  intro k master
  refine ⟨h.backed.accept k master, fun hsigns => ?_⟩
  rw [signs_accept] at hsigns
  rw [lookup_accept]
  by_cases hmaster : master = m.masterKey
  · rw [if_pos hmaster] at hsigns
    rw [if_pos ⟨hsigns.1, hsigns.2.symm⟩]
    exact hmaster
  · rw [if_neg hmaster] at hsigns
    have hlook := (h k master).mpr hsigns
    obtain ⟨old, hold, hunrevoked, hk⟩ := hsigns
    have hnew : ¬(m.revoked = false ∧ k = m.signingKey) := by
      rintro ⟨hr, rfl⟩
      exact hmaster (hm hr master old hold hunrevoked hk)
    rw [if_neg hnew, lookup_eraseReplaced]
    refine ⟨hlook, ?_⟩
    -- the key that is erased was entered for `m.masterKey`, so it is not the key of `master`
    intro replaced hreplaced heq
    have hsame := (h replaced.signingKey m.masterKey).mpr
      ⟨replaced, hreplaced, unrevoked_of_not_stale hfresh hreplaced, rfl⟩
    rw [heq, hsame] at hlook
    exact hmaster (Option.some.inj hlook).symm

theorem getSigningKey_of_lookup (hm : c.map_.lookup master = some m) (hr : m.revoked = false) :
    c.getSigningKey master = m.signingKey := by
  simp [getSigningKey, hm, hr]

theorem Exact.consistent (h : c.Exact) : c.Consistent := by
  constructor
  · intro master m hm hr
    have hlook := (h m.signingKey master).mpr ⟨m, hm, hr, rfl⟩
    rw [getSigningKey_of_lookup hm hr, getMasterKey, hlook]
    rfl
  · intro k hk
    unfold getMasterKey at hk ⊢
    cases hlook : c.signingToMasterKeys_.lookup k with
    | none => simp [hlook] at hk
    | some master =>
      obtain ⟨m, hm, hr, hkey⟩ := (h k master).mp hlook
      exact ⟨m, hm, hr, (getSigningKey_of_lookup hm hr).trans hkey⟩

/-- When the key is shared, the other master key's way back ends at the newcomer. -/
theorem unshared_of_consistent_accept (hr : m.revoked = false) (h : (c.accept m).Consistent) :
    c.Unshared m := by
  intro master old hold hunrevoked hkey
  by_contra hother
  have hstored : (c.accept m).map_.lookup master = some old := by
    simp only [accept, AList.lookup_insert_ite, if_neg hother]
    exact hold
  have hinverse : (c.accept m).signingToMasterKeys_.lookup m.signingKey = some m.masterKey := by
    simp [lookup_accept, hr]
  have hback := h.1 master old hstored hunrevoked
  rw [getSigningKey_of_lookup hstored hunrevoked, hkey, getMasterKey, hinverse] at hback
  exact hother hback.symm

section Runs

variable (verify : Manifest PublicKey → Bool) (ms : List (Manifest PublicKey))

theorem applyManifests_take_succ {n : Nat} (h : ms[n]? = some m) :
    applyManifests verify (ms.take (n + 1)) =
      ((applyManifests verify (ms.take n)).applyManifest verify m).2 := by
  simp [applyManifests, List.take_add_one, h]

/-- In every manifest that a run accepts, the signing key is not in use by another master key. -/
def NeverShared : Prop :=
  ∀ n m, ms[n]? = some m → Accepts verify (applyManifests verify (ms.take n)) m →
    m.revoked = false → (applyManifests verify (ms.take n)).Unshared m

variable {verify ms}

theorem NeverShared.exact (h : NeverShared verify ms) (n : Nat) :
    (applyManifests verify (ms.take n)).Exact := by
  induction n with
  | zero => exact exact_empty
  | succ n ih =>
    cases hm : ms[n]? with
    | none =>
      have hlen : ms.length ≤ n := by simpa using hm
      rwa [List.take_of_length_le (by omega), ← List.take_of_length_le hlen]
    | some m =>
      rw [applyManifests_take_succ verify ms hm]
      by_cases hacc : Accepts verify (applyManifests verify (ms.take n)) m
      · rw [applyManifest_of_accepts hacc]
        exact ih.accept hacc.1 (h n m hm hacc)
      · rw [applyManifest_of_not_accepts hacc]
        exact ih

theorem consistent_iff_unshared (verify : Manifest PublicKey → Bool)
    (ms : List (Manifest PublicKey)) :
    (∀ n, (applyManifests verify (ms.take n)).Consistent) ↔ NeverShared verify ms := by
  constructor
  · intro h n m hm hacc hr
    have hafter := h (n + 1)
    rw [applyManifests_take_succ verify ms hm, applyManifest_of_accepts hacc] at hafter
    exact unshared_of_consistent_accept hr hafter
  · intro h n
    exact (h.exact n).consistent

/-- What is stored for a master key is the verified manifest of the highest sequence number that
came in for it, whatever the order, and nothing is stored only if none came in. A revocation has the
highest number there is, so it stays. -/
theorem newest_manifest_stored (verify : Manifest PublicKey → Bool)
    (ms : List (Manifest PublicKey)) (master : PublicKey) :
    match (applyManifests verify ms).map_.lookup master with
    | none => ∀ m ∈ ms, verify m → m.masterKey ≠ master
    | some m => (m ∈ ms ∧ verify m ∧ m.masterKey = master) ∧
        ∀ m' ∈ ms, verify m' → m'.masterKey = master → m'.sequence ≤ m.sequence := by
  induction ms using List.reverseRecOn with
  | nil => simp [applyManifests, empty]
  | append_singleton ms m ih =>
    have hlast : applyManifests verify (ms ++ [m]) =
        ((applyManifests verify ms).applyManifest verify m).2 := by simp [applyManifests]
    rw [hlast]
    generalize applyManifests verify ms = c at ih
    by_cases hacc : Accepts verify c m
    · rw [applyManifest_of_accepts hacc]
      simp only [accept, AList.lookup_insert_ite]
      obtain ⟨hfresh, hv⟩ := hacc
      -- newer than what was stored, hence newer than all that came before it
      unfold isStale at hfresh
      grind
    · rw [applyManifest_of_not_accepts hacc]
      unfold Accepts isStale at hacc
      grind

/-- Keys 1 and 2 both name signing key 9. When 2 moves on, the entry of 9 is erased. -/
theorem shared_key_erased :
    let c := applyManifests (fun _ => true)
      [⟨"", 1, 9, 1⟩, ⟨"", 2, 9, 1⟩, (⟨"", 2, 8, 2⟩ : Manifest Nat)]
    c.revoked 1 = false ∧ c.getSigningKey 1 = 9 ∧ c.getMasterKey 9 = 9 ∧ ¬c.Consistent := by
  intro c
  have hsign : c.getSigningKey 1 = 9 := by decide
  have hback : c.getMasterKey 9 = 9 := by decide
  have hstored : c.map_.lookup 1 = some ⟨"", 1, 9, 1⟩ := by decide
  refine ⟨by decide, hsign, hback, fun h => ?_⟩
  have hmaster := h.1 1 _ hstored (by decide)
  rw [hsign, hback] at hmaster
  exact absurd hmaster (by decide)

end Runs

end ManifestCache

end Ripple.Misc
