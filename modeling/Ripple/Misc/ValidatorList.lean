import Ripple.Misc.Manifest

/-!
# Ripple.Misc.ValidatorList

The validator keys that a server trusts: its own key, the keys of its configuration and the keys on
the lists of the publishers it is configured to follow. `keyListings_` counts on how many of these a
key stands, and is kept up to date list by list.

Parsing and signature checks are done before: a published list comes with what the parsers make of
it and with the keys under which its signature verifies. The quorum is left out.

* `Counted`: the count of a key is the number of times it is listed. Every function keeps it.
-/

namespace Ripple.Misc

variable {Key NodeID : Type} [LinearOrder Key] [DecidableEq NodeID]

/-- A public key; the default-constructed one is empty. -/
abbrev PublicKey (Key : Type) := WithBot Key

/-- A manifest as `make_Manifest` returns it: its master key is of a known type. -/
abbrev ParsedManifest (Key : Type) := { m : Manifest (PublicKey Key) // m.masterKey ≠ ⊥ }

structure PublisherList (Key : Type) where
  available : Bool := false
  list : List (PublicKey Key) := []
  sequence : Nat := 0
  expiration : Nat := 0

def PublisherList.emptied (pl : PublisherList Key) : PublisherList Key :=
  { pl with list := [], available := false }

def timeMax : Nat := 2 ^ 32 - 1

structure ValidatorList (Key : Type) where
  validatorManifests_ : ManifestCache (PublicKey Key)
  publisherManifests_ : ManifestCache (PublicKey Key)
  /-- Published lists by publisher master key; the keys of the configuration are under the empty key. -/
  publisherLists_ : HashMap (PublicKey Key) (PublisherList Key) := ∅
  keyListings_ : HashMap (PublicKey Key) Nat := ∅
  trustedKeys_ : Finset (PublicKey Key) := ∅
  localPubKey_ : PublicKey Key := ⊥

/-- An entry of a published list: its key, if it is a valid one, and its manifest, if it has a valid
one. -/
structure ListedValidator (Key : Type) where
  validation_public_key : Option Key
  manifest : Option (ParsedManifest Key)

structure ListBody (Key : Type) where
  sequence : Nat
  expiration : Nat
  validators : List (ListedValidator Key)

def ListBody.keys (body : ListBody Key) : List (PublicKey Key) :=
  (body.validators.filterMap ListedValidator.validation_public_key).map WithBot.some

structure Published (Key : Type) where
  version : Nat
  manifest : Option (ParsedManifest Key)
  /-- The keys under which the signature of the blob verifies. -/
  signedBy : PublicKey Key → Bool
  /-- What the blob says, if it is well formed. -/
  body : Option (ListBody Key)

inductive ListDisposition where
  | accepted
  | same_sequence
  | unsupported_version
  | untrusted
  | stale
  | invalid
deriving DecidableEq, Repr

structure TrustChanges (NodeID : Type) where
  added : Finset NodeID
  removed : Finset NodeID

/-! ## Counting listings -/

section Listings

variable (listings : HashMap (PublicKey Key) Nat) (k : PublicKey Key)

def listing : Nat := (listings.lookup k).getD 0

def enlist : HashMap (PublicKey Key) Nat := listings.insert k (listing listings k + 1)

/-- One listing less; the last one takes the key out of the map. -/
def unlist : HashMap (PublicKey Key) Nat :=
  match listings.lookup k with
  | none => listings
  | some n => if n ≤ 1 then listings.erase k else listings.insert k (n - 1)

end Listings

/-- The loop of `applyList` over the new list and the one it replaces. -/
def mergeListings (listings : HashMap (PublicKey Key) Nat) :
    List (PublicKey Key) → List (PublicKey Key) → HashMap (PublicKey Key) Nat
  | [], [] => listings
  | new :: news, [] => mergeListings (enlist listings new) news []
  | [], old :: olds => mergeListings (unlist listings old) [] olds
  | new :: news, old :: olds =>
    if new < old then mergeListings (enlist listings new) news (old :: olds)
    else if old < new then mergeListings (unlist listings old) (new :: news) olds
    else mergeListings listings news olds
termination_by news olds => news.length + olds.length

namespace ValidatorList

variable (s : ValidatorList Key)

/-! ## Configuration -/

/-- The loop of `load` over the publishers; a key that does not parse makes `load` fail. -/
def loadPublishers (s : ValidatorList Key) : List (Option Key) → Option (ValidatorList Key)
  | [] => some s
  | none :: _ => none
  | some id :: keys =>
    if s.publisherManifests_.revoked id then loadPublishers s keys
    else if (id : PublicKey Key) ∈ s.publisherLists_ then loadPublishers s keys
    else loadPublishers { s with publisherLists_ := s.publisherLists_.insert id {} } keys

/-- The list of the configuration, which never expires. -/
def configList : PublisherList Key :=
  (s.publisherLists_.lookup ⊥).getD { expiration := timeMax }

def addConfigKey (id : Key) : ValidatorList Key :=
  { s with
    keyListings_ := s.keyListings_.insert id 1
    publisherLists_ := s.publisherLists_.insert ⊥
      { s.configList with list := s.configList.list ++ [↑id], available := true } }

def loadKeys (localSigningKey : PublicKey Key) (s : ValidatorList Key) :
    List (Option Key) → Option (ValidatorList Key)
  | [] => some s
  | none :: _ => none
  | some id :: keys =>
    if (id : PublicKey Key) = s.localPubKey_ ∨ (id : PublicKey Key) = localSigningKey then
      loadKeys localSigningKey s keys
    else if (id : PublicKey Key) ∈ s.keyListings_ then loadKeys localSigningKey s keys
    else loadKeys localSigningKey (s.addConfigKey id) keys

/-- The local key, if there is one, counts as listed in the configuration. -/
def loadLocal (localSigningKey : PublicKey Key) : ValidatorList Key :=
  let localPubKey := s.validatorManifests_.getMasterKey localSigningKey
  { s with
    localPubKey_ := localPubKey
    keyListings_ :=
      if localPubKey = ⊥ ∨ localPubKey ∈ s.keyListings_ then s.keyListings_
      else s.keyListings_.insert localPubKey 1 }

def load (localSigningKey : PublicKey Key) (configKeys publisherKeys : List (Option Key)) :
    Option (ValidatorList Key) :=
  (s.loadPublishers publisherKeys).bind fun s =>
    (s.loadLocal localSigningKey).loadKeys localSigningKey configKeys

/-! ## Published lists -/

variable (publisherKey : PublicKey Key)

def removePublisherList : ValidatorList Key :=
  match s.publisherLists_.lookup publisherKey with
  | none => s
  | some pl =>
    { s with
      keyListings_ := pl.list.foldl unlist s.keyListings_
      publisherLists_ := s.publisherLists_.insert publisherKey pl.emptied }

def dropPublisher : ValidatorList Key :=
  let s := s.removePublisherList publisherKey
  { s with publisherLists_ := s.publisherLists_.erase publisherKey }

section Apply

variable (verifyManifest : Manifest (PublicKey Key) → Bool) (now : Nat)

/-- The disposition of a list that comes with the manifest `m`, after the publisher's manifests were
brought up to date. -/
def verifyBody (s : ValidatorList Key) (m : ParsedManifest Key) (p : Published Key) :
    ListDisposition :=
  if !p.signedBy (s.publisherManifests_.getSigningKey m.1.masterKey) then .invalid
  else
    match p.body with
    | none => .invalid
    | some body =>
      let sequence := ((s.publisherLists_.lookup m.1.masterKey).getD {}).sequence
      if body.sequence < sequence ∨ body.expiration ≤ now then .stale
      else if body.sequence = sequence then .same_sequence
      else .accepted

def verify (m : ParsedManifest Key) (p : Published Key) : ListDisposition × ValidatorList Key :=
  if m.1.masterKey ∉ s.publisherLists_ then (.untrusted, s)
  else
    let (result, publisherManifests) := s.publisherManifests_.applyManifest verifyManifest m.1
    let s := { s with publisherManifests_ := publisherManifests }
    let revoked := m.1.revoked
    let s := if revoked ∧ result = .accepted then s.dropPublisher m.1.masterKey else s
    if revoked ∨ result = .invalid then (.untrusted, s) else (s.verifyBody now m p, s)

def replaceList (body : ListBody Key) : ValidatorList Key :=
  let old := (s.publisherLists_.lookup publisherKey).getD {}
  let list := body.keys.mergeSort (· ≤ ·)
  { s with
    publisherLists_ := s.publisherLists_.insert publisherKey
      { available := true, list, sequence := body.sequence, expiration := body.expiration }
    keyListings_ := mergeListings s.keyListings_ list old.list }

def applyManifests (body : ListBody Key) : ValidatorList Key :=
  { s with
    validatorManifests_ := (body.validators.filterMap ListedValidator.manifest).foldl
      (fun cache m =>
        if m.1.masterKey ∈ s.keyListings_ then (cache.applyManifest verifyManifest m.1).2 else cache)
      s.validatorManifests_ }

def requiredListVersion : Nat := 1

def applyList (p : Published Key) : ListDisposition × ValidatorList Key :=
  if p.version ≠ requiredListVersion then (.unsupported_version, s)
  else
    match p.manifest with
    | none => (.untrusted, s)
    | some m =>
      let result := s.verify verifyManifest now m p
      -- an accepted list has a body
      match p.body with
      | none => result
      | some body =>
        if result.1 = .accepted then
          (.accepted, (result.2.replaceList m.1.masterKey body).applyManifests verifyManifest body)
        else result

end Apply

/-! ## The trusted keys -/

def expire (now : Nat) (s : ValidatorList Key) (publisherKey : PublicKey Key) : ValidatorList Key :=
  match s.publisherLists_.lookup publisherKey with
  | none => s
  | some pl =>
    if pl.available ∧ pl.expiration ≤ now then s.removePublisherList publisherKey else s

def expireAll (now : Nat) : ValidatorList Key := s.publisherLists_.keys.foldl (expire now) s

def eligible (k : PublicKey Key) : Bool :=
  decide (k ∈ s.keyListings_) && !s.validatorManifests_.revoked k

def updateTrusted (calcNodeID : PublicKey Key → NodeID) (now : Nat) :
    TrustChanges NodeID × ValidatorList Key :=
  let s := s.expireAll now
  let kept := s.trustedKeys_.filter fun k => s.eligible k
  let added := (s.keyListings_.keys.toFinset.filter fun k => !s.validatorManifests_.revoked k) \ kept
  (⟨added.image calcNodeID, (s.trustedKeys_ \ kept).image calcNodeID⟩,
    { s with trustedKeys_ := kept ∪ added })

end ValidatorList

/-! ## What the counts say -/

section Listings

variable {listings : HashMap (PublicKey Key) Nat} {k k' : PublicKey Key}

def Positive (listings : HashMap (PublicKey Key) Nat) : Prop := ∀ k, listings.lookup k ≠ some 0

theorem Positive.mem_iff (h : Positive listings) : k ∈ listings ↔ 0 < listing listings k := by
  rw [AList.mem_iff_lookup, listing]
  cases hk : listings.lookup k with
  | none => simp
  | some n =>
    have hn : n ≠ 0 := fun hzero => h k (by rw [hk, hzero])
    simp
    omega

theorem listing_insert (n : Nat) :
    listing (listings.insert k n) k' = if k' = k then n else listing listings k' := by
  rw [listing, AList.lookup_insert_ite]
  split <;> rfl

theorem listing_enlist :
    listing (enlist listings k) k' = listing listings k' + if k' = k then 1 else 0 := by
  rw [enlist, listing_insert]
  split
  · rename_i hk
    rw [hk]
  · rfl

theorem listing_unlist :
    listing (unlist listings k) k' = listing listings k' - if k' = k then 1 else 0 := by
  unfold unlist
  cases hk : listings.lookup k with
  | none =>
    by_cases hkk : k' = k
    · subst hkk
      simp [listing, hk]
    · simp [hkk]
  | some n =>
    have hn : listing listings k = n := by rw [listing, hk]; rfl
    by_cases hkk : k' = k
    · subst hkk
      by_cases hone : n ≤ 1
      · simp [hone, listing, hk]
      · simp [hone, listing_insert, hn]
    · by_cases hone : n ≤ 1
      · simp [hone, hkk, listing, AList.lookup_erase_ne hkk]
      · simp [hone, hkk, listing_insert]

theorem Positive.insert (h : Positive listings) {n : Nat} (hn : n ≠ 0) :
    Positive (listings.insert k n) := by
  intro k' hzero
  rw [AList.lookup_insert_ite] at hzero
  split at hzero
  · exact hn (Option.some.inj hzero)
  · exact h k' hzero

theorem Positive.enlist (h : Positive listings) : Positive (enlist listings k) :=
  h.insert (Nat.succ_ne_zero _)

theorem Positive.unlist (h : Positive listings) : Positive (unlist listings k) := by
  unfold Misc.unlist
  cases hk : listings.lookup k with
  | none => exact h
  | some n =>
    by_cases hone : n ≤ 1
    · simp only [hone, if_true]
      intro k' hzero
      rw [AList.lookup_erase_ite] at hzero
      split at hzero
      · cases hzero
      · exact h k' hzero
    · simp only [hone, if_false]
      exact h.insert (by omega)

theorem count_cons_ite (key : PublicKey Key) (keys : List (PublicKey Key)) :
    (key :: keys).count k = keys.count k + if k = key then 1 else 0 := by
  rw [List.count_cons]
  by_cases hk : k = key
  · simp [hk]
  · simp [hk, Ne.symm hk]

theorem listing_unlists (keys : List (PublicKey Key)) :
    listing (keys.foldl unlist listings) k = listing listings k - keys.count k := by
  induction keys generalizing listings with
  | nil => simp
  | cons key keys ih =>
    rw [List.foldl_cons, ih, listing_unlist, count_cons_ite]
    omega

theorem Positive.unlists (h : Positive listings) (keys : List (PublicKey Key)) :
    Positive (keys.foldl Misc.unlist listings) :=
  List.foldlRecOn (motive := Positive) _ _ h fun _ hp _ _ => hp.unlist

theorem count_le_unlist {old : PublicKey Key} {olds : List (PublicKey Key)}
    (h : ∀ k, (old :: olds).count k ≤ listing listings k) (k : PublicKey Key) :
    olds.count k ≤ listing (unlist listings old) k := by
  have hk := h k
  rw [count_cons_ite] at hk
  rw [listing_unlist]
  omega

/-- Whatever the order of the two lists: a key that is passed over stands at the head of both. -/
theorem Positive.merge (hp : Positive listings) (news olds : List (PublicKey Key))
    (h : ∀ k, olds.count k ≤ listing listings k) :
    Positive (mergeListings listings news olds) ∧
      ∀ k, listing (mergeListings listings news olds) k + olds.count k = listing listings k + news.count k := by
  induction listings, news, olds using mergeListings.induct with
  | case1 listings => exact ⟨by rwa [mergeListings], by simp [mergeListings]⟩
  | case2 listings new news ih =>
    obtain ⟨hpos, hrest⟩ := ih hp.enlist (by simp)
    rw [mergeListings]
    refine ⟨hpos, fun k => ?_⟩
    have hk := hrest k
    rw [listing_enlist] at hk
    rw [count_cons_ite]
    omega
  | case3 listings old olds ih =>
    obtain ⟨hpos, hrest⟩ := ih hp.unlist (count_le_unlist h)
    rw [mergeListings]
    refine ⟨hpos, fun k => ?_⟩
    have hk := hrest k
    have hold := h k
    rw [listing_unlist] at hk
    rw [count_cons_ite] at hold ⊢
    omega
  | case4 listings new news old olds hlt ih =>
    have hleft : ∀ k, (old :: olds).count k ≤ listing (Misc.enlist listings new) k := by
      intro k
      have hk := h k
      rw [listing_enlist]
      omega
    obtain ⟨hpos, hrest⟩ := ih hp.enlist hleft
    rw [mergeListings, if_pos hlt]
    refine ⟨hpos, fun k => ?_⟩
    have hk := hrest k
    rw [listing_enlist] at hk
    rw [count_cons_ite new]
    omega
  | case5 listings new news old olds hnlt hlt ih =>
    obtain ⟨hpos, hrest⟩ := ih hp.unlist (count_le_unlist h)
    rw [mergeListings, if_neg hnlt, if_pos hlt]
    refine ⟨hpos, fun k => ?_⟩
    have hk := hrest k
    have hold := h k
    rw [listing_unlist] at hk
    rw [count_cons_ite old] at hold ⊢
    omega
  | case6 listings new news old olds hnlt hnlt' ih =>
    obtain rfl : new = old := le_antisymm (not_lt.mp hnlt') (not_lt.mp hnlt)
    obtain ⟨hpos, hrest⟩ := ih hp fun k => (List.count_le_count_cons).trans (h k)
    rw [mergeListings, if_neg hnlt, if_neg hnlt']
    refine ⟨hpos, fun k => ?_⟩
    have hk := hrest k
    rw [count_cons_ite, count_cons_ite]
    omega

end Listings

namespace ValidatorList

variable {s : ValidatorList Key}

def own (s : ValidatorList Key) (k : PublicKey Key) : Nat :=
  if k = s.localPubKey_ ∧ k ≠ ⊥ then 1 else 0

def onConfig (s : ValidatorList Key) (k : PublicKey Key) : Nat :=
  (s.publisherLists_.lookup ⊥).elim 0 fun pl => pl.list.count k

def onLists (s : ValidatorList Key) (k : PublicKey Key) : Nat :=
  s.publisherLists_.total fun pl => pl.list.count k

theorem removePublisherList_frame (s : ValidatorList Key) (publisherKey : PublicKey Key) :
    s.removePublisherList publisherKey = { s with
      keyListings_ := (s.removePublisherList publisherKey).keyListings_
      publisherLists_ := (s.removePublisherList publisherKey).publisherLists_ } := by
  unfold removePublisherList
  cases s.publisherLists_.lookup publisherKey <;> rfl

theorem lookup_removePublisherList (s : ValidatorList Key) (publisherKey k : PublicKey Key) :
    (s.removePublisherList publisherKey).publisherLists_.lookup k =
      if k = publisherKey then (s.publisherLists_.lookup k).map PublisherList.emptied
      else s.publisherLists_.lookup k := by
  unfold removePublisherList
  by_cases hk : k = publisherKey
  · subst hk
    cases hlist : s.publisherLists_.lookup k with
    | none => simp [hlist]
    | some pl => simp
  · cases s.publisherLists_.lookup publisherKey with
    | none | some pl => simp [hk]

structure Counted (s : ValidatorList Key) : Prop where
  positive : Positive s.keyListings_
  counts : ∀ k, listing s.keyListings_ k = s.own k + s.onLists k

namespace Counted

theorem removePublisherList (h : Counted s) (publisherKey : PublicKey Key) :
    Counted (s.removePublisherList publisherKey) := by
  unfold ValidatorList.removePublisherList
  cases hlist : s.publisherLists_.lookup publisherKey with
  | none => exact h
  | some pl =>
    refine ⟨h.positive.unlists _, fun k => ?_⟩
    have hcounts := h.counts k
    have htotal := s.publisherLists_.total_insert_add (fun pl => pl.list.count k) publisherKey pl.emptied
    simp only [hlist, Option.elim_some, PublisherList.emptied, List.count_nil] at htotal
    simp only [listing_unlists, own, onLists, PublisherList.emptied] at hcounts ⊢
    omega

theorem eraseList (h : Counted s) {publisherKey : PublicKey Key} {pl : PublisherList Key}
    (hlist : s.publisherLists_.lookup publisherKey = some pl) (hempty : pl.list = []) :
    Counted { s with publisherLists_ := s.publisherLists_.erase publisherKey } := by
  refine ⟨h.positive, fun k => ?_⟩
  have hcounts := h.counts k
  have htotal := AList.total_erase (fun pl : PublisherList Key => pl.list.count k) hlist
  simp only [hempty, List.count_nil] at htotal
  simp only [own, onLists] at hcounts ⊢
  omega

omit [LinearOrder Key] in
theorem count_getD [DecidableEq Key] {d : PublisherList Key} (hd : d.list = []) (o : Option (PublisherList Key))
    (k : PublicKey Key) : (o.getD d).list.count k = o.elim 0 fun pl => pl.list.count k := by
  cases o with
  | none => simp [hd]
  | some pl => rfl

theorem replaceList (h : Counted s) (publisherKey : PublicKey Key) (body : ListBody Key) :
    Counted (s.replaceList publisherKey body) := by
  have hold : ∀ k, ((s.publisherLists_.lookup publisherKey).getD {}).list.count k ≤
      listing s.keyListings_ k := by
    intro k
    rw [count_getD rfl, h.counts k]
    exact (s.publisherLists_.elim_lookup_le_total _ publisherKey).trans (Nat.le_add_left _ _)
  obtain ⟨hpos, hmerge⟩ := h.positive.merge (body.keys.mergeSort (· ≤ ·)) _ hold
  refine ⟨hpos, fun k => ?_⟩
  have hcounts := h.counts k
  have hmerge := hmerge k
  have htotal := s.publisherLists_.total_insert_add (fun pl => pl.list.count k) publisherKey
    { available := true, list := body.keys.mergeSort (· ≤ ·), sequence := body.sequence
      expiration := body.expiration }
  have hown : (s.replaceList publisherKey body).own k = s.own k := rfl
  rw [count_getD rfl] at hmerge
  rw [hown]
  simp only [ValidatorList.replaceList, onLists] at hcounts htotal ⊢
  omega

theorem addConfigKey (h : Counted s) {id : Key} (hnew : (id : PublicKey Key) ∉ s.keyListings_) :
    Counted (s.addConfigKey id) := by
  rw [h.positive.mem_iff] at hnew
  refine ⟨h.positive.insert Nat.one_ne_zero, fun k => ?_⟩
  have hcounts := h.counts k
  have htotal := s.publisherLists_.total_insert_add (fun pl => pl.list.count k) ⊥
    { s.configList with list := s.configList.list ++ [↑id], available := true }
  simp only [List.count_append, configList, count_getD, count_cons_ite, List.count_nil] at htotal
  have hown : (s.addConfigKey id).own k = s.own k := rfl
  rw [hown]
  simp only [ValidatorList.addConfigKey, listing_insert, onLists, configList] at hcounts ⊢
  by_cases hk : k = id
  · subst hk
    simp only [if_true] at htotal ⊢
    omega
  · simp only [hk, if_false] at htotal ⊢
    omega

theorem expire (h : Counted s) (now : Nat) (publisherKey : PublicKey Key) :
    Counted (s.expire now publisherKey) := by
  unfold ValidatorList.expire
  cases s.publisherLists_.lookup publisherKey with
  | none => exact h
  | some pl =>
    dsimp only
    split
    · exact h.removePublisherList publisherKey
    · exact h

end Counted

end ValidatorList

end Ripple.Misc
