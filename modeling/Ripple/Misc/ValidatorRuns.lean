import Ripple.Misc.ValidatorList

/-!
# Ripple.Misc.ValidatorRuns

Runs of a validator list: one `load`, then published lists and updates of the trusted keys under a
clock that does not run backwards. A run keeps for every publisher the last list that was accepted
from it; `Filed` says how what is stored relates to these.
-/

namespace Ripple.Misc

open AList Finset
open ValidatorList (requiredListVersion lookup_removePublisherList applyList verify expire eligible
  onConfig dropPublisher)

variable {Key NodeID : Type} [LinearOrder Key] [DecidableEq NodeID]

structure Config (Key : Type) where
  localSigningKey : PublicKey Key
  configKeys : List (Option Key)
  publisherKeys : List (Option Key)

def Config.keys (cfg : Config Key) : List (PublicKey Key) := cfg.configKeys.reduceOption.map WithBot.some

def Config.publishers (cfg : Config Key) : Finset Key := cfg.publisherKeys.reduceOption.toFinset

/-- The local key and the keys of the configuration; the local signing key does not count if it
stands for another key. -/
def Config.Names (cfg : Config Key) (localPubKey k : PublicKey Key) : Prop :=
  k ≠ ⊥ ∧ (k = localPubKey ∨ k ∈ cfg.keys ∧ k ≠ cfg.localSigningKey)

instance (cfg : Config Key) (localPubKey k : PublicKey Key) : Decidable (cfg.Names localPubKey k) :=
  inferInstanceAs (Decidable (_ ∧ _))

abbrev Accepted (Key : Type) := Key → Option (List (PublicKey Key) × Nat)

def Accepted.record (current : Accepted Key) (p : Published Key) : Accepted Key := fun publisher =>
  match p.manifest, p.body with
  | some m, some body =>
    if m.1.masterKey = publisher then some (body.keys, body.expiration) else current publisher
  | _, _ => current publisher

section Spec

variable (cfg : Config Key) (current : Accepted Key) (now : Nat) (s : ValidatorList Key)

def onListOf (publisher : Key) (k : PublicKey Key) : Nat :=
  match current publisher with
  | some (keys, expiration) => if now < expiration then keys.count k else 0
  | none => 0

/-- The number of listings of a key: one for the configuration, and those of the publishers. -/
def listingsOf (k : PublicKey Key) : Nat :=
  (if cfg.Names s.localPubKey_ k then 1 else 0) +
    ∑ publisher ∈ cfg.publishers, if s.publisherManifests_.revoked (publisher : PublicKey Key) then 0
      else onListOf current now publisher k

/-- The key is the local key, or in the configuration, or on the unexpired list of a publisher that
is configured and not revoked. -/
def Listed (k : PublicKey Key) : Prop :=
  cfg.Names s.localPubKey_ k ∨ ∃ publisher ∈ cfg.publishers,
    s.publisherManifests_.revoked (publisher : PublicKey Key) = false ∧
    ∃ keys expiration, current publisher = some (keys, expiration) ∧ now < expiration ∧ k ∈ keys

end Spec

/-- After `load`, published lists and updates, at times for which `ticks` holds, lead to `s`. -/
inductive ValidatorRun (cfg : Config Key) (verifyManifest : Manifest (PublicKey Key) → Bool)
    (calcNodeID : PublicKey Key → NodeID) (ticks : Nat → Prop) :
    Accepted Key → Nat → ValidatorList Key → Prop where
  | load {validatorManifests publisherManifests : ManifestCache (PublicKey Key)} {s} (time : Nat) :
      ValidatorList.load { validatorManifests_ := validatorManifests
                           publisherManifests_ := publisherManifests }
        cfg.localSigningKey cfg.configKeys cfg.publisherKeys = some s →
      ValidatorRun cfg verifyManifest calcNodeID ticks (fun _ => none) time s
  | applyList {current time s} (p : Published Key) {now : Nat} :
      ValidatorRun cfg verifyManifest calcNodeID ticks current time s → time ≤ now →
      ValidatorRun cfg verifyManifest calcNodeID ticks
        (if (s.applyList verifyManifest now p).1 = .accepted then current.record p else current) now
        (s.applyList verifyManifest now p).2
  | updateTrusted {current time s} {now : Nat} :
      ValidatorRun cfg verifyManifest calcNodeID ticks current time s → time ≤ now → ticks now →
      ValidatorRun cfg verifyManifest calcNodeID ticks current now (s.updateTrusted calcNodeID now).2

/-! ## What is stored -/

def Stores (list : Option (List (PublicKey Key) × Nat)) (time : Nat) (pl : PublisherList Key) : Prop :=
  if pl.available then ∃ keys, list = some (keys, pl.expiration) ∧ pl.list.Perm keys
  else pl.list = [] ∧ ∀ keys expiration, list = some (keys, expiration) → expiration ≤ time

structure Filed (cfg : Config Key) (current : Accepted Key) (time : Nat) (s : ValidatorList Key) :
    Prop where
  config : ∀ k, s.own k + s.onConfig k = if cfg.Names s.localPubKey_ k then 1 else 0
  lasting : ∀ pl, s.publisherLists_.lookup ⊥ = some pl → pl.expiration = timeMax
  publishers : ∀ publisher : Key, (publisher : PublicKey Key) ∈ s.publisherLists_ ↔
    publisher ∈ cfg.publishers ∧ s.publisherManifests_.revoked (publisher : PublicKey Key) = false
  lists : ∀ (publisher : Key) (pl : PublisherList Key),
    s.publisherLists_.lookup (publisher : PublicKey Key) = some pl → Stores (current publisher) time pl

/-! ## Loading -/

namespace ValidatorList

variable {s s' : ValidatorList Key}

variable {keys : List (Option Key)}

theorem loadPublishers_spec (h : s.loadPublishers keys = some s') :
    s' = { s with publisherLists_ := s'.publisherLists_ } ∧
    (∀ publisher : Key, ↑publisher ∈ s'.publisherLists_ ↔
      ↑publisher ∈ s.publisherLists_ ∨ publisher ∈ keys.reduceOption ∧
        s.publisherManifests_.revoked ↑publisher = false) ∧
    ∀ k (pl : PublisherList Key), s'.publisherLists_.lookup k = some pl →
      s.publisherLists_.lookup k = some pl ∨ pl = {} ∧ k ≠ ⊥ := by
  induction keys generalizing s with
  | nil =>
    cases h
    exact ⟨rfl, by simp, fun _ _ hpl => .inl hpl⟩
  | cons key keys ih =>
    cases key with
    | none => cases h
    | some id =>
      rw [loadPublishers, ← ite_or] at h
      split at h
      · rename_i hskip
        obtain ⟨hframe, hmem, hlookup⟩ := ih h
        refine ⟨hframe, fun publisher => ?_, hlookup⟩
        rw [hmem publisher, List.reduceOption_cons_of_some, List.mem_cons]
        have hid : publisher = id → s.publisherManifests_.revoked ↑publisher = false →
            ↑publisher ∈ s.publisherLists_ := by
          rintro rfl hfalse
          exact hskip.resolve_left (by simp [hfalse])
        tauto
      · rename_i hnew
        obtain ⟨hframe, hmem, hlookup⟩ := ih h
        refine ⟨hframe, fun publisher => ?_, fun k pl hpl => ?_⟩
        · rw [hmem publisher, List.reduceOption_cons_of_some, List.mem_cons, AList.mem_insert, WithBot.coe_inj]
          have hid : publisher = id → s.publisherManifests_.revoked ↑publisher = false := by
            rintro rfl
            simpa using (not_or.mp hnew).1
          tauto
        · rcases hlookup k pl hpl with hold | hadded
          · rw [AList.lookup_insert_ite] at hold
            split at hold
            · rename_i hk
              exact .inr ⟨(Option.some.inj hold).symm, by simp [hk]⟩
            · exact .inl hold
          · exact .inr hadded

theorem onLists_eq_onConfig (h : ∀ (publisher : Key) (pl : PublisherList Key),
    s.publisherLists_.lookup ↑publisher = some pl → pl.list = []) (k : PublicKey Key) :
    s.onLists k = s.onConfig k := by
  have hkeys : ∀ key ∈ s.publisherLists_, key ∈ insert ⊥ s.publisherLists_.keys.toFinset := by
    intro key hkey
    exact mem_insert_of_mem (List.mem_toFinset.mpr hkey)
  rw [onLists, total_eq_sum _ _ hkeys]
  refine sum_eq_single_of_mem ⊥ (mem_insert_self _ _) fun key _ hne => ?_
  obtain ⟨publisher, rfl⟩ := WithBot.ne_bot_iff_exists.mp hne
  cases hlist : s.publisherLists_.lookup ↑publisher with
  | none => rfl
  | some pl => simp [h publisher pl hlist]

theorem onConfig_addConfigKey (s : ValidatorList Key) (id : Key) (k : PublicKey Key) :
    (s.addConfigKey id).onConfig k = s.onConfig k + if k = id then 1 else 0 := by
  unfold onConfig addConfigKey configList
  rw [lookup_insert]
  cases s.publisherLists_.lookup ⊥ with
  | none => simp [count_cons_ite]
  | some pl => simp [List.count_append, count_cons_ite]

structure KeysLoaded (localSigningKey : PublicKey Key) (keys : List (PublicKey Key))
    (s s' : ValidatorList Key) : Prop where
  counted : Counted s'
  frame : s'.localPubKey_ = s.localPubKey_ ∧ s'.publisherManifests_ = s.publisherManifests_
  lists : ∀ publisher : Key, s'.publisherLists_.lookup ↑publisher =
    s.publisherLists_.lookup ↑publisher
  lasting : ∀ pl, s'.publisherLists_.lookup ⊥ = some pl → pl.expiration = timeMax
  once : ∀ k, s'.own k + s'.onConfig k = if 0 < s.own k + s.onConfig k ∨
    k ∈ keys ∧ k ≠ s.localPubKey_ ∧ k ≠ localSigningKey then 1 else 0

theorem loadKeys_spec {localSigningKey : PublicKey Key}
    (h : loadKeys localSigningKey s keys = some s') (hc : Counted s)
    (hblank : ∀ (publisher : Key) (pl : PublisherList Key),
      s.publisherLists_.lookup ↑publisher = some pl → pl.list = [])
    (hlasting : ∀ pl, s.publisherLists_.lookup ⊥ = some pl → pl.expiration = timeMax)
    (honce : ∀ k, s.own k + s.onConfig k ≤ 1) :
    KeysLoaded localSigningKey (keys.reduceOption.map WithBot.some) s s' := by
  induction keys generalizing s with
  | nil =>
    cases h
    refine ⟨hc, ⟨rfl, rfl⟩, fun _ => rfl, hlasting, fun k => ?_⟩
    have hk := honce k
    simp only [List.reduceOption_nil, List.map_nil, List.not_mem_nil, false_and, or_false]
    split <;> omega
  | cons key keys ih =>
    cases key with
    | none => cases h
    | some id =>
      rw [loadKeys, ← ite_or] at h
      rw [List.reduceOption_cons_of_some, List.map_cons]
      split at h
      · rename_i hskip
        have hrest := ih h hc hblank hlasting honce
        refine ⟨hrest.counted, hrest.frame, hrest.lists, hrest.lasting, fun k => ?_⟩
        have hid : k = id → k ≠ s.localPubKey_ ∧ k ≠ localSigningKey → 0 < s.own k + s.onConfig k := by
          rintro rfl hpass
          rw [← onLists_eq_onConfig hblank, ← hc.counts]
          exact hc.positive.mem_iff.mp (hskip.resolve_left (by tauto))
        rw [hrest.once k]
        refine if_congr ?_ rfl rfl
        simp only [List.mem_cons]
        tauto
      · rename_i hnew
        rw [not_or] at hnew
        have hzero : s.own id + s.onConfig id = 0 := by
          have hnew := hnew.2
          rw [hc.positive.mem_iff, hc.counts, onLists_eq_onConfig hblank] at hnew
          omega
        have hlists : ∀ publisher : Key,
            (s.addConfigKey id).publisherLists_.lookup ↑publisher =
              s.publisherLists_.lookup ↑publisher := fun publisher =>
          lookup_insert_ne (WithBot.coe_ne_bot)
        have hown : ∀ k, (s.addConfigKey id).own k = s.own k := fun k => rfl
        have hrest := ih h (hc.addConfigKey hnew.2) (fun publisher pl hpl => ?_) ?_ (fun k => ?_)
        · refine ⟨hrest.counted, hrest.frame, fun publisher => (hrest.lists publisher).trans
            (hlists publisher), hrest.lasting, fun k => ?_⟩
          rw [hrest.once k, hown, onConfig_addConfigKey]
          refine if_congr ?_ rfl rfl
          by_cases hk : k = id
          · subst hk
            obtain ⟨hlocal, hsigning⟩ := not_or.mp hnew.1
            simp [hlocal, hsigning]
          · have hsame : (s.addConfigKey id).localPubKey_ = s.localPubKey_ := rfl
            simp [hk, hsame]
        · exact hblank publisher pl ((hlists publisher).symm.trans hpl)
        · intro pl hpl
          rw [addConfigKey, lookup_insert] at hpl
          obtain rfl := Option.some.inj hpl
          unfold configList
          cases hold : s.publisherLists_.lookup ⊥ with
          | none => rfl
          | some pl => exact hlasting pl hold
        · rw [hown, onConfig_addConfigKey]
          have hk := honce k
          by_cases hid : k = id
          · subst hid
            simp
            omega
          · simp [hid]
            omega

theorem own_pos {k : PublicKey Key} : 0 < s.own k ↔ k = s.localPubKey_ ∧ k ≠ ⊥ := by
  unfold own
  split
  · rename_i h
    simpa using h
  · rename_i h
    simpa using h

theorem loadLocal_counted (hempty : s.keyListings_ = ∅) (hnone : ∀ k, s.onLists k = 0)
    (localSigningKey : PublicKey Key) : Counted (s.loadLocal localSigningKey) := by
  unfold loadLocal
  generalize s.validatorManifests_.getMasterKey localSigningKey = localPubKey
  by_cases hbot : localPubKey = ⊥
  · simp only [hbot, true_or, if_true, hempty]
    refine ⟨fun k => by simp, fun k => ?_⟩
    have hk := hnone k
    simp only [onLists] at hk
    simp [listing, own, onLists, hk]
  · simp only [hbot, hempty, AList.notMem_empty, or_self, if_false]
    refine ⟨Positive.insert (fun k => by simp) Nat.one_ne_zero, fun k => ?_⟩
    have hk := hnone k
    simp only [onLists] at hk
    rw [listing_insert]
    by_cases heq : k = localPubKey
    · subst heq
      simp [own, onLists, hk, hbot]
    · simp [own, onLists, hk, heq, listing]

theorem load_filed {cfg : Config Key} {validatorManifests publisherManifests : ManifestCache (PublicKey Key)}
    (h : load { validatorManifests_ := validatorManifests, publisherManifests_ := publisherManifests }
      cfg.localSigningKey cfg.configKeys cfg.publisherKeys = some s) (time : Nat) :
    Counted s ∧ Filed cfg (fun _ => none) time s := by
  obtain ⟨s₁, hpublishers, hkeys⟩ := Option.bind_eq_some_iff.mp h
  obtain ⟨hframe, hmem, hlookup⟩ := loadPublishers_spec hpublishers
  have hblank : ∀ k (pl : PublisherList Key), s₁.publisherLists_.lookup k = some pl →
      pl = {} ∧ k ≠ ⊥ := by
    intro k pl hpl
    rcases hlookup k pl hpl with hold | hnew
    · simp at hold
    · exact hnew
  have hconfig : s₁.publisherLists_.lookup ⊥ = none := by
    cases hpl : s₁.publisherLists_.lookup ⊥ with
    | none => rfl
    | some pl => exact absurd rfl (hblank ⊥ pl hpl).2
  have honConfig : ∀ k, s₁.onConfig k = 0 := fun k => by simp [onConfig, hconfig]
  have hlists : ∀ (publisher : Key) (pl : PublisherList Key),
      s₁.publisherLists_.lookup ↑publisher = some pl → pl.list = [] :=
    fun publisher pl hpl => by rw [(hblank _ pl hpl).1]
  have honLists : ∀ k, s₁.onLists k = 0 := fun k => (onLists_eq_onConfig hlists k).trans (honConfig k)
  have hcounted : Counted (s₁.loadLocal cfg.localSigningKey) :=
    loadLocal_counted (by rw [hframe]) honLists cfg.localSigningKey
  have hzero : ∀ k, (s₁.loadLocal cfg.localSigningKey).onConfig k = 0 := honConfig
  have hloaded := loadKeys_spec hkeys hcounted hlists (fun pl hpl => ?_) (fun k => ?_)
  · refine ⟨hloaded.counted, fun k => ?_, hloaded.lasting, fun publisher => ?_, fun publisher pl hpl => ?_⟩
    · rw [hloaded.once k]
      refine if_congr ?_ rfl rfl
      rw [hzero k, Nat.add_zero, own_pos, hloaded.frame.1]
      have hkey : k ∈ cfg.keys → k ≠ ⊥ := by
        intro hk
        obtain ⟨id, -, rfl⟩ := List.mem_map.mp hk
        exact WithBot.coe_ne_bot
      unfold Config.Names
      change _ ∨ k ∈ cfg.keys ∧ _ ↔ _
      tauto
    · have hsame : ↑publisher ∈ s.publisherLists_ ↔
          ↑publisher ∈ s₁.publisherLists_ := by
        rw [mem_iff_lookup, mem_iff_lookup, hloaded.lists publisher]
        rfl
      have hmanifests : s.publisherManifests_ = publisherManifests := by
        rw [hloaded.frame.2]
        change s₁.publisherManifests_ = _
        rw [hframe]
      rw [hsame, hmem publisher, hmanifests]
      simp [Config.publishers]
    · rw [hloaded.lists publisher] at hpl
      rw [(hblank _ pl hpl).1]
      simp [Stores]
  · change s₁.publisherLists_.lookup ⊥ = some pl at hpl
    rw [hconfig] at hpl
    cases hpl
  · rw [hzero k, own]
    split <;> omega

end ValidatorList

/-! ## Published lists -/

section Apply

variable {cfg : Config Key} {current : Accepted Key} {time now : Nat} {s : ValidatorList Key}
  {verifyManifest : Manifest (PublicKey Key) → Bool} {p : Published Key} {m : ParsedManifest Key}

omit [LinearOrder Key] in
theorem Stores.mono {list : Option (List (PublicKey Key) × Nat)} {pl : PublisherList Key}
    (h : Stores list time pl) (hle : time ≤ now) : Stores list now pl := by
  unfold Stores at *
  split
  · rename_i havailable
    rwa [if_pos havailable] at h
  · rename_i havailable
    rw [if_neg havailable] at h
    exact ⟨h.1, fun keys expiration hlist => (h.2 keys expiration hlist).trans hle⟩

def noteManifest (verifyManifest : Manifest (PublicKey Key) → Bool) (s : ValidatorList Key)
    (m : ParsedManifest Key) : ValidatorList Key :=
  { s with publisherManifests_ := (s.publisherManifests_.applyManifest verifyManifest m.1).2 }

theorem noteManifest_counted (h : s.Counted) : (noteManifest verifyManifest s m).Counted :=
  ⟨h.positive, h.counts⟩

def Revokes (verifyManifest : Manifest (PublicKey Key) → Bool) (s : ValidatorList Key)
    (m : ParsedManifest Key) : Prop :=
  m.1.revoked = true ∧ (s.publisherManifests_.applyManifest verifyManifest m.1).1 = .accepted

variable {s' : ValidatorList Key}

theorem onConfig_congr (h : s'.publisherLists_.lookup ⊥ = s.publisherLists_.lookup ⊥)
    (k : PublicKey Key) : s'.onConfig k = s.onConfig k := by
  rw [onConfig, h, onConfig]

section

variable (h : Filed cfg current time s)
include h

theorem Filed.relist {current' : Accepted Key}
    (hlocal : s'.localPubKey_ = s.localPubKey_)
    (hconfig : s'.publisherLists_.lookup ⊥ = s.publisherLists_.lookup ⊥)
    (hpublishers : ∀ publisher : Key, ↑publisher ∈ s'.publisherLists_ ↔
      publisher ∈ cfg.publishers ∧ s'.publisherManifests_.revoked ↑publisher = false)
    (hlists : ∀ (publisher : Key) (pl : PublisherList Key),
      s'.publisherLists_.lookup ↑publisher = some pl → Stores (current' publisher) now pl) :
    Filed cfg current' now s' := by
  refine ⟨fun k => ?_, fun pl hpl => h.lasting pl (hconfig.symm.trans hpl), hpublishers, hlists⟩
  rw [onConfig_congr hconfig, ValidatorList.own, hlocal]
  exact h.config k

theorem Filed.mono (hle : time ≤ now) : Filed cfg current now s :=
  ⟨h.config, h.lasting, h.publishers, fun publisher pl hpl => (h.lists publisher pl hpl).mono hle⟩

theorem Filed.unrevoked (hmem : m.1.masterKey ∈ s.publisherLists_) :
    s.publisherManifests_.revoked m.1.masterKey = false := by
  obtain ⟨publisher, heq⟩ := WithBot.ne_bot_iff_exists.mp m.2
  rw [← heq] at hmem ⊢
  exact ((h.publishers publisher).mp hmem).2

theorem Filed.noted (hmem : m.1.masterKey ∈ s.publisherLists_)
    (hkeeps : ¬Revokes verifyManifest s m) : Filed cfg current time (noteManifest verifyManifest s m) := by
  refine ⟨h.config, h.lasting, fun publisher => (h.publishers publisher).trans ?_, h.lists⟩
  rw [noteManifest, ManifestCache.revoked_applyManifest]
  split
  · rename_i hacc
    rw [hacc.2, h.unrevoked hmem]
    have hm : m.1.revoked = false := by simpa [Revokes, hacc.1] using hkeeps
    rw [hm]
  · rfl

end

inductive Applied (verifyManifest : Manifest (PublicKey Key) → Bool) (now : Nat) (p : Published Key)
    (s : ValidatorList Key) : ListDisposition → ValidatorList Key → Prop where
  | ignored {d : ListDisposition} : d ≠ .accepted → Applied verifyManifest now p s d s
  | revoked {d : ListDisposition} (m : ParsedManifest Key) : d ≠ .accepted →
      m.1.masterKey ∈ s.publisherLists_ → Revokes verifyManifest s m →
      Applied verifyManifest now p s d ((noteManifest verifyManifest s m).dropPublisher m.1.masterKey)
  | refused {d : ListDisposition} (m : ParsedManifest Key) : d ≠ .accepted →
      m.1.masterKey ∈ s.publisherLists_ → ¬Revokes verifyManifest s m →
      Applied verifyManifest now p s d (noteManifest verifyManifest s m)
  | accepted (m : ParsedManifest Key) (body : ListBody Key) : p.manifest = some m →
      p.body = some body → m.1.masterKey ∈ s.publisherLists_ → ¬Revokes verifyManifest s m →
      now < body.expiration → Applied verifyManifest now p s .accepted
        (((noteManifest verifyManifest s m).replaceList m.1.masterKey body).applyManifests
          verifyManifest body)

theorem verifyBody_accepted (h : s.verifyBody now m p = .accepted) :
    ∃ body, p.body = some body ∧ now < body.expiration := by
  unfold ValidatorList.verifyBody at h
  split at h
  · cases h
  · cases hbody : p.body with
    | none => simp [hbody] at h
    | some body =>
      simp only [hbody] at h
      split at h
      · cases h
      · rename_i hfresh
        exact ⟨body, rfl, by omega⟩

theorem verify_applied (verifyManifest : Manifest (PublicKey Key) → Bool) (now : Nat)
    (s : ValidatorList Key) (m : ParsedManifest Key) (p : Published Key) :
    ((s.verify verifyManifest now m p).1 ≠ .accepted → Applied verifyManifest now p s
      (s.verify verifyManifest now m p).1 (s.verify verifyManifest now m p).2) ∧
    ((s.verify verifyManifest now m p).1 = .accepted → m.1.masterKey ∈ s.publisherLists_ ∧
      ¬Revokes verifyManifest s m ∧ (s.verify verifyManifest now m p).2 = noteManifest verifyManifest s m ∧
      ∃ body, p.body = some body ∧ now < body.expiration) := by
  by_cases hmem : m.1.masterKey ∈ s.publisherLists_
  · by_cases hrevokes : Revokes verifyManifest s m
    · have hv : s.verify verifyManifest now m p =
          (.untrusted, (noteManifest verifyManifest s m).dropPublisher m.1.masterKey) := by
        simp [verify, hmem, hrevokes.1, hrevokes.2, noteManifest]
      rw [hv]
      exact ⟨fun hd => .revoked m hd hmem hrevokes, nofun⟩
    · have hnoted := hrevokes
      unfold Revokes at hnoted
      simp only [verify, hmem, not_true_eq_false, if_false, hnoted]
      split
      · exact ⟨fun hd => .refused m hd hmem hrevokes, nofun⟩
      · exact ⟨fun hd => .refused m hd hmem hrevokes, fun hacc =>
          ⟨trivial, hrevokes, rfl, verifyBody_accepted hacc⟩⟩
  · simp only [verify, hmem, not_false_eq_true, if_true]
    exact ⟨.ignored, nofun⟩

theorem applyList_applied (verifyManifest : Manifest (PublicKey Key) → Bool) (now : Nat)
    (s : ValidatorList Key) (p : Published Key) :
    Applied verifyManifest now p s (s.applyList verifyManifest now p).1
      (s.applyList verifyManifest now p).2 := by
  unfold applyList
  split
  · exact .ignored nofun
  · cases hm : p.manifest with
    | none => exact .ignored nofun
    | some m =>
      obtain ⟨hother, haccepted⟩ := verify_applied verifyManifest now s m p
      by_cases hacc : (s.verify verifyManifest now m p).1 = .accepted
      · obtain ⟨hmem, hkeeps, hs, body, hbody, hexp⟩ := haccepted hacc
        simp only [hbody, hacc, if_true, hs]
        exact .accepted m body hm hbody hmem hkeeps hexp
      · cases p.body with
        | none => exact hother hacc
        | some body =>
          simp only [hacc, if_false]
          exact hother hacc

theorem dropPublisher_counted (h : s.Counted) {publisherKey : PublicKey Key}
    (hmem : publisherKey ∈ s.publisherLists_) : (s.dropPublisher publisherKey).Counted := by
  obtain ⟨pl, hpl⟩ := mem_iff_lookup.mp hmem
  have hlist : (s.removePublisherList publisherKey).publisherLists_.lookup publisherKey =
      some pl.emptied := by
    rw [lookup_removePublisherList, if_pos rfl, hpl]
    rfl
  exact (h.removePublisherList publisherKey).eraseList hlist rfl

theorem lookup_dropPublisher (s : ValidatorList Key) (publisherKey k : PublicKey Key) :
    (s.dropPublisher publisherKey).publisherLists_.lookup k =
      if k = publisherKey then none else s.publisherLists_.lookup k := by
  unfold dropPublisher
  rw [lookup_erase_ite]
  split
  · rfl
  · rename_i hk
    rw [lookup_removePublisherList, if_neg hk]

theorem Filed.dropPublisher (h : Filed cfg current now s) (hrevokes : Revokes verifyManifest s m) :
    Filed cfg current now ((noteManifest verifyManifest s m).dropPublisher m.1.masterKey) := by
  have hbot : (⊥ : PublicKey Key) ≠ m.1.masterKey := m.2.symm
  have hframe : ((noteManifest verifyManifest s m).dropPublisher m.1.masterKey).localPubKey_ =
        s.localPubKey_ ∧
      ((noteManifest verifyManifest s m).dropPublisher m.1.masterKey).publisherManifests_ =
        (s.publisherManifests_.applyManifest verifyManifest m.1).2 := by
    unfold ValidatorList.dropPublisher
    rw [ValidatorList.removePublisherList_frame]
    exact ⟨rfl, rfl⟩
  have hlookup := lookup_dropPublisher (noteManifest verifyManifest s m) m.1.masterKey
  have hconfig := (hlookup ⊥).trans (if_neg hbot)
  refine h.relist hframe.1 hconfig (fun publisher => ?_) fun publisher pl hpl => ?_
  · rw [mem_iff_lookup, hlookup, hframe.2, ManifestCache.revoked_applyManifest, hrevokes.1, hrevokes.2]
    by_cases hp : (publisher : PublicKey Key) = m.1.masterKey
    · simp [hp]
    · simp only [hp, and_false, if_false]
      rw [← h.publishers publisher, mem_iff_lookup]
      rfl
  · rw [hlookup] at hpl
    split at hpl
    · cases hpl
    · exact h.lists publisher pl hpl

theorem Filed.replaceList (h : Filed cfg current now s) {body : ListBody Key}
    (hm : p.manifest = some m) (hbody : p.body = some body) (hmem : m.1.masterKey ∈ s.publisherLists_) :
    Filed cfg (current.record p) now (s.replaceList m.1.masterKey body) := by
  have hbot : (⊥ : PublicKey Key) ≠ m.1.masterKey := m.2.symm
  have hconfig : (s.replaceList m.1.masterKey body).publisherLists_.lookup ⊥ =
      s.publisherLists_.lookup ⊥ := lookup_insert_ne hbot
  refine h.relist rfl hconfig (fun publisher => ?_) fun publisher pl hpl => ?_
  · refine Iff.trans ?_ (h.publishers publisher)
    refine (mem_insert _).trans ⟨fun hor => hor.elim (fun heq => ?_) (fun hold => hold), .inr⟩
    rw [heq]
    exact hmem
  · simp only [ValidatorList.replaceList, lookup_insert_ite] at hpl
    unfold Accepted.record
    simp only [hm, hbody]
    by_cases hp : (publisher : PublicKey Key) = m.1.masterKey
    · rw [if_pos hp] at hpl
      rw [if_pos hp.symm]
      obtain rfl := Option.some.inj hpl
      exact ⟨body.keys, rfl, List.mergeSort_perm _ _⟩
    · rw [if_neg hp] at hpl
      rw [if_neg (Ne.symm hp)]
      exact h.lists publisher pl hpl

theorem Applied.kept {d : ListDisposition} (h : Applied verifyManifest now p s d s')
    (hc : s.Counted) (hf : Filed cfg current now s) :
    s'.Counted ∧ Filed cfg (if d = .accepted then current.record p else current) now s' := by
  cases h with
  | ignored hd =>
    rw [if_neg hd]
    exact ⟨hc, hf⟩
  | revoked m hd hmem hrevokes =>
    rw [if_neg hd]
    exact ⟨dropPublisher_counted (noteManifest_counted hc) hmem,
      hf.dropPublisher hrevokes⟩
  | refused m hd hmem hkeeps =>
    rw [if_neg hd]
    exact ⟨noteManifest_counted hc, hf.noted hmem hkeeps⟩
  | accepted m body hm hbody hmem hkeeps hexp =>
    rw [if_pos rfl]
    have hfiled := (hf.noted hmem hkeeps).replaceList hm hbody hmem
    have hcounted : ((noteManifest verifyManifest s m).replaceList m.1.masterKey body).Counted :=
      (noteManifest_counted hc).replaceList m.1.masterKey body
    exact ⟨⟨hcounted.positive, hcounted.counts⟩,
      ⟨hfiled.config, hfiled.lasting, hfiled.publishers, hfiled.lists⟩⟩

end Apply

/-! ## Updates -/

section Update

variable {cfg : Config Key} {current : Accepted Key} {time now : Nat} {s : ValidatorList Key}
  {calcNodeID : PublicKey Key → NodeID}

def PublisherList.expired (now : Nat) (pl : PublisherList Key) : PublisherList Key :=
  if pl.available ∧ pl.expiration ≤ now then pl.emptied else pl

omit [LinearOrder Key] in
theorem PublisherList.expired_expired (pl : PublisherList Key) :
    (pl.expired now).expired now = pl.expired now := by
  unfold PublisherList.expired
  by_cases h : pl.available ∧ pl.expiration ≤ now
  · simp [h, PublisherList.emptied]
  · simp [h]

theorem lookup_expire (s : ValidatorList Key) (publisherKey k : PublicKey Key) :
    (s.expire now publisherKey).publisherLists_.lookup k =
      if k = publisherKey then (s.publisherLists_.lookup k).map (PublisherList.expired now)
      else s.publisherLists_.lookup k := by
  unfold expire
  cases hlist : s.publisherLists_.lookup publisherKey with
  | none =>
    by_cases hk : k = publisherKey
    · subst hk
      simp [hlist]
    · simp [hk]
  | some pl =>
    by_cases hk : k = publisherKey
    · subst hk
      by_cases hexp : pl.available ∧ pl.expiration ≤ now
      · simp [hexp, lookup_removePublisherList, hlist, PublisherList.expired]
      · simp [hexp, hlist, PublisherList.expired]
    · by_cases hexp : pl.available ∧ pl.expiration ≤ now
      · simp [hexp, hk, lookup_removePublisherList]
      · simp [hexp, hk]

structure SameRest (s s' : ValidatorList Key) : Prop where
  validatorManifests : s'.validatorManifests_ = s.validatorManifests_
  publisherManifests : s'.publisherManifests_ = s.publisherManifests_
  trustedKeys : s'.trustedKeys_ = s.trustedKeys_
  localPubKey : s'.localPubKey_ = s.localPubKey_

theorem expire_sameRest (now : Nat) (s : ValidatorList Key) (publisherKey : PublicKey Key) :
    SameRest s (s.expire now publisherKey) := by
  unfold expire
  cases s.publisherLists_.lookup publisherKey with
  | none => exact ⟨rfl, rfl, rfl, rfl⟩
  | some pl =>
    dsimp only
    split
    · rw [s.removePublisherList_frame publisherKey]
      exact ⟨rfl, rfl, rfl, rfl⟩
    · exact ⟨rfl, rfl, rfl, rfl⟩

theorem lookup_expires (keys : List (PublicKey Key)) (s : ValidatorList Key) (k : PublicKey Key) :
    (keys.foldl (expire now) s).publisherLists_.lookup k =
      if k ∈ keys then (s.publisherLists_.lookup k).map (PublisherList.expired now)
      else s.publisherLists_.lookup k := by
  induction keys generalizing s with
  | nil => simp
  | cons key keys ih =>
    rw [List.foldl_cons, ih, lookup_expire]
    by_cases hkey : k = key
    · by_cases hk : k ∈ keys
      · simp only [hkey, List.mem_cons, true_or, if_true]
        rw [← hkey, if_pos hk, Option.map_map]
        congr 1
        funext pl
        exact pl.expired_expired
      · simp [hkey, hkey ▸ hk]
    · simp [hkey]

theorem lookup_expireAll (s : ValidatorList Key) (k : PublicKey Key) :
    (s.expireAll now).publisherLists_.lookup k =
      (s.publisherLists_.lookup k).map (PublisherList.expired now) := by
  rw [ValidatorList.expireAll, lookup_expires]
  split
  · rfl
  · rename_i hk
    rw [lookup_eq_none.mpr hk]
    rfl

theorem expireAll_sameRest (now : Nat) (s : ValidatorList Key) : SameRest s (s.expireAll now) := by
  refine List.foldlRecOn (motive := SameRest s) _ _ ⟨rfl, rfl, rfl, rfl⟩ fun s' h key _ => ?_
  have hstep := expire_sameRest now s' key
  exact ⟨hstep.1.trans h.1, hstep.2.trans h.2, hstep.3.trans h.3, hstep.4.trans h.4⟩

theorem expireAll_counted (h : s.Counted) : (s.expireAll now).Counted :=
  List.foldlRecOn (motive := ValidatorList.Counted) _ _ h fun _ hc key _ => hc.expire now key

def Unexpired (now : Nat) (s : ValidatorList Key) : Prop :=
  ∀ k (pl : PublisherList Key), s.publisherLists_.lookup k = some pl → pl.available = true →
    now < pl.expiration

theorem unexpired_expireAll (s : ValidatorList Key) : Unexpired now (s.expireAll now) := by
  intro k pl hpl havailable
  rw [lookup_expireAll, Option.map_eq_some_iff] at hpl
  obtain ⟨old, -, rfl⟩ := hpl
  unfold PublisherList.expired at havailable ⊢
  split
  · rename_i hexp
    rw [if_pos hexp] at havailable
    cases havailable
  · rename_i hexp
    rw [if_neg hexp] at havailable
    by_contra hle
    exact hexp ⟨havailable, by omega⟩

omit [LinearOrder Key] in
theorem Stores.expired {list : Option (List (PublicKey Key) × Nat)} {pl : PublisherList Key}
    (h : Stores list now pl) : Stores list now (pl.expired now) := by
  unfold PublisherList.expired
  split
  · rename_i hexp
    unfold Stores at *
    rw [if_pos hexp.1] at h
    obtain ⟨keys, hlist, -⟩ := h
    refine ⟨rfl, fun keys' expiration hlist' => ?_⟩
    rw [hlist] at hlist'
    cases hlist'
    exact hexp.2
  · exact h

/-- Short of the end of time the configuration's list does not expire. -/
theorem Filed.expireAll (h : Filed cfg current now s) (hmax : now < timeMax) :
    Filed cfg current now (s.expireAll now) := by
  have hrest := expireAll_sameRest now s
  have hconfig : (s.expireAll now).publisherLists_.lookup ⊥ = s.publisherLists_.lookup ⊥ := by
    rw [lookup_expireAll]
    cases hpl : s.publisherLists_.lookup ⊥ with
    | none => rfl
    | some pl =>
      have hlasting := h.lasting pl hpl
      simp only [Option.map_some, Option.some.injEq, PublisherList.expired]
      rw [if_neg (by omega)]
  refine h.relist hrest.localPubKey hconfig (fun publisher => ?_) fun publisher pl hpl => ?_
  · rw [hrest.publisherManifests, ← h.publishers publisher, mem_iff_lookup, mem_iff_lookup,
      lookup_expireAll]
    cases s.publisherLists_.lookup ↑publisher <;> simp
  · rw [lookup_expireAll, Option.map_eq_some_iff] at hpl
    obtain ⟨old, hold, rfl⟩ := hpl
    exact (h.lists publisher old hold).expired

theorem Filed.count_entry (h : Filed cfg current now s) (hfresh : Unexpired now s) {publisher : Key}
    (hp : publisher ∈ cfg.publishers) (k : PublicKey Key) :
    ((s.publisherLists_.lookup ↑publisher).elim 0 fun pl => pl.list.count k) =
      if s.publisherManifests_.revoked ↑publisher then 0
      else onListOf current now publisher k := by
  cases hpl : s.publisherLists_.lookup ↑publisher with
  | none =>
    have hrevoked : s.publisherManifests_.revoked ↑publisher = true := by
      by_contra hnot
      have hmem := (h.publishers publisher).mpr ⟨hp, by simpa using hnot⟩
      exact lookup_eq_none.mp hpl hmem
    simp [hrevoked]
  | some pl =>
    have hunrevoked := ((h.publishers publisher).mp (mem_iff_lookup.mpr ⟨pl, hpl⟩)).2
    have hstores := h.lists publisher pl hpl
    unfold Stores at hstores
    rw [hunrevoked]
    simp only [Option.elim_some, Bool.false_eq_true, if_false]
    by_cases havailable : pl.available = true
    · rw [if_pos havailable] at hstores
      obtain ⟨keys, hcurrent, hperm⟩ := hstores
      have hexp := hfresh _ pl hpl havailable
      simp only [onListOf, hcurrent, hexp, if_true]
      exact hperm.count_eq k
    · rw [if_neg havailable] at hstores
      rw [hstores.1, List.count_nil]
      cases hcurrent : current publisher with
      | none => simp [onListOf, hcurrent]
      | some list =>
        have hexp := hstores.2 list.1 list.2 hcurrent
        simp only [onListOf, hcurrent]
        rw [if_neg (by omega)]

theorem Filed.listing_eq (h : Filed cfg current now s) (hc : s.Counted) (hfresh : Unexpired now s)
    (k : PublicKey Key) : listing s.keyListings_ k = listingsOf cfg current now s k := by
  have hkeys : ∀ key ∈ s.publisherLists_, key ∈ insert ⊥ (cfg.publishers.image WithBot.some) := by
    intro key hkey
    by_cases hbot : key = ⊥
    · simp [hbot]
    · obtain ⟨publisher, rfl⟩ := WithBot.ne_bot_iff_exists.mp hbot
      exact mem_insert_of_mem (mem_image_of_mem _ ((h.publishers publisher).mp hkey).1)
  have hnot : (⊥ : PublicKey Key) ∉ cfg.publishers.image WithBot.some := by simp
  rw [hc.counts, ValidatorList.onLists, total_eq_sum _ _ hkeys, sum_insert hnot,
    sum_image fun _ _ _ _ heq => WithBot.coe_injective heq, ← Nat.add_assoc]
  change s.own k + s.onConfig k + _ = _
  rw [h.config, listingsOf]
  congr 1
  exact sum_congr rfl fun publisher hp => h.count_entry hfresh hp k

theorem listingsOf_pos (cfg : Config Key) (current : Accepted Key) (now : Nat) (s : ValidatorList Key)
    (k : PublicKey Key) : 0 < listingsOf cfg current now s k ↔ Listed cfg current now s k := by
  unfold listingsOf Listed
  rw [Nat.add_pos_iff_pos_or_pos, sum_pos_iff]
  refine or_congr ?_ (exists_congr fun publisher => and_congr_right fun _ => ?_)
  · by_cases hn : cfg.Names s.localPubKey_ k <;> simp [hn]
  · by_cases hr : s.publisherManifests_.revoked ↑publisher
    · simp [hr]
    · simp only [hr, if_false, Bool.false_eq_true, true_and, onListOf]
      cases hcurrent : current publisher with
      | none => simp
      | some list =>
        obtain ⟨keys, expiration⟩ := list
        by_cases hexp : now < expiration <;> simp [hexp, List.count_pos_iff]

theorem mem_trustedKeys (k : PublicKey Key) :
    k ∈ (s.updateTrusted calcNodeID now).2.trustedKeys_ ↔
      (s.expireAll now).eligible k = true := by
  simp only [ValidatorList.updateTrusted, Finset.mem_union, Finset.mem_sdiff, Finset.mem_filter,
    List.mem_toFinset, eligible, Bool.and_eq_true, decide_eq_true_eq]
  change _ ∨ (k ∈ (s.expireAll now).keyListings_ ∧ _) ∧ _ ↔ _
  tauto

theorem updateTrusted_changes (calcNodeID : PublicKey Key → NodeID) (now : Nat)
    (s : ValidatorList Key) :
    (s.updateTrusted calcNodeID now).1.added =
      ((s.updateTrusted calcNodeID now).2.trustedKeys_ \ s.trustedKeys_).image calcNodeID ∧
    (s.updateTrusted calcNodeID now).1.removed =
      (s.trustedKeys_ \ (s.updateTrusted calcNodeID now).2.trustedKeys_).image calcNodeID := by
  have hold := (expireAll_sameRest now s).trustedKeys
  constructor
  · change Finset.image _ _ = Finset.image _ _
    congr 1
    ext k
    rw [mem_sdiff (s := (s.updateTrusted calcNodeID now).2.trustedKeys_), mem_trustedKeys]
    simp only [mem_sdiff, mem_filter, List.mem_toFinset, eligible, hold,
      Bool.and_eq_true, decide_eq_true_eq]
    change (k ∈ (s.expireAll now).keyListings_ ∧ _) ∧ _ ↔ _
    tauto
  · change Finset.image _ _ = Finset.image _ _
    congr 1
    ext k
    rw [mem_sdiff (t := (s.updateTrusted calcNodeID now).2.trustedKeys_), mem_trustedKeys]
    simp only [mem_sdiff, mem_filter, hold]
    tauto

theorem updateTrusted_kept (calcNodeID : PublicKey Key → NodeID) (hmax : now < timeMax)
    (hc : s.Counted) (hf : Filed cfg current now s) :
    (s.updateTrusted calcNodeID now).2.Counted ∧
      Filed cfg current now (s.updateTrusted calcNodeID now).2 ∧
      Unexpired now (s.updateTrusted calcNodeID now).2 := by
  have hcounted : (s.expireAll now).Counted := expireAll_counted hc
  have hfiled := hf.expireAll hmax
  exact ⟨⟨hcounted.positive, hcounted.counts⟩,
    ⟨hfiled.config, hfiled.lasting, hfiled.publishers, hfiled.lists⟩, unexpired_expireAll s⟩

variable {verifyManifest : Manifest (PublicKey Key) → Bool}

theorem ValidatorRun.kept
    (h : ValidatorRun cfg verifyManifest calcNodeID (· < timeMax) current time s) :
    s.Counted ∧ Filed cfg current time s := by
  induction h with
  | load time hload => exact ValidatorList.load_filed hload time
  | applyList p _ hle ih => exact (applyList_applied _ _ _ p).kept ih.1 (ih.2.mono hle)
  | updateTrusted _ hle hmax ih =>
    obtain ⟨hcounted, hfiled, -⟩ := updateTrusted_kept calcNodeID hmax ih.1 (ih.2.mono hle)
    exact ⟨hcounted, hfiled⟩

theorem trusted_exact (h : ValidatorRun cfg verifyManifest calcNodeID (· < timeMax) current time s)
    (hle : time ≤ now) (hmax : now < timeMax) :
    let s' := (s.updateTrusted calcNodeID now).2
    (∀ k, k ∈ s'.trustedKeys_ ↔
      s'.validatorManifests_.revoked k = false ∧ Listed cfg current now s' k) ∧
    (s.updateTrusted calcNodeID now).1.added = (s'.trustedKeys_ \ s.trustedKeys_).image calcNodeID ∧
    (s.updateTrusted calcNodeID now).1.removed = (s.trustedKeys_ \ s'.trustedKeys_).image calcNodeID ∧
    ∀ k, listing s'.keyListings_ k = listingsOf cfg current now s' k ∧
      (k ∈ s'.keyListings_ ↔ 0 < listingsOf cfg current now s' k) := by
  intro s'
  obtain ⟨hcounted, hfiled⟩ := h.kept
  obtain ⟨hcounted', hfiled', hfresh⟩ : s'.Counted ∧ Filed cfg current now s' ∧ Unexpired now s' :=
    updateTrusted_kept calcNodeID hmax hcounted (hfiled.mono hle)
  have hlisting : ∀ k, listing s'.keyListings_ k = listingsOf cfg current now s' k :=
    hfiled'.listing_eq hcounted' hfresh
  obtain ⟨hadded, hremoved⟩ := updateTrusted_changes calcNodeID now s
  refine ⟨fun k => ?_, hadded, hremoved, fun k => ⟨hlisting k, ?_⟩⟩
  · rw [mem_trustedKeys, eligible, Bool.and_eq_true, decide_eq_true_eq]
    change k ∈ s'.keyListings_ ∧ (!s'.validatorManifests_.revoked k) = true ↔ _
    rw [hcounted'.positive.mem_iff, hlisting, listingsOf_pos]
    simp [and_comm]
  · rw [hcounted'.positive.mem_iff, hlisting]

end Update

/-- A server without a key of its own that trusts key 5 by configuration and takes the lists of
publisher 9. -/
def listedConfig : Config Nat := ⟨⊥, [some 5], [some 9]⟩

def listOfNine : Published Nat where
  version := 1
  manifest := some ⟨⟨"", ((9 : Nat) : PublicKey Nat), ((19 : Nat) : PublicKey Nat), 1⟩, by simp⟩
  signedBy := fun k => k = ((19 : Nat) : PublicKey Nat)
  body := some ⟨1, 100, [⟨some 6, none⟩, ⟨some 5, none⟩]⟩

def beforeList : ValidatorList Nat where
  validatorManifests_ := .empty
  publisherManifests_ := .empty
  publisherLists_ := (AList.singleton ((9 : Nat) : PublicKey Nat) {}).insert ⊥
    ⟨true, [((5 : Nat) : PublicKey Nat)], 0, timeMax⟩
  keyListings_ := AList.singleton ((5 : Nat) : PublicKey Nat) 1

def afterList : ValidatorList Nat := (beforeList.applyList (fun _ => true) 10 listOfNine).2

theorem afterList_run : ValidatorRun listedConfig (fun _ => true) id (· < timeMax)
    (Accepted.record (fun _ => none) listOfNine) 10 afterList := by
  have hload : ValidatorList.load { validatorManifests_ := .empty, publisherManifests_ := .empty }
      listedConfig.localSigningKey listedConfig.configKeys listedConfig.publisherKeys =
        some beforeList := rfl
  have hrun : ValidatorRun listedConfig (fun _ => true) id (· < timeMax) (fun _ => none) 0 beforeList :=
    .load 0 hload
  have haccepted : (beforeList.applyList (fun _ => true) 10 listOfNine).1 = .accepted := by
    decide +kernel
  have happlied := hrun.applyList listOfNine (Nat.zero_le 10)
  rwa [if_pos haccepted] at happlied

/-- The key that only the publisher lists is trusted at time 20 and is removed at time 200. -/
theorem trusted_exact_expired :
    ((6 : Nat) : PublicKey Nat) ∈ (afterList.updateTrusted id 20).2.trustedKeys_ ∧
    ((5 : Nat) : PublicKey Nat) ∈ ((afterList.updateTrusted id 20).2.updateTrusted id 200).2.trustedKeys_ ∧
    ((6 : Nat) : PublicKey Nat) ∈ ((afterList.updateTrusted id 20).2.updateTrusted id 200).1.removed := by
  have hrun₂₀ := afterList_run.updateTrusted (show 10 ≤ 20 by omega) (show 20 < timeMax by decide)
  obtain ⟨h₂₀, -⟩ := trusted_exact afterList_run (show 10 ≤ 20 by omega) (by decide)
  obtain ⟨h₂₀₀, -, hremoved, -⟩ := trusted_exact hrun₂₀ (show 20 ≤ 200 by omega) (by decide)
  have hlisted : ((6 : Nat) : PublicKey Nat) ∈ (afterList.updateTrusted id 20).2.trustedKeys_ := by
    refine (h₂₀ _).mpr ⟨by decide +kernel, .inr ⟨9, by decide, by decide +kernel, _, 100, rfl, by omega, ?_⟩⟩
    decide +kernel
  have hdropped : ((6 : Nat) : PublicKey Nat) ∉
      ((afterList.updateTrusted id 20).2.updateTrusted id 200).2.trustedKeys_ := by
    intro hmem
    obtain ⟨-, hnames | ⟨publisher, -, -, keys, expiration, hcurrent, hlt, -⟩⟩ := (h₂₀₀ _).mp hmem
    · revert hnames
      decide +kernel
    · simp only [Accepted.record, listOfNine] at hcurrent
      split at hcurrent
      · simp only [Option.some.injEq, Prod.mk.injEq] at hcurrent
        omega
      · cases hcurrent
  refine ⟨hlisted, (h₂₀₀ _).mpr ⟨by decide +kernel, .inl (by decide +kernel)⟩, ?_⟩
  rw [hremoved, Finset.image_id]
  exact Finset.mem_sdiff.mpr ⟨hlisted, hdropped⟩

/-- A server without a key of its own that trusts key 5 by configuration. -/
def sampleConfig : Config Nat := ⟨⊥, [some 5], []⟩

def sampleList : ValidatorList Nat where
  validatorManifests_ := .empty
  publisherManifests_ := .empty
  publisherLists_ := AList.singleton ⊥ ⟨true, [((5 : Nat) : PublicKey Nat)], 0, timeMax⟩
  keyListings_ := AList.singleton ((5 : Nat) : PublicKey Nat) 1

theorem sampleList_run (ticks : Nat → Prop) :
    ValidatorRun sampleConfig (fun _ => true) id ticks (fun _ => none) 0 sampleList := by
  have hload : ValidatorList.load { validatorManifests_ := .empty, publisherManifests_ := .empty }
      sampleConfig.localSigningKey sampleConfig.configKeys sampleConfig.publisherKeys =
        some sampleList := rfl
  exact .load 0 hload

/-- At the last second of the clock the list that never expires is taken out. -/
theorem config_expires :
    ValidatorRun sampleConfig (fun _ => true) id (fun _ => True) (fun _ => none) 0 sampleList ∧
    Listed sampleConfig (fun _ => none) timeMax (sampleList.updateTrusted id timeMax).2
      ((5 : Nat) : PublicKey Nat) ∧
    (sampleList.updateTrusted id timeMax).2.validatorManifests_.revoked ((5 : Nat) : PublicKey Nat) = false ∧
    ((5 : Nat) : PublicKey Nat) ∉ (sampleList.updateTrusted id timeMax).2.trustedKeys_ := by
  refine ⟨sampleList_run _, .inl ⟨by decide, .inr ⟨by decide, by decide⟩⟩, by decide, ?_⟩
  rw [mem_trustedKeys]
  decide

end Ripple.Misc
