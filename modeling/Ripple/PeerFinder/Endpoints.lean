import Ripple.PeerFinder.Slots

/-!
# Ripple.PeerFinder.Endpoints

The endpoints that peers tell each other about: `PeerImp::onMessage` for `TMEndpoints`,
`Logic::preprocess` and `Logic::on_endpoints`, and the `Livecache` with a list and a counter for each
number of hops. An access to these arrays outside of their bounds has no result here.

The count of hops is unsigned on the wire and an `int` in `Endpoint`, and only `hops > maxHops` is
dropped: a count of `2 ^ 31` or more is negative when it is compared, and gets through.
-/

namespace Ripple.PeerFinder

open List Function

/-- `Tuning::maxHops`. -/
def maxHops : ℕ := 6

structure Endpoint (A : Type) where
  hops : ℤ
  address : IPEndpoint A
  deriving DecidableEq

variable {A : Type}

def IPEndpoint.atPort (e : IPEndpoint A) (port : UInt16) : IPEndpoint A := ⟨e.address, port⟩

structure Net (A : Type) where
  fromStringChecked : String → Option (IPEndpoint A)
  addressV4 : UInt32 → A
  isUnspecified : A → Bool
  isPublic : A → Bool

def Net.isValidAddress (net : Net A) (e : IPEndpoint A) : Bool :=
  !net.isUnspecified e.address && net.isPublic e.address && e.port != 0

/-! ## Messages -/

structure TMEndpoint where
  ipv4 : UInt32
  ipv4port : UInt32
  hops : UInt32

structure TMEndpointv2 where
  endpoint : String
  hops : UInt32

structure TMEndpoints where
  endpoints : List TMEndpoint
  endpointsV2 : List TMEndpointv2

def toHops (hops : UInt32) : ℤ := hops.toInt32.toInt

theorem toHops_neg (hops : UInt32) : toHops hops < 0 ↔ 2 ^ 31 ≤ hops.toNat := by
  rw [toHops, Int32.toInt, BitVec.toInt_neg_iff]
  simp
  omega

/-- An entry of the second format, which is left out if it does not parse. -/
def TMEndpointv2.read (net : Net A) (remoteAddress : IPEndpoint A) (tm : TMEndpointv2) : Option (Endpoint A) :=
  (net.fromStringChecked tm.endpoint).map fun result =>
    -- the count is still unsigned here
    ⟨toHops tm.hops, if 0 < tm.hops then result else remoteAddress.atPort result.port⟩

def TMEndpoint.read (net : Net A) (remoteAddress : IPEndpoint A) (tm : TMEndpoint) : Endpoint A :=
  let hops := toHops tm.hops
  if 0 < hops then ⟨hops, net.addressV4 tm.ipv4, tm.ipv4port.toUInt16⟩
  else ⟨hops, remoteAddress.atPort tm.ipv4port.toUInt16⟩

/-- The endpoints that `PeerImp::onMessage` hands over. -/
def TMEndpoints.read (net : Net A) (remoteAddress : IPEndpoint A) (m : TMEndpoints) : List (Endpoint A) :=
  if m.endpointsV2.isEmpty then m.endpoints.map (TMEndpoint.read net remoteAddress)
  else m.endpointsV2.filterMap (TMEndpointv2.read net remoteAddress)

/-! ## Preprocessing -/

/-- Where the loop of `preprocess` is: what stays in front of the iterator, and whether the peer
itself was seen. -/
structure Scan (A : Type) where
  kept : List (Endpoint A)
  neighbor : Bool

section Preprocess

variable [DecidableEq A] (net : Net A) (remote : IPEndpoint A)

/-- The part of the loop body after the address is filled in. -/
def Scan.keep (s : Scan A) (ep : Endpoint A) : Scan A :=
  if !net.isValidAddress ep.address then s
  else if s.kept.any fun other => ep.address = other.address then s
  else { s with kept := s.kept ++ [{ ep with hops := ep.hops + 1 }] }

def Scan.next (s : Scan A) (ep : Endpoint A) : Scan A :=
  if (maxHops : ℤ) < ep.hops then s
  else if ep.hops = 0 then
    if !s.neighbor then Scan.keep net ⟨s.kept, true⟩ { ep with address := remote.atPort ep.address.port }
    else s
  else s.keep net ep

variable (list : List (Endpoint A))

def preprocess : List (Endpoint A) :=
  (list.foldl (Scan.next net remote) ⟨[], false⟩).kept

/-- A count of hops for which there is a list, other than that of the node itself. -/
def InRange (hops : ℤ) : Prop := 1 ≤ hops ∧ hops ≤ maxHops + 1

def Covered (a : IPEndpoint A) : Prop :=
  (∃ q ∈ list, 0 < q.hops ∧ q.hops ≤ maxHops ∧ q.address = a) ∨
    ∃ q, list.find? (·.hops = 0) = some q ∧ remote.atPort q.address.port = a

/-- An endpoint with a negative count has no valid address, or that of an endpoint before it. -/
def Clean : Prop :=
  ∀ front ep, front ++ [ep] <+: list → ep.hops < 0 → net.isValidAddress ep.address = true →
    Covered remote front ep.address

variable {net remote}

section

omit [DecidableEq A]

theorem clean_nil : Clean net remote [] := fun front ep h => by simp at h

theorem clean_concat {list : List (Endpoint A)} {ep : Endpoint A} : Clean net remote (list ++ [ep]) ↔
    Clean net remote list ∧
      (ep.hops < 0 → net.isValidAddress ep.address = true → Covered remote list ep.address) := by
  constructor
  · intro h
    refine ⟨fun front e he => h front e (prefix_concat_iff.mpr (.inr he)), h list ep prefix_rfl⟩
  · rintro ⟨hlist, hep⟩ front e he
    obtain he | he := prefix_concat_iff.mp he
    · obtain ⟨rfl, hlast⟩ := append_inj' he rfl
      obtain rfl := singleton_inj.mp hlast
      exact hep
    · exact hlist front e he

theorem clean_read {m : TMEndpoints} {remoteAddress : IPEndpoint A}
    (h : ∀ tm ∈ m.endpoints, tm.hops.toNat < 2 ^ 31) (hV2 : ∀ tm ∈ m.endpointsV2, tm.hops.toNat < 2 ^ 31) :
    Clean net remote (m.read net remoteAddress) := by
  intro front ep hp hneg
  have hmem : ep ∈ m.read net remoteAddress := hp.subset (by simp)
  have hcount : ∃ hops : UInt32, ep.hops = toHops hops ∧ hops.toNat < 2 ^ 31 := by
    rw [TMEndpoints.read] at hmem
    split at hmem
    · obtain ⟨tm, htm, rfl⟩ := mem_map.mp hmem
      refine ⟨tm.hops, ?_, h tm htm⟩
      rw [TMEndpoint.read]
      split <;> rfl
    · obtain ⟨tm, htm, hread⟩ := mem_filterMap.mp hmem
      obtain ⟨result, -, rfl⟩ := Option.map_eq_some_iff.mp hread
      exact ⟨tm.hops, rfl, hV2 tm htm⟩
  obtain ⟨hops, hep, hlt⟩ := hcount
  exact absurd ((toHops_neg hops).mp (hep ▸ hneg)) (not_le.mpr hlt)

end

variable {a : IPEndpoint A} {k : Endpoint A}

omit [DecidableEq A] in
theorem exists_find?_concat {list : List (Endpoint A)} {ep : Endpoint A} :
    (∃ q, (list ++ [ep]).find? (·.hops = 0) = some q ∧ remote.atPort q.address.port = a) ↔
      (∃ q, list.find? (·.hops = 0) = some q ∧ remote.atPort q.address.port = a) ∨
        (ep.hops = 0 ∧ (list.any (·.hops = 0)) = false ∧ remote.atPort ep.address.port = a) := by
  rw [find?_append]
  cases hl : list.find? (·.hops = 0) with
  | some q =>
    have hany : list.any (·.hops = 0) = true :=
      any_eq_true.mpr ⟨q, mem_of_find?_eq_some hl, by simpa using find?_some hl⟩
    simp [hany]
  | none =>
    have hany : list.any (·.hops = 0) = false := any_eq_false.mpr (find?_eq_none.mp hl)
    by_cases h0 : ep.hops = 0 <;> simp [h0, hany]

omit [DecidableEq A] in
theorem covered_concat {list : List (Endpoint A)} {ep : Endpoint A} :
    Covered remote (list ++ [ep]) a ↔ Covered remote list a ∨
      (0 < ep.hops ∧ ep.hops ≤ maxHops ∧ ep.address = a) ∨
      (ep.hops = 0 ∧ (list.any (·.hops = 0)) = false ∧ remote.atPort ep.address.port = a) := by
  rw [Covered, exists_find?_concat, Covered]
  simp only [mem_append, mem_singleton, or_and_right, exists_or, exists_eq_left]
  exact or_or_or_comm

structure Scanned (net : Net A) (remote : IPEndpoint A) (list : List (Endpoint A)) (s : Scan A) : Prop where
  neighbor : s.neighbor = list.any (·.hops = 0)
  self : ∀ k ∈ s.kept, k.hops = 1 → k.address.address = remote.address
  once : s.kept.countP (·.hops = 1) ≤ s.neighbor.toNat
  distinct : s.kept.Pairwise fun k k' => k.address ≠ k'.address
  covered : ∀ a, net.isValidAddress a = true → Covered remote list a → ∃ k ∈ s.kept, k.address = a
  clean : (∀ k ∈ s.kept, InRange k.hops) ↔ Clean net remote list
  source : Clean net remote list → ∀ k ∈ s.kept, Covered remote list k.address

omit [DecidableEq A] in
theorem scanned_nil : Scanned net remote [] ⟨[], false⟩ where
  neighbor := rfl
  self k hk := by simp at hk
  once := by simp
  distinct := .nil
  covered a _ h := by simp [Covered] at h
  clean := ⟨fun _ => clean_nil, fun _ k hk => by simp at hk⟩
  source _ k hk := by simp at hk

variable {list : List (Endpoint A)} {s : Scan A} {ep : Endpoint A}

theorem keep_cases (net : Net A) (s : Scan A) (ep : Endpoint A) :
    (s.keep net ep = s ∧ (net.isValidAddress ep.address = true → ∃ k ∈ s.kept, k.address = ep.address)) ∨
    (net.isValidAddress ep.address = true ∧ (∀ k ∈ s.kept, k.address ≠ ep.address) ∧
      s.keep net ep = { s with kept := s.kept ++ [{ ep with hops := ep.hops + 1 }] }) := by
  rw [Scan.keep]
  cases hvalid : net.isValidAddress ep.address with
  | false => exact .inl ⟨rfl, by simp⟩
  | true =>
    cases hdup : s.kept.any fun other => ep.address = other.address with
    | true =>
      obtain ⟨k, hk, hka⟩ := any_eq_true.mp hdup
      exact .inl ⟨by simp, fun _ => ⟨k, hk, (of_decide_eq_true hka).symm⟩⟩
    | false =>
      refine .inr ⟨rfl, fun k hk heq => ?_, by simp⟩
      exact any_eq_false.mp hdup k hk (by simp [heq])

omit [DecidableEq A] in
theorem Scanned.skip (h : Scanned net remote list s) (hpos : 0 ≤ ep.hops)
    (hskip : (maxHops : ℤ) < ep.hops ∨ ep.hops = 0 ∧ s.neighbor = true) : Scanned net remote (list ++ [ep]) s := by
  have hcov : ∀ a, Covered remote (list ++ [ep]) a ↔ Covered remote list a := by
    intro a
    rw [covered_concat, or_iff_left]
    rintro (⟨hgt, hle, -⟩ | ⟨h0, hnone, -⟩)
    · obtain hskip | ⟨h0, -⟩ := hskip <;> omega
    · obtain hskip | ⟨-, hn⟩ := hskip
      · omega
      · simp [← h.neighbor, hn] at hnone
  have hclean : Clean net remote (list ++ [ep]) ↔ Clean net remote list := by
    rw [clean_concat, and_iff_left]
    exact fun hneg => absurd hpos (not_le.mpr hneg)
  refine ⟨?_, h.self, h.once, h.distinct, fun a ha hc => h.covered a ha ((hcov a).mp hc), ?_, ?_⟩
  · rw [any_append, ← h.neighbor]
    obtain hskip | ⟨h0, hn⟩ := hskip
    · have : ep.hops ≠ 0 := by omega
      simp [this]
    · simp [hn]
  · rw [hclean]
    exact h.clean
  · intro hc k hk
    exact (hcov _).mpr (h.source (hclean.mp hc) k hk)

theorem keep_distinct (h : s.kept.Pairwise fun k k' => k.address ≠ k'.address) :
    (s.keep net ep).kept.Pairwise fun k k' => k.address ≠ k'.address := by
  obtain ⟨hkeep, -⟩ | ⟨-, hnew, hkeep⟩ := keep_cases net s ep <;> rw [hkeep]
  · exact h
  · refine pairwise_append.mpr ⟨h, pairwise_singleton _ _, fun k hk k' hk' => ?_⟩
    obtain rfl := mem_singleton.mp hk'
    exact hnew k hk

theorem mem_keep (hk : k ∈ (s.keep net ep).kept) :
    k ∈ s.kept ∨ k = { ep with hops := ep.hops + 1 } := by
  obtain ⟨hkeep, -⟩ | ⟨-, -, hkeep⟩ := keep_cases net s ep <;> rw [hkeep] at hk
  · exact .inl hk
  · simpa using hk

theorem mem_keep_of_mem (hk : k ∈ s.kept) : k ∈ (s.keep net ep).kept := by
  obtain ⟨hkeep, -⟩ | ⟨-, -, hkeep⟩ := keep_cases net s ep <;> rw [hkeep]
  · exact hk
  · exact mem_append_left _ hk

theorem exists_keep (hvalid : net.isValidAddress ep.address = true) :
    ∃ k ∈ (s.keep net ep).kept, k.address = ep.address := by
  obtain ⟨hkeep, hdup⟩ | ⟨-, -, hkeep⟩ := keep_cases net s ep
  · rw [hkeep]
    exact hdup hvalid
  · exact ⟨{ ep with hops := ep.hops + 1 }, by simp [hkeep], rfl⟩

theorem keep_neighbor : (s.keep net ep).neighbor = s.neighbor := by
  obtain ⟨hkeep, -⟩ | ⟨-, -, hkeep⟩ := keep_cases net s ep <;> rw [hkeep]

theorem keep_countP_le (p : Endpoint A → Bool) (s : Scan A) (ep : Endpoint A) :
    (s.keep net ep).kept.countP p ≤ s.kept.countP p + (p { ep with hops := ep.hops + 1 }).toNat := by
  obtain ⟨hkeep, -⟩ | ⟨-, -, hkeep⟩ := keep_cases net s ep <;> rw [hkeep]
  · exact Nat.le_add_right _ _
  · rw [countP_append, countP_singleton]
    cases p { ep with hops := ep.hops + 1 } <;> simp

theorem Scanned.keep_forward (h : Scanned net remote list s) {b : Bool} (hlow : 0 ≤ ep.hops)
    (hhigh : ep.hops ≤ maxHops)
    (hcov : ∀ a', Covered remote (list ++ [ep]) a' ↔ Covered remote list a' ∨ a = a')
    (hb : b = (list ++ [ep]).any (·.hops = 0)) (hself : ep.hops = 0 → a.address = remote.address)
    (honce : s.kept.countP (·.hops = 1) + (decide (ep.hops = 0)).toNat ≤ b.toNat) :
    Scanned net remote (list ++ [ep]) (Scan.keep net ⟨s.kept, b⟩ ⟨ep.hops, a⟩) := by
  have hclean : Clean net remote (list ++ [ep]) ↔ Clean net remote list := by
    rw [clean_concat, and_iff_left]
    exact fun hneg => absurd hlow (not_le.mpr hneg)
  have hin : InRange (ep.hops + 1) := ⟨by omega, by omega⟩
  refine ⟨keep_neighbor.trans hb, ?_, ?_, keep_distinct h.distinct, ?_, ?_, ?_⟩
  · intro k hk h1
    obtain hk | rfl := mem_keep hk
    · exact h.self k hk h1
    · exact hself (by simpa using h1)
  · refine (keep_countP_le _ _ _).trans ?_
    rw [keep_neighbor]
    simpa using honce
  · intro a' hvalid hc
    obtain hc | rfl := (hcov a').mp hc
    · obtain ⟨k, hk, hka⟩ := h.covered a' hvalid hc
      exact ⟨k, mem_keep_of_mem hk, hka⟩
    · exact exists_keep hvalid
  · rw [hclean, ← h.clean]
    constructor
    · exact fun hall k hk => hall k (mem_keep_of_mem hk)
    · intro hall k hk
      obtain hk | rfl := mem_keep hk
      · exact hall k hk
      · exact hin
  · intro hc k hk
    rw [hcov]
    obtain hk | rfl := mem_keep hk
    · exact .inl (h.source (hclean.mp hc) k hk)
    · exact .inr rfl

theorem Scanned.keep_negative (h : Scanned net remote list s) (hneg : ep.hops < 0) :
    Scanned net remote (list ++ [ep]) (s.keep net ep) := by
  have hcov : ∀ a, Covered remote (list ++ [ep]) a ↔ Covered remote list a := by
    intro a
    rw [covered_concat, or_iff_left]
    rintro (⟨hgt, -, -⟩ | ⟨h0, -, -⟩) <;> omega
  have hne : ep.hops + 1 ≠ 1 := by omega
  refine ⟨?_, ?_, ?_, keep_distinct h.distinct, ?_, ?_, ?_⟩
  · rw [keep_neighbor, h.neighbor, any_append]
    simp [hneg.ne]
  · intro k hk h1
    obtain hk | rfl := mem_keep hk
    · exact h.self k hk h1
    · exact absurd h1 hne
  · refine (keep_countP_le _ _ _).trans ?_
    rw [keep_neighbor]
    simpa [hneg.ne] using h.once
  · intro a hvalid hc
    obtain ⟨k, hk, hka⟩ := h.covered a hvalid ((hcov a).mp hc)
    exact ⟨k, mem_keep_of_mem hk, hka⟩
  · rw [clean_concat, ← h.clean]
    obtain ⟨hkeep, hdup⟩ | ⟨hvalid, hnew, hkeep⟩ := keep_cases net s ep
    · rw [hkeep, iff_self_and]
      intro hall _ hvalid
      obtain ⟨k, hk, hka⟩ := hdup hvalid
      rw [← hka]
      exact h.source (h.clean.mp hall) k hk
    · refine iff_of_false (fun hall => ?_) fun hall => ?_
      · have := (hall { ep with hops := ep.hops + 1 } (by simp [hkeep])).1
        simp only at this
        omega
      · obtain ⟨k, hk, hka⟩ := h.covered _ hvalid (hall.2 hneg hvalid)
        exact hnew k hk hka
  · intro hc k hk
    rw [hcov]
    obtain ⟨hlist, hep⟩ := clean_concat.mp hc
    obtain ⟨hkeep, -⟩ | ⟨hvalid, hnew, hkeep⟩ := keep_cases net s ep
    · exact h.source hlist k (hkeep ▸ hk)
    · obtain ⟨k', hk', hka⟩ := h.covered _ hvalid (hep hneg hvalid)
      exact absurd hka (hnew k' hk')

theorem Scanned.next (h : Scanned net remote list s) (ep : Endpoint A) :
    Scanned net remote (list ++ [ep]) (s.next net remote ep) := by
  rw [Scan.next]
  split
  · next hexcess => exact h.skip (by omega) (.inl hexcess)
  next hexcess =>
  split
  · next h0 =>
    cases hn : s.neighbor with
    | true => exact h.skip h0.ge (.inr ⟨h0, hn⟩)
    | false =>
      have hnone := h.neighbor.symm.trans hn
      have honce := h.once
      rw [hn] at honce
      have hcov : ∀ a', Covered remote (list ++ [ep]) a' ↔
          Covered remote list a' ∨ remote.atPort ep.address.port = a' := by
        intro a'
        rw [covered_concat, hnone]
        simp [h0]
      exact h.keep_forward h0.ge (by omega) hcov (by simp [h0]) (fun _ => rfl) (by simpa [h0] using honce)
  · next h0 =>
    obtain hneg | hpos := lt_or_gt_of_ne h0
    · exact h.keep_negative hneg
    · have hcov : ∀ a', Covered remote (list ++ [ep]) a' ↔ Covered remote list a' ∨ ep.address = a' := by
        intro a'
        rw [covered_concat]
        simp [h0, hpos, not_lt.mp hexcess]
      refine h.keep_forward hpos.le (not_lt.mp hexcess) hcov ?_ (fun h' => absurd h' h0) ?_
      · rw [any_append, ← h.neighbor]
        simp [h0]
      · simpa [h0] using h.once

theorem scanned_preprocess (net : Net A) (remote : IPEndpoint A) (list : List (Endpoint A)) :
    ∃ s, preprocess net remote list = s.kept ∧ Scanned net remote list s := by
  refine ⟨_, rfl, ?_⟩
  induction list using List.reverseRecOn with
  | nil => exact scanned_nil
  | append_singleton list ep ih =>
    rw [foldl_append]
    exact ih.next ep

end Preprocess

/-! ## The cache -/

structure Hops (A : Type) where
  lists : Fin (1 + maxHops + 1) → List (IPEndpoint A)
  hist : Fin (1 + maxHops + 1) → ℤ

structure Livecache (A : Type) where
  cache : HashMap (IPEndpoint A) (Endpoint A)
  hops : Hops A

def Livecache.init : Livecache A := ⟨∅, fun _ => [], fun _ => 0⟩

def index (hops : ℤ) : Option (Fin (1 + maxHops + 1)) :=
  if h : 0 ≤ hops ∧ hops.toNat < 1 + maxHops + 1 then some ⟨hops.toNat, h.2⟩ else none

section Cache

variable [DecidableEq A]

def Hops.insert (h : Hops A) (e : Endpoint A) : Option (Hops A) :=
  (index e.hops).map fun i =>
    { lists := Function.update h.lists i (e.address :: h.lists i)
      hist := Function.update h.hist i (h.hist i + 1) }

def Hops.remove (h : Hops A) (e : Endpoint A) : Option (Hops A) :=
  (index e.hops).map fun i =>
    { lists := Function.update h.lists i ((h.lists i).erase e.address)
      hist := Function.update h.hist i (h.hist i - 1) }

def Hops.reinsert (h : Hops A) (e : Endpoint A) (hops : ℤ) : Option (Hops A) :=
  (h.remove e).bind fun h' => h'.insert { e with hops := hops }

def Livecache.insert (c : Livecache A) (ep : Endpoint A) : Option (Livecache A) :=
  match c.cache.lookup ep.address with
  | none => (c.hops.insert ep).map fun h => ⟨c.cache.insert ep.address ep, h⟩
  | some e =>
    -- a duplicate at higher hops is dropped
    if e.hops < ep.hops then some c
    else if ep.hops < e.hops then
      (c.hops.reinsert e ep.hops).map fun h => ⟨c.cache.insert ep.address { e with hops := ep.hops }, h⟩
    else some c

variable (c : Livecache A)

def Livecache.expireOne (a : IPEndpoint A) : Option (Livecache A) :=
  match c.cache.lookup a with
  | none => some c
  | some e => (c.hops.remove e).map fun h => ⟨c.cache.erase a, h⟩

def Livecache.expire (expired : List (IPEndpoint A)) : Option (Livecache A) :=
  expired.foldlM Livecache.expireOne c

/-- The order within a list changes: `hops_t::shuffle`, `Hop::move_back`. -/
def Livecache.reorder (order : List (IPEndpoint A) → List (IPEndpoint A)) : Livecache A :=
  { c with hops := { c.hops with lists := fun i => order (c.hops.lists i) } }

variable {hops : ℤ}

omit [DecidableEq A] in
theorem index_of_inRange (h : InRange hops) :
    ∃ i : Fin (1 + maxHops + 1), index hops = some i ∧ (i : ℤ) = hops := by
  obtain ⟨hlow, hhigh⟩ := h
  have hlt : hops.toNat < 1 + maxHops + 1 := by omega
  refine ⟨⟨hops.toNat, hlt⟩, dif_pos ⟨by omega, hlt⟩, ?_⟩
  change ((hops.toNat : ℕ) : ℤ) = hops
  omega

structure Filed (h : Hops A) (cache : IPEndpoint A → Option (Endpoint A)) : Prop where
  entry : ∀ a e, cache a = some e → e.address = a ∧ InRange e.hops
  mem : ∀ i a, a ∈ h.lists i ↔ ∃ e, cache a = some e ∧ e.hops = (i : ℕ)
  nodup : ∀ i, (h.lists i).Nodup
  hist : ∀ i, h.hist i = (h.lists i).length

variable {h : Hops A} {cache : IPEndpoint A → Option (Endpoint A)} {e : Endpoint A}

theorem Filed.update (hf : Filed h cache) {i : Fin (1 + maxHops + 1)} {a : IPEndpoint A} {v : Option (Endpoint A)}
    {l : List (IPEndpoint A)} {n : ℤ} (hnodup : l.Nodup) (hlen : n = l.length)
    (hothers : ∀ a' ≠ a, (a' ∈ l ↔ a' ∈ h.lists i)) (hv : ∀ e, v = some e → e.address = a ∧ InRange e.hops)
    (hhere : ∀ j, a ∈ Function.update h.lists i l j ↔ ∃ e, v = some e ∧ e.hops = (j : ℕ)) :
    Filed ⟨Function.update h.lists i l, Function.update h.hist i n⟩ (Function.update cache a v) := by
  refine ⟨fun a' e he => ?_, fun j a' => ?_, fun j => ?_, fun j => ?_⟩
  · obtain rfl | hne := eq_or_ne a' a
    · exact hv e (by rwa [update_self] at he)
    · rw [update_of_ne hne] at he
      exact hf.entry a' e he
  · obtain rfl | hne := eq_or_ne a' a
    · rw [update_self]
      exact hhere j
    · rw [update_of_ne hne, ← hf.mem]
      obtain rfl | hj := eq_or_ne j i
      · simpa using hothers a' hne
      · simp [update_of_ne hj]
  · obtain rfl | hj := eq_or_ne j i
    · simpa using hnodup
    · simpa [update_of_ne hj] using hf.nodup j
  · obtain rfl | hj := eq_or_ne j i
    · simpa using hlen
    · simpa [update_of_ne hj] using hf.hist j

theorem Filed.insert (hf : Filed h cache) (hfresh : cache e.address = none) (hin : InRange e.hops) :
    ∃ h', h.insert e = some h' ∧ Filed h' (Function.update cache e.address (some e)) := by
  obtain ⟨i, hi, hie⟩ := index_of_inRange hin
  have hout : ∀ j, e.address ∉ h.lists j := fun j hj => by
    obtain ⟨e', he', -⟩ := (hf.mem j _).mp hj
    simp [hfresh] at he'
  refine ⟨_, by rw [Hops.insert, hi, Option.map_some], hf.update ?_ ?_ ?_ ?_ ?_⟩
  · exact nodup_cons.mpr ⟨hout i, hf.nodup i⟩
  · simp [hf.hist]
  · exact fun a' hne => by simp [hne]
  · rintro _ ⟨⟩
    exact ⟨rfl, hin⟩
  · intro j
    obtain rfl | hj := eq_or_ne j i
    · simp [hie]
    · have : e.hops ≠ (j : ℕ) := fun heq => hj (Fin.ext (by omega))
      simp [update_of_ne hj, hout j, this]

theorem Filed.remove (hf : Filed h cache) (he : cache e.address = some e) :
    ∃ h', h.remove e = some h' ∧ Filed h' (Function.update cache e.address none) := by
  obtain ⟨i, hi, hie⟩ := index_of_inRange (hf.entry _ _ he).2
  have hlisted : e.address ∈ h.lists i := (hf.mem i _).mpr ⟨e, he, hie.symm⟩
  refine ⟨_, by rw [Hops.remove, hi, Option.map_some], hf.update ?_ ?_ ?_ ?_ ?_⟩
  · exact (hf.nodup i).erase _
  · have hlen := length_erase_add_one hlisted
    rw [hf.hist]
    omega
  · intro a' hne
    rw [(hf.nodup i).mem_erase_iff, and_iff_right hne]
  · rintro _ ⟨⟩
  · intro j
    obtain rfl | hj := eq_or_ne j i
    · simp [(hf.nodup _).mem_erase_iff]
    · have : e.address ∉ h.lists j := fun hmem => by
        obtain ⟨e', he', hje⟩ := (hf.mem j _).mp hmem
        obtain rfl := Option.some.inj (he.symm.trans he')
        exact hj (Fin.ext (by omega))
      simp [update_of_ne hj, this]

theorem Filed.reinsert (hf : Filed h cache) (he : cache e.address = some e) (hin : InRange hops) :
    ∃ h', h.reinsert e hops = some h' ∧
      Filed h' (Function.update cache e.address (some { e with hops := hops })) := by
  obtain ⟨h₁, hremove, hf₁⟩ := hf.remove he
  obtain ⟨h₂, hinsert, hf₂⟩ := hf₁.insert (e := { e with hops := hops }) (update_self _ _ _) hin
  refine ⟨h₂, ?_, ?_⟩
  · rw [Hops.reinsert, hremove]
    exact hinsert
  · rwa [update_idem] at hf₂

def Livecache.Sound : Prop := Filed c.hops fun a => c.cache.lookup a

theorem lookup_insert_update (m : HashMap (IPEndpoint A) (Endpoint A)) (a : IPEndpoint A) (e : Endpoint A) :
    (fun a' => (m.insert a e).lookup a') = Function.update (fun a' => m.lookup a') a (some e) := by
  funext a'
  rw [AList.lookup_insert_ite, update_apply]

theorem lookup_erase_update (m : HashMap (IPEndpoint A) (Endpoint A)) (a : IPEndpoint A) :
    (fun a' => (m.erase a).lookup a') = Function.update (fun a' => m.lookup a') a none := by
  funext a'
  rw [AList.lookup_erase_ite, update_apply]

theorem sound_init : (Livecache.init : Livecache A).Sound where
  entry a e he := by simp [Livecache.init] at he
  mem i a := by simp [Livecache.init]
  nodup i := nodup_nil
  hist i := rfl

variable {c : Livecache A}

theorem Livecache.Sound.insert (hc : c.Sound) {ep : Endpoint A} (hin : InRange ep.hops) :
    ∃ c', c.insert ep = some c' ∧ c'.Sound := by
  rw [Livecache.insert]
  cases hlook : c.cache.lookup ep.address with
  | none =>
    obtain ⟨h', hinsert, hf⟩ := Filed.insert hc hlook hin
    rw [hinsert]
    refine ⟨_, rfl, ?_⟩
    rwa [Livecache.Sound, lookup_insert_update]
  | some e =>
    simp only
    split
    · exact ⟨c, rfl, hc⟩
    split
    · have haddr := (Filed.entry hc _ _ hlook).1
      rw [← haddr] at hlook ⊢
      obtain ⟨h', hreinsert, hf⟩ := Filed.reinsert hc hlook hin
      rw [hreinsert]
      refine ⟨_, rfl, ?_⟩
      rwa [Livecache.Sound, lookup_insert_update]
    · exact ⟨c, rfl, hc⟩

theorem Livecache.Sound.expireOne (hc : c.Sound) (a : IPEndpoint A) :
    ∃ c', c.expireOne a = some c' ∧ c'.Sound := by
  rw [Livecache.expireOne]
  cases hlook : c.cache.lookup a with
  | none => exact ⟨c, rfl, hc⟩
  | some e =>
    obtain rfl := (Filed.entry hc _ _ hlook).1
    obtain ⟨h', hremove, hf⟩ := Filed.remove hc hlook
    simp only [hremove]
    refine ⟨_, rfl, ?_⟩
    rwa [Livecache.Sound, lookup_erase_update]

theorem foldlM_keeps {S E : Type} {f : S → E → Option S} {P : S → Prop} {es : List E}
    (hstep : ∀ e ∈ es, ∀ s, P s → ∃ s', f s e = some s' ∧ P s') {s : S} (hs : P s) :
    ∃ s', es.foldlM f s = some s' ∧ P s' := by
  induction es generalizing s with
  | nil => exact ⟨s, rfl, hs⟩
  | cons e es ih =>
    obtain ⟨s₁, hf, hs₁⟩ := hstep e mem_cons_self s hs
    rw [foldlM_cons, hf]
    exact ih (fun e' he' => hstep e' (mem_cons_of_mem _ he')) hs₁

theorem Livecache.Sound.expire (hc : c.Sound) (expired : List (IPEndpoint A)) :
    ∃ c', c.expire expired = some c' ∧ c'.Sound :=
  foldlM_keeps (fun a _ _ h => h.expireOne a) hc

theorem Livecache.Sound.reorder (hc : c.Sound) {order : List (IPEndpoint A) → List (IPEndpoint A)}
    (hperm : ∀ l, (order l).Perm l) : (c.reorder order).Sound where
  entry := hc.entry
  mem i a := ((hperm _).mem_iff).trans (hc.mem i a)
  nodup i := (hperm _).nodup_iff.mpr (hc.nodup i)
  hist i := (hc.hist i).trans (by simp [Livecache.reorder, (hperm _).length_eq])

end Cache

/-! ## Messages received -/

structure SlotEndpoints (A : Type) where
  recent : HashMap (IPEndpoint A) ℤ
  checked : Bool
  canAccept : Bool
  connectivityCheckInProgress : Bool

def SlotEndpoints.new (inbound : Bool) : SlotEndpoints A := ⟨∅, !inbound, !inbound, false⟩

structure Finder (A : Type) where
  slots : HashMap (IPEndpoint A) (SlotEndpoints A)
  livecache : Livecache A

section Runs

variable [DecidableEq A]

/-- `recent_t::insert`. -/
def SlotEndpoints.insertRecent (slot : SlotEndpoints A) (a : IPEndpoint A) (hops : ℤ) : SlotEndpoints A :=
  match slot.recent.lookup a with
  | none => { slot with recent := slot.recent.insert a hops }
  | some old => if hops ≤ old then { slot with recent := slot.recent.insert a hops } else slot

/-- The loop body of `on_endpoints`. -/
def onEndpoint (s : SlotEndpoints A × Livecache A) (ep : Endpoint A) : Option (SlotEndpoints A × Livecache A) :=
  let slot := s.1.insertRecent ep.address ep.hops
  if ep.hops = 1 ∧ slot.connectivityCheckInProgress then some (slot, s.2)
  else if ep.hops = 1 ∧ !slot.checked then some ({ slot with connectivityCheckInProgress := true }, s.2)
  else if ep.hops = 1 ∧ !slot.canAccept then some (slot, s.2)
  else (s.2.insert ep).map fun c => (slot, c)

variable (net : Net A) (f : Finder A) (remote : IPEndpoint A)

def onEndpoints (list : List (Endpoint A)) : Option (Finder A) :=
  match f.slots.lookup remote with
  -- the slot of a peer that is gone gets no messages
  | none => some f
  | some slot =>
    ((preprocess net remote list).foldlM onEndpoint (slot, f.livecache)).map fun s =>
      ⟨f.slots.insert remote s.1, s.2⟩

/-- `PeerImp::onMessage` for a peer with the slot `remote`. -/
def onMessage (remote remoteAddress : IPEndpoint A) (sane : Bool) (m : TMEndpoints) :
    Option (Finder A) :=
  if !sane then some f
  else
    let endpoints := m.read net remoteAddress
    if endpoints.isEmpty then some f else onEndpoints net f remote endpoints

def checkComplete (error : Bool) : Finder A :=
  match f.slots.lookup remote with
  | none => f
  | some slot =>
    { f with
      slots := f.slots.insert remote
        { slot with checked := true, connectivityCheckInProgress := false, canAccept := !error } }

def expireRecent (old : List (IPEndpoint A)) : Finder A :=
  match f.slots.lookup remote with
  | none => f
  | some slot =>
    { f with slots := f.slots.insert remote { slot with recent := old.foldl (fun m a => m.erase a) slot.recent } }

inductive Event (A : Type) where
  | newSlot (remote : IPEndpoint A) (inbound : Bool)
  | onMessage (remote remoteAddress : IPEndpoint A) (sane : Bool) (m : TMEndpoints)
  | checkComplete (remote : IPEndpoint A) (error : Bool)
  | expire (expired : List (IPEndpoint A))
  | expireRecent (remote : IPEndpoint A) (old : List (IPEndpoint A))
  | reorder (order : List (IPEndpoint A) → List (IPEndpoint A)) (hperm : ∀ l, (order l).Perm l)
  | onClosed (remote : IPEndpoint A)

def Finder.next : Event A → Option (Finder A)
  | .newSlot r inbound => some (if r ∈ f.slots then f else { f with slots := f.slots.insert r (.new inbound) })
  | .onMessage r remoteAddress sane m => Ripple.PeerFinder.onMessage net f r remoteAddress sane m
  | .checkComplete r error => some (Ripple.PeerFinder.checkComplete f r error)
  | .expire expired => (f.livecache.expire expired).map fun c => { f with livecache := c }
  | .expireRecent r old => some (Ripple.PeerFinder.expireRecent f r old)
  | .reorder order _ => some { f with livecache := f.livecache.reorder order }
  | .onClosed r => some { f with slots := f.slots.erase r }

def Finder.run (events : List (Event A)) : Option (Finder A) :=
  events.foldlM (Finder.next net) ⟨∅, Livecache.init⟩

def SlotEndpoints.Sound (slot : SlotEndpoints A) : Prop :=
  ∀ a hops, slot.recent.lookup a = some hops → InRange hops

/-- All counts that are stored are in range, and the arrays are those of the cache. -/
structure Finder.Sound (f : Finder A) : Prop where
  recent : ∀ r slot, f.slots.lookup r = some slot → slot.Sound
  livecache : f.livecache.Sound

def Event.Clean (net : Net A) : Event A → Prop
  | .onMessage r remoteAddress true m => Ripple.PeerFinder.Clean net r (m.read net remoteAddress)
  | _ => True

variable {net : Net A} {f : Finder A}

variable {slot : SlotEndpoints A} {a r : IPEndpoint A}

theorem SlotEndpoints.Sound.insertRecent (h : slot.Sound) {hops : ℤ} (hin : InRange hops) :
    (slot.insertRecent a hops).Sound := by
  have hset : SlotEndpoints.Sound { slot with recent := slot.recent.insert a hops } := by
    intro a' hops' hlook
    simp only [AList.lookup_insert_ite] at hlook
    split at hlook
    · obtain rfl := Option.some.inj hlook
      exact hin
    · exact h a' hops' hlook
  rw [SlotEndpoints.insertRecent]
  split
  · exact hset
  split
  · exact hset
  · exact h

theorem onEndpoint_sound {s : SlotEndpoints A × Livecache A} (hs : s.1.Sound ∧ s.2.Sound) {ep : Endpoint A}
    (hin : InRange ep.hops) : ∃ s', onEndpoint s ep = some s' ∧ s'.1.Sound ∧ s'.2.Sound := by
  have hrecent := hs.1.insertRecent (a := ep.address) hin
  rw [onEndpoint]
  split
  · exact ⟨_, rfl, hrecent, hs.2⟩
  split
  · exact ⟨_, rfl, hrecent, hs.2⟩
  split
  · exact ⟨_, rfl, hrecent, hs.2⟩
  · obtain ⟨c', hinsert, hc'⟩ := hs.2.insert hin
    rw [hinsert]
    exact ⟨_, rfl, hrecent, hc'⟩

theorem Finder.Sound.setSlot (h : f.Sound) (hslot : slot.Sound) {c : Livecache A} (hc : c.Sound) :
    Finder.Sound ⟨f.slots.insert r slot, c⟩ := by
  refine ⟨fun r' slot' hlook => ?_, hc⟩
  rw [AList.lookup_insert_ite] at hlook
  split at hlook
  · obtain rfl := Option.some.inj hlook
    exact hslot
  · exact h.recent r' slot' hlook

theorem onEndpoints_sound (h : f.Sound) {list : List (Endpoint A)} (hclean : Clean net r list) :
    ∃ f', onEndpoints net f r list = some f' ∧ f'.Sound := by
  rw [onEndpoints]
  cases hlook : f.slots.lookup r with
  | none => exact ⟨f, rfl, h⟩
  | some slot =>
    obtain ⟨s, hkept, hscan⟩ := scanned_preprocess net r list
    have hin := hscan.clean.mpr hclean
    obtain ⟨s', hfold, hs'⟩ := foldlM_keeps (P := fun s => s.1.Sound ∧ s.2.Sound) (s := (slot, f.livecache))
      (fun ep hep _ hs => onEndpoint_sound hs (hin ep hep)) ⟨h.recent r slot hlook, h.livecache⟩
    simp only [hkept, hfold]
    exact ⟨_, rfl, h.setSlot hs'.1 hs'.2⟩

theorem lookup_foldl_erase {V : Type} {m : HashMap (IPEndpoint A) V} {old : List (IPEndpoint A)}
    {v : V} (h : (old.foldl (fun m a => m.erase a) m).lookup a = some v) : m.lookup a = some v := by
  induction old generalizing m with
  | nil => exact h
  | cons b old ih =>
    have := ih h
    rw [AList.lookup_erase_ite] at this
    split at this
    · simp at this
    · exact this

theorem Finder.Sound.next (h : f.Sound) {e : Event A} (hclean : e.Clean net) :
    ∃ f', f.next net e = some f' ∧ f'.Sound := by
  cases e with
  | newSlot r inbound =>
    refine ⟨_, rfl, ?_⟩
    split
    · exact h
    · exact h.setSlot (fun a hops hlook => by simp [SlotEndpoints.new] at hlook) h.livecache
  | onMessage r remoteAddress sane m =>
    simp only [Finder.next, onMessage]
    cases sane with
    | false => exact ⟨f, rfl, h⟩
    | true =>
      simp only [Bool.not_true, Bool.false_eq_true, if_false]
      split
      · exact ⟨f, rfl, h⟩
      · exact onEndpoints_sound h hclean
  | checkComplete r error =>
    refine ⟨_, rfl, ?_⟩
    rw [Ripple.PeerFinder.checkComplete]
    split
    · exact h
    · next slot hslot =>
      have hsame : SlotEndpoints.Sound
          { slot with checked := true, connectivityCheckInProgress := false, canAccept := !error } :=
        h.recent r slot hslot
      exact h.setSlot hsame h.livecache
  | expire expired =>
    obtain ⟨c, hexpire, hc⟩ := h.livecache.expire expired
    exact ⟨{ f with livecache := c }, by simp [Finder.next, hexpire], h.recent, hc⟩
  | expireRecent r old =>
    refine ⟨_, rfl, ?_⟩
    rw [Ripple.PeerFinder.expireRecent]
    split
    · exact h
    · next slot hslot =>
      exact h.setSlot (fun a hops hlook => h.recent r slot hslot a hops (lookup_foldl_erase hlook)) h.livecache
  | reorder order hperm => exact ⟨_, rfl, h.recent, h.livecache.reorder hperm⟩
  | onClosed r =>
    refine ⟨_, rfl, fun r' slot hlook => ?_, h.livecache⟩
    simp only [AList.lookup_erase_ite] at hlook
    split at hlook
    · simp at hlook
    · exact h.recent r' slot hlook

/-- The counts that are kept are in range exactly if the message is clean, at most one is the peer
itself, and no address is kept twice. If all messages are clean, the arrays are accessed within
bounds. -/
theorem endpoints_in_range (net : Net A) :
    (∀ (remote remoteAddress : IPEndpoint A) (m : TMEndpoints),
      let kept := preprocess net remote (m.read net remoteAddress)
      ((∀ ep ∈ kept, InRange ep.hops) ↔ Clean net remote (m.read net remoteAddress)) ∧
      kept.countP (·.hops = 1) ≤ 1 ∧
      (∀ ep ∈ kept, ep.hops = 1 → ep.address.address = remote.address) ∧
      kept.Pairwise fun ep ep' => ep.address ≠ ep'.address) ∧
    ∀ events : List (Event A), (∀ e ∈ events, e.Clean net) →
      ∃ f, Finder.run net events = some f ∧ f.Sound := by
  constructor
  · intro remote remoteAddress m
    obtain ⟨s, hkept, hscan⟩ := scanned_preprocess net remote (m.read net remoteAddress)
    simp only [hkept]
    exact ⟨hscan.clean, hscan.once.trans (Bool.toNat_le _), hscan.self, hscan.distinct⟩
  · intro events hclean
    have hinit : Finder.Sound (⟨∅, Livecache.init⟩ : Finder A) :=
      ⟨fun r slot hlook => by simp at hlook, sound_init⟩
    exact foldlM_keeps (fun e he _ h => h.next (hclean e he)) hinit

end Runs

/-! ## Samples -/

/-- Addresses are numbers, and every text is the address `9` with port `51235`. -/
def sampleNet : Net ℕ where
  fromStringChecked _ := some ⟨9, 51235⟩
  addressV4 n := n.toNat
  isUnspecified a := a = 0
  isPublic _ := true

def oneEndpoint (hops : UInt32) : List (Event ℕ) :=
  [.newSlot ⟨5, 6561⟩ false, .onMessage ⟨5, 6561⟩ ⟨5, 6561⟩ true ⟨[], [⟨"9.9.9.9:51235", hops⟩]⟩]

/-- A count of `0xFFFFFFFF` is kept as `0`, and with `0xFFFFFFFB` the lists are indexed by `-4`. -/
theorem hops_wrap :
    preprocess sampleNet ⟨5, 6561⟩ (TMEndpoints.read sampleNet ⟨5, 6561⟩ ⟨[], [⟨"9.9.9.9:51235", 0xFFFFFFFF⟩]⟩) =
        [⟨0, ⟨9, 51235⟩⟩] ∧
      preprocess sampleNet ⟨5, 6561⟩ (TMEndpoints.read sampleNet ⟨5, 6561⟩ ⟨[], [⟨"9.9.9.9:51235", 0xFFFFFFFB⟩]⟩) =
        [⟨-4, ⟨9, 51235⟩⟩] ∧
      (Finder.run sampleNet (oneEndpoint 0xFFFFFFFB)).isNone = true := by
  decide

theorem endpoints_in_range_one :
    (∀ e ∈ oneEndpoint 6, e.Clean sampleNet) ∧
      ∃ f, Finder.run sampleNet (oneEndpoint 6) = some f ∧ f.Sound := by
  have hclean : ∀ e ∈ oneEndpoint 6, e.Clean sampleNet := by
    intro e he
    simp only [oneEndpoint, mem_cons, not_mem_nil, or_false] at he
    obtain rfl | rfl := he
    · trivial
    · exact clean_read (by decide) (by decide)
  exact ⟨hclean, (endpoints_in_range sampleNet).2 _ hclean⟩

end Ripple.PeerFinder
