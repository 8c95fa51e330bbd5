import Ripple.Ledger.DirectoryWalk

/-!
# Ripple.Ledger.DirectoryPaging

`forEachItemAfter` of `ledger/impl/View.cpp`, and the listing that clients put together from its
pages: each call goes on behind the last key of the one before.
-/

namespace Ripple.Ledger

open Protocol ApplyView PageChain List

/-! ## The functions -/

/-- The loop over the keys of one page: what the callback gets, whether the marker was passed, and
the limit still to go unless the page was left early. -/
def deliver (f : Uint256 → Bool) (after : Uint256) :
    List Uint256 → Bool → ℕ → List Uint256 × Bool × Option ℕ
  | [], found, limit => ([], found, some limit)
  | key :: keys, false, limit => deliver f after keys (key = after) limit
  | key :: keys, true, limit =>
    if f key = true ∧ limit ≤ 1 then ([key], true, none)
    else
      let (items, found, left) := deliver f after keys true (if f key then limit - 1 else limit)
      (key :: items, found, left)

/-- The loop over the pages. Without a marker it starts as if that had been found. -/
def itemsFrom (pages : Pages) (f : Uint256 → Bool) (after : Uint256) :
    ℕ → ℕ → Bool → ℕ → Option (List Uint256 × Bool)
  | 0, _, _, _ => none
  | fuel + 1, page, found, limit =>
    match pages page with
    | none => some ([], found)
    | some ownerDir =>
      match deliver f after ownerDir.indexes found limit with
      | (items, found, none) => some (items, found)
      | (items, found, some limit) =>
        if ownerDir.indexNext = 0 then some (items, found)
        else (itemsFrom pages f after fuel ownerDir.indexNext found limit).map fun r =>
          (items ++ r.1, r.2)

/-- `forEachItemAfter`: the keys of the items that the callback gets, and what is returned. -/
def forEachItemAfter (pages : Pages) (after : Uint256) (hint limit : ℕ) (f : Uint256 → Bool)
    (fuel : ℕ) : Option (List Uint256 × Bool) :=
  if after ≠ 0 then
    -- the hint counts only if the marker is on that page
    itemsFrom pages f after fuel (if after ∈ indexesAt pages hint then hint else 0) false limit
  else itemsFrom pages f after fuel 0 true limit

/-- Page after page of the listing, until one is not full. The hints may be any. -/
def listPages (pages : Pages) (limit : ℕ) (hint : ℕ → ℕ) (fuel : ℕ) :
    ℕ → Uint256 → Option (List Uint256)
  | 0, _ => none
  | rounds + 1, after =>
    (forEachItemAfter pages after (hint rounds) limit (fun _ => true) fuel).bind fun r =>
      if r.1.length < limit then some r.1
      else (listPages pages limit hint fuel rounds (r.1.getLastD 0)).map (r.1 ++ ·)

/-! ## One page of the listing -/

section Deliver

variable {f : Uint256 → Bool} {after : Uint256} {keys : List Uint256} {found : Bool} {limit : ℕ}

def behind (after : Uint256) (keys : List Uint256) : List Uint256 := (keys.dropWhile (· ≠ after)).drop 1

theorem behind_cons_self : behind after (after :: keys) = keys := by
  simp [behind]

theorem behind_cons_ne {key : Uint256} (h : key ≠ after) :
    behind after (key :: keys) = behind after keys := by
  simp [behind, h]

theorem behind_of_not_mem (h : after ∉ keys) : behind after keys = [] := by
  induction keys with
  | nil => rfl
  | cons key keys ih =>
    rw [mem_cons, not_or] at h
    rw [behind_cons_ne (Ne.symm h.1), ih h.2]

theorem behind_append_of_not_mem (more : List Uint256) (h : after ∉ keys) :
    behind after (keys ++ more) = behind after more := by
  induction keys with
  | nil => rfl
  | cons key keys ih =>
    rw [mem_cons, not_or] at h
    rw [cons_append, behind_cons_ne (Ne.symm h.1), ih h.2]

theorem found_deliver (f : Uint256 → Bool) (after : Uint256) (keys : List Uint256) (found : Bool)
    (limit : ℕ) : (deliver f after keys found limit).2.1 = (found || decide (after ∈ keys)) := by
  induction keys generalizing found limit with
  | nil => simp [deliver]
  | cons key keys ih =>
    cases found with
    | false =>
      rw [deliver, ih]
      by_cases hkey : key = after
      · simp [hkey]
      · simp [hkey, Ne.symm hkey]
    | true =>
      rw [deliver]
      split
      · rfl
      · rw [ih]
        rfl

theorem deliver_true (after : Uint256) (keys : List Uint256) (hlimit : 1 ≤ limit) :
    (deliver (fun _ => true) after keys true limit).1 = keys.take limit := by
  induction keys generalizing limit with
  | nil => simp [deliver]
  | cons key keys ih =>
    rw [deliver]
    by_cases hone : limit ≤ 1
    · obtain rfl : limit = 1 := by omega
      simp
    · obtain ⟨limit, rfl⟩ : ∃ k, limit = k + 1 := ⟨limit - 1, by omega⟩
      rw [if_neg (fun h => hone h.2), if_pos rfl, Nat.add_sub_cancel, take_succ_cons, ← ih (by omega)]

theorem deliver_false_of_mem (h : after ∈ keys) :
    deliver f after keys false limit = deliver f after (behind after keys) true limit := by
  induction keys with
  | nil => cases h
  | cons key keys ih =>
    rw [deliver]
    by_cases hkey : key = after
    · rw [hkey, behind_cons_self, decide_eq_true rfl]
    · rw [behind_cons_ne hkey, decide_eq_false hkey,
        ih ((mem_cons.1 h).resolve_left (Ne.symm hkey))]

theorem deliver_false_of_not_mem (h : after ∉ keys) :
    deliver f after keys false limit = ([], false, some limit) := by
  induction keys with
  | nil => rfl
  | cons key keys ih =>
    rw [mem_cons, not_or] at h
    rw [deliver, decide_eq_false (Ne.symm h.1), ih h.2]

theorem deliver_append (keys more : List Uint256) : deliver f after (keys ++ more) found limit =
    (deliver f after keys found limit).2.2.elim (deliver f after keys found limit) fun left =>
      ((deliver f after keys found limit).1 ++ (deliver f after more (deliver f after keys found limit).2.1 left).1,
        (deliver f after more (deliver f after keys found limit).2.1 left).2) := by
  induction keys generalizing found limit with
  | nil => rfl
  | cons key keys ih =>
    cases found with
    | false => exact ih
    | true =>
      simp only [cons_append, deliver]
      split
      · rfl
      · rw [ih]
        rcases deliver f after keys true (if f key then limit - 1 else limit) with ⟨items, found, _ | left⟩ <;> rfl

end Deliver

section Items

variable {pages : Pages} {chain before rest : List ℕ} {n fuel limit : ℕ} {after : Uint256} {found : Bool}

def wanted (after : Uint256) (found : Bool) (keys : List Uint256) : List Uint256 :=
  if found then keys else behind after keys

theorem deliver_eq (keys : List Uint256) (hlimit : 1 ≤ limit) :
    (deliver (fun _ => true) after keys found limit).1 = (wanted after found keys).take limit := by
  cases found with
  | true => exact deliver_true after keys hlimit
  | false =>
    by_cases h : after ∈ keys
    · rw [deliver_false_of_mem h, deliver_true after _ hlimit]
      rfl
    · rw [deliver_false_of_not_mem h]
      simp [wanted, behind_of_not_mem h]

theorem itemsFrom_eq {f : Uint256 → Bool} (h : Chained pages (before ++ n :: rest)) (hfuel : rest.length < fuel) :
    itemsFrom pages f after fuel n found limit =
      some ((deliver f after ((n :: rest).flatMap (indexesAt pages)) found limit).1,
        (deliver f after ((n :: rest).flatMap (indexesAt pages)) found limit).2.1) := by
  induction rest generalizing before n fuel found limit with
  | nil =>
    obtain ⟨fuel, rfl⟩ : ∃ k, fuel = k + 1 := ⟨fuel - 1, by omega⟩
    obtain ⟨node, hn⟩ := h.exists_of_mem (n := n) (by simp)
    have hnext : node.indexNext = 0 := h.indexNext hn
    rw [flatMap_singleton, indexesAt_some hn]
    simp only [itemsFrom, hn, hnext, if_true]
    rcases deliver f after node.indexes found limit with ⟨items, found', _ | left⟩ <;> rfl
  | cons next rest ih =>
    obtain ⟨fuel, rfl⟩ : ∃ k, fuel = k + 1 := ⟨fuel - 1, by omega⟩
    obtain ⟨node, hn⟩ := h.exists_of_mem (n := n) (by simp)
    have hnext : node.indexNext = next := h.indexNext hn
    have heq : before ++ n :: next :: rest = (before ++ [n]) ++ next :: rest := by simp
    rw [flatMap_cons, indexesAt_some hn, deliver_append]
    simp only [itemsFrom, hn, hnext, if_neg (h.after_ne next mem_cons_self)]
    rcases deliver f after node.indexes found limit with ⟨items, found', _ | left⟩
    · rfl
    · exact congrArg (Option.map fun r => (items ++ r.1, r.2)) (ih (heq ▸ h) (Nat.lt_of_succ_lt_succ hfuel))

end Items

section Listing

variable {pages : Pages} {chain : List ℕ} {hint fuel limit : ℕ} {after : Uint256}

theorem start_split (after : Uint256) (hint : ℕ) (h : Chained pages chain)
    (hnodup : (chain.flatMap (indexesAt pages)).Nodup) :
    ∃ before n rest, chain = before ++ n :: rest ∧
      (if after ∈ indexesAt pages hint then hint else 0) = n ∧
      after ∉ before.flatMap (indexesAt pages) := by
  by_cases hmem : after ∈ indexesAt pages hint
  · have hhint : hint ∈ chain := by
      by_contra hnot
      rw [indexesAt_none (h.none_of_not_mem hnot)] at hmem
      cases hmem
    obtain ⟨before, rest, rfl⟩ := append_of_mem hhint
    refine ⟨before, hint, rest, rfl, if_pos hmem, fun hbefore => ?_⟩
    rw [flatMap_append, flatMap_cons] at hnodup
    exact (disjoint_of_nodup_append hnodup) hbefore (mem_append_left _ hmem)
  · obtain ⟨rest, hchain⟩ := h.root_cons
    exact ⟨[], 0, rest, hchain, if_neg hmem, by simp⟩

theorem forEachItemAfter_eq (h : Chained pages chain) (hnodup : (chain.flatMap (indexesAt pages)).Nodup)
    (hfuel : chain.length ≤ fuel) (f : Uint256 → Bool) : forEachItemAfter pages after hint limit f fuel =
      some ((deliver f after (chain.flatMap (indexesAt pages)) (after = 0) limit).1,
        (deliver f after (chain.flatMap (indexesAt pages)) (after = 0) limit).2.1) := by
  unfold forEachItemAfter
  by_cases hafter : after = 0
  · obtain ⟨rest, rfl⟩ := h.root_cons
    have h : Chained pages ([] ++ 0 :: rest) := h
    rw [if_neg (not_not.2 hafter), decide_eq_true hafter]
    exact itemsFrom_eq h hfuel
  · obtain ⟨before, n, rest, rfl, hn, hnot⟩ := start_split after hint h hnodup
    rw [if_pos hafter, hn, decide_eq_false hafter, itemsFrom_eq h (by simp at hfuel; omega),
      flatMap_append, deliver_append, deliver_false_of_not_mem hnot]
    rfl

theorem listPages_eq (h : Chained pages chain) {done rest : List Uint256}
    (hkeys : chain.flatMap (indexesAt pages) = done ++ rest) (hnodup : (done ++ rest).Nodup)
    (hzero : 0 ∉ done ++ rest) (hfuel : chain.length ≤ fuel) (hlimit : 1 ≤ limit) (hint : ℕ → ℕ)
    {rounds : ℕ} (hrounds : rest.length < rounds) :
    listPages pages limit hint fuel rounds (done.getLastD 0) = some rest := by
  induction rounds generalizing done rest with
  | zero => omega
  | succ rounds ih =>
    have hwanted : wanted (done.getLastD 0) (done.getLastD 0 = 0) (done ++ rest) = rest := by
      obtain rfl | ⟨init, last, rfl⟩ := eq_nil_or_concat' done
      · rfl
      · have hlast : last ≠ 0 := fun heq => hzero (by simp [heq])
        have hinit : last ∉ init := by
          intro hmem
          have hdup := (nodup_append.1 (nodup_append.1 hnodup).1).2.2
          exact hdup last hmem last (by simp) rfl
        simp only [getLastD_concat, decide_eq_false hlast, wanted, Bool.false_eq_true, if_false]
        rw [append_assoc, behind_append_of_not_mem _ hinit, singleton_append, behind_cons_self]
    simp only [listPages, forEachItemAfter_eq h (hkeys ▸ hnodup) hfuel, Option.bind_some,
      deliver_eq _ hlimit, hkeys, hwanted, length_take]
    by_cases hlen : rest.length < limit
    · rw [if_pos (by omega), take_of_length_le hlen.le]
    · rw [if_neg (by omega)]
      have hsplit : done ++ rest = (done ++ rest.take limit) ++ rest.drop limit := by
        rw [append_assoc, take_append_drop]
      have hlast : (rest.take limit).getLastD 0 = (done ++ rest.take limit).getLastD 0 := by
        have hne : rest.take limit ≠ [] := by
          rw [ne_eq, take_eq_nil_iff]
          rintro (h0 | rfl)
          · omega
          · exact hlen hlimit
        obtain ⟨init, last, heq⟩ := (eq_nil_or_concat' (rest.take limit)).resolve_left hne
        rw [heq, ← append_assoc, getLastD_concat, getLastD_concat]
      rw [hlast, ih (hkeys.trans hsplit) (hsplit ▸ hnodup) (hsplit ▸ hzero)
        (by rw [length_drop]; omega), Option.map_some, take_append_drop]

end Listing

/-- The pages of a listing make up what `forEachItem` delivers, unless the key zero is listed, which
stands for no marker. Any hints do. -/
theorem paged_listing {directory : Directory} {v : ApplyView} {added : List (Uint256 × ℕ)}
    (hdir : directory.NoCollision) (h : Reaches false directory v added) : ∃ keys enough, ∀ fuel, enough ≤ fuel →
      forEachItem (v.pageAt directory) fuel 0 = some keys ∧
      (0 ∉ added.map Prod.fst → ∀ limit, 1 ≤ limit → ∀ hint,
        listPages (v.pageAt directory) limit hint fuel fuel 0 = some keys) ∧
      ∀ after hint limit f, ∃ items r,
        forEachItemAfter (v.pageAt directory) after hint limit f fuel = some (items, r) ∧
          (r = false ↔ after ≠ 0 ∧ after ∉ added.map Prod.fst) := by
  obtain ⟨-, pages, hv, hl⟩ := h.lists hdir
  rw [hv.pageAt]
  obtain ⟨hnone, rfl⟩ | ⟨chain, h⟩ := hl
  · refine ⟨[], 1, fun fuel hfuel => ?_⟩
    obtain ⟨fuel, rfl⟩ : ∃ k, fuel = k + 1 := ⟨fuel - 1, by omega⟩
    have hitems : ∀ f after page found limit,
        itemsFrom pages f after (fuel + 1) page found limit = some ([], found) := by
      intro f after page found limit
      simp [itemsFrom, hnone page]
    refine ⟨by simp [forEachItem, hnone 0], fun _ limit hlimit hint => ?_, fun after hint limit f => ?_⟩
    · simp [listPages, forEachItemAfter, hitems, Nat.pos_of_ne_zero (Nat.ne_zero_of_lt hlimit)]
    · refine ⟨[], decide (after = 0), ?_, by simp⟩
      by_cases hafter : after = 0
      · simp [forEachItemAfter, hitems, hafter]
      · simp [forEachItemAfter, hitems, hafter]
  · obtain ⟨after, hchain⟩ := h.root_cons
    refine ⟨chain.flatMap (indexesAt pages),
      chain.length + (chain.flatMap (indexesAt pages)).length + 1, fun fuel hfuel => ⟨?_, ?_, ?_⟩⟩
    · have hc : Chained pages ([] ++ 0 :: after) := hchain ▸ h.toChained
      rw [hchain] at hfuel ⊢
      exact forEachItem_eq hc (by simp at hfuel; omega)
    · intro hzero limit hlimit hint
      rw [h.mem_keys] at hzero
      exact listPages_eq h.toChained (nil_append _).symm h.nodup_flatMap hzero (by omega) hlimit hint
        (by omega)
    · intro after hint limit f
      refine ⟨_, _, forEachItemAfter_eq h.toChained h.nodup_flatMap (by omega) f, ?_⟩
      rw [found_deliver, Bool.or_eq_false_iff, decide_eq_false_iff_not, decide_eq_false_iff_not, h.mem_keys]

theorem paged_listing_twoPages : ∃ keys enough, ∀ fuel, enough ≤ fuel →
    forEachItem (twoPages.1.pageAt (spreadPages 7)) fuel 0 = some keys ∧
      listPages (twoPages.1.pageAt (spreadPages 7)) 5 (fun i => i % 2) fuel fuel 0 = some keys := by
  obtain ⟨keys, enough, h⟩ := paged_listing (noCollision_spreadPages 7) (reaches_twoPages false)
  refine ⟨keys, enough, fun fuel hfuel => ?_⟩
  obtain ⟨hall, hpaged, -⟩ := h fuel hfuel
  exact ⟨hall, hpaged (by decide +kernel) 5 (by decide) _⟩

def zeroKey : ApplyView × List (Uint256 × ℕ) :=
  (runCalls (spreadPages 7) [.add 0, .add 5] ({ base := {} }, [])).getD ({ base := {} }, [])

/-- The page behind the key zero is the first page again. -/
theorem paged_listing_repeats : (spreadPages 7).NoCollision ∧
    Reaches false (spreadPages 7) zeroKey.1 [(0, 0), (5, 0)] ∧
    forEachItem (zeroKey.1.pageAt (spreadPages 7)) 9 0 = some [0, 5] ∧
    forEachItemAfter (zeroKey.1.pageAt (spreadPages 7)) 0 0 1 (fun _ => true) 9 = some ([0], true) ∧
    listPages (zeroKey.1.pageAt (spreadPages 7)) 1 (fun _ => 0) 9 9 0 = none := by
  have hrun : runCalls (spreadPages 7) [.add 0, .add 5] ({ base := {} }, []) = some zeroKey := rfl
  exact ⟨noCollision_spreadPages 7, reaches_runCalls (reaches_empty false _) hrun,
    by decide +kernel, by decide +kernel, by decide +kernel⟩

end Ripple.Ledger
