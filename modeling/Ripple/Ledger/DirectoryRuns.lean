import Ripple.Ledger.Directory

/-!
# Ripple.Ledger.DirectoryRuns

What `dirAdd` and `dirRemove` keep of a directory, over any sequence of calls.
-/

namespace Ripple.Ledger

open Protocol ApplyView PageChain Function List
open Proc (wp wp_bind wp_ite wp_pure wp_post wp_expect_some result result_ok_of_wp)

def indexesAt (pages : Pages) (n : ℕ) : List Uint256 := ((pages n).map DirNode.indexes).getD []

structure Chained (pages : Pages) (chain : List ℕ) : Prop where
  root : 0 ∈ chain
  increasing : chain.Pairwise (· < ·)
  isSome : ∀ n, (pages n).isSome ↔ n ∈ chain
  next : ∀ n node, pages n = some node → Follows chain n node.indexNext
  prev : ∀ n node, pages n = some node → Follows chain node.indexPrevious n

/-- `added` is the keys in the order they were added, with the page that was returned for each. -/
structure Listing (ordered : Bool) (pages : Pages) (chain : List ℕ) (added : List (Uint256 × ℕ)) :
    Prop extends Chained pages chain where
  limit : ∀ n ∈ chain, n < dirNodeMaxPages
  size : ∀ n node, pages n = some node → node.indexes.length ≤ dirNodeMaxEntries
  filled : ∀ n node, pages n = some node → n ≠ 0 → node.indexes ≠ []
  distinct : ∀ n node, pages n = some node → node.indexes.Nodup
  lists : ∀ key n, (key, n) ∈ added ↔ key ∈ indexesAt pages n
  keys : (added.map Prod.fst).Nodup
  order : ordered = true → chain.flatMap (indexesAt pages) = added.map Prod.fst

/-- The last page has no room, and no further page is allowed. -/
def Full (pages : Pages) : Prop :=
  ∃ root last, pages 0 = some root ∧ pages root.indexPrevious = some last ∧
    dirNodeMaxEntries ≤ last.indexes.length ∧ dirNodeMaxPages ≤ root.indexPrevious + 1

/-- There is no directory, or it lists the keys. -/
def Lists (ordered : Bool) (pages : Pages) (added : List (Uint256 × ℕ)) : Prop :=
  ((∀ n, pages n = none) ∧ added = []) ∨ ∃ chain, Listing ordered pages chain added

/-! ## Links -/

section Links

variable {pages : Pages} {chain : List ℕ} {n p q : ℕ} {node : DirNode}

theorem indexesAt_some (h : pages n = some node) : indexesAt pages n = node.indexes := by
  simp [indexesAt, h]

theorem indexesAt_none (h : pages n = none) : indexesAt pages n = [] := by
  simp [indexesAt, h]

theorem full_iff {root : DirNode} (hroot : pages 0 = some root) (hlast : pages root.indexPrevious = some node) :
    Full pages ↔ dirNodeMaxEntries ≤ node.indexes.length ∧ dirNodeMaxPages ≤ root.indexPrevious + 1 := by
  constructor
  · rintro ⟨root', last, hroot', hlast', hfull⟩
    cases hroot.symm.trans hroot'
    cases hlast.symm.trans hlast'
    exact hfull
  · intro hfull
    exact ⟨root, node, hroot, hlast, hfull⟩

theorem update_eq_some {m : ℕ} {node' node₁ : DirNode} (h : Function.update pages n (some node') m = some node₁) :
    (m = n ∧ node₁ = node') ∨ pages m = some node₁ := by
  rw [update_apply] at h
  split at h
  · rename_i heq
    cases h
    exact .inl ⟨heq, rfl⟩
  · exact .inr h

namespace Chained

theorem mem (h : Chained pages chain) (hn : pages n = some node) : n ∈ chain :=
  (h.isSome n).1 (by simp [hn])

theorem exists_of_mem (h : Chained pages chain) (hn : n ∈ chain) : ∃ node, pages n = some node :=
  Option.isSome_iff_exists.1 ((h.isSome n).2 hn)

theorem none_of_not_mem (h : Chained pages chain) (hn : n ∉ chain) : pages n = none := by
  cases hp : pages n with
  | none => rfl
  | some node => exact absurd (h.mem hp) hn

theorem update (h : Chained pages chain) (hn : pages n = some node) {node' : DirNode}
    (hnext : node'.indexNext = node.indexNext) (hprev : node'.indexPrevious = node.indexPrevious) :
    Chained (Function.update pages n (some node')) chain where
  root := h.root
  increasing := h.increasing
  isSome m := by
    rw [← h.isSome m, update_apply]
    split
    · rename_i hm; simp [hm, hn]
    · rfl
  next m node₁ hm := by
    obtain ⟨rfl, rfl⟩ | hm := update_eq_some hm
    · exact hnext ▸ h.next m node hn
    · exact h.next m node₁ hm
  prev m node₁ hm := by
    obtain ⟨rfl, rfl⟩ | hm := update_eq_some hm
    · exact hprev ▸ h.prev m node hn
    · exact h.prev m node₁ hm

end Chained

def appended (pages : Pages) (p q : ℕ) (new : DirNode) : Pages := fun m =>
  if m = q then some new
  else (pages m).map fun node =>
    { node with
      indexNext := if m = p then q else node.indexNext
      indexPrevious := if m = 0 then q else node.indexPrevious }

def unlinked (pages : Pages) (n p q : ℕ) : Pages := fun m =>
  if m = n then none
  else (pages m).map fun node =>
    { node with
      indexNext := if m = p then q else node.indexNext
      indexPrevious := if m = q then p else node.indexPrevious }

variable {node' new : DirNode} {m : ℕ}

theorem appended_eq_some (h : appended pages p q new m = some node') :
    (m = q ∧ node' = new) ∨ m ≠ q ∧ ∃ node, pages m = some node ∧
      node'.indexNext = (if m = p then q else node.indexNext) ∧
      node'.indexPrevious = if m = 0 then q else node.indexPrevious := by
  unfold appended at h
  split at h
  · rename_i hm
    cases h
    exact .inl ⟨hm, rfl⟩
  · rename_i hm
    obtain ⟨node, hnode, rfl⟩ := Option.map_eq_some_iff.1 h
    exact .inr ⟨hm, node, hnode, rfl, rfl⟩

theorem unlinked_eq_some (h : unlinked pages n p q m = some node') :
    m ≠ n ∧ ∃ node, pages m = some node ∧
      node'.indexNext = (if m = p then q else node.indexNext) ∧
      node'.indexPrevious = if m = q then p else node.indexPrevious := by
  unfold unlinked at h
  split at h
  · cases h
  · rename_i hm
    obtain ⟨node, hnode, rfl⟩ := Option.map_eq_some_iff.1 h
    exact ⟨hm, node, hnode, rfl, rfl⟩

theorem indexesAt_appended (m : ℕ) (new : DirNode) : indexesAt (appended pages p q new) m =
    if m = q then new.indexes else indexesAt pages m := by
  unfold indexesAt appended
  split
  · rfl
  · cases pages m <;> rfl

theorem indexesAt_unlinked (m : ℕ) : indexesAt (unlinked pages n p q) m =
    if m = n then [] else indexesAt pages m := by
  unfold indexesAt unlinked
  split
  · rfl
  · cases pages m <;> rfl

theorem Chained.append (h : Chained pages chain) (hlast : Follows chain p 0)
    (hq : ∀ x ∈ chain, x < q) (hnext : new.indexNext = 0) (hprev : new.indexPrevious = p) :
    Chained (appended pages p q new) (chain ++ [q]) where
  root := mem_append_left _ h.root
  increasing := pairwise_append.2 ⟨h.increasing, pairwise_singleton _ _,
    fun x hx y hy => by rw [mem_singleton.1 hy]; exact hq x hx⟩
  isSome m := by
    unfold appended
    split
    · rename_i hm; simp [hm]
    · rename_i hm; simp [hm, h.isSome m]
  next m node' hm := by
    obtain ⟨rfl, rfl⟩ | ⟨hne, node, hnode, hnext', -⟩ := appended_eq_some hm
    · rw [hnext]
      exact hlast.append_root hq
    · have hfol := h.next m node hnode
      rw [hnext']
      split
      · rename_i heq
        rw [heq]
        exact hlast.append_last hq
      · -- only the last page has the root behind it
        rename_i hmp
        refine hfol.append (fun hzero => hmp ?_) hq
        rw [hzero] at hfol
        exact hfol.left_unique hlast
  prev m node' hm := by
    obtain ⟨rfl, rfl⟩ | ⟨hne, node, hnode, -, hprev'⟩ := appended_eq_some hm
    · rw [hprev]
      exact hlast.append_last hq
    · rw [hprev']
      split
      · rename_i heq
        rw [heq]
        exact hlast.append_root hq
      · rename_i hm0
        exact (h.prev m node hnode).append hm0 hq

theorem Chained.unlink (h : Chained pages chain) (hn : pages n = some node) (hroot : n ≠ 0) :
    Chained (unlinked pages n node.indexPrevious node.indexNext) (chain.filter (· ≠ n)) where
  root := by simp [h.root, hroot.symm]
  increasing := h.increasing.filter _
  isSome m := by
    unfold unlinked
    split
    · rename_i hm; simp [hm]
    · rename_i hm; simp [hm, h.isSome m]
  next m node' hm := by
    obtain ⟨hne, node₁, hnode, hnext', -⟩ := unlinked_eq_some hm
    have hprev := h.prev n node hn
    rw [hnext']
    split
    · rename_i heq
      rw [heq]
      exact hprev.erase_between (h.next n node hn) hroot
    · rename_i hmp
      have hfol := h.next m node₁ hnode
      refine hfol.erase hne fun heq => hmp ?_
      rw [heq] at hfol
      exact hfol.left_unique hprev
  prev m node' hm := by
    obtain ⟨hne, node₁, hnode, -, hprev'⟩ := unlinked_eq_some hm
    have hnext := h.next n node hn
    rw [hprev']
    split
    · rename_i heq
      rw [heq]
      exact (h.prev n node hn).erase_between hnext hroot
    · rename_i hmp
      have hfol := h.prev m node₁ hnode
      refine hfol.erase (fun heq => hmp ?_) hne
      rw [heq] at hfol
      exact hfol.right_unique hnext

theorem Chained.last (h : Chained pages chain) (hp : Follows chain p 0) :
    ∃ before, chain = before ++ [p] := by
  obtain rfl | ⟨before, x, rfl⟩ := eq_nil_or_concat' chain
  · cases h.root
  · have hx : x = p := by
      have h₁ := hp.last x (by simp)
      obtain hp' | hp' := mem_append.1 hp.1
      · have := (pairwise_append.1 h.increasing).2.2 p hp' x (by simp)
        omega
      · exact (mem_singleton.1 hp').symm
    exact ⟨before, by rw [hx]⟩

end Links

/-! ## Contents -/

section Contents

variable {ordered : Bool} {pages : Pages} {chain : List ℕ} {added : List (Uint256 × ℕ)} {n p q : ℕ}
  {node : DirNode} {key : Uint256}

theorem indexesAt_update (m : ℕ) : indexesAt (Function.update pages n (some node)) m =
    if m = n then node.indexes else indexesAt pages m := by
  unfold indexesAt
  rw [update_apply]
  split <;> rfl

theorem flatMap_filter_of_nil {α β : Type} {f : α → List β} {keep : α → Bool} {l : List α}
    (h : ∀ a, keep a = false → f a = []) : (l.filter keep).flatMap f = l.flatMap f := by
  induction l with
  | nil => rfl
  | cons a l ih =>
    cases ha : keep a with
    | true => rw [filter_cons_of_pos ha, flatMap_cons, flatMap_cons, ih]
    | false => rw [filter_cons_of_neg (by simp [ha]), flatMap_cons, h a ha, ih, nil_append]

theorem map_fst_filter (added : List (Uint256 × ℕ)) (key : Uint256) :
    (added.filter (·.1 ≠ key)).map Prod.fst = (added.map Prod.fst).filter (· ≠ key) := by
  rw [filter_map]
  rfl

def PageOk (n : ℕ) (indexes : List Uint256) : Prop :=
  indexes.length ≤ dirNodeMaxEntries ∧ (n ≠ 0 → indexes ≠ []) ∧ indexes.Nodup

theorem pageOk_singleton (n : ℕ) (key : Uint256) : PageOk n [key] :=
  ⟨(by decide : 1 ≤ dirNodeMaxEntries), fun _ => cons_ne_nil _ _, nodup_singleton _⟩

theorem listing_of_pageOk (hchain : Chained pages chain) (hlimit : ∀ n ∈ chain, n < dirNodeMaxPages)
    (hok : ∀ n ∈ chain, PageOk n (indexesAt pages n)) (hlists : ∀ key n, (key, n) ∈ added ↔ key ∈ indexesAt pages n)
    (hkeys : (added.map Prod.fst).Nodup)
    (horder : ordered = true → chain.flatMap (indexesAt pages) = added.map Prod.fst) :
    Listing ordered pages chain added := by
  have hpage : ∀ n node, pages n = some node → PageOk n node.indexes := fun n node hn =>
    indexesAt_some hn ▸ hok n (hchain.mem hn)
  exact ⟨hchain, hlimit, fun n node hn => (hpage n node hn).1, fun n node hn => (hpage n node hn).2.1,
    fun n node hn => (hpage n node hn).2.2, hlists, hkeys, horder⟩

namespace Listing

variable (h : Listing ordered pages chain added)
include h

theorem pageOk (hn : n ∈ chain) : PageOk n (indexesAt pages n) := by
  obtain ⟨node, hnode⟩ := h.exists_of_mem hn
  rw [indexesAt_some hnode]
  exact ⟨h.size n node hnode, h.filled n node hnode, h.distinct n node hnode⟩

theorem page_unique {m : ℕ} (hn : key ∈ indexesAt pages n)
    (hm : key ∈ indexesAt pages m) : m = n := by
  have hpair := inj_on_of_nodup_map h.keys ((h.lists key m).2 hm) ((h.lists key n).2 hn) rfl
  exact (Prod.mk.inj hpair).2

theorem mem_keys :
    key ∈ added.map Prod.fst ↔ key ∈ chain.flatMap (indexesAt pages) := by
  rw [mem_flatMap, mem_map]
  constructor
  · rintro ⟨⟨k, n⟩, hmem, rfl⟩
    have hk := (h.lists k n).1 hmem
    refine ⟨n, ?_, hk⟩
    by_contra hn
    rw [indexesAt_none (h.none_of_not_mem hn)] at hk
    cases hk
  · rintro ⟨n, -, hk⟩
    exact ⟨(key, n), (h.lists key n).2 hk, rfl⟩

theorem nodup_flatMap :
    (chain.flatMap (indexesAt pages)).Nodup := by
  refine List.nodup_flatMap.2 ⟨fun n hn => (h.pageOk hn).2.2, h.increasing.imp fun hlt key hn hm => ?_⟩
  exact hlt.ne (h.page_unique hm hn)

theorem length_chain_le : chain.length ≤ dirNodeMaxPages := by
  have hnodup : chain.Nodup := h.increasing.imp fun hlt => hlt.ne
  have hsub : chain ⊆ List.range dirNodeMaxPages := fun n hn => mem_range.2 (h.limit n hn)
  simpa using (subperm_of_subset hnodup hsub).length_le

theorem update (hn : pages n = some node) {node' : DirNode}
    {added' : List (Uint256 × ℕ)} (hnext : node'.indexNext = node.indexNext)
    (hprev : node'.indexPrevious = node.indexPrevious) (hok : PageOk n node'.indexes)
    (hlists : ∀ key m, (key, m) ∈ added' ↔ key ∈ if m = n then node'.indexes else indexesAt pages m)
    (hkeys : (added'.map Prod.fst).Nodup)
    (horder : ordered = true →
      (chain.flatMap fun m => if m = n then node'.indexes else indexesAt pages m) = added'.map Prod.fst) :
    Listing ordered (Function.update pages n (some node')) chain added' := by
  refine listing_of_pageOk (h.toChained.update hn hnext hprev) h.limit (fun m hm => ?_) (fun key m => ?_) hkeys
    fun hord => ?_
  · rw [indexesAt_update]
    split
    · rename_i heq
      exact heq ▸ hok
    · exact h.pageOk hm
  · rw [hlists, indexesAt_update]
  · rw [← horder hord]
    exact flatMap_congr fun m _ => indexesAt_update m

theorem key_not_mem (hfresh : key ∉ added.map Prod.fst) :
    key ∉ indexesAt pages n := fun hmem =>
  hfresh (mem_map.2 ⟨(key, n), (h.lists key n).2 hmem, rfl⟩)

theorem keys_append (hfresh : key ∉ added.map Prod.fst) :
    ((added ++ [(key, n)]).map Prod.fst).Nodup := by
  rw [map_append]
  exact h.keys.append (nodup_singleton _) (by simpa using hfresh)

theorem grow (hlast : Follows chain p 0)
    (hp : pages p = some node) (hsize : node.indexes.length < dirNodeMaxEntries)
    (hfresh : key ∉ added.map Prod.fst) {indexes : List Uint256}
    (hperm : indexes.Perm (key :: node.indexes))
    (hord : ordered = true → indexes = node.indexes ++ [key]) :
    Listing ordered (Function.update pages p (some { node with indexes })) chain
      (added ++ [(key, p)]) := by
  have hat := indexesAt_some hp
  have hkey : key ∉ node.indexes := hat ▸ h.key_not_mem hfresh
  have hlength : indexes.length = node.indexes.length + 1 := by simpa using hperm.length_eq
  refine h.update hp rfl rfl ⟨hlength ▸ hsize, fun _ => ?_, ?_⟩ ?_ (h.keys_append hfresh) ?_
  · exact ne_nil_of_length_pos (hlength ▸ Nat.succ_pos _)
  · exact hperm.nodup_iff.2 (nodup_cons.2 ⟨hkey, h.distinct p node hp⟩)
  · intro k m
    rw [mem_append, h.lists k m, mem_singleton, Prod.mk.injEq]
    by_cases hm : m = p
    · rw [hm, if_pos rfl, hat, hperm.mem_iff, mem_cons]
      tauto
    · rw [if_neg hm]
      tauto
  · intro hordered
    obtain ⟨before, rfl⟩ := h.toChained.last hlast
    have hbefore : ∀ m ∈ before, m ≠ p := by
      intro m hm
      have := (pairwise_append.1 h.increasing).2.2 m hm p (by simp)
      omega
    have horder := h.order hordered
    rw [flatMap_append, flatMap_singleton, hat] at horder
    rw [flatMap_append, flatMap_singleton, if_pos rfl, map_append, ← horder,
      append_assoc, hord hordered]
    congr 1
    exact flatMap_congr fun m hm => if_neg (hbefore m hm)

theorem append (hlast : Follows chain p 0)
    (hq : ∀ x ∈ chain, x < q) (hlimit : q < dirNodeMaxPages) (hfresh : key ∉ added.map Prod.fst)
    {new : DirNode} (hnext : new.indexNext = 0) (hprev : new.indexPrevious = p)
    (hindexes : new.indexes = [key]) :
    Listing ordered (appended pages p q new) (chain ++ [q]) (added ++ [(key, q)]) := by
  have hnone : indexesAt pages q = [] :=
    indexesAt_none (h.none_of_not_mem fun hmem => (hq q hmem).false)
  refine listing_of_pageOk (h.toChained.append hlast hq hnext hprev) ?_ ?_ ?_ (h.keys_append hfresh) ?_
  · intro m hm
    obtain hm | hm := mem_append.1 hm
    · exact h.limit m hm
    · rw [mem_singleton.1 hm]
      exact hlimit
  · intro m hm
    rw [indexesAt_appended]
    split
    · exact hindexes ▸ pageOk_singleton m key
    · rename_i hne
      exact h.pageOk ((mem_append.1 hm).resolve_right fun hm => hne (mem_singleton.1 hm))
  · intro k m
    rw [mem_append, h.lists k m, mem_singleton, Prod.mk.injEq, indexesAt_appended]
    by_cases hm : m = q
    · rw [hm, if_pos rfl, hnone, hindexes, mem_singleton]
      simp
    · rw [if_neg hm]
      tauto
  · intro hordered
    rw [flatMap_append, flatMap_singleton, indexesAt_appended, if_pos rfl, hindexes,
      map_append, ← h.order hordered]
    congr 1
    refine flatMap_congr fun m hm => ?_
    rw [indexesAt_appended, if_neg (hq m hm).ne]

theorem erase_eq (hn : pages n = some node)
    (hkey : key ∈ node.indexes) (m : ℕ) :
    (if m = n then node.indexes.erase key else indexesAt pages m) =
      (indexesAt pages m).filter (· ≠ key) := by
  have hat := indexesAt_some hn
  split
  · rename_i hm
    rw [hm, hat, (h.distinct n node hn).erase_eq_filter]
    exact filter_congr fun k _ => (decide_not.trans (congrArg _ (beq_eq_decide k key).symm)).symm
  · rename_i hm
    have hother : key ∉ indexesAt pages m := fun hmem => hm (h.page_unique (hat ▸ hkey) hmem)
    refine (filter_eq_self.2 fun k hk => ?_).symm
    have hne : k ≠ key := fun heq => hother (heq ▸ hk)
    simpa using hne

theorem lists_erase (k : Uint256) (m : ℕ) :
    (k, m) ∈ added.filter (·.1 ≠ key) ↔ k ∈ (indexesAt pages m).filter (· ≠ key) := by
  simp only [mem_filter, h.lists k m]

theorem keys_erase :
    ((added.filter (·.1 ≠ key)).map Prod.fst).Nodup := by
  rw [map_fst_filter]
  exact h.keys.filter _

theorem order_erase (hord : ordered = true) :
    (chain.flatMap fun m => (indexesAt pages m).filter (· ≠ key)) =
      (added.filter (·.1 ≠ key)).map Prod.fst := by
  rw [map_fst_filter, ← h.order hord, filter_flatMap]

theorem shrink (hn : pages n = some node)
    (hkey : key ∈ node.indexes) (hfilled : n ≠ 0 → node.indexes.erase key ≠ []) :
    Listing ordered (Function.update pages n (some { node with indexes := node.indexes.erase key }))
      chain (added.filter (·.1 ≠ key)) := by
  have hok : PageOk n (node.indexes.erase key) :=
    ⟨length_erase_le.trans (h.size n node hn), hfilled, (h.distinct n node hn).erase _⟩
  refine h.update hn rfl rfl hok ?_ h.keys_erase ?_
  · intro k m
    rw [h.lists_erase, h.erase_eq hn hkey m]
  · intro hord
    rw [← h.order_erase hord]
    exact flatMap_congr fun m _ => h.erase_eq hn hkey m

theorem unlink (hn : pages n = some node) (hroot : n ≠ 0)
    (hkey : key ∈ node.indexes) (hempty : node.indexes.erase key = []) :
    Listing ordered (unlinked pages n node.indexPrevious node.indexNext) (chain.filter (· ≠ n))
      (added.filter (·.1 ≠ key)) := by
  have hat : ∀ m, indexesAt (unlinked pages n node.indexPrevious node.indexNext) m =
      (indexesAt pages m).filter (· ≠ key) := by
    intro m
    rw [indexesAt_unlinked, ← h.erase_eq hn hkey m, hempty]
  refine listing_of_pageOk (h.toChained.unlink hn hroot) ?_ ?_ ?_ h.keys_erase ?_
  · exact fun m hm => h.limit m (mem_filter.1 hm).1
  · intro m hm
    obtain ⟨hm, hne⟩ := mem_filter.1 hm
    rw [indexesAt_unlinked, if_neg (by simpa using hne)]
    exact h.pageOk hm
  · intro k m
    rw [h.lists_erase, hat]
  · intro hord
    rw [← h.order_erase hord, flatMap_filter_of_nil]
    · exact flatMap_congr fun m _ => hat m
    · intro m hm
      rw [indexesAt_unlinked, if_pos (by simpa using hm)]

theorem drop (hroot : pages 0 = some node)
    (hempty : node.indexes = []) (hnext : node.indexNext = 0) :
    Lists ordered (Function.update pages 0 none) added := by
  have hlast : ∀ x ∈ chain, x ≤ 0 := by
    have hfol := h.next 0 node hroot
    rw [hnext] at hfol
    exact hfol.last
  have hnone : ∀ m, m ≠ 0 → pages m = none := fun m hm =>
    h.none_of_not_mem fun hmem => hm (Nat.le_zero.1 (hlast m hmem))
  refine .inl ⟨fun m => ?_, eq_nil_iff_forall_not_mem.2 ?_⟩
  · rw [update_apply]
    split
    · rfl
    · rename_i hm
      exact hnone m hm
  · rintro ⟨k, m⟩ hmem
    rw [h.lists] at hmem
    by_cases hm : m = 0
    · rw [hm, indexesAt_some hroot, hempty] at hmem
      cases hmem
    · rw [indexesAt_none (hnone m hm)] at hmem
      cases hmem

end Listing

theorem listing_root (hindexes : node.indexes = [key]) (hnext : node.indexNext = 0)
    (hprev : node.indexPrevious = 0) (hnone : ∀ n, pages n = none) :
    Listing ordered (Function.update pages 0 (some node)) [0] [(key, 0)] := by
  have hpage : ∀ m node', Function.update pages 0 (some node) m = some node' → m = 0 ∧ node' = node :=
    fun m node' hm => (update_eq_some hm).resolve_right (by simp [hnone m])
  have hat : ∀ m, indexesAt (Function.update pages 0 (some node)) m = if m = 0 then [key] else [] := by
    intro m
    rw [indexesAt_update, hindexes, indexesAt_none (hnone m)]
  refine listing_of_pageOk ⟨by simp, pairwise_singleton _ _, ?_, ?_, ?_⟩ ?_ ?_ ?_ (nodup_singleton _) ?_
  · intro m
    rw [update_apply]
    split
    · rename_i hm; simp [hm]
    · rename_i hm; simp [hm, hnone m]
  · intro m node' hm
    obtain ⟨rfl, rfl⟩ := hpage m node' hm
    rw [hnext]
    exact follows_singleton
  · intro m node' hm
    obtain ⟨rfl, rfl⟩ := hpage m node' hm
    rw [hprev]
    exact follows_singleton
  · intro m hm
    rw [mem_singleton.1 hm]
    decide
  · intro m hm
    rw [hat, if_pos (mem_singleton.1 hm)]
    exact pageOk_singleton m key
  · intro k m
    rw [hat, mem_singleton, Prod.mk.injEq]
    split
    · rename_i hm; simp [hm]
    · rename_i hm; simp [hm]
  · intro _
    rw [flatMap_singleton, hat]
    rfl

end Contents

/-! ## The functions -/

theorem addIndex_fresh {indexes : List Uint256} {key : Uint256} (h : key ∉ indexes)
    (preserveOrder : Bool) : ∃ l, addIndex preserveOrder indexes key = some l ∧
      l.Perm (key :: indexes) ∧ (preserveOrder = true → l = indexes ++ [key]) := by
  cases preserveOrder with
  | true =>
    refine ⟨indexes ++ [key], ?_, perm_append_singleton key indexes, fun _ => rfl⟩
    rw [addIndex, if_pos rfl, if_neg h]
  | false =>
    have hperm : (indexes.insertionSort (· ≤ ·)).Perm indexes := perm_insertionSort _ _
    set sorted := indexes.insertionSort (· ≤ ·) with hsorted
    have hpos : (sorted.dropWhile (· < key)).head? ≠ some key := by
      intro hhead
      have hmem := mem_of_mem_head? hhead
      exact h (hperm.mem_iff.1 ((dropWhile_sublist _).subset hmem))
    refine ⟨sorted.takeWhile (· < key) ++ key :: sorted.dropWhile (· < key), ?_, ?_, by simp⟩
    · simp only [addIndex, ← hsorted]
      rw [if_neg (by decide), if_neg hpos]
    · refine perm_middle.trans (List.Perm.cons _ ?_)
      rw [takeWhile_append_dropWhile]
      exact hperm

variable {pages : Pages} {node : DirNode} {p q : ℕ} {directory : Directory} {ordered : Bool}

theorem update_relinked {a b n : ℕ} {next : DirNode} {new : Option DirNode}
    (hp : pages p = some node)
    (hq : Function.update pages p (some { node with indexNext := a }) q = some next) :
    Function.update (Function.update (Function.update pages p (some { node with indexNext := a })) q
      (some { next with indexPrevious := b })) n new = fun m => if m = n then new else
        (pages m).map fun node => { node with
          indexNext := if m = p then a else node.indexNext
          indexPrevious := if m = q then b else node.indexPrevious } := by
  funext m
  by_cases hmn : m = n
  · rw [if_pos hmn, hmn, update_self]
  · rw [if_neg hmn, update_of_ne hmn]
    by_cases hmq : m = q
    · rw [hmq, update_self]
      by_cases hqp : q = p
      · rw [hqp, update_self] at hq
        cases hq
        simp [hqp, hp]
      · rw [update_of_ne hqp] at hq
        simp [hq, hqp]
    · rw [update_of_ne hmq]
      by_cases hmp : m = p
      · rw [hmp, update_self, hp]
        simp [hmp ▸ hmq]
      · rw [update_of_ne hmp]
        cases pages m <;> simp [hmq, hmp]

theorem unlinked_update {n : ℕ} {new : Option DirNode} :
    unlinked (Function.update pages n new) n p q = unlinked pages n p q := by
  funext m
  unfold unlinked
  split
  · rfl
  · rename_i hm
    rw [update_of_ne hm]

theorem exists_update {new : DirNode} (hp : pages p = some node) :
    ∃ node', Function.update pages q (some new) p = some node' := by
  rw [update_apply]
  split
  · exact ⟨new, rfl⟩
  · exact ⟨node, hp⟩

section Specs

variable {R : Type} {P : R → ApplyView → Prop} {v₀ v : ApplyView} {directory : Directory}
  {key : Uint256} {pages : Pages} {held : Set ℕ} {ordered : Bool} {chain : List ℕ} {added : List (Uint256 × ℕ)}
  {node root : DirNode}

theorem wp_peekLast {E : Fault → Prop} {Q : DirNode → ApplyView → Prop} (h : Chained pages chain)
    (hroot : pages 0 = some root) (hs : Shows v₀ directory pages held v) (hheld : 0 ∈ held)
    (hQ : ∀ node v', pages root.indexPrevious = some node →
      Shows v₀ directory pages (insert root.indexPrevious held) v' → Q node v') :
    wp (peekLast directory root) E P Q v := by
  obtain ⟨node, hnode⟩ := h.exists_of_mem (h.prev 0 root hroot).1
  unfold peekLast
  refine wp_ite (fun hzero => ?_) fun hpage => ?_
  · refine wp_pure.2 (hQ root v (by rw [hzero, hroot]) (hs.mono ?_))
    rw [hzero]
    exact Set.insert_subset hheld subset_rfl
  · rw [wp_bind]
    exact wp_peekPage_some hs hnode fun v' hs' => wp_expect_some.2 (hQ node v' hnode hs')

theorem wp_dirAdd (hdir : directory.NoCollision) (hv : ShowsPages v directory pages)
    (hl : Lists ordered pages added) (hfresh : key ∉ added.map Prod.fst) {preserveOrder : Bool}
    (hord : ordered = true → preserveOrder = true) (describe : Describer) :
    wp (dirAdd directory preserveOrder key describe) (fun _ => False) P
      (fun r v' => ∃ pages', Shows v directory pages' ∅ v' ∧ (r = none ↔ Full pages) ∧
        (r = none → pages' = pages) ∧
        ∀ n, r = some n → Lists ordered pages' (added ++ [(key, n)])) v := by
  simp only [dirAdd, wp_bind]
  refine wp_peekPage (Shows.start hdir hv) (by decide) (fun root v₁ hroot hs => ?_)
    fun v₁ hroot hs => ?_
  · obtain ⟨hnone, -⟩ | ⟨chain, h⟩ := hl
    · rw [hnone 0] at hroot
      cases hroot
    have hlast := h.prev 0 root hroot
    have hlt := h.limit _ hlast.1
    rw [wp_bind]
    refine wp_peekLast h.toChained hroot hs (by simp) fun node v₂ hnode hs => ?_
    have hkey : key ∉ node.indexes := indexesAt_some hnode ▸ h.key_not_mem hfresh
    have hnext : (root.indexPrevious + 1) % 2 ^ 64 = root.indexPrevious + 1 :=
      Nat.mod_eq_of_lt (by simp only [dirNodeMaxPages] at hlt; omega)
    have hfull := full_iff hroot hnode
    simp only [hnext]
    refine wp_ite (fun hsize => ?_) fun hsize => wp_ite (fun hpages => ?_) fun hpages => ?_
    · -- there is room on the last page
      obtain ⟨indexes, hadd, hperm, hpush⟩ := addIndex_fresh hkey preserveOrder
      simp only [hadd, wp_bind, wp_expect_some]
      refine wp_updatePage hs (by simp) fun v₃ hs => ?_
      refine wp_pure.2 ⟨_, hs.release, ?_, by simp, fun n hn => ?_⟩
      · rw [hfull]
        simp [hsize]
      cases hn
      exact .inr ⟨chain, h.grow hlast hnode hsize hfresh hperm fun ho => hpush (hord ho)⟩
    · exact wp_pure.2 ⟨pages, hs.release, iff_of_true rfl (hfull.2 ⟨not_lt.1 hsize, hpages⟩),
        fun _ => rfl, by simp⟩
    · -- a new page
      have hbehind : ∀ x ∈ chain, x < root.indexPrevious + 1 := fun x hx =>
        Nat.lt_succ_of_le (hlast.last x hx)
      simp only [wp_bind]
      refine wp_updatePage hs (by simp) fun v₃ hs => ?_
      obtain ⟨root', hroot'⟩ := exists_update hroot
      refine wp_loadPage hs (by simp) hroot' ?_
      refine wp_updatePage hs (by simp) fun v₄ hs => ?_
      have hfree : pages (root.indexPrevious + 1) = none :=
        h.none_of_not_mem fun hmem => (hbehind _ hmem).false
      have hpage : root.indexPrevious + 1 < 2 ^ 64 := by
        simp only [dirNodeMaxPages] at hlt
        omega
      refine wp_insertPage hs hpage ?_ fun v₅ hs => ?_
      · rw [update_of_ne (by omega), update_of_ne (by omega), hfree]
      rw [update_relinked hnode hroot'] at hs
      refine wp_pure.2 ⟨appended _ _ _ _, hs.release, ?_, by simp, fun n hn => ?_⟩
      · rw [hfull]
        simp [hpages]
      cases hn
      refine .inr ⟨_, h.append hlast hbehind (not_le.1 hpages) hfresh ?_ ?_ ?_⟩
      · rw [describe.indexNext]
      · rw [describe.indexPrevious]
        simp only [ne_eq, ite_not]
        split <;> omega
      · rw [describe.indexes]
  · -- there is no directory yet
    have hnone : (∀ n, pages n = none) ∧ added = [] := by
      obtain hnone | ⟨chain, h⟩ := hl
      · exact hnone
      · obtain ⟨root, hsome⟩ := h.exists_of_mem h.root
        rw [hroot] at hsome
        cases hsome
    obtain ⟨hnone, rfl⟩ := hnone
    simp only [wp_bind]
    refine wp_insertPage hs (by decide) hroot fun v₂ hs => ?_
    refine wp_pure.2 ⟨_, hs.release, ?_, by simp, fun n hn => ?_⟩
    · refine iff_of_false (by simp) ?_
      rintro ⟨root, -, hsome, -⟩
      cases (hnone 0).symm.trans hsome
    cases hn
    exact .inr ⟨[0], listing_root rfl (describe.indexNext _) (describe.indexPrevious _) hnone⟩

theorem wp_removeRoot (hc : Coherent v₀) (h : Listing ordered pages chain added)
    (hroot : pages 0 = some node) (hempty : node.indexes = []) (keepRoot : Bool)
    (hs : Shows v₀ directory pages held v) (hheld : 0 ∈ held) :
    wp (removeRoot directory keepRoot node) (fun _ => False) P
      (fun r v' => ∃ pages', Shows v₀ directory pages' ∅ v' ∧ r = true ∧ Lists ordered pages' added) v := by
  have hnext := h.next 0 node hroot
  have hprev := h.prev 0 node hroot
  have hstay : Lists ordered pages added := .inr ⟨chain, h⟩
  -- the root is the last page in both directions or in none
  have hiff : node.indexNext = 0 ↔ node.indexPrevious = 0 := by
    constructor
    · intro heq
      rw [heq] at hnext
      exact hprev.left_unique hnext
    · intro heq
      rw [heq] at hprev
      exact hnext.right_unique hprev
  unfold removeRoot
  refine wp_ite (fun hbad => absurd (hiff.1 hbad.1) hbad.2) fun _ => ?_
  refine wp_ite (fun hbad => absurd (hiff.2 hbad.1) hbad.2) fun _ => ?_
  rw [wp_bind]
  -- no page but the root is empty, so the last one stays
  have hdrop : wp (dropLastPage directory node) (fun _ => False) P
      (fun links v' => links = (node.indexNext, node.indexPrevious) ∧
        ∃ held', 0 ∈ held' ∧ Shows v₀ directory pages held' v') v := by
    unfold dropLastPage
    refine wp_ite (fun hone => ?_) fun _ => wp_pure.2 ⟨rfl, held, hheld, hs⟩
    rw [wp_bind]
    obtain ⟨last, hlast⟩ := h.exists_of_mem hnext.2.1
    refine wp_peekPage_some hs hlast fun v₁ hs => ?_
    rw [wp_bind, wp_expect_some]
    refine wp_ite (fun hbad => absurd hbad (h.filled _ last hlast hone.2)) fun _ => ?_
    exact wp_pure.2 ⟨rfl, _, by simp [hheld], hs⟩
  refine wp_post hdrop ?_
  rintro _ v₁ ⟨rfl, held', hheld', hs⟩
  refine wp_ite (fun _ => ?_) fun _ => wp_ite (fun hlinks => ?_) fun _ => ?_
  · exact wp_pure.2 ⟨pages, hs.release, rfl, hstay⟩
  · rw [wp_bind]
    refine wp_erasePage hc hs hheld' fun v₂ hs => ?_
    exact wp_pure.2 ⟨_, hs.release, rfl, h.drop hroot hempty hlinks.1⟩
  · exact wp_pure.2 ⟨pages, hs.release, rfl, hstay⟩

theorem wp_removePage (hc : Coherent v₀) (h : Listing ordered pages chain added) {page : ℕ}
    (hpage : pages page = some node) (hne : page ≠ 0) (hkey : key ∈ node.indexes)
    (hempty : node.indexes.erase key = []) (keepRoot : Bool) {node' : DirNode}
    (hnext' : node'.indexNext = node.indexNext) (hprev' : node'.indexPrevious = node.indexPrevious)
    (hs : Shows v₀ directory (Function.update pages page (some node')) held v) (hheld : page ∈ held) :
    wp (removePage directory page keepRoot node') (fun _ => False) P
      (fun r v' => ∃ pages', Shows v₀ directory pages' ∅ v' ∧ r = true ∧
        Lists ordered pages' (added.filter (·.1 ≠ key))) v := by
  have hnext := h.next page node hpage
  have hprev := h.prev page node hpage
  have hnextne := hnext.ne hne
  have hprevne := (hprev.lt hne).ne
  obtain ⟨prev, hp⟩ := h.exists_of_mem hprev.1
  obtain ⟨next, hn⟩ := h.exists_of_mem hnext.2.1
  rw [← update_of_ne hprevne (some node') pages] at hp
  rw [← update_of_ne hnextne (some node') pages] at hn
  obtain ⟨next, hn⟩ := exists_update hn
  have hl := h.unlink hpage hne hkey hempty
  simp only [removePage, hnext', hprev']
  refine wp_ite (fun hbad => absurd hbad hnextne) fun _ => ?_
  refine wp_ite (fun hbad => absurd hbad hprevne) fun _ => ?_
  simp only [wp_bind]
  refine wp_peekPage_some hs hp fun v₁ hs => ?_
  rw [wp_expect_some]
  refine wp_updatePage hs (by simp) fun v₂ hs => ?_
  refine wp_peekPage_some hs hn fun v₃ hs => ?_
  rw [wp_expect_some]
  refine wp_updatePage hs (by simp) fun v₄ hs => ?_
  refine wp_erasePage hc hs (by simp [hheld]) fun v₅ hs => ?_
  rw [update_relinked hp hn] at hs
  change Shows _ _ (unlinked _ page _ _) _ _ at hs
  rw [unlinked_update] at hs
  -- the page behind, if it is not the root, has keys and stays
  have hdrop : wp (dropNextPage directory node.indexPrevious node.indexNext) (fun _ => False) P
      (fun r v' => r = node.indexNext ∧ v' = v₅) v₅ := by
    unfold dropNextPage
    refine wp_ite (fun hzero => wp_pure.2 ⟨hzero.symm, rfl⟩) fun hn0 => ?_
    rw [wp_bind]
    obtain ⟨after, hafter⟩ := hl.exists_of_mem (n := node.indexNext) (by simp [hnext.2.1, hnextne])
    refine wp_loadPage hs (by simp [hnextne]) hafter ?_
    refine wp_ite (fun hbad => absurd hbad.2 (hl.filled _ after hafter hn0)) fun _ => ?_
    exact wp_pure.2 ⟨rfl, rfl⟩
  refine wp_post hdrop ?_
  rintro _ _ ⟨rfl, rfl⟩
  have hstay : Lists ordered (unlinked pages page node.indexPrevious node.indexNext)
      (added.filter (·.1 ≠ key)) := .inr ⟨_, hl⟩
  refine wp_ite (fun hlone => ?_) fun _ => ?_
  · obtain ⟨-, hn0, hp0⟩ := hlone
    obtain ⟨root, hroot⟩ := hl.exists_of_mem hl.root
    simp only [hp0, wp_bind]
    rw [hp0] at hs hroot hstay
    rw [hp0] at hl
    refine wp_loadPage hs (by simp [hne.symm]) hroot ?_
    refine wp_ite (fun hnil => ?_) fun _ => ?_
    · rw [wp_bind]
      refine wp_erasePage hc hs (by simp [hne.symm]) fun v₆ hs => ?_
      refine wp_pure.2 ⟨_, hs.release, rfl, hl.drop hroot hnil ?_⟩
      obtain ⟨-, old, -, hlink, -⟩ := unlinked_eq_some hroot
      rw [hlink, if_pos rfl, hn0]
    · exact wp_pure.2 ⟨_, hs.release, rfl, hstay⟩
  · exact wp_pure.2 ⟨_, hs.release, rfl, hstay⟩

theorem wp_dirRemove (hdir : directory.NoCollision) (hc : Coherent v)
    (hv : ShowsPages v directory pages) (hl : Lists ordered pages added) {page : ℕ}
    (hlt : page < 2 ^ 64) (key : Uint256) (keepRoot : Bool) :
    wp (dirRemove directory page key keepRoot) (fun _ => False) P
      (fun r v' => ∃ pages', Shows v directory pages' ∅ v' ∧ (r = true ↔ (key, page) ∈ added) ∧
        ((key, page) ∈ added → Lists ordered pages' (added.filter (·.1 ≠ key))) ∧
        ((key, page) ∉ added → pages' = pages)) v := by
  have hmem : (key, page) ∈ added ↔ key ∈ indexesAt pages page := by
    obtain ⟨hnone, rfl⟩ | ⟨chain, h⟩ := hl
    · simp [indexesAt_none (hnone page)]
    · exact h.lists key page
  simp only [dirRemove, wp_bind]
  refine wp_peekPage (Shows.start hdir hv) hlt (fun node v₁ hpage hs => ?_) fun v₁ hnone hs => ?_
  · rw [indexesAt_some hpage] at hmem
    refine wp_ite (fun hkey => ?_) fun hkey => ?_
    · have hin := hmem.2 hkey
      obtain ⟨hnone, -⟩ | ⟨chain, h⟩ := hl
      · rw [hnone page] at hpage
        cases hpage
      rw [wp_bind]
      refine wp_updatePage hs (by simp) fun v₂ hs => ?_
      refine wp_ite (fun hne => ?_) fun hnil => ?_
      · exact wp_pure.2 ⟨_, hs.release, by simp [hin],
          fun _ => .inr ⟨chain, h.shrink hpage hkey fun _ => hne⟩, fun hout => absurd hin hout⟩
      have hnil := not_not.1 hnil
      have hdone : ∀ (r : Bool) (v' : ApplyView), (∃ pages', Shows v directory pages' ∅ v' ∧ r = true ∧
          Lists ordered pages' (added.filter (·.1 ≠ key))) →
          ∃ pages', Shows v directory pages' ∅ v' ∧ (r = true ↔ (key, page) ∈ added) ∧
            ((key, page) ∈ added → Lists ordered pages' (added.filter (·.1 ≠ key))) ∧
            ((key, page) ∉ added → pages' = pages) := by
        rintro r v' ⟨pages', hs, hr, hlists⟩
        exact ⟨pages', hs, by simp [hr, hin], fun _ => hlists, fun hout => absurd hin hout⟩
      refine wp_ite (fun hzero => ?_) fun hne => ?_
      · subst hzero
        have hshrunk := h.shrink hpage hkey fun hbad => absurd rfl hbad
        exact wp_post (wp_removeRoot hc hshrunk (update_self ..) hnil keepRoot hs (by simp)) hdone
      · exact wp_post (wp_removePage hc h hpage hne hkey hnil keepRoot rfl rfl hs (by simp)) hdone
    · have hout := mt hmem.1 hkey
      exact wp_pure.2 ⟨pages, hs.release, by simp [hout],
        fun hin => absurd hin hout, fun _ => rfl⟩
  · rw [indexesAt_none hnone] at hmem
    have hout := mt hmem.1 not_mem_nil
    exact wp_pure.2 ⟨pages, hs, by simp [hout], fun hin => absurd hin hout, fun _ => rfl⟩

end Specs

/-! ## Runs -/

/-- The views that calls on a directory lead to, with the keys that are in it. Between the calls the
view may be changed elsewhere and written to its base. With `ordered`, keys are added in order. -/
inductive Reaches (ordered : Bool) (directory : Directory) :
    ApplyView → List (Uint256 × ℕ) → Prop where
  | start {v} (hc : Coherent v)
      (hnone : ∀ n < 2 ^ 64, v.entryAt (getDirNodeIndex directory n) = none) :
      Reaches ordered directory v []
  | add {v v' added key preserveOrder describe page} (hv : Reaches ordered directory v added)
      (hfresh : key ∉ added.map Prod.fst) (hord : ordered = true → preserveOrder = true)
      (h : result (dirAdd directory preserveOrder key describe) v = .ok (some page, v')) :
      Reaches ordered directory v' (added ++ [(key, page)])
  | full {v v' added key preserveOrder describe} (hv : Reaches ordered directory v added)
      (hfresh : key ∉ added.map Prod.fst) (hord : ordered = true → preserveOrder = true)
      (h : result (dirAdd directory preserveOrder key describe) v = .ok (none, v')) :
      Reaches ordered directory v' added
  | remove {v v' added key page keepRoot r} (hv : Reaches ordered directory v added)
      (hmem : (key, page) ∈ added)
      (h : result (dirRemove directory page key keepRoot) v = .ok (r, v')) :
      Reaches ordered directory v' (added.filter (·.1 ≠ key))
  | miss {v v' added key page keepRoot r} (hv : Reaches ordered directory v added)
      (hlt : page < 2 ^ 64) (hmem : (key, page) ∉ added)
      (h : result (dirRemove directory page key keepRoot) v = .ok (r, v')) :
      Reaches ordered directory v' added
  | other {v v' added} (hv : Reaches ordered directory v added) (hc : Coherent v')
      (h : ∀ n < 2 ^ 64,
        v'.entryAt (getDirNodeIndex directory n) = v.entryAt (getDirNodeIndex directory n)) :
      Reaches ordered directory v' added

theorem Shows.unchanged {v v' : ApplyView} (h : Shows v directory pages ∅ v')
    (hv : ShowsPages v directory pages) (k : Uint256) : v'.entryAt k = v.entryAt k := by
  by_cases hk : ∃ n < 2 ^ 64, k = getDirNodeIndex directory n
  · obtain ⟨n, hn, rfl⟩ := hk
    rw [h.pages.entryAt n hn, hv.entryAt n hn]
  · exact h.within.frame k fun n hn heq => hk ⟨n, hn, heq⟩

theorem Lists.page_lt {added : List (Uint256 × ℕ)} {key : Uint256} {page : ℕ}
    (h : Lists ordered pages added) (hmem : (key, page) ∈ added) : page < 2 ^ 64 := by
  obtain ⟨-, rfl⟩ | ⟨chain, h⟩ := h
  · cases hmem
  · have hpage : page ∈ chain := by
      by_contra hnot
      have hkey := (h.lists key page).1 hmem
      rw [indexesAt_none (h.none_of_not_mem hnot)] at hkey
      cases hkey
    have := h.limit page hpage
    simp only [dirNodeMaxPages] at this
    omega

theorem Reaches.lists {v : ApplyView} {added : List (Uint256 × ℕ)} (hdir : directory.NoCollision)
    (h : Reaches ordered directory v added) :
    Coherent v ∧ ∃ pages, ShowsPages v directory pages ∧ Lists ordered pages added := by
  induction h with
  | start hc hnone =>
    exact ⟨hc, fun _ => none, ⟨fun n hn => hnone n hn, nofun⟩, .inl ⟨fun _ => rfl, rfl⟩⟩
  | @add _ _ _ _ _ describe page _ hfresh hord h ih =>
    obtain ⟨hc, pages, hv, hl⟩ := ih
    obtain ⟨pages', hs, -, -, hadded⟩ :=
      result_ok_of_wp (wp_dirAdd hdir hv hl hfresh hord describe) h
    exact ⟨hs.within.steps.coherent hc, pages', hs.pages, hadded page rfl⟩
  | @full _ _ _ _ _ describe _ hfresh hord h ih =>
    obtain ⟨hc, pages, hv, hl⟩ := ih
    obtain ⟨pages', hs, -, hsame, -⟩ :=
      result_ok_of_wp (wp_dirAdd hdir hv hl hfresh hord describe) h
    exact ⟨hs.within.steps.coherent hc, pages', hs.pages, hsame rfl ▸ hl⟩
  | remove _ hmem h ih =>
    obtain ⟨hc, pages, hv, hl⟩ := ih
    obtain ⟨pages', hs, -, hremoved, -⟩ :=
      result_ok_of_wp (wp_dirRemove hdir hc hv hl (hl.page_lt hmem) _ _) h
    exact ⟨hs.within.steps.coherent hc, pages', hs.pages, hremoved hmem⟩
  | miss _ hlt hmem h ih =>
    obtain ⟨hc, pages, hv, hl⟩ := ih
    obtain ⟨pages', hs, -, -, hsame⟩ := result_ok_of_wp (wp_dirRemove hdir hc hv hl hlt _ _) h
    exact ⟨hs.within.steps.coherent hc, pages', hs.pages, hsame hmem ▸ hl⟩
  | other _ hc h ih =>
    obtain ⟨-, pages, hv, hl⟩ := ih
    exact ⟨hc, pages, ⟨fun n hn => (h n hn).trans (hv.entryAt n hn), hv.bounded⟩, hl⟩

/-- Over any calls the pages stay one chain that lists the keys where they were put, and the next
call comes to a result. A new key is refused just when the last page is full and is the last one
allowed. -/
theorem directory_invariant {directory : Directory} {v : ApplyView} {added : List (Uint256 × ℕ)}
    (hdir : directory.NoCollision) (h : Reaches false directory v added) :
    ∃ pages, ShowsPages v directory pages ∧ Lists false pages added ∧
      (∀ preserveOrder key describe, key ∉ added.map Prod.fst → ∃ r v',
        result (dirAdd directory preserveOrder key describe) v = .ok (r, v') ∧
          (r = none ↔ Full pages) ∧ (r = none → ∀ k, v'.entryAt k = v.entryAt k)) ∧
      ∀ page < 2 ^ 64, ∀ key keepRoot, ∃ r v',
        result (dirRemove directory page key keepRoot) v = .ok (r, v') ∧
          (r = true ↔ (key, page) ∈ added) ∧ (r = false → ∀ k, v'.entryAt k = v.entryAt k) := by
  obtain ⟨hc, pages, hv, hl⟩ := h.lists hdir
  refine ⟨pages, hv, hl, fun preserveOrder key describe hfresh => ?_, fun page hlt key keepRoot => ?_⟩
  · have hord : false = true → preserveOrder = true := by simp
    obtain ⟨r, v', hrun, pages', hs, hfull, hsame, -⟩ :=
      Proc.result_of_wp (wp_dirAdd hdir hv hl hfresh hord describe)
    refine ⟨r, v', hrun, hfull, fun hr => ?_⟩
    rw [hsame hr] at hs
    exact hs.unchanged hv
  · obtain ⟨r, v', hrun, pages', hs, hr, -, hsame⟩ :=
      Proc.result_of_wp (wp_dirRemove hdir hc hv hl hlt key keepRoot)
    refine ⟨r, v', hrun, hr, fun hfalse => ?_⟩
    rw [hsame (mt hr.2 (by simp [hfalse]))] at hs
    exact hs.unchanged hv

inductive DirCall where
  | add (key : Uint256)
  | remove (key : Uint256) (page : ℕ)

def DirCall.run (directory : Directory) (s : ApplyView × List (Uint256 × ℕ)) :
    DirCall → Option (ApplyView × List (Uint256 × ℕ))
  | .add key =>
    if key ∈ s.2.map Prod.fst then none
    else
      match result (dirAdd directory true key (describeOwnerDir 0)) s.1 with
      | .ok (some page, v') => some (v', s.2 ++ [(key, page)])
      | _ => none
  | .remove key page =>
    if (key, page) ∈ s.2 then
      match result (dirRemove directory page key true) s.1 with
      | .ok (_, v') => some (v', s.2.filter (·.1 ≠ key))
      | .error _ => none
    else none

def runCalls (directory : Directory) : List DirCall → ApplyView × List (Uint256 × ℕ) →
    Option (ApplyView × List (Uint256 × ℕ))
  | [], s => some s
  | call :: calls, s => (call.run directory s).bind (runCalls directory calls)

theorem reaches_runCalls {calls : List DirCall} {v : ApplyView} {added : List (Uint256 × ℕ)}
    {s : ApplyView × List (Uint256 × ℕ)} (h : Reaches ordered directory v added)
    (hrun : runCalls directory calls (v, added) = some s) : Reaches ordered directory s.1 s.2 := by
  induction calls generalizing v added with
  | nil =>
    cases hrun
    exact h
  | cons call calls ih =>
    obtain ⟨s₁, hcall, hrun⟩ := Option.bind_eq_some_iff.1 hrun
    refine ih ?_ hrun
    cases call with
    | add key =>
      simp only [DirCall.run] at hcall
      split at hcall
      · cases hcall
      · rename_i hfresh
        split at hcall
        · rename_i hadd
          cases hcall
          exact .add h hfresh (fun _ => rfl) hadd
        · cases hcall
    | remove key page =>
      simp only [DirCall.run] at hcall
      split at hcall
      · rename_i hmem
        split at hcall
        · rename_i hremove
          cases hcall
          exact .remove h hmem hremove
        · cases hcall
      · cases hcall

/-! A directory of two pages: 34 keys in falling order, one of which is removed again. -/

def spreadPages (key : ℕ) : Directory := ⟨key, fun n => key + n * 2 ^ 65⟩

theorem noCollision_spreadPages (key : ℕ) : (spreadPages key).NoCollision where
  root n _ hn heq := by
    have heq : key + n * 2 ^ 65 = key := heq
    omega
  pages m _ n _ _ _ heq := by
    have heq : key + m * 2 ^ 65 = key + n * 2 ^ 65 := heq
    omega

theorem reaches_empty (ordered : Bool) (directory : Directory) :
    Reaches ordered directory { base := {} } [] :=
  .start (coherent_fresh _) fun _ _ => rfl

def twoPagesCalls : List DirCall := (List.range 34).map (fun i => .add (40 - i)) ++ [.remove 30 0]

def twoPages : ApplyView × List (Uint256 × ℕ) :=
  (runCalls (spreadPages 7) twoPagesCalls ({ base := {} }, [])).getD ({ base := {} }, [])

theorem reaches_twoPages (ordered : Bool) :
    Reaches ordered (spreadPages 7) twoPages.1 twoPages.2 := by
  have hsome : (runCalls (spreadPages 7) twoPagesCalls ({ base := {} }, [])).isSome = true := by
    decide +kernel
  obtain ⟨s, hs⟩ := Option.isSome_iff_exists.1 hsome
  refine reaches_runCalls (reaches_empty ordered _) (hs.trans ?_)
  rw [twoPages, hs, Option.getD_some]

theorem directory_invariant_twoPages : twoPages.2.length = 33 ∧
    (∃ pages, ShowsPages twoPages.1 (spreadPages 7) pages ∧ Lists false pages twoPages.2) ∧
    ∃ v', result (dirRemove (spreadPages 7) 1 8 false) twoPages.1 = .ok (true, v') := by
  obtain ⟨pages, hv, hl, -, hremove⟩ :=
    directory_invariant (noCollision_spreadPages 7) (reaches_twoPages false)
  obtain ⟨r, v', hrun, hr, -⟩ := hremove 1 (by decide) 8 false
  have hon : (8, 1) ∈ twoPages.2 := by decide +kernel
  rw [hr.2 hon] at hrun
  exact ⟨by decide +kernel, ⟨pages, hv, hl⟩, v', hrun⟩

end Ripple.Ledger
