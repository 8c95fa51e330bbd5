import Ripple.Ledger.DirectoryRuns

/-!
# Ripple.Ledger.DirectoryWalk

The ways to go through a directory: `cdirFirst` and `cdirNext`, `dirFirst` and `dirNext`,
`forEachItem` and `forEachItemAfter` of `ledger/impl/View.cpp`, and the iterator of
`ledger/impl/Directory.cpp`.

A view is read through the pages it shows. The walks follow links until they come to an end, so they
are given fuel; `none` is the answer when it runs out and when an `assert` fails.
-/

namespace Ripple.Ledger

open Protocol ApplyView PageChain List

/-- The pages that a view shows. A page number has 64 bits. -/
def ApplyView.pageAt (v : ApplyView) (directory : Directory) : Pages := fun page =>
  if page < 2 ^ 64 then
    (v.readAs .ltDIR_NODE (getDirNodeIndex directory page)).bind Entry.dirNode?
  else none

theorem ShowsPages.pageAt {v : ApplyView} {directory : Directory} {pages : Pages}
    (h : ShowsPages v directory pages) : v.pageAt directory = pages := by
  funext n
  rw [ApplyView.pageAt]
  split
  · rename_i hn
    rw [h.readAs hn, dirNode?_map]
  · rename_i hn
    cases hpage : pages n with
    | none => rfl
    | some node => exact absurd (h.bounded n node hpage) hn

/-! ## First and next -/

structure DirCursor where
  sleNode : DirNode
  uDirEntry : ℕ := 0
  uEntryIndex : Uint256

section Functions

variable {m : Type → Type} [Monad m] (read : ℕ → m (Option DirNode))

/-- `cdirNext` and `dirNext`, which read a page with `read` and with `peek`. -/
def nextEntry : ℕ → DirCursor → m (Option (Bool × DirCursor))
  | 0, _ => pure none
  | fuel + 1, c =>
    match c.sleNode.indexes[c.uDirEntry]? with
    | some key => pure (some (true, { c with uDirEntry := c.uDirEntry + 1, uEntryIndex := key }))
    | none =>
      if c.sleNode.indexNext = 0 then pure (some (false, { c with uEntryIndex := 0 }))
      else do
        match ← read c.sleNode.indexNext with
        | none => pure (some (false, { c with uDirEntry := 0 }))
        | some sleNext => nextEntry fuel { c with sleNode := sleNext, uDirEntry := 0 }

/-- `cdirFirst` and `dirFirst`: never to be called where there is no directory. -/
def firstEntry (fuel : ℕ) (uEntryIndex : Uint256) : m (Option (Bool × DirCursor)) := do
  match ← read 0 with
  | none => pure none
  | some sleNode => nextEntry read fuel { sleNode, uEntryIndex }

/-- The entries handed out by the rest of a loop that calls `next` until it answers false. -/
def restEntries (fuel : ℕ) : ℕ → Bool × DirCursor → m (Option (List Uint256))
  | 0, _ => pure none
  | _ + 1, (false, _) => pure (some [])
  | rounds + 1, (true, c) => do
    match ← nextEntry read fuel c with
    | none => pure none
    | some r => do
      let rest ← restEntries fuel rounds r
      pure (rest.map (c.uEntryIndex :: ·))

def allEntries (fuel : ℕ) (uEntryIndex : Uint256) : m (Option (List Uint256)) := do
  match ← firstEntry read fuel uEntryIndex with
  | none => pure none
  | some r => restEntries read fuel fuel r

end Functions

def cdirNext (pages : Pages) (fuel : ℕ) (c : DirCursor) : Option (Bool × DirCursor) :=
  nextEntry (m := Id) pages fuel c

def cdirFirst (pages : Pages) (fuel : ℕ) (uEntryIndex : Uint256) : Option (Bool × DirCursor) :=
  firstEntry (m := Id) pages fuel uEntryIndex

def cdirAll (pages : Pages) (fuel : ℕ) (uEntryIndex : Uint256) : Option (List Uint256) :=
  allEntries (m := Id) pages fuel uEntryIndex

variable (directory : Directory) (fuel : ℕ)

def dirNext {R : Type} (c : DirCursor) : Op R (Option (Bool × DirCursor)) :=
  nextEntry (peekPage directory) fuel c

def dirFirst {R : Type} (uEntryIndex : Uint256) : Op R (Option (Bool × DirCursor)) :=
  firstEntry (peekPage directory) fuel uEntryIndex

def dirAll {R : Type} (uEntryIndex : Uint256) : Op R (Option (List Uint256)) :=
  allEntries (peekPage directory) fuel uEntryIndex

section Next

variable {pages : Pages} {chain before after : List ℕ} {n fuel : ℕ} {node : DirNode} {c : DirCursor}
  {rest : List Uint256}

def Left (pages : Pages) (chain : List ℕ) (c : DirCursor) (rest : List Uint256) : Prop :=
  ∃ before n after, chain = before ++ n :: after ∧ pages n = some c.sleNode ∧
    rest = c.sleNode.indexes.drop c.uDirEntry ++ after.flatMap (indexesAt pages)

theorem Chained.indexNext (h : Chained pages (before ++ n :: after)) (hn : pages n = some node) :
    node.indexNext = after.headD 0 :=
  (h.next n node hn).right_unique (follows_append h.increasing h.root)

theorem Chained.after_ne (h : Chained pages (before ++ n :: after)) : ∀ m ∈ after, m ≠ 0 := by
  intro m hm
  have := rel_of_pairwise_cons (pairwise_append.1 h.increasing).2.1 hm
  omega

section

variable (h : Chained pages chain)
include h

theorem cdirNext_spec (hc : Left pages chain c rest)
    (hfuel : chain.length ≤ fuel) :
    (rest = [] ∧ ∃ c', cdirNext pages fuel c = some (false, c') ∧ c'.uEntryIndex = 0) ∨
      ∃ key keys c', rest = key :: keys ∧ cdirNext pages fuel c = some (true, c') ∧
        c'.uEntryIndex = key ∧ Left pages chain c' keys := by
  obtain ⟨before, n, after, rfl, hn, rfl⟩ := hc
  replace hfuel : after.length < fuel := by
    simp only [List.length_append, List.length_cons] at hfuel
    omega
  -- induction on the fuel: every page costs one call
  induction fuel generalizing before n after c with
  | zero => omega
  | succ fuel ih =>
    have hnext := h.indexNext hn
    cases hkey : c.sleNode.indexes[c.uDirEntry]? with
    | some key =>
      obtain ⟨hlt, hget⟩ := List.getElem?_eq_some_iff.1 hkey
      refine .inr ⟨key, c.sleNode.indexes.drop (c.uDirEntry + 1) ++ after.flatMap (indexesAt pages),
        { c with uDirEntry := c.uDirEntry + 1, uEntryIndex := key }, ?_, ?_, rfl, before, n, after, rfl, hn, rfl⟩
      · rw [List.drop_eq_getElem_cons hlt, hget, List.cons_append]
      · simp only [cdirNext, nextEntry, hkey]
        rfl
    | none =>
      have hdrop := List.drop_eq_nil_iff.2 (List.getElem?_eq_none_iff.1 hkey)
      rw [hdrop, List.nil_append]
      cases after with
      | nil =>
        refine .inl ⟨rfl, { c with uEntryIndex := 0 }, ?_, rfl⟩
        simp only [cdirNext, nextEntry, hkey, hnext]
        rfl
      | cons a after =>
        have ha0 : a ≠ 0 := h.after_ne a List.mem_cons_self
        obtain ⟨sleNext, hsle⟩ := h.exists_of_mem (n := a) (by simp)
        have hhop : cdirNext pages (fuel + 1) c =
            cdirNext pages fuel { c with sleNode := sleNext, uDirEntry := 0 } := by
          simp only [cdirNext, nextEntry, hkey, hnext, List.headD_cons, if_neg ha0]
          rw [hsle]
          rfl
        rw [hhop, List.flatMap_cons, indexesAt_some hsle]
        have heq : before ++ n :: a :: after = (before ++ [n]) ++ a :: after := by simp
        rw [heq] at h ⊢
        exact ih (c := { c with sleNode := sleNext, uDirEntry := 0 }) (before ++ [n]) a after h hsle
          (by simpa using hfuel)

omit h in
theorem cdirFirst_some (hroot : pages 0 = some node) (e : Uint256) :
    cdirFirst pages fuel e = cdirNext pages fuel { sleNode := node, uEntryIndex := e } := by
  simp only [cdirFirst, firstEntry]
  rw [hroot]
  rfl

theorem Chained.root_cons : ∃ after, chain = 0 :: after := by
  obtain ⟨before, after, rfl⟩ := append_of_mem h.root
  have hbefore : before = [] := by
    refine eq_nil_iff_forall_not_mem.2 fun x hx => ?_
    have := (pairwise_append.1 h.increasing).2.2 x hx 0 (by simp)
    omega
  exact ⟨after, by rw [hbefore, nil_append]⟩

theorem left_first (hroot : pages 0 = some node) (e : Uint256) :
    Left pages chain { sleNode := node, uEntryIndex := e } (chain.flatMap (indexesAt pages)) := by
  obtain ⟨after, rfl⟩ := h.root_cons
  exact ⟨[], 0, after, rfl, hroot, by simp [indexesAt_some hroot]⟩

theorem restEntries_spec (hfuel : chain.length ≤ fuel) {rounds : ℕ}
    {key : Uint256} (hc : Left pages chain c rest) (hkey : c.uEntryIndex = key)
    (hrounds : rest.length + 1 < rounds) :
    restEntries (m := Id) pages fuel rounds (true, c) = some (key :: rest) := by
  induction rest generalizing c key rounds with
  | nil =>
    obtain ⟨rounds, rfl⟩ : ∃ k, rounds = k + 2 := ⟨rounds - 2, by simp at hrounds; omega⟩
    obtain ⟨-, c', hnext, -⟩ | ⟨_, _, _, hnil, -⟩ := cdirNext_spec h hc hfuel
    · simp only [restEntries, hkey]
      rw [show nextEntry (m := Id) pages fuel c = some (false, c') from hnext]
      rfl
    · cases hnil
  | cons k keys ih =>
    obtain ⟨rounds, rfl⟩ : ∃ k, rounds = k + 1 := ⟨rounds - 1, by omega⟩
    obtain ⟨hnil, -⟩ | ⟨k', keys', c', hcons, hnext, hkey', hleft⟩ := cdirNext_spec h hc hfuel
    · cases hnil
    · cases hcons
      have hrest := ih hleft hkey' (by simpa using hrounds)
      simp only [restEntries, hkey]
      rw [show nextEntry (m := Id) pages fuel c = some (true, c') from hnext]
      show Option.map (key :: ·) (restEntries (m := Id) pages fuel rounds (true, c')) = _
      rw [hrest]
      rfl

theorem cdirAll_eq
    (hfuel : chain.length + (chain.flatMap (indexesAt pages)).length < fuel) (e : Uint256) :
    cdirAll pages fuel e = some (chain.flatMap (indexesAt pages)) := by
  obtain ⟨root, hroot⟩ := h.exists_of_mem h.root
  have hall : ∀ r, cdirNext pages fuel { sleNode := root, uEntryIndex := e } = some r →
      cdirAll pages fuel e = restEntries (m := Id) pages fuel fuel r := by
    intro r hr
    have hfirst : firstEntry (m := Id) pages fuel e = some r := (cdirFirst_some hroot e).trans hr
    simp only [cdirAll, allEntries]
    rw [hfirst]
    rfl
  have hlen : chain.length ≤ fuel := by omega
  obtain ⟨hnil, c', hnext, -⟩ | ⟨key, keys, c', hcons, hnext, hkey, hleft⟩ :=
    cdirNext_spec h (left_first h hroot e) hlen
  · obtain ⟨fuel, rfl⟩ : ∃ k, fuel = k + 1 := ⟨fuel - 1, by omega⟩
    rw [hall _ hnext, hnil]
    rfl
  · rw [hcons] at hfuel
    rw [hall _ hnext, hcons]
    refine restEntries_spec h hlen hleft hkey ?_
    have := length_pos_of_mem h.root
    simp only [length_cons] at hfuel
    omega

end

end Next

/-! With `peek` the same pages are read, and the view shows what it showed. -/

section Peek

variable {R α β : Type} {v₀ v : ApplyView} {directory : Directory} {pages : Pages}

def Peeks (R : Type) (v₀ : ApplyView) (directory : Directory) (pages : Pages) (x : Op R α) (a : α) :
    Prop :=
  ∀ (E : Fault → Prop) (P : R → ApplyView → Prop) (held : Set ℕ) (v : ApplyView),
    Shows v₀ directory pages held v →
      Proc.wp x E P (fun r v' => r = a ∧ ∃ held', Shows v₀ directory pages held' v') v

theorem peeks_pure (a : α) : Peeks R v₀ directory pages (pure a) a :=
  fun _ _ _ _ h => Proc.wp_pure.2 ⟨rfl, _, h⟩

theorem Peeks.bind {x : Op R α} {f : α → Op R β} {a : α} {b : β} (hx : Peeks R v₀ directory pages x a)
    (hf : Peeks R v₀ directory pages (f a) b) : Peeks R v₀ directory pages (x >>= f) b := by
  intro E P held v h
  rw [Proc.wp_bind]
  refine Proc.wp_post (hx E P held v h) ?_
  rintro _ v' ⟨rfl, held', h'⟩
  exact hf E P held' v' h'

theorem peeks_peekPage {n : ℕ} (hn : n < 2 ^ 64) :
    Peeks R v₀ directory pages (peekPage directory n) (pages n) := by
  intro E P held v h
  exact wp_peekPage h hn (fun _ _ hn h' => ⟨hn.symm, _, h'⟩) fun _ hn h' => ⟨hn.symm, _, h'⟩

variable (hlinks : ∀ n node, pages n = some node → node.indexNext < 2 ^ 64)
include hlinks

theorem nextEntry_link {c c' : DirCursor} {b : Bool} (hc : c.sleNode.indexNext < 2 ^ 64)
    (h : nextEntry (m := Id) pages fuel c = some (b, c')) : c'.sleNode.indexNext < 2 ^ 64 := by
  induction fuel generalizing c with
  | zero => cases h
  | succ fuel ih =>
    simp only [nextEntry] at h
    split at h
    · cases h
      exact hc
    split at h
    · cases h
      exact hc
    cases hnext : pages c.sleNode.indexNext with
    | none =>
      rw [hnext] at h
      cases h
      exact hc
    | some sleNext =>
      rw [hnext] at h
      exact ih (c := { c with sleNode := sleNext, uDirEntry := 0 }) (hlinks _ _ hnext) h

theorem peeks_nextEntry {c : DirCursor} (hc : c.sleNode.indexNext < 2 ^ 64) :
    Peeks R v₀ directory pages (nextEntry (peekPage directory) fuel c)
      (nextEntry (m := Id) pages fuel c) := by
  induction fuel generalizing c with
  | zero => exact peeks_pure _
  | succ fuel ih =>
    simp only [nextEntry]
    split
    · exact peeks_pure _
    split
    · exact peeks_pure _
    refine (peeks_peekPage hc).bind ?_
    cases hnext : pages c.sleNode.indexNext with
    | none => exact peeks_pure _
    | some sleNext =>
      exact ih (c := { c with sleNode := sleNext, uDirEntry := 0 }) (hlinks _ _ hnext)

theorem peeks_restEntries (fuel rounds : ℕ) {r : Bool × DirCursor}
    (hr : r.2.sleNode.indexNext < 2 ^ 64) :
    Peeks R v₀ directory pages (restEntries (peekPage directory) fuel rounds r)
      (restEntries (m := Id) pages fuel rounds r) := by
  induction rounds generalizing r with
  | zero => exact peeks_pure _
  | succ rounds ih =>
    obtain ⟨_ | _, c⟩ := r
    · exact peeks_pure _
    · simp only [restEntries]
      refine (peeks_nextEntry fuel hlinks hr).bind ?_
      cases hnext : nextEntry (m := Id) pages fuel c with
      | none => exact peeks_pure _
      | some r => exact (ih (nextEntry_link fuel hlinks hr hnext)).bind (peeks_pure _)

theorem firstEntry_link {e : Uint256} {r : Bool × DirCursor}
    (h : firstEntry (m := Id) pages fuel e = some r) : r.2.sleNode.indexNext < 2 ^ 64 := by
  simp only [firstEntry] at h
  cases hroot : pages 0 with
  | none =>
    rw [hroot] at h
    cases h
  | some root =>
    rw [hroot] at h
    exact nextEntry_link fuel hlinks (hlinks 0 root hroot) h

theorem peeks_dirAll (e : Uint256) :
    Peeks R v₀ directory pages (dirAll directory fuel e) (cdirAll pages fuel e) := by
  have hfirst : Peeks R v₀ directory pages (firstEntry (peekPage directory) fuel e)
      (firstEntry (m := Id) pages fuel e) := by
    simp only [firstEntry]
    refine (peeks_peekPage (by decide)).bind ?_
    cases hroot : pages 0 with
    | none => exact peeks_pure _
    | some root => exact peeks_nextEntry fuel hlinks (hlinks 0 root hroot)
  simp only [dirAll, cdirAll, allEntries]
  refine hfirst.bind ?_
  cases hr : firstEntry (m := Id) pages fuel e with
  | none => exact peeks_pure _
  | some r => exact peeks_restEntries hlinks fuel fuel (firstEntry_link fuel hlinks hr)

end Peek

/-- First come, first served: the keys are handed out in the order they were added. -/
theorem entries_in_order {directory : Directory} {v : ApplyView} {added : List (Uint256 × ℕ)}
    (hdir : directory.NoCollision) (h : Reaches true directory v added) :
    (added.map Prod.fst).Nodup ∧
      (v.pageAt directory 0 = none → added = []) ∧
      (v.pageAt directory 0 ≠ none → ∃ enough, ∀ fuel, enough ≤ fuel → ∀ e,
        cdirAll (v.pageAt directory) fuel e = some (added.map Prod.fst) ∧
          ∃ v', Proc.result (dirAll directory fuel e) v = .ok (some (added.map Prod.fst), v') ∧
            ∀ k, v'.entryAt k = v.entryAt k) := by
  obtain ⟨-, pages, hv, hl⟩ := h.lists hdir
  rw [hv.pageAt]
  obtain ⟨hnone, rfl⟩ | ⟨chain, h⟩ := hl
  · exact ⟨nodup_nil, fun _ => rfl, fun hroot => absurd (hnone 0) hroot⟩
  · have horder := h.order rfl
    obtain ⟨root, hroot⟩ := h.exists_of_mem h.root
    refine ⟨h.keys, fun hnone => ?_, fun _ => ?_⟩
    · rw [hnone] at hroot
      cases hroot
    · refine ⟨chain.length + (added.map Prod.fst).length + 1, fun fuel hfuel e => ?_⟩
      have hall : cdirAll pages fuel e = some (added.map Prod.fst) := by
        rw [← horder]
        exact cdirAll_eq h.toChained (by rw [horder]; omega) e
      have hlinks : ∀ n node, pages n = some node → node.indexNext < 2 ^ 64 := by
        intro n node hn
        have := h.limit _ (h.next n node hn).2.1
        simp only [dirNodeMaxPages] at this
        omega
      obtain ⟨l, v', hrun, rfl, held, hs⟩ :=
        Proc.result_of_wp (peeks_dirAll fuel hlinks e _ _ _ _ (Shows.start hdir hv))
      exact ⟨hall, v', hall ▸ hrun, hs.release.unchanged hv⟩

theorem entries_in_order_twoPages :
    twoPages.2.map Prod.fst = ((List.range 34).map (40 - ·)).filter (· ≠ 30) ∧
    ∃ enough, ∀ fuel, enough ≤ fuel → ∀ e,
      cdirAll (twoPages.1.pageAt (spreadPages 7)) fuel e = some (twoPages.2.map Prod.fst) ∧
        ∃ v', Proc.result (dirAll (spreadPages 7) fuel e) twoPages.1 =
            .ok (some (twoPages.2.map Prod.fst), v') ∧
          ∀ k, v'.entryAt k = twoPages.1.entryAt k :=
  ⟨by decide +kernel, (entries_in_order (noCollision_spreadPages 7) (reaches_twoPages true)).2.2
    (by decide +kernel)⟩

/-! ## `forEachItem` -/

/-- `forEachItem`: the keys of the items, in the order in which the callback gets them. -/
def forEachItem (pages : Pages) : ℕ → ℕ → Option (List Uint256)
  | 0, _ => none
  | fuel + 1, pos =>
    match pages pos with
    | none => some []
    | some sle =>
      if sle.indexNext = 0 then some sle.indexes
      else (forEachItem pages fuel sle.indexNext).map (sle.indexes ++ ·)

theorem forEachItem_eq {pages : Pages} {before after : List ℕ} {n fuel : ℕ}
    (h : Chained pages (before ++ n :: after)) (hfuel : after.length < fuel) :
    forEachItem pages fuel n = some ((n :: after).flatMap (indexesAt pages)) := by
  induction after generalizing before n fuel with
  | nil =>
    obtain ⟨fuel, rfl⟩ := Nat.exists_eq_add_one_of_ne_zero hfuel.ne_bot
    obtain ⟨node, hn⟩ := h.exists_of_mem (n := n) (by simp)
    have hnext : node.indexNext = 0 := h.indexNext hn
    simp [forEachItem, hn, hnext, indexesAt_some hn]
  | cons a after ih =>
    obtain ⟨fuel, rfl⟩ := Nat.exists_eq_add_one_of_ne_zero (Nat.ne_zero_of_lt hfuel)
    obtain ⟨node, hn⟩ := h.exists_of_mem (n := n) (by simp)
    have hnext : node.indexNext = a := h.indexNext hn
    have ha0 : a ≠ 0 := h.after_ne a mem_cons_self
    have heq : before ++ n :: a :: after = (before ++ [n]) ++ a :: after := by simp
    have hrest := ih (heq ▸ h) (Nat.lt_of_succ_lt_succ hfuel)
    simp only [forEachItem, hn, hnext, if_neg ha0, hrest, Option.map_some]
    rw [flatMap_cons (x := n), indexesAt_some hn]

/-! ## The iterator -/

section Loop

variable {σ K : Type} [Zero K] {At : σ → List K → Prop} {next : σ → Option σ} {index : σ → K} {atEnd : σ → Bool}
  {keys : ℕ → σ → Option (List K)}

theorem keys_of_steps (hend : ∀ fuel it, atEnd it = true → keys (fuel + 1) it = some [])
    (hkeys : ∀ fuel it, index it ≠ 0 →
      keys (fuel + 1) it = (next it).bind fun it' => (keys fuel it').map (index it :: ·))
    (hstep : ∀ it rest, At it rest → index it ≠ 0 → (rest = [] ∧ ∃ it', next it = some it' ∧ atEnd it' = true) ∨
      ∃ key more it', rest = key :: more ∧ next it = some it' ∧ index it' = key ∧ At it' more)
    {it : σ} {rest : List K} {fuel : ℕ} (hat : At it rest) (hindex : index it ≠ 0) (hrest : 0 ∉ rest)
    (hfuel : rest.length + 1 < fuel) : keys fuel it = some (index it :: rest) := by
  induction rest generalizing it fuel with
  | nil =>
    obtain ⟨fuel, rfl⟩ : ∃ k, fuel = k + 2 := ⟨fuel - 2, by simp at hfuel; omega⟩
    obtain ⟨-, it', hnext, hstop⟩ | ⟨_, _, _, hnil, -⟩ := hstep it [] hat hindex
    · rw [hkeys _ _ hindex, hnext, Option.bind_some, hend _ _ hstop]
      rfl
    · cases hnil
  | cons k ks ih =>
    obtain ⟨fuel, rfl⟩ : ∃ k, fuel = k + 1 := ⟨fuel - 1, by omega⟩
    obtain ⟨hnil, -⟩ | ⟨_, _, it', hcons, hnext, hkey, hat'⟩ := hstep it _ hat hindex
    · cases hnil
    · cases hcons
      obtain ⟨hk, hks⟩ := not_or.1 (mt mem_cons.2 hrest)
      rw [hkeys _ _ hindex, hnext, Option.bind_some, ih hat' (hkey ▸ Ne.symm hk) hks (by simpa using hfuel), hkey]
      rfl

end Loop

/-- `Dir::const_iterator`: a page by its number, and a place in the keys of it. -/
structure DirIterator where
  page_ : ℕ := 0
  sle_ : Option DirNode := none
  indexes_ : List Uint256 := []
  it_ : ℕ := 0
  index_ : Uint256 := 0

namespace DirIterator

def start (pages : Pages) : DirIterator :=
  match pages 0 with
  | none => {}
  | some sle =>
    match sle.indexes with
    | [] => { sle_ := some sle }
    | key :: _ => { sle_ := some sle, indexes_ := sle.indexes, index_ := key }

def atEnd (it : DirIterator) : Bool := it.page_ = 0 ∧ it.index_ = 0

def next (pages : Pages) (it : DirIterator) : Option DirIterator :=
  if it.index_ = 0 then none
  else
    match it.indexes_[it.it_ + 1]? with
    | some key => some { it with it_ := it.it_ + 1, index_ := key }
    | none => do
      let sle ← it.sle_
      if sle.indexNext = 0 then some { it with page_ := 0, it_ := it.it_ + 1, index_ := 0 }
      else do
        let page ← pages sle.indexNext
        match page.indexes with
        | [] => some { it with page_ := sle.indexNext, sle_ := some page, indexes_ := [], index_ := 0 }
        | key :: _ => some { page_ := sle.indexNext, sle_ := some page, indexes_ := page.indexes, index_ := key }

def keys (pages : Pages) : ℕ → DirIterator → Option (List Uint256)
  | 0, _ => none
  | fuel + 1, it =>
    if it.atEnd then some []
    else (it.next pages).bind fun it' => (keys pages fuel it').map (it.index_ :: ·)

variable {pages : Pages} {chain : List ℕ} {it : DirIterator} {rest : List Uint256} {fuel : ℕ}

def At (pages : Pages) (chain : List ℕ) (it : DirIterator) (rest : List Uint256) : Prop :=
  ∃ before after node, chain = before ++ it.page_ :: after ∧ pages it.page_ = some node ∧
    it.sle_ = some node ∧ it.indexes_ = node.indexes ∧ node.indexes[it.it_]? = some it.index_ ∧
    rest = node.indexes.drop (it.it_ + 1) ++ after.flatMap (indexesAt pages)

theorem next_spec (h : Chained pages chain)
    (hfilled : ∀ n node, pages n = some node → n ≠ 0 → node.indexes ≠ [])
    (hat : At pages chain it rest) (hindex : it.index_ ≠ 0) :
    (rest = [] ∧ ∃ it', it.next pages = some it' ∧ it'.atEnd = true) ∨
      ∃ key keys it', rest = key :: keys ∧ it.next pages = some it' ∧ it'.index_ = key ∧
        At pages chain it' keys := by
  obtain ⟨before, after, node, hchain, hpage, hsle, hindexes, hget, rfl⟩ := hat
  rw [hchain] at h
  have hnext := h.indexNext hpage
  cases hkey : node.indexes[it.it_ + 1]? with
  | some key =>
    obtain ⟨hlt, hget'⟩ := List.getElem?_eq_some_iff.1 hkey
    refine .inr ⟨key, node.indexes.drop (it.it_ + 1 + 1) ++ after.flatMap (indexesAt pages),
      { it with it_ := it.it_ + 1, index_ := key }, ?_, ?_, rfl,
      before, after, node, hchain, hpage, hsle, hindexes, hkey, rfl⟩
    · rw [List.drop_eq_getElem_cons hlt, hget', List.cons_append]
    · simp only [next, if_neg hindex, hindexes, hkey]
  | none =>
    have hdrop := List.drop_eq_nil_iff.2 (List.getElem?_eq_none_iff.1 hkey)
    rw [hdrop, List.nil_append]
    cases after with
    | nil =>
      have hnext : node.indexNext = 0 := hnext
      refine .inl ⟨rfl, { it with page_ := 0, it_ := it.it_ + 1, index_ := 0 }, ?_, rfl⟩
      simp only [next, if_neg hindex, hindexes, hkey, hsle, Option.bind_eq_bind, Option.bind_some,
        if_pos hnext]
    | cons a after =>
      have hnext : node.indexNext = a := hnext
      have ha0 : a ≠ 0 := h.after_ne a List.mem_cons_self
      obtain ⟨page, hpage'⟩ := h.exists_of_mem (n := a) (by simp)
      -- no page but the root is empty
      obtain ⟨key, keys, hcons⟩ := List.exists_cons_of_ne_nil (hfilled a page hpage' ha0)
      refine .inr ⟨key, keys ++ after.flatMap (indexesAt pages),
        { page_ := a, sle_ := some page, indexes_ := page.indexes, index_ := key }, ?_, ?_, rfl,
        before ++ [it.page_], after, page, by simp [hchain], hpage', rfl, rfl, by simp [hcons],
        by simp [hcons]⟩
      · rw [List.flatMap_cons, indexesAt_some hpage', hcons, List.cons_append]
      · simp only [next, if_neg hindex, hindexes, hkey, hsle, Option.bind_eq_bind, Option.bind_some,
          hnext, if_neg ha0, hpage', hcons]

theorem keys_of_at (h : Chained pages chain)
    (hfilled : ∀ n node, pages n = some node → n ≠ 0 → node.indexes ≠ [])
    (hat : At pages chain it rest) (hindex : it.index_ ≠ 0) (hrest : 0 ∉ rest)
    (hfuel : rest.length + 1 < fuel) : keys pages fuel it = some (it.index_ :: rest) := by
  refine keys_of_steps (fun _ _ hend => ?_) (fun _ it hindex => ?_)
    (fun _ _ hat => next_spec h hfilled hat) hat hindex hrest hfuel
  · simp [keys, hend]
  · simp [keys, atEnd, hindex]

theorem zero_not_mem_keys {l : List Uint256} (h : keys pages fuel it = some l) : 0 ∉ l := by
  induction fuel generalizing it l with
  | zero => cases h
  | succ fuel ih =>
    unfold keys at h
    split at h
    · cases h
      exact not_mem_nil
    · obtain ⟨it', hnext, h⟩ := Option.bind_eq_some_iff.1 h
      obtain ⟨rest, hrest, rfl⟩ := Option.map_eq_some_iff.1 h
      have hindex : it.index_ ≠ 0 := by
        intro hzero
        rw [next, if_pos hzero] at hnext
        cases hnext
      exact fun hmem => (mem_cons.1 hmem).elim hindex.symm (ih hrest)

theorem keys_start (h : Chained pages chain)
    (hfilled : ∀ n node, pages n = some node → n ≠ 0 → node.indexes ≠ [])
    (hroot : indexesAt pages 0 ≠ []) (hzero : 0 ∉ chain.flatMap (indexesAt pages))
    (hfuel : (chain.flatMap (indexesAt pages)).length < fuel) :
    keys pages fuel (start pages) = some (chain.flatMap (indexesAt pages)) := by
  obtain ⟨after, rfl⟩ := h.root_cons
  obtain ⟨root, hpage⟩ := h.exists_of_mem h.root
  rw [indexesAt_some hpage] at hroot
  obtain ⟨key, ks, hcons⟩ := exists_cons_of_ne_nil hroot
  have hlist : (0 :: after).flatMap (indexesAt pages) = key :: (ks ++ after.flatMap (indexesAt pages)) := by
    rw [flatMap_cons, indexesAt_some hpage, hcons, cons_append]
  have hstart : start pages = { sle_ := some root, indexes_ := root.indexes, index_ := key } := by
    simp only [start, hpage, hcons]
  have hat : At pages (0 :: after) (start pages) (ks ++ after.flatMap (indexesAt pages)) := by
    rw [hstart]
    exact ⟨[], after, root, rfl, hpage, rfl, rfl, by simp [hcons], by simp [hcons]⟩
  rw [hlist] at hzero hfuel ⊢
  obtain ⟨hkey, hrest⟩ := not_or.1 (mt mem_cons.2 hzero)
  have hindex : (start pages).index_ = key := by rw [hstart]
  have := keys_of_at h hfilled hat (hindex ▸ Ne.symm hkey) hrest (by simpa using hfuel)
  rw [this, hindex]

theorem keys_start_nil (hroot : indexesAt pages 0 = []) : keys pages (fuel + 1) (start pages) = some [] := by
  have hend : (start pages).atEnd = true := by
    unfold start
    cases hpage : pages 0 with
    | none => rfl
    | some root =>
      rw [indexesAt_some hpage] at hroot
      simp only [hroot]
      rfl
  simp [keys, hend]

end DirIterator

/-- The iterator agrees with the other walks just when the root has keys, or nothing has, and no key
is zero. -/
theorem dir_agrees_iff {directory : Directory} {v : ApplyView} {added : List (Uint256 × ℕ)}
    (hdir : directory.NoCollision) (h : Reaches false directory v added) : ∃ keys enough,
      (∀ fuel, enough ≤ fuel → forEachItem (v.pageAt directory) fuel 0 = some keys ∧
        (v.pageAt directory 0 ≠ none → ∀ e, cdirAll (v.pageAt directory) fuel e = some keys)) ∧
      ((∀ fuel, enough ≤ fuel → DirIterator.keys (v.pageAt directory) fuel
          (DirIterator.start (v.pageAt directory)) = some keys) ↔
        (indexesAt (v.pageAt directory) 0 = [] → added = []) ∧ 0 ∉ added.map Prod.fst) := by
  obtain ⟨-, pages, hv, hl⟩ := h.lists hdir
  rw [hv.pageAt]
  obtain ⟨hnone, rfl⟩ | ⟨chain, h⟩ := hl
  · refine ⟨[], 1, fun fuel hfuel => ⟨?_, fun hroot => absurd (hnone 0) hroot⟩, ?_⟩
    · obtain ⟨fuel, rfl⟩ : ∃ k, fuel = k + 1 := ⟨fuel - 1, by omega⟩
      simp [forEachItem, hnone 0]
    · refine iff_of_true (fun fuel hfuel => ?_) ⟨fun _ => rfl, by simp⟩
      obtain ⟨fuel, rfl⟩ : ∃ k, fuel = k + 1 := ⟨fuel - 1, by omega⟩
      exact DirIterator.keys_start_nil (indexesAt_none (hnone 0))
  · have hmem : ∀ key, key ∈ added.map Prod.fst ↔ key ∈ chain.flatMap (indexesAt pages) := fun _ =>
      h.mem_keys
    obtain ⟨after, hchain⟩ := h.root_cons
    refine ⟨chain.flatMap (indexesAt pages), chain.length + (chain.flatMap (indexesAt pages)).length + 1,
      fun fuel hfuel => ⟨?_, fun _ e => cdirAll_eq h.toChained (by omega) e⟩, ?_⟩
    · have hc : Chained pages ([] ++ 0 :: after) := hchain ▸ h.toChained
      rw [hchain] at hfuel ⊢
      exact forEachItem_eq hc (by simp at hfuel; omega)
    · constructor
      · intro hkeys
        have hfound := hkeys _ le_rfl
        refine ⟨fun hnil => ?_, mt (hmem 0).1 (DirIterator.zero_not_mem_keys hfound)⟩
        rw [DirIterator.keys_start_nil hnil] at hfound
        have hempty := (Option.some.inj hfound).symm
        refine eq_nil_iff_forall_not_mem.2 fun kn hkn => ?_
        have := (hmem kn.1).1 (mem_map_of_mem hkn)
        rw [hempty] at this
        cases this
      · rintro ⟨hroot, hzero⟩ fuel hfuel
        rw [hmem] at hzero
        by_cases hnil : indexesAt pages 0 = []
        · obtain ⟨fuel, rfl⟩ : ∃ k, fuel = k + 1 := ⟨fuel - 1, by omega⟩
          rw [DirIterator.keys_start_nil hnil, eq_comm]
          refine congrArg some (eq_nil_iff_forall_not_mem.2 fun key hkey => ?_)
          rw [← hmem, hroot hnil] at hkey
          cases hkey
        · exact DirIterator.keys_start h.toChained h.filled hnil hzero (by omega)

theorem dir_agrees_iff_twoPages : ∃ keys enough,
    (∀ fuel, enough ≤ fuel → forEachItem (twoPages.1.pageAt (spreadPages 7)) fuel 0 = some keys ∧
      (twoPages.1.pageAt (spreadPages 7) 0 ≠ none → ∀ e,
        cdirAll (twoPages.1.pageAt (spreadPages 7)) fuel e = some keys)) ∧
    ∀ fuel, enough ≤ fuel → DirIterator.keys (twoPages.1.pageAt (spreadPages 7)) fuel
      (DirIterator.start (twoPages.1.pageAt (spreadPages 7))) = some keys := by
  obtain ⟨keys, enough, hwalk, hiff⟩ :=
    dir_agrees_iff (noCollision_spreadPages 7) (reaches_twoPages false)
  have hroot : indexesAt (twoPages.1.pageAt (spreadPages 7)) 0 ≠ [] := by decide +kernel
  exact ⟨keys, enough, hwalk, hiff.2 ⟨fun hnil => absurd hnil hroot, by decide +kernel⟩⟩

def emptyRootCalls : List DirCall :=
  (List.range 33).map (fun i => .add (i + 1)) ++ (List.range 32).map fun i => .remove (i + 1) 0

def emptyRoot : ApplyView × List (Uint256 × ℕ) :=
  (runCalls (spreadPages 7) emptyRootCalls ({ base := {} }, [])).getD ({ base := {} }, [])

theorem dir_skips_behind_empty_root : (spreadPages 7).NoCollision ∧
    Reaches false (spreadPages 7) emptyRoot.1 [(33, 1)] ∧
    forEachItem (emptyRoot.1.pageAt (spreadPages 7)) 3 0 = some [33] ∧
    cdirAll (emptyRoot.1.pageAt (spreadPages 7)) 4 0 = some [33] ∧
    DirIterator.keys (emptyRoot.1.pageAt (spreadPages 7)) 4
      (DirIterator.start (emptyRoot.1.pageAt (spreadPages 7))) = some [] := by
  have hsome : (runCalls (spreadPages 7) emptyRootCalls ({ base := {} }, [])).isSome = true := by
    decide +kernel
  have hadded : emptyRoot.2 = [(33, 1)] := by decide +kernel
  obtain ⟨s, hs⟩ := Option.isSome_iff_exists.1 hsome
  have hrun : runCalls (spreadPages 7) emptyRootCalls ({ base := {} }, []) = some emptyRoot := by
    rw [emptyRoot, hs, Option.getD_some]
  have hreach := reaches_runCalls (reaches_empty false (spreadPages 7)) hrun
  exact ⟨noCollision_spreadPages 7, hadded ▸ hreach, by decide +kernel, by decide +kernel,
    by decide +kernel⟩

end Ripple.Ledger
