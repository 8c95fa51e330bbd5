import Ripple.Lib.PageChain
import Ripple.Ledger.ViewRules

/-!
# Ripple.Ledger.Directory

Directories of `ledger/impl/ApplyView.cpp`: keys on linked pages, with `dirAdd` and `dirRemove`.

A page is an entry, and the pages of a directory are named by number. `Shows` says which pages a
view shows and which of them a pointer can be had to; the rules of the calls are stated with it, and
what becomes of the directory is then a matter of pages alone.
-/

namespace Ripple.Ledger

open Protocol ApplyView PageChain

/-! ## The functions -/

def dirNodeMaxEntries : ℕ := 32

def dirNodeMaxPages : ℕ := 262144

/-- `describe`: it fills in fields of a new page, other than its keys and links. -/
structure Describer where
  describe : DirNode → DirNode
  indexes : ∀ node, (describe node).indexes = node.indexes
  indexNext : ∀ node, (describe node).indexNext = node.indexNext
  indexPrevious : ∀ node, (describe node).indexPrevious = node.indexPrevious

def describeOwnerDir (account : AccountID) : Describer where
  describe node := { node with owner := some account }
  indexes _ := rfl
  indexNext _ := rfl
  indexPrevious _ := rfl

def Entry.dirNode? : Entry → Option DirNode
  | .dirNode node => some node
  | _ => none

section Pages

variable {R : Type} (directory : Directory) (page : ℕ)

/-- `peek(keylet::page(directory, page))`; page 0 is the root. -/
def peekPage : Op R (Option DirNode) := do
  let entry ← Op.peek .ltDIR_NODE (getDirNodeIndex directory page)
  pure (entry.bind Entry.dirNode?)

def loadPage : Op R DirNode := do
  let entry ← Op.load (getDirNodeIndex directory page)
  Proc.expect .nullPointer (entry.bind Entry.dirNode?)

def updatePage (node : DirNode) : Op R Unit := Op.put (getDirNodeIndex directory page) (.dirNode node)

def insertPage (node : DirNode) : Op R Unit :=
  Op.insert (getDirNodeIndex directory page) (.dirNode node)

def erasePage : Op R Unit := Op.erase (getDirNodeIndex directory page)

end Pages

/-- The keys of a page with one more, in a sorted page at `lower_bound`; nothing for a double. -/
def addIndex (preserveOrder : Bool) (indexes : List Uint256) (key : Uint256) : Option (List Uint256) :=
  if preserveOrder then
    if key ∈ indexes then none else some (indexes ++ [key])
  else
    let sorted := indexes.insertionSort (· ≤ ·)
    let pos := sorted.dropWhile (· < key)
    if pos.head? = some key then none else some (sorted.takeWhile (· < key) ++ key :: pos)

section Functions

variable {R : Type} (directory : Directory)

def peekLast (root : DirNode) : Op R DirNode :=
  if root.indexPrevious = 0 then pure root
  else do
    let node ← peekPage directory root.indexPrevious
    Proc.expect .logicError node

def dirAdd (preserveOrder : Bool) (key : Uint256) (describe : Describer) : Op R (Option ℕ) := do
  match ← peekPage directory 0 with
  | none =>
    insertPage directory 0
      { describe.describe { indexes := [], rootIndex := directory.key } with indexes := [key] }
    pure (some 0)
  | some root =>
    let node ← peekLast directory root
    let page := root.indexPrevious
    if node.indexes.length < dirNodeMaxEntries then do
      let indexes ← Proc.expect .logicError (addIndex preserveOrder node.indexes key)
      updatePage directory page { node with indexes }
      pure (some page)
    else if (page + 1) % 2 ^ 64 ≥ dirNodeMaxPages then pure none
    else do
      let next := (page + 1) % 2 ^ 64
      updatePage directory page { node with indexNext := next }
      -- `root` and `node` may be one object
      let root ← loadPage directory 0
      updatePage directory 0 { root with indexPrevious := next }
      insertPage directory next <| describe.describe
        { indexes := [key], rootIndex := directory.key, indexPrevious := if next ≠ 1 then next - 1 else 0 }
      pure (some next)

/-- Older versions could leave the last page empty: it goes when only the root is before it. -/
def dropLastPage (node : DirNode) : Op R (ℕ × ℕ) :=
  if node.indexNext = node.indexPrevious ∧ node.indexNext ≠ 0 then do
    let last ← peekPage directory node.indexNext
    let last ← Proc.expect .logicError last
    if last.indexes = [] then do
      updatePage directory 0 { node with indexNext := 0, indexPrevious := 0 }
      erasePage directory node.indexNext
      pure (0, 0)
    else pure (node.indexNext, node.indexPrevious)
  else pure (node.indexNext, node.indexPrevious)

def removeRoot (keepRoot : Bool) (node : DirNode) : Op R Bool :=
  if node.indexNext = 0 ∧ node.indexPrevious ≠ 0 then Proc.fault .logicError
  else if node.indexPrevious = 0 ∧ node.indexNext ≠ 0 then Proc.fault .logicError
  else do
    let (nextPage, prevPage) ← dropLastPage directory node
    if keepRoot then pure true
    else if nextPage = 0 ∧ prevPage = 0 then do
      erasePage directory 0
      pure true
    else pure true

/-- An empty last page behind the unlinked one goes too. What follows `prevPage` is returned. -/
def dropNextPage (prevPage nextPage : ℕ) : Op R ℕ :=
  if nextPage = 0 then pure 0
  else do
    let next ← loadPage directory nextPage
    if next.indexNext = 0 ∧ next.indexes = [] then do
      erasePage directory nextPage
      let prev ← loadPage directory prevPage
      updatePage directory prevPage { prev with indexNext := 0 }
      let root ← peekPage directory 0
      let root ← Proc.expect .logicError root
      updatePage directory 0 { root with indexPrevious := prevPage }
      pure 0
    else pure nextPage

def removePage (page : ℕ) (keepRoot : Bool) (node : DirNode) : Op R Bool :=
  let prevPage := node.indexPrevious
  if node.indexNext = page then Proc.fault .logicError
  else if prevPage = page then Proc.fault .logicError
  else do
    let prev ← peekPage directory prevPage
    let prev ← Proc.expect .logicError prev
    updatePage directory prevPage { prev with indexNext := node.indexNext }
    let next ← peekPage directory node.indexNext
    let next ← Proc.expect .logicError next
    updatePage directory node.indexNext { next with indexPrevious := prevPage }
    erasePage directory page
    let nextPage ← dropNextPage directory prevPage node.indexNext
    if keepRoot = false ∧ nextPage = 0 ∧ prevPage = 0 then do
      let prev ← loadPage directory prevPage
      if prev.indexes = [] then do
        erasePage directory prevPage
        pure true
      else pure true
    else pure true

def dirRemove (page : ℕ) (key : Uint256) (keepRoot : Bool) : Op R Bool := do
  match ← peekPage directory page with
  | none => pure false
  | some node =>
    if key ∈ node.indexes then do
      let node := { node with indexes := node.indexes.erase key }
      updatePage directory page node
      if node.indexes ≠ [] then pure true
      else if page = 0 then removeRoot directory keepRoot node
      else removePage directory page keepRoot node
    else pure false

end Functions

/-! ## Views that show pages -/

abbrev Pages := ℕ → Option DirNode

/-- The view shows these pages of the directory and nothing else under their indexes. -/
structure ShowsPages (v : ApplyView) (directory : Directory) (pages : Pages) : Prop where
  entryAt : ∀ n < 2 ^ 64, v.entryAt (getDirNodeIndex directory n) = (pages n).map Entry.dirNode
  bounded : ∀ n node, pages n = some node → n < 2 ^ 64

structure Within (directory : Directory) (v v' : ApplyView) : Prop where
  steps : Steps v v'
  frame : ∀ k, (∀ n < 2 ^ 64, k ≠ getDirNodeIndex directory n) → v'.entryAt k = v.entryAt k
  clean : Clean v → Clean v'

/-- The view shows these pages, after calls that started from `v₀`; `held` are those with a pointer.
-/
structure Shows (v₀ : ApplyView) (directory : Directory) (pages : Pages) (held : Set ℕ)
    (v : ApplyView) : Prop where
  noCollision : directory.NoCollision
  within : Within directory v₀ v
  pages : ShowsPages v directory pages
  held : ∀ n ∈ held, n < 2 ^ 64 ∧ Held v (getDirNodeIndex directory n)

theorem Shows.start {v : ApplyView} {directory : Directory} {pages : Pages}
    (hdir : directory.NoCollision) (h : ShowsPages v directory pages) :
    Shows v directory pages ∅ v :=
  ⟨hdir, ⟨.refl, fun _ _ => rfl, fun h => h⟩, h, by simp⟩

section Rules

variable {R : Type} {E : Fault → Prop} {P : R → ApplyView → Prop} {v₀ v : ApplyView}
  {directory : Directory} {pages : Pages} {held : Set ℕ} {page : ℕ} {node : DirNode}

section

variable (h : Shows v₀ directory pages held v)
include h

theorem Shows.looks {v' : ApplyView} (hl : Looks v v') : Shows v₀ directory pages held v' :=
  ⟨h.noCollision,
    ⟨h.within.steps.trans hl.steps, fun k hk => (hl.entryAt k).trans (h.within.frame k hk),
      fun hc => hl.clean (h.within.clean hc)⟩,
    ⟨fun n hn => (hl.entryAt _).trans (h.pages.entryAt n hn), h.pages.bounded⟩,
    fun n hn => ⟨(h.held n hn).1, hl.held _ (h.held n hn).2⟩⟩

theorem Shows.puts {v' : ApplyView} (new : Option DirNode) (hpage : page < 2 ^ 64)
    (hp : Puts v (getDirNodeIndex directory page) (new.map Entry.dirNode) v') :
    Shows v₀ directory (Function.update pages page new) (held \ {page}) v' := by
  have hinj : ∀ n < 2 ^ 64, getDirNodeIndex directory n = getDirNodeIndex directory page → n = page :=
    fun n hn heq => h.noCollision.index_inj hn hpage heq
  refine ⟨h.noCollision,
    ⟨h.within.steps.trans hp.steps, fun k hk => ?_, fun hc => hp.clean (h.within.clean hc)⟩,
    ⟨fun n hn => ?_, fun n node hn => ?_⟩, fun n hn => ?_⟩
  · rw [hp.entryAt, if_neg (hk page hpage), h.within.frame k hk]
  · rw [hp.entryAt]
    by_cases heq : n = page
    · rw [heq, if_pos rfl, Function.update_self]
    · rw [if_neg fun h => heq (hinj n hn h), Function.update_of_ne heq, h.pages.entryAt n hn]
  · by_cases heq : n = page
    · rw [heq]
      exact hpage
    · rw [Function.update_of_ne heq] at hn
      exact h.pages.bounded n node hn
  · obtain ⟨hlt, hheld⟩ := h.held n hn.1
    exact ⟨hlt, hp.held _ (fun heq => hn.2 (hinj n hlt heq)) hheld⟩

theorem Shows.mono {held' : Set ℕ} (hsub : held' ⊆ held) : Shows v₀ directory pages held' v :=
  ⟨h.noCollision, h.within, h.pages, fun n hn => h.held n (hsub hn)⟩

theorem Shows.release : Shows v₀ directory pages ∅ v :=
  h.mono (Set.empty_subset _)

omit h in
theorem Shows.hold (h : Shows v₀ directory pages (held \ {page}) v) (hpage : page < 2 ^ 64)
    (hp : Held v (getDirNodeIndex directory page)) : Shows v₀ directory pages (insert page held) v := by
  refine ⟨h.noCollision, h.within, h.pages, fun n hn => ?_⟩
  by_cases hn' : n = page
  · rw [hn']
    exact ⟨hpage, hp⟩
  · exact h.held n ⟨hn.resolve_left hn', hn'⟩

omit h in
theorem dirNode?_map (o : Option DirNode) : (o.map Entry.dirNode).bind Entry.dirNode? = o := by
  cases o <;> rfl

omit h in
theorem ShowsPages.readAs (h : ShowsPages v directory pages) {n : ℕ} (hn : n < 2 ^ 64) :
    v.readAs .ltDIR_NODE (getDirNodeIndex directory n) = (pages n).map Entry.dirNode := by
  rw [ApplyView.readAs, h.entryAt n hn]
  cases pages n <;> simp [Entry.getType]

theorem wp_peekPage {Q : Option DirNode → ApplyView → Prop} (hpage : page < 2 ^ 64)
    (hsome : ∀ node v', pages page = some node → Shows v₀ directory pages (insert page held) v' →
      Q (some node) v')
    (hnone : ∀ v', pages page = none → Shows v₀ directory pages held v' → Q none v') :
    Proc.wp (peekPage directory page) E P Q v := by
  simp only [peekPage, Proc.wp_bind, Proc.wp_pure]
  refine wp_peek fun v' hl hheld => ?_
  rw [h.pages.readAs hpage] at hheld ⊢
  rw [dirNode?_map]
  have h' := h.looks hl
  cases hp : pages page with
  | none => exact hnone v' hp h'
  | some node =>
    have hheld := hheld (by simp [hp])
    exact hsome node v' hp ((h'.mono Set.sdiff_subset).hold hpage hheld)

theorem wp_peekPage_some {Q : Option DirNode → ApplyView → Prop} (hpage : pages page = some node)
    (hQ : ∀ v', Shows v₀ directory pages (insert page held) v' → Q (some node) v') :
    Proc.wp (peekPage directory page) E P Q v := by
  refine wp_peekPage h (h.pages.bounded page node hpage) (fun node' v' hsome hs => ?_) fun v' hnone _ => ?_
  · cases hpage.symm.trans hsome
    exact hQ v' hs
  · cases hpage.symm.trans hnone

theorem wp_loadPage {Q : DirNode → ApplyView → Prop}
    (hheld : page ∈ held) (hpage : pages page = some node) (hQ : Q node v) :
    Proc.wp (loadPage directory page) E P Q v := by
  obtain ⟨hlt, hheld⟩ := h.held page hheld
  simp only [loadPage, Op.load, Proc.wp_bind, Proc.wp_get, Proc.wp_pure]
  rw [load_of_held hheld, h.pages.entryAt page hlt, hpage]
  exact Proc.wp_expect_some.2 hQ

variable {Q : Unit → ApplyView → Prop}

theorem wp_updatePage (hheld : page ∈ held)
    (hQ : ∀ v', Shows v₀ directory (Function.update pages page (some node)) held v' → Q () v') :
    Proc.wp (updatePage directory page node) E P Q v := by
  obtain ⟨hlt, hheld⟩ := h.held page hheld
  refine wp_put hheld fun v' hp hmarked => hQ v' ?_
  exact ((h.puts (some node) hlt hp).hold hlt (held_of_marked hmarked)).mono (Set.subset_insert _ _)

theorem wp_insertPage (hpage : page < 2 ^ 64) (habsent : pages page = none)
    (hQ : ∀ v', Shows v₀ directory (Function.update pages page (some node)) (insert page held) v' →
      Q () v') :
    Proc.wp (insertPage directory page node) E P Q v := by
  have hnone : v.entryAt (getDirNodeIndex directory page) = none := by
    rw [h.pages.entryAt page hpage, habsent]
    rfl
  refine wp_insert hnone fun v' hp hmarked => hQ v' ?_
  exact (h.puts (some node) hpage hp).hold hpage (held_of_marked hmarked)

end

theorem wp_erasePage (hc : Coherent v₀) (h : Shows v₀ directory pages held v) (hheld : page ∈ held)
    (hQ : ∀ v', Shows v₀ directory (Function.update pages page none) (held \ {page}) v' → Q () v') :
    Proc.wp (erasePage directory page) E P Q v := by
  obtain ⟨hlt, hheld⟩ := h.held page hheld
  exact wp_erase (h.within.steps.coherent hc) hheld fun v' hp => hQ v' (h.puts none hlt hp)

end Rules

end Ripple.Ledger
