import Ripple.Lib.Overlay
import Ripple.Ledger.DirectoryWalk

/-!
# Ripple.Ledger.BookDirs

The iterator over the offers of a book, from `ledger/impl/BookDirs.cpp`. The directories of a book
have adjacent indexes, the quality in the last 64 bits. The iterator goes through one directory with
`cdirNext` and finds the next one with `succ`.

* `BookDirs.next_spec`: what one `operator++` does; `BookDirs.offers_eq` is the whole loop.
-/

namespace Ripple.Ledger

open Protocol PageChain List

/-- `getQualityNext`: behind every quality of the book, unless the sum of 256 bits wraps. -/
def getQualityNext (uBase : Uint256) : Uint256 := (uBase + 2 ^ 64) % 2 ^ 256

/-- `hash key page` is the hash that a page of the directory at `key` is stored under. -/
abbrev PageHash := Uint256 → ℕ → Uint256

namespace OpenView

/-- `view.read(keylet::page(directory, page))`. -/
def pageAt (view : OpenView) (directory : Directory) : Pages := fun page =>
  if page < 2 ^ 64 then (view.entryAt (getDirNodeIndex directory page)).bind Entry.dirNode? else none

def succ (view : OpenView) (key last : Uint256) : Option Uint256 := view.entries.succ key (some last)

end OpenView

/-! ## The iterator -/

/-- `BookDirs::const_iterator`. -/
structure BookIterator where
  key_ : Uint256
  cur_key_ : Uint256
  sle_ : Option DirNode := none
  entry_ : ℕ := 0
  index_ : Uint256 := 0

namespace BookDirs

variable (hash : PageHash) (view : OpenView) (root : Uint256) (fuel : ℕ) (it : BookIterator)

/-- `cdirFirst` on the directory at `key`, where the source has `assert(false)` if it is empty. -/
def enter (key : Uint256) : Option BookIterator :=
  (cdirFirst (view.pageAt ⟨key, hash key⟩) fuel it.index_).bind fun r =>
    if r.1 then
      some { it with
        cur_key_ := key, sle_ := some r.2.sleNode, entry_ := r.2.uDirEntry, index_ := r.2.uEntryIndex }
    else none

/-- `BookDirs::BookDirs` and `begin`. `root` is `getBookBase` of the book. -/
def start : Option BookIterator :=
  if root = 0 then none
  else
    let key := (view.succ root (getQualityNext root)).getD 0
    if key = 0 then some { key_ := key, cur_key_ := key }
    else enter hash view fuel { key_ := key, cur_key_ := key } key

def atEnd : Bool := it.entry_ = 0 ∧ it.cur_key_ = it.key_ ∧ it.index_ = 0

/-- `operator++` when `cdirNext` has nothing more to hand out. -/
def hop : Option BookIterator :=
  let key := (view.succ ((it.cur_key_ + 1) % 2 ^ 256) (getQualityNext root)).getD 0
  if it.index_ ≠ 0 ∨ key = 0 then some { it with cur_key_ := it.key_, entry_ := 0, index_ := 0 }
  else enter hash view fuel it key

def next : Option BookIterator :=
  if it.index_ = 0 then none
  else
    it.sle_.bind fun sle =>
      (cdirNext (view.pageAt ⟨it.cur_key_, hash it.cur_key_⟩) fuel
        { sleNode := sle, uDirEntry := it.entry_, uEntryIndex := it.index_ }).bind fun r =>
        let it := { it with
          sle_ := some r.2.sleNode, entry_ := r.2.uDirEntry, index_ := r.2.uEntryIndex }
        if r.1 then some it else hop hash view root fuel it

def keys : ℕ → BookIterator → Option (List Uint256)
  | 0, _ => none
  | rounds + 1, it =>
    if atEnd it then some []
    else (next hash view root fuel it).bind fun it' => (keys rounds it').map (it.index_ :: ·)

def offers : Option (List Uint256) := (start hash view root fuel).bind (keys hash view root fuel fuel)

end BookDirs

/-! ## The directories of a book -/

def bookDirs (view : OpenView) (root : Uint256) : List Uint256 :=
  (view.entries.entries.map Prod.fst).filter fun key => root ≤ key ∧ key < root + 2 ^ 64

/-- Every entry in the range of the book is a directory with offers, and `orders` is their keys. -/
def BookListing (hash : PageHash) (view : OpenView) (root : Uint256) (orders : Uint256 → List Uint256) : Prop :=
  ∀ key ∈ bookDirs view root, ∃ ordered chain added, Listing ordered (view.pageAt ⟨key, hash key⟩) chain added ∧
    orders key = chain.flatMap (indexesAt (view.pageAt ⟨key, hash key⟩)) ∧ orders key ≠ [] ∧ 0 ∉ orders key

/-- The directories found behind `bound`, each time behind the key that follows the last one. -/
def visitsFrom (bound : ℕ) : List ℕ → List ℕ
  | [] => []
  | key :: keys => if bound < key then key :: visitsFrom (key + 1) keys else visitsFrom bound keys

section Visits

variable {l : List ℕ} {bound key : ℕ}

theorem visitsFrom_append_of_le {front : List ℕ} (h : ∀ k ∈ front, k ≤ bound) :
    visitsFrom bound (front ++ l) = visitsFrom bound l := by
  induction front with
  | nil => rfl
  | cons k front ih =>
    rw [cons_append, visitsFrom, if_neg (not_lt.2 (h k mem_cons_self)),
      ih fun k' hk' => h k' (mem_cons_of_mem _ hk')]

theorem visitsFrom_none (h : ∀ k ∈ l, k ≤ bound) : visitsFrom bound l = [] := by
  rw [← append_nil l, visitsFrom_append_of_le h]
  rfl

theorem visitsFrom_some (hl : l.Pairwise (· < ·)) (hkey : IsLeast {k | k ∈ l ∧ bound < k} key) :
    visitsFrom bound l = key :: visitsFrom (key + 1) l := by
  obtain ⟨⟨hmem, hlt⟩, hleast⟩ := hkey
  obtain ⟨front, rest, rfl⟩ := append_of_mem hmem
  have hfront : ∀ k ∈ front, k ≤ bound := by
    intro k hk
    by_contra hgt
    have h₁ := hleast ⟨mem_append_left _ hk, not_le.1 hgt⟩
    have h₂ := (pairwise_append.1 hl).2.2 k hk key mem_cons_self
    omega
  rw [visitsFrom_append_of_le hfront, visitsFrom, if_pos hlt,
    visitsFrom_append_of_le fun k hk => (hfront k hk).trans (by omega), visitsFrom, if_neg (by omega)]

theorem visitsFrom_sublist (bound : ℕ) (l : List ℕ) : (visitsFrom bound l).Sublist l := by
  induction l generalizing bound with
  | nil => exact List.Sublist.refl _
  | cons k l ih =>
    rw [visitsFrom]
    split
    · exact (ih (k + 1)).cons_cons k
    · exact (ih bound).cons k

/-- All are come to just when none is at the bound or right behind another. -/
theorem visitsFrom_eq_self_iff (hl : l.Pairwise (· < ·)) : visitsFrom bound l = l ↔
    (∀ k ∈ l, bound < k) ∧ ∀ k ∈ l, k + 1 ∉ l := by
  induction l generalizing bound with
  | nil => simp [visitsFrom]
  | cons k l ih =>
    obtain ⟨hk, hl⟩ := pairwise_cons.1 hl
    rw [visitsFrom]
    by_cases hlt : bound < k
    · rw [if_pos hlt, cons_eq_cons, and_iff_right rfl, ih hl]
      have hgap : (∀ x ∈ l, k + 1 < x) ↔ k + 1 ∉ l := by
        constructor
        · exact fun h hmem => (h _ hmem).false
        · intro hnot x hx
          have h₁ := hk x hx
          have h₂ : x ≠ k + 1 := fun heq => hnot (heq ▸ hx)
          omega
      constructor
      · rintro ⟨h₁, h₂⟩
        refine ⟨fun x hx => ?_, fun x hx hnext => ?_⟩
        · obtain rfl | hx := mem_cons.1 hx
          · exact hlt
          · exact hlt.trans (hk x hx)
        · obtain rfl | hx := mem_cons.1 hx
          · obtain heq | hmem := mem_cons.1 hnext
            · omega
            · exact hgap.1 h₁ hmem
          · obtain heq | hmem := mem_cons.1 hnext
            · have := hk x hx
              omega
            · exact h₂ x hx hmem
      · rintro ⟨-, h₂⟩
        refine ⟨hgap.2 fun hmem => h₂ k mem_cons_self (mem_cons_of_mem _ hmem), ?_⟩
        exact fun x hx hmem => h₂ x (mem_cons_of_mem _ hx) (mem_cons_of_mem _ hmem)
    · rw [if_neg hlt]
      refine iff_of_false (fun heq => ?_) fun h => hlt (h.1 k mem_cons_self)
      have hlen := (visitsFrom_sublist bound l).length_le
      rw [heq, length_cons] at hlen
      omega

end Visits

section Iterate

variable {hash : PageHash} {view : OpenView} {root : Uint256} {orders : Uint256 → List Uint256} {fuel : ℕ}
  {it : BookIterator} {left : List Uint256}

theorem bookDirs_sorted (view : OpenView) (root : Uint256) : (bookDirs view root).Pairwise (· < ·) :=
  (pairwise_map.2 view.entries.sorted).filter _

theorem mem_bookDirs {key : Uint256} : key ∈ bookDirs view root ↔
    (view.entries.find? key).isSome = true ∧ root ≤ key ∧ key < root + 2 ^ 64 := by
  have hmem : key ∈ view.entries.entries.map Prod.fst ↔ (view.entries.find? key).isSome = true := by
    rw [mem_map, Option.isSome_iff_exists]
    constructor
    · rintro ⟨⟨k, sle⟩, hmem, rfl⟩
      exact ⟨sle, (view.entries.mem_entries_iff k sle).1 hmem⟩
    · rintro ⟨sle, hfind⟩
      exact ⟨(key, sle), (view.entries.mem_entries_iff key sle).2 hfind, rfl⟩
  simp [bookDirs, hmem]

theorem getQualityNext_of_le {root : ℕ} (hbits : root < 2 ^ 256) (h : 2 ^ 256 ≤ root + 2 ^ 64) :
    getQualityNext root < root := by
  have hmod : (root + 2 ^ 64) % 2 ^ 256 < root := by omega
  exact hmod

theorem getQualityNext_of_lt (h : root + 2 ^ 64 < 2 ^ 256) : getQualityNext root = root + 2 ^ 64 :=
  Nat.mod_eq_of_lt h

theorem finds_book (view : OpenView) {bound : Uint256} (hlt : root + 2 ^ 64 < 2 ^ 256)
    (h : root ≤ bound) :
    OrderedMap.Finds {k | k ∈ bookDirs view root ∧ bound < k} (view.succ bound (getQualityNext root)) := by
  rw [getQualityNext_of_lt hlt]
  refine (OrderedMap.finds_succ view.entries bound (some (root + 2 ^ 64))).congr ?_
  ext k
  constructor
  · rintro ⟨⟨hlt, hsome⟩, hlast⟩
    exact ⟨mem_bookDirs.2 ⟨hsome, h.trans hlt.le, OrderedMap.below_some.1 hlast⟩, hlt⟩
  · rintro ⟨hmem, hlt⟩
    obtain ⟨hsome, -, hlast⟩ := mem_bookDirs.1 hmem
    exact ⟨⟨hlt, hsome⟩, OrderedMap.below_some.2 hlast⟩

theorem visits_search (view : OpenView) {bound : Uint256} (hlt : root + 2 ^ 64 < 2 ^ 256)
    (h : root ≤ bound) :
    (view.succ bound (getQualityNext root)).getD 0 = 0 ∧
        visitsFrom bound (bookDirs view root) = [] ∨
      ∃ key ∈ bookDirs view root, key ≠ 0 ∧ (view.succ bound (getQualityNext root)).getD 0 = key ∧
        visitsFrom bound (bookDirs view root) = key :: visitsFrom (key + 1) (bookDirs view root) := by
  have hfinds := finds_book view hlt h
  cases hsucc : view.succ bound (getQualityNext root) with
  | none =>
    rw [hsucc] at hfinds
    refine .inl ⟨rfl, visitsFrom_none fun k hk => ?_⟩
    by_contra hgt
    have hmem : k ∈ {k | k ∈ bookDirs view root ∧ bound < k} := ⟨hk, not_le.1 hgt⟩
    rw [show {k | k ∈ bookDirs view root ∧ bound < k} = ∅ from hfinds] at hmem
    cases hmem
  | some key =>
    rw [hsucc] at hfinds
    have hleast : IsLeast {k | k ∈ bookDirs view root ∧ bound < k} key := hfinds
    exact .inr ⟨key, hleast.1.1, Nat.ne_zero_of_lt hleast.1.2, rfl,
      visitsFrom_some (bookDirs_sorted view root) hleast⟩

def BookDirs.At (hash : PageHash) (view : OpenView) (root : Uint256) (orders : Uint256 → List Uint256)
    (it : BookIterator)
    (left : List Uint256) : Prop :=
  ∃ ordered chain added sle rest, Listing ordered (view.pageAt ⟨it.cur_key_, hash it.cur_key_⟩) chain added ∧
    it.cur_key_ ∈ bookDirs view root ∧ it.sle_ = some sle ∧
    Left (view.pageAt ⟨it.cur_key_, hash it.cur_key_⟩) chain
      { sleNode := sle, uDirEntry := it.entry_, uEntryIndex := it.index_ } rest ∧
    left = rest ++ (visitsFrom (it.cur_key_ + 1) (bookDirs view root)).flatMap orders

namespace BookDirs

theorem enter_spec (it : BookIterator) (hbook : BookListing hash view root orders) (hfuel : dirNodeMaxPages ≤ fuel)
    {key x : Uint256} {xs : List Uint256} (hkey : key ∈ bookDirs view root)
    (horders : orders key = x :: xs) : ∃ it', enter hash view fuel it key = some it' ∧ it'.index_ = x ∧
      At hash view root orders it' (xs ++ (visitsFrom (key + 1) (bookDirs view root)).flatMap orders) := by
  obtain ⟨ordered, chain, added, h, heq, -⟩ := hbook key hkey
  obtain ⟨rootPage, hroot⟩ := h.exists_of_mem h.root
  have hleft := left_first h.toChained hroot it.index_
  rw [← heq, horders] at hleft
  obtain ⟨hnil, -⟩ | ⟨k, keys, c, hcons, hnext, hindex, hleft'⟩ :=
    cdirNext_spec h.toChained hleft (h.length_chain_le.trans hfuel)
  · cases hnil
  · cases hcons
    let it' : BookIterator := { it with
      cur_key_ := key, sle_ := some c.sleNode, entry_ := c.uDirEntry, index_ := c.uEntryIndex }
    refine ⟨it', ?_, hindex, ordered, chain, added, c.sleNode, xs, h, hkey, rfl, hleft', rfl⟩
    rw [enter, cdirFirst_some hroot, hnext]
    rfl

theorem next_spec (hlt : root + 2 ^ 64 < 2 ^ 256) (hbook : BookListing hash view root orders)
    (hfuel : dirNodeMaxPages ≤ fuel)
    (hat : At hash view root orders it left) (hindex : it.index_ ≠ 0) :
    (left = [] ∧ ∃ it', next hash view root fuel it = some it' ∧ atEnd it' = true) ∨
      ∃ key keys it', left = key :: keys ∧ next hash view root fuel it = some it' ∧ it'.index_ = key ∧
        At hash view root orders it' keys := by
  obtain ⟨ordered, chain, added, sle, rest, h, hkey, hsle, hleft, rfl⟩ := hat
  obtain ⟨-, hge, hle⟩ := mem_bookDirs.1 hkey
  have hbound : root ≤ it.cur_key_ + 1 := hge.trans (Nat.le_add_right _ 1)
  have hinc : (it.cur_key_ + 1) % 2 ^ 256 = it.cur_key_ + 1 :=
    Nat.mod_eq_of_lt (lt_of_le_of_lt hle hlt)
  obtain ⟨rfl, c, hnext, hzero⟩ | ⟨key, keys, c, rfl, hnext, hkey', hleft'⟩ :=
    cdirNext_spec h.toChained hleft (h.length_chain_le.trans hfuel)
  · -- the directory is at its end
    set it₁ : BookIterator :=
      { it with sle_ := some c.sleNode, entry_ := c.uDirEntry, index_ := c.uEntryIndex } with hit₁
    have hhop : next hash view root fuel it = hop hash view root fuel it₁ := by
      rw [next, if_neg hindex, hsle, Option.bind_some, hnext]
      rfl
    obtain ⟨hnone, hvisits⟩ | ⟨key, hmem, hne, hsucc, hvisits⟩ :=
      visits_search view hlt hbound
    · refine .inl ⟨by rw [hvisits]; rfl, { it₁ with cur_key_ := it₁.key_, entry_ := 0, index_ := 0 }, ?_, ?_⟩
      · have hnone' : (view.succ ((it₁.cur_key_ + 1) % 2 ^ 256) (getQualityNext root)).getD 0 = 0 :=
          hinc.symm ▸ hnone
        rw [hhop, hop, if_pos (.inr hnone')]
      · simp [atEnd]
    · obtain ⟨-, -, -, -, -, hfull, -⟩ := hbook key hmem
      obtain ⟨x, xs, horders⟩ := exists_cons_of_ne_nil hfull
      obtain ⟨it', henter, hx, hat'⟩ := enter_spec it₁ hbook hfuel hmem horders
      refine .inr ⟨x, _, it', ?_, ?_, hx, hat'⟩
      · rw [hvisits, flatMap_cons, horders]
        rfl
      · have hsucc' : (view.succ ((it₁.cur_key_ + 1) % 2 ^ 256) (getQualityNext root)).getD 0 = key :=
          hinc.symm ▸ hsucc
        have hstay : ¬ (it₁.index_ ≠ 0 ∨
            (view.succ ((it₁.cur_key_ + 1) % 2 ^ 256) (getQualityNext root)).getD 0 = 0) :=
          not_or.2 ⟨not_not.2 hzero, hsucc' ▸ hne⟩
        rw [hhop, hop, if_neg hstay, ← henter]
        exact congrArg _ hsucc'
  · refine .inr ⟨key, _, { it with sle_ := some c.sleNode, entry_ := c.uDirEntry, index_ := c.uEntryIndex },
      cons_append .., ?_, hkey', ordered, chain, added, c.sleNode, keys, h, hkey, rfl, hleft', rfl⟩
    rw [next, if_neg hindex, hsle, Option.bind_some, hnext]
    rfl

theorem keys_of_at (hlt : root + 2 ^ 64 < 2 ^ 256) (hbook : BookListing hash view root orders)
    (hfuel : dirNodeMaxPages ≤ fuel)
    {rounds : ℕ} (hat : At hash view root orders it left) (hindex : it.index_ ≠ 0) (hleft : 0 ∉ left)
    (hrounds : left.length + 1 < rounds) :
    keys hash view root fuel rounds it = some (it.index_ :: left) := by
  refine keys_of_steps (fun _ _ hend => ?_) (fun _ it hindex => ?_)
    (fun _ _ hat => next_spec hlt hbook hfuel hat) hat hindex hleft hrounds
  · simp [keys, hend]
  · simp [keys, atEnd, hindex]

theorem offers_eq (hlt : root + 2 ^ 64 < 2 ^ 256) (hbook : BookListing hash view root orders)
    (hroot : root ≠ 0)
    (hfuel : dirNodeMaxPages + ((bookDirs view root).flatMap orders).length ≤ fuel) :
    offers hash view root fuel = some ((visitsFrom root (bookDirs view root)).flatMap orders) := by
  have hzero : 0 ∉ (visitsFrom root (bookDirs view root)).flatMap orders := by
    intro hmem
    obtain ⟨key, hkey, hmem⟩ := mem_flatMap.1 hmem
    obtain ⟨-, -, -, -, -, -, hnot⟩ := hbook key ((visitsFrom_sublist _ _).subset hkey)
    exact hnot hmem
  have hlen : ((visitsFrom root (bookDirs view root)).flatMap orders).length + dirNodeMaxPages ≤ fuel := by
    have := ((visitsFrom_sublist root (bookDirs view root)).flatMap orders).length_le
    omega
  rw [offers, start, if_neg hroot]
  obtain ⟨hnone, hvisits⟩ | ⟨key, hmem, hne, hsucc, hvisits⟩ :=
    visits_search view hlt (le_refl root)
  · obtain ⟨fuel, rfl⟩ : ∃ k, fuel = k + 1 := ⟨fuel - 1, by simp only [dirNodeMaxPages] at hlen; omega⟩
    simp only [hnone, if_true, Option.bind_some, hvisits]
    rfl
  · obtain ⟨-, -, -, -, -, hfull, -⟩ := hbook key hmem
    obtain ⟨x, xs, horders⟩ := exists_cons_of_ne_nil hfull
    simp only [hsucc, if_neg hne]
    have hlist : (visitsFrom root (bookDirs view root)).flatMap orders =
        x :: (xs ++ (visitsFrom (key + 1) (bookDirs view root)).flatMap orders) := by
      rw [hvisits, flatMap_cons, horders]
      rfl
    rw [hlist] at hzero hlen ⊢
    have hpages : dirNodeMaxPages ≤ fuel := by omega
    obtain ⟨it', henter, hx, hat⟩ := enter_spec { key_ := key, cur_key_ := key } hbook hpages hmem horders
    obtain ⟨hx0, hrest⟩ := not_or.1 (mt mem_cons.2 hzero)
    rw [henter, Option.bind_some, keys_of_at hlt hbook hpages hat (hx ▸ Ne.symm hx0) hrest
      (by simp only [dirNodeMaxPages, length_cons] at hlen; omega), hx]

end BookDirs

theorem eq_of_sublist_of_length_flatMap {s l : List Uint256} {f : Uint256 → List Uint256}
    (hsub : s.Sublist l) (hne : ∀ a ∈ l, f a ≠ [])
    (hlen : (s.flatMap f).length = (l.flatMap f).length) : s = l := by
  induction hsub with
  | slnil => rfl
  | @cons s l a hsub ih =>
    have hle := (hsub.flatMap f).length_le
    have hpos := length_pos_of_ne_nil (hne a mem_cons_self)
    rw [flatMap_cons, length_append] at hlen
    omega
  | @cons_cons s l a hsub ih =>
    rw [flatMap_cons, flatMap_cons, length_append, length_append,
      Nat.add_left_cancel_iff] at hlen
    rw [ih (fun b hb => hne b (mem_cons_of_mem _ hb)) hlen]

/-- Where `getQualityNext` wraps, no key is below it and the iterator is at the end from the start. -/
theorem BookDirs.offers_wrapped (hash : PageHash) (view : OpenView) (hroot : root ≠ 0)
    (hbits : root < 2 ^ 256) (hwrap : 2 ^ 256 ≤ root + 2 ^ 64) (hfuel : fuel ≠ 0) :
    offers hash view root fuel = some [] := by
  have hlast := getQualityNext_of_le hbits hwrap
  have hnone : view.succ root (getQualityNext root) = none := by
    have hfinds := OrderedMap.finds_succ view.entries root (some (getQualityNext root))
    cases hsucc : view.succ root (getQualityNext root) with
    | none => rfl
    | some key =>
      rw [show view.entries.succ root (some (getQualityNext root)) = some key from hsucc] at hfinds
      obtain ⟨⟨hgt, -⟩, hbelow⟩ := hfinds.1
      exact absurd (hgt.trans (OrderedMap.below_some.1 hbelow)) hlast.asymm
  obtain ⟨fuel, rfl⟩ := Nat.exists_eq_add_one_of_ne_zero hfuel
  rw [offers, start, if_neg hroot, hnone]
  rfl

/-- The whole book is enumerated just when no directory is at quality zero or right behind another:
`succ` is called with a key that was advanced already. A book at the end of the keys has no end to
be searched up to. -/
theorem book_enumerated_iff (hbook : BookListing hash view root orders) (hroot : root ≠ 0)
    (hbits : root < 2 ^ 256) :
    (∃ enough, ∀ fuel, enough ≤ fuel →
      BookDirs.offers hash view root fuel = some ((bookDirs view root).flatMap orders)) ↔
      (bookDirs view root ≠ [] → root + 2 ^ 64 < 2 ^ 256) ∧ root ∉ bookDirs view root ∧
        ∀ key ∈ bookDirs view root, key + 1 ∉ bookDirs view root := by
  have hfull : ∀ key ∈ bookDirs view root, orders key ≠ [] := by
    intro key hkey
    obtain ⟨-, -, -, -, -, hne, -⟩ := hbook key hkey
    exact hne
  by_cases hlt : root + 2 ^ 64 < 2 ^ 256
  · have hvisits : visitsFrom root (bookDirs view root) = bookDirs view root ↔
        root ∉ bookDirs view root ∧ ∀ key ∈ bookDirs view root, key + 1 ∉ bookDirs view root := by
      rw [visitsFrom_eq_self_iff (bookDirs_sorted view root)]
      refine and_congr_left fun _ => ⟨fun h hmem => (h root hmem).false, fun h key hkey => ?_⟩
      have hne : root ≠ key := fun heq => h (heq ▸ hkey)
      exact lt_of_le_of_ne (mem_bookDirs.1 hkey).2.1 hne
    rw [and_iff_right fun _ => hlt, ← hvisits]
    constructor
    · rintro ⟨enough, h⟩
      have hall := h (max enough (dirNodeMaxPages + ((bookDirs view root).flatMap orders).length))
        (le_max_left _ _)
      rw [BookDirs.offers_eq hlt hbook hroot (le_max_right _ _)] at hall
      exact eq_of_sublist_of_length_flatMap (visitsFrom_sublist _ _) hfull
        (congrArg List.length (Option.some.inj hall))
    · intro heq
      refine ⟨dirNodeMaxPages + ((bookDirs view root).flatMap orders).length, fun fuel hfuel => ?_⟩
      rw [BookDirs.offers_eq hlt hbook hroot hfuel, heq]
  · have hnone : ∀ fuel, fuel ≠ 0 → BookDirs.offers hash view root fuel = some [] := fun fuel =>
      BookDirs.offers_wrapped hash view hroot hbits (not_lt.1 hlt)
    constructor
    · rintro ⟨enough, h⟩
      have hall := h (enough + 1) (Nat.le_succ _)
      rw [hnone _ (Nat.succ_ne_zero _)] at hall
      have hempty : bookDirs view root = [] := by
        have hsub : [].Sublist (bookDirs view root) := nil_sublist _
        exact (eq_of_sublist_of_length_flatMap hsub hfull
          (congrArg List.length (Option.some.inj hall))).symm
      simp [hempty]
    · rintro ⟨hwrap, -⟩
      have hempty : bookDirs view root = [] := by
        by_contra hne
        exact hlt (hwrap hne)
      refine ⟨1, fun fuel hfuel => ?_⟩
      rw [hnone fuel (Nat.ne_zero_of_lt hfuel), hempty]
      rfl

end Iterate

/-! ## Books with two directories -/

def twoQualities (q q' : ℕ) : OpenView where
  entries := (OrderedMap.empty.insert (2 ^ 64 + q)
      { entry := .dirNode { indexes := [11], rootIndex := 2 ^ 64 + q } }).insert (2 ^ 64 + q')
      { entry := .dirNode { indexes := [12], rootIndex := 2 ^ 64 + q' } }

def twoOrders (q key : ℕ) : List Uint256 := if key = 2 ^ 64 + q then [11] else [12]

def spreadHash : PageHash := fun key => (spreadPages key).sha512Half

theorem pageAt_two {q q' key : ℕ} {node : DirNode} (hq : q < 9) (hq' : q' < 9)
    (hkey : 2 ^ 64 ≤ key) (hroot : (twoQualities q q').entryAt key = some (.dirNode node)) :
    (twoQualities q q').pageAt ⟨key, spreadHash key⟩ = Function.update (fun _ => none) 0 (some node) := by
  funext n
  rw [OpenView.pageAt, Function.update_apply]
  by_cases hn : n = 0
  · rw [if_pos hn, hn, if_pos (by decide), getDirNodeIndex, if_pos rfl, hroot]
    rfl
  · -- further pages are behind the book
    have hne : ∀ r : ℕ, r < 9 → key + n * 2 ^ 65 ≠ 2 ^ 64 + r := by omega
    have hnone : (twoQualities q q').entryAt (key + n * 2 ^ 65) = none := by
      rw [OpenView.entryAt, OpenView.read, twoQualities, OrderedMap.find?_insert, if_neg (hne q' hq'),
        OrderedMap.find?_insert, if_neg (hne q hq)]
      rfl
    have hindex : getDirNodeIndex ⟨key, spreadHash key⟩ n = key + n * 2 ^ 65 := if_neg hn
    rw [if_neg hn, hindex, hnone]
    split <;> rfl

theorem bookListing_two {q q' : ℕ} (hne : q ≠ q') (hq : q < 9) (hq' : q' < 9) :
    BookListing spreadHash (twoQualities q q') (2 ^ 64) (twoOrders q) := by
  have hone : ∀ {key x : Uint256}, 2 ^ 64 ≤ key → x ≠ 0 → twoOrders q key = [x] →
      (twoQualities q q').entryAt key = some (.dirNode { indexes := [x], rootIndex := key }) →
      ∃ ordered chain added,
        Listing ordered ((twoQualities q q').pageAt ⟨key, spreadHash key⟩) chain added ∧
        twoOrders q key =
          chain.flatMap (indexesAt ((twoQualities q q').pageAt ⟨key, spreadHash key⟩)) ∧
        twoOrders q key ≠ [] ∧ 0 ∉ twoOrders q key := by
    intro key x hkey hx horders hentry
    have hlist : Listing false
        (Function.update (fun _ => none) 0 (some { indexes := [x], rootIndex := key })) [0] [(x, 0)] :=
      listing_root rfl rfl rfl fun _ => rfl
    rw [pageAt_two hq hq' hkey hentry, horders]
    refine ⟨false, [0], [(x, 0)], hlist, ?_, cons_ne_nil _ _, by simpa using hx.symm⟩
    rw [flatMap_singleton, indexesAt_update, if_pos rfl]
  intro key hkey
  obtain ⟨hsome, hroot, -⟩ := mem_bookDirs.1 hkey
  simp only [twoQualities, OrderedMap.find?_insert] at hsome
  by_cases hk' : key = 2 ^ 64 + q'
  · refine hone (x := 12) hroot (by decide) ?_ ?_
    · rw [twoOrders, if_neg (fun hk => hne (Nat.add_left_cancel (hk.symm.trans hk')))]
    · rw [OpenView.entryAt, OpenView.read, twoQualities, OrderedMap.find?_insert, if_pos hk', hk']
      rfl
  · by_cases hk : key = 2 ^ 64 + q
    · refine hone (x := 11) hroot (by decide) ?_ ?_
      · rw [twoOrders, if_pos hk]
      · rw [OpenView.entryAt, OpenView.read, twoQualities, OrderedMap.find?_insert, if_neg hk',
          OrderedMap.find?_insert, if_pos hk, hk]
        rfl
    · rw [if_neg hk', if_neg hk] at hsome
      cases hsome

theorem book_enumerated_iff_apart : ∃ enough, ∀ fuel, enough ≤ fuel →
    BookDirs.offers spreadHash (twoQualities 1 3) (2 ^ 64) fuel = some [11, 12] := by
  have hbook : BookListing spreadHash (twoQualities 1 3) (2 ^ 64) (twoOrders 1) :=
    bookListing_two (by decide) (by decide) (by decide)
  have hiff := book_enumerated_iff hbook (by decide) (by decide)
  exact hiff.2 ⟨fun _ => by decide, by decide +kernel, by decide +kernel⟩

/-- Of two directories at adjacent qualities the second is passed over. -/
theorem book_skips_adjacent : BookListing spreadHash (twoQualities 1 2) (2 ^ 64) (twoOrders 1) ∧
    bookDirs (twoQualities 1 2) (2 ^ 64) = [2 ^ 64 + 1, 2 ^ 64 + 2] ∧
    BookDirs.offers spreadHash (twoQualities 1 2) (2 ^ 64) 9 = some [11] :=
  ⟨bookListing_two (by decide) (by decide) (by decide), by decide +kernel, by decide +kernel⟩

end Ripple.Ledger
