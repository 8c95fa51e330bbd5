import Ripple.SHAMap.Convert

/-!
# Ripple.SHAMap.Delta

The comparison of two maps, `walkBranch` and `compare` of `shamap/impl/SHAMapDelta.cpp`. Pairs of nodes
on the same branches are compared, branches with the same hash are left out, and a branch that meets a
single item or nothing at all is walked to its end.

All entries are inserted in one way (`report`), so that a run of the loops is a list of entries cut off
by `maxCount` (`reportAll`). `pairEntries` is that list, by recursion over the trees (`compareLoop_eq`).
-/

namespace Ripple.SHAMap

open Trie List
open Labelled (depth)

variable {L D H : Type} [DecidableEq D] [Zero H] [DecidableEq H]

/-! ## The loops -/

abbrev DeltaItem (D : Type) := Option D × Option D

abbrev Delta (D : Type) := List (Key × DeltaItem D)

/-- `differences.insert`: the entry that a key has already stays. -/
def insertEntry (differences : Delta D) (e : Key × DeltaItem D) : Delta D :=
  if e.1 ∈ differences.map Prod.fst then differences else differences ++ [e]

structure Progress (D : Type) where
  differences : Delta D
  maxCount : ℤ

variable (e : Key × DeltaItem D)

/-- An insertion with the `if (--maxCount <= 0) return false` behind it. -/
def report (s : Progress D) : Progress D × Bool :=
  (⟨insertEntry s.differences e, s.maxCount - 1⟩, decide (0 < s.maxCount - 1))

abbrev Outcome (D : Type) := Except IterFault (Progress D × Bool)

def andThen (r : Progress D × Bool) (rest : Progress D → Outcome D) : Outcome D :=
  if r.2 then rest r.1 else .ok (r.1, false)

def sides (isFirstMap : Bool) (item other : Option D) : DeltaItem D :=
  if isFirstMap then (item, other) else (other, item)

/-- The loop of `SHAMap::walkBranch` and what follows it. Of `otherMapItem` and `emptyBranch` it
keeps the item as long as `emptyBranch` is not set. -/
def walkLoop (isFirstMap : Bool) : ℕ → Option (Key × D) → List (Tree L D) → Progress D → Outcome D
  | _, none, [], s => .ok (s, true)
  | _, some other, [], s => .ok (report (other.1, sides isFirstMap none (some other.2)) s)
  | 0, _, _ :: _, _ => .error .outOfFuel
  | _ + 1, _, .nil :: _, _ => .error .missingNode
  | n + 1, other, .inner _ ch :: nodeStack, s =>
    -- the branch pushed last is on top
    walkLoop isFirstMap n other ((branches ch).reverse.map ch ++ nodeStack) s
  | n + 1, none, .leaf k v :: nodeStack, s =>
    andThen (report (k, sides isFirstMap (some v.data) none) s) (walkLoop isFirstMap n none nodeStack)
  | n + 1, some other, .leaf k v :: nodeStack, s =>
    if k ≠ other.1 then
      andThen (report (k, sides isFirstMap (some v.data) none) s) (walkLoop isFirstMap n (some other) nodeStack)
    else if v.data ≠ other.2 then
      andThen (report (k, sides isFirstMap (some v.data) (some other.2)) s) (walkLoop isFirstMap n none nodeStack)
    else walkLoop isFirstMap n none nodeStack s

/-- The number of nodes of a tree. No loop over it takes more rounds. -/
def nodeCount : Tree L D → ℕ
  | .nil => 0
  | .leaf _ _ => 1
  | .inner _ ch => ((List.finRange 16).map fun i => nodeCount (ch i)).sum + 1

def walkBranch (node : Tree L D) (otherMapItem : Option (Key × D)) (isFirstMap : Bool) (s : Progress D) :
    Outcome D :=
  walkLoop isFirstMap (nodeCount node) otherMapItem [node] s

/-- A loop over branches of two inner nodes, followed by the rest of the loop over the stack. -/
def branchLoop (hashing : Hashing L D H) (ch ch' : Fin 16 → Tree L D)
    (rest : List (Tree L D × Tree L D) → Progress D → Outcome D) :
    List (Fin 16) → List (Tree L D × Tree L D) → Progress D → Outcome D
  | [], nodeStack, s => rest nodeStack s
  | i :: is, nodeStack, s =>
    if nodeHash hashing (ch i) ≠ nodeHash hashing (ch' i) then
      if (ch' i).isNil then
        (walkBranch (ch i) none true s).bind (andThen · (branchLoop hashing ch ch' rest is nodeStack))
      else if (ch i).isNil then
        (walkBranch (ch' i) none false s).bind (andThen · (branchLoop hashing ch ch' rest is nodeStack))
      else branchLoop hashing ch ch' rest is ((ch i, ch' i) :: nodeStack) s
    else branchLoop hashing ch ch' rest is nodeStack s

/-- The loop of `SHAMap::compare`. -/
def compareLoop (hashing : Hashing L D H) : ℕ → List (Tree L D × Tree L D) → Progress D → Outcome D
  | _, [], s => .ok (s, true)
  | 0, _ :: _, _ => .error .outOfFuel
  | _ + 1, (.nil, _) :: _, _ => .error .missingNode
  | _ + 1, (_, .nil) :: _, _ => .error .missingNode
  | n + 1, (.leaf k v, .leaf k' v') :: nodeStack, s =>
    if k = k' then
      if v.data ≠ v'.data then
        andThen (report (k, (some v.data, some v'.data)) s) (compareLoop hashing n nodeStack)
      else compareLoop hashing n nodeStack s
    else
      andThen (report (k, (some v.data, none)) s) fun s =>
        andThen (report (k', (none, some v'.data)) s) (compareLoop hashing n nodeStack)
  | n + 1, (.inner l ch, .leaf k v) :: nodeStack, s =>
    (walkBranch (.inner l ch) (some (k, v.data)) true s).bind (andThen · (compareLoop hashing n nodeStack))
  | n + 1, (.leaf k v, .inner l ch) :: nodeStack, s =>
    (walkBranch (.inner l ch) (some (k, v.data)) false s).bind (andThen · (compareLoop hashing n nodeStack))
  | n + 1, (.inner _ ch, .inner _ ch') :: nodeStack, s =>
    branchLoop hashing ch ch' (compareLoop hashing n) (List.finRange 16) nodeStack s

variable (hashing : Hashing L D H)

/-- `SHAMap::compare`, from an empty table. -/
def compare (a b : Tree L D) (maxCount : ℤ) : Except IterFault (Delta D × Bool) :=
  if getHash hashing a = getHash hashing b then .ok ([], true)
  else (compareLoop hashing (nodeCount a) [(a, b)] ⟨[], maxCount⟩).map fun r => (r.1.differences, r.2)

/-! ## A run of the loops as a list of entries -/

def reportAll : Delta D → Progress D → Progress D × Bool
  | [], s => (s, true)
  | e :: es, s => if (report e s).2 then reportAll es (report e s).1 else ((report e s).1, false)

section

omit [DecidableEq D]

theorem andThen_reportAll_cons (es : Delta D) (s : Progress D)
    (rest : Progress D → Outcome D) :
    andThen (reportAll (e :: es) s) rest = andThen (report e s) fun s => andThen (reportAll es s) rest := by
  rw [reportAll, andThen, andThen]
  cases h : (report e s).2 with
  | true => rfl
  | false => rfl

theorem andThen_reportAll_append (es es' : Delta D) (rest : Progress D → Outcome D) : ∀ s,
    andThen (reportAll (es ++ es') s) rest =
      andThen (reportAll es s) fun s => andThen (reportAll es' s) rest := by
  induction es with
  | nil => exact fun _ => rfl
  | cons e es ih =>
    intro s
    rw [cons_append, andThen_reportAll_cons, andThen_reportAll_cons]
    exact congrArg (andThen (report e s)) (funext ih)

theorem andThen_ok (r : Progress D × Bool) : (andThen r fun s => .ok (s, true)) = .ok r := by
  obtain ⟨s, b⟩ := r
  cases b with
  | true => rfl
  | false => rfl

theorem ok_reportAll_append (es es' : Delta D) (s : Progress D) :
    (.ok (reportAll (es ++ es') s) : Outcome D) = andThen (reportAll es s) fun s => .ok (reportAll es' s) := by
  rw [← andThen_ok, andThen_reportAll_append]
  simp only [andThen_ok]

theorem ok_reportAll_cons (es : Delta D) (s : Progress D) :
    (.ok (reportAll (e :: es) s) : Outcome D) = andThen (report e s) fun s => .ok (reportAll es s) := by
  rw [← andThen_ok, andThen_reportAll_cons]
  simp only [andThen_ok]

end

/-! ## A branch that is walked to its end -/

def walkOrder : Tree L D → List (Key × Leaf D)
  | .nil => []
  | .leaf k v => [(k, v)]
  | .inner _ ch => (List.finRange 16).reverse.flatMap fun i => walkOrder (ch i)

omit [DecidableEq D] in
theorem walkOrder_perm (t : Tree L D) : (walkOrder t).Perm t.items := by
  induction t with
  | nil | leaf k v => exact List.Perm.refl _
  | inner l ch ih => exact (reverse_perm _).flatMap fun i _ => ih i

theorem flatMap_filter {α β : Type} (p : α → Bool) (f : α → List β) (xs : List α) :
    (xs.filter p).flatMap f = xs.flatMap fun x => if p x then f x else [] := by
  induction xs with
  | nil => rfl
  | cons x xs ih =>
    rw [flatMap_cons, ← ih, filter_cons]
    split
    · rfl
    · rfl

omit [DecidableEq D] in
theorem walkOrder_branches (l : L) (ch : Fin 16 → Tree L D) :
    ((branches ch).reverse.map ch).flatMap walkOrder = walkOrder (.inner l ch) := by
  rw [flatMap_map, walkOrder, branches, ← filter_reverse, flatMap_filter]
  refine flatMap_congr fun i _ => ?_
  cases ch i with
  | nil | leaf k v | inner l' ch' => rfl

omit [DecidableEq D] in
theorem nodeCount_branches (ch : Fin 16 → Tree L D) (p : Fin 16 → Bool) :
    ((((List.finRange 16).filter p).reverse.map ch).map nodeCount).sum ≤
      ((List.finRange 16).map fun i => nodeCount (ch i)).sum := by
  rw [map_map, map_reverse, sum_reverse]
  exact (filter_sublist.map _).sum_le_sum fun _ _ => Nat.zero_le _

def walkEntries (isFirstMap : Bool) : Option (Key × D) → List (Key × Leaf D) → Delta D
  | none, [] => []
  | some other, [] => [(other.1, sides isFirstMap none (some other.2))]
  | none, (k, v) :: xs => (k, sides isFirstMap (some v.data) none) :: walkEntries isFirstMap none xs
  | some other, (k, v) :: xs =>
    if k ≠ other.1 then
      (k, sides isFirstMap (some v.data) none) :: walkEntries isFirstMap (some other) xs
    else if v.data ≠ other.2 then
      (k, sides isFirstMap (some v.data) (some other.2)) :: walkEntries isFirstMap none xs
    else walkEntries isFirstMap none xs

omit [DecidableEq D] in
theorem nodeCount_pos {t : Tree L D} (h : t.isNil = false) : 0 < nodeCount t := by
  cases t with
  | nil => simp at h
  | leaf k v => exact Nat.one_pos
  | inner l ch => exact Nat.succ_pos _

theorem walkLoop_eq (isFirstMap : Bool) (n : ℕ) : ∀ {other : Option (Key × D)} {nodeStack : List (Tree L D)}
    {s : Progress D}, (∀ t ∈ nodeStack, t.isNil = false) → (nodeStack.map nodeCount).sum ≤ n →
    walkLoop isFirstMap n other nodeStack s =
      .ok (reportAll (walkEntries isFirstMap other (nodeStack.flatMap walkOrder)) s) := by
  induction n with
  | zero =>
    intro other nodeStack s hnil hfuel
    cases nodeStack with
    | nil =>
      cases other with
      | none => rfl
      | some other => rw [walkLoop, flatMap_nil, walkEntries, ok_reportAll_cons]; exact (andThen_ok _).symm
    | cons t nodeStack =>
      have := nodeCount_pos (hnil t mem_cons_self)
      rw [map_cons, sum_cons] at hfuel
      omega
  | succ n ih =>
    intro other nodeStack s hnil hfuel
    cases nodeStack with
    | nil =>
      cases other with
      | none => rfl
      | some other => rw [walkLoop, flatMap_nil, walkEntries, ok_reportAll_cons]; exact (andThen_ok _).symm
    | cons t nodeStack =>
      have hrest : ∀ t ∈ nodeStack, t.isNil = false := fun t ht => hnil t (mem_cons_of_mem _ ht)
      rw [map_cons, sum_cons] at hfuel
      rw [flatMap_cons]
      cases t with
      | nil => simpa using hnil .nil mem_cons_self
      | inner l ch =>
        rw [walkLoop, ih, flatMap_append, walkOrder_branches l]
        · intro t ht
          rcases mem_append.mp ht with hch | ht
          · obtain ⟨i, hi, rfl⟩ := mem_map.mp hch
            exact mem_branches.mp (mem_reverse.mp hi)
          · exact hrest t ht
        · have := nodeCount_branches ch fun i => !(ch i).isNil
          rw [nodeCount] at hfuel
          rw [map_append, sum_append, branches]
          omega
      | leaf k v =>
        rw [nodeCount] at hfuel
        have hloop : ∀ other, walkLoop isFirstMap n other nodeStack =
            fun s => .ok (reportAll (walkEntries isFirstMap other (nodeStack.flatMap walkOrder)) s) :=
          fun other => funext fun s => ih hrest (by omega)
        cases other with
        | none =>
          rw [walkLoop, hloop, ← ok_reportAll_cons]
          rfl
        | some other =>
          rw [walkLoop, hloop, hloop]
          simp only [walkOrder, singleton_append, walkEntries]
          split
          · rw [ok_reportAll_cons]
          · split
            · rw [ok_reportAll_cons]
            · rfl

theorem walkBranch_eq {node : Tree L D} (h : node.isNil = false) (otherMapItem : Option (Key × D))
    (isFirstMap : Bool) (s : Progress D) :
    walkBranch node otherMapItem isFirstMap s =
      .ok (reportAll (walkEntries isFirstMap otherMapItem (walkOrder node)) s) := by
  rw [walkBranch, walkLoop_eq isFirstMap _ (by simpa using h) (by simp)]
  simp

/-! ## Pairs of nodes -/

def branchEntries (ch ch' : Fin 16 → Tree L D) (i : Fin 16) : Delta D :=
  if nodeHash hashing (ch i) = nodeHash hashing (ch' i) then []
  else if (ch' i).isNil then walkEntries true none (walkOrder (ch i))
  else if (ch i).isNil then walkEntries false none (walkOrder (ch' i))
  else []

def Pushed (ch ch' : Fin 16 → Tree L D) (i : Fin 16) : Bool :=
  nodeHash hashing (ch i) ≠ nodeHash hashing (ch' i) && !(ch i).isNil && !(ch' i).isNil

theorem branchLoop_eq (ch ch' : Fin 16 → Tree L D)
    (rest : List (Tree L D × Tree L D) → Progress D → Outcome D) (is : List (Fin 16)) :
    ∀ (nodeStack : List (Tree L D × Tree L D)) (s : Progress D),
    branchLoop hashing ch ch' rest is nodeStack s =
      andThen (reportAll (is.flatMap (branchEntries hashing ch ch')) s)
        (rest ((is.filter (Pushed hashing ch ch')).reverse.map (fun i => (ch i, ch' i)) ++ nodeStack)) := by
  induction is with
  | nil => exact fun _ _ => rfl
  | cons i is ih =>
    intro nodeStack s
    rw [flatMap_cons, andThen_reportAll_append, branchLoop, branchEntries]
    by_cases heq : nodeHash hashing (ch i) = nodeHash hashing (ch' i)
    · have hpush : Pushed hashing ch ch' i = false := by simp [Pushed, heq]
      rw [if_neg (not_not.mpr heq), if_pos heq, ih, filter_cons_of_neg (by simp [hpush])]
      rfl
    · rw [if_pos heq, if_neg heq]
      by_cases hother : (ch' i).isNil = true
      · have hours : (ch i).isNil = false := by
          refine Bool.eq_false_iff.mpr fun hours => heq ?_
          rw [isNil_iff.mp hours, isNil_iff.mp hother]
        have hpush : Pushed hashing ch ch' i = false := by simp [Pushed, hother]
        rw [if_pos hother, if_pos hother, walkBranch_eq hours, filter_cons_of_neg (by simp [hpush])]
        exact congrArg (andThen _) (funext (ih nodeStack))
      · rw [if_neg hother, if_neg hother]
        by_cases hours : (ch i).isNil = true
        · have hpush : Pushed hashing ch ch' i = false := by simp [Pushed, hours]
          rw [if_pos hours, if_pos hours, walkBranch_eq (Bool.eq_false_iff.mpr hother),
            filter_cons_of_neg (by simp [hpush])]
          exact congrArg (andThen _) (funext (ih nodeStack))
        · have hpush : Pushed hashing ch ch' i = true := by simp [Pushed, heq, hother, hours]
          rw [if_neg hours, if_neg hours, ih, filter_cons_of_pos hpush]
          simp only [reverse_cons, map_append, append_assoc]
          rfl

def leafEntries (k : Key) (x : D) (k' : Key) (x' : D) : Delta D :=
  if k = k' then if x ≠ x' then [(k, (some x, some x'))] else []
  else [(k, (some x, none)), (k', (none, some x'))]

def pairEntries (hashing : Hashing L D H) : Tree L D → Tree L D → Delta D
  | .nil, _ => []
  | .leaf _ _, .nil => []
  | .leaf k v, .leaf k' v' => leafEntries k v.data k' v'.data
  | .leaf k v, .inner l ch => walkEntries false (some (k, v.data)) (walkOrder (.inner l ch))
  | .inner _ _, .nil => []
  | .inner l ch, .leaf k v => walkEntries true (some (k, v.data)) (walkOrder (.inner l ch))
  | .inner _ ch, .inner _ ch' =>
    (List.finRange 16).flatMap (branchEntries hashing ch ch') ++
      ((List.finRange 16).filter (Pushed hashing ch ch')).reverse.flatMap fun i =>
        pairEntries hashing (ch i) (ch' i)

theorem compareLoop_eq (n : ℕ) : ∀ {nodeStack : List (Tree L D × Tree L D)}
    {s : Progress D}, (∀ p ∈ nodeStack, p.1.isNil = false ∧ p.2.isNil = false) →
    (nodeStack.map fun p => nodeCount p.1).sum ≤ n →
    compareLoop hashing n nodeStack s =
      .ok (reportAll (nodeStack.flatMap fun p => pairEntries hashing p.1 p.2) s) := by
  induction n with
  | zero =>
    intro nodeStack s hnil hfuel
    cases nodeStack with
    | nil => rfl
    | cons p nodeStack =>
      have := nodeCount_pos (hnil p mem_cons_self).1
      rw [map_cons, sum_cons] at hfuel
      omega
  | succ n ih =>
    intro nodeStack s hnil hfuel
    cases nodeStack with
    | nil => rfl
    | cons p nodeStack =>
      obtain ⟨t, t'⟩ := p
      obtain ⟨ht, ht'⟩ := hnil _ mem_cons_self
      have hrest : ∀ p ∈ nodeStack, p.1.isNil = false ∧ p.2.isNil = false :=
        fun p hp => hnil p (mem_cons_of_mem _ hp)
      have hpos := nodeCount_pos ht
      rw [map_cons, sum_cons] at hfuel
      have hloop : compareLoop hashing n nodeStack =
          fun s => .ok (reportAll (nodeStack.flatMap fun p => pairEntries hashing p.1 p.2) s) :=
        funext fun s => ih hrest (by omega)
      rw [flatMap_cons, ok_reportAll_append]
      cases t with
      | nil => simp at ht
      | leaf k v =>
        cases t' with
        | nil => simp at ht'
        | leaf k' v' =>
          rw [compareLoop, hloop, pairEntries, leafEntries]
          split
          · split
            · rw [andThen_reportAll_cons]; rfl
            · rfl
          · rw [andThen_reportAll_cons]
            simp only [andThen_reportAll_cons]
            rfl
        | inner l ch =>
          rw [compareLoop, hloop, walkBranch_eq ht']
          rfl
      | inner l ch =>
        cases t' with
        | nil => simp at ht'
        | leaf k v =>
          rw [compareLoop, hloop, walkBranch_eq ht]
          rfl
        | inner l' ch' =>
          rw [compareLoop, branchLoop_eq, pairEntries, andThen_reportAll_append]
          refine congrArg (andThen _) (funext fun s => ?_)
          rw [ih, flatMap_append, flatMap_map, ok_reportAll_append]
          · intro p hp
            rcases mem_append.mp hp with hch | hp
            · obtain ⟨i, hi, rfl⟩ := mem_map.mp hch
              have := (mem_filter.mp (mem_reverse.mp hi)).2
              simp only [Pushed, Bool.and_eq_true, Bool.not_eq_true'] at this
              exact ⟨this.1.2, this.2⟩
            · exact hrest p hp
          · have := nodeCount_branches ch (Pushed hashing ch ch')
            rw [nodeCount] at hfuel
            rw [map_append, sum_append, map_map]
            rw [map_map] at this
            simp only [Function.comp_def] at this ⊢
            omega

end Ripple.SHAMap
