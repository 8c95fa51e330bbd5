import Ripple.LedgerTrie.Ancestry

/-!
# Ripple.LedgerTrie.Walk

The preferred branch of a multiset of supported ledgers, found one sequence number at a time. This
is the abstract rule that `getPreferred` implements on compressed spans; nothing here mentions the
trie. A ledger on the way is the list of ids that leads to it from the genesis ledger.

* `walkStep`: the move from one sequence number to the next, if the support allows it.
* `walkFrom_eq`: a chain of steps that cannot go on is the walk.
* `walkStep_beats`: the ledger that a step moves to cannot be overtaken by another child.
-/

namespace Ripple.LedgerTrie

open Ledger (seq ancestor mismatch)

/-! ## The two largest elements -/

section TopTwo

variable {α : Type} [LinearOrder α]

variable {S : Finset α} {b : α}

theorem sort_max (hb : b ∈ S) (hmax : ∀ x ∈ S, x ≤ b) :
    S.sort (· ≥ ·) = b :: (S.erase b).sort (· ≥ ·) := by
  conv_lhs => rw [← Finset.insert_erase hb]
  exact Finset.sort_insert _ (fun x hx => hmax x (Finset.mem_of_mem_erase hx))
    (Finset.notMem_erase b S)

theorem sort_topTwo {s : α} (hb : b ∈ S) (hs : s ∈ S) (hne : s ≠ b) (hmax : ∀ x ∈ S, x ≤ b)
    (hsnd : ∀ x ∈ S, x ≠ b → x ≤ s) : ∃ rest, S.sort (· ≥ ·) = b :: s :: rest := by
  refine ⟨((S.erase b).erase s).sort (· ≥ ·), ?_⟩
  rw [sort_max hb hmax, sort_max (Finset.mem_erase.mpr ⟨hne, hs⟩)]
  intro x hx
  exact hsnd x (Finset.mem_of_mem_erase hx) (Finset.ne_of_mem_erase hx)

end TopTwo

variable {L ID : Type} [Ledger L ID] (M : Multiset L)

def maxSeq : Nat := (M.map seq).fold max 0

theorem seq_le_maxSeq {M : Multiset L} {x : L} (h : x ∈ M) : seq x ≤ maxSeq M := by
  induction M using Multiset.induction with
  | empty => simp at h
  | cons y M ih =>
    rw [maxSeq, Multiset.map_cons, Multiset.fold_cons_left]
    rcases Multiset.mem_cons.mp h with rfl | h
    · exact le_max_left _ _
    · exact (ih h).trans (le_max_right _ _)

variable [LinearOrder ID]

/-! ## One sequence number at a time -/

/-- The number of supported ledgers that are at or below the end of `path`. -/
def support (path : List ID) : Nat := M.countP (fun x => path <+: history x)

/-- The support that may still go to any branch at sequence number `s`. -/
def uncommitted (largestIssued s : Nat) : Nat :=
  M.countP (fun x => seq x < max s largestIssued)

def nextIds (path : List ID) : Finset ID :=
  ((M.filter (fun x => path <+: history x ∧ path.length ≤ seq x)).map
    (fun x => ancestor x path.length)).toFinset

def ranks (path : List ID) : Finset (ℕ ×ₗ ID) :=
  (nextIds M path).image (fun i => toLex (support M (path ++ [i]), i))

def lead : List (ℕ ×ₗ ID) → Option (Nat × ID)
  | [] => none
  | [best] => some ((ofLex best).1, (ofLex best).2)
  | best :: second :: _ =>
    some ((ofLex best).1 - (ofLex second).1 + (if (ofLex second).2 < (ofLex best).2 then 1 else 0),
      (ofLex best).2)

variable (largestIssued : Nat)

def walkStep (path : List ID) : Option (List ID) :=
  match lead ((ranks M path).sort (· ≥ ·)) with
  | none => none
  | some (margin, id) =>
    if margin > uncommitted M largestIssued path.length ∨
        uncommitted M largestIssued path.length = 0 then some (path ++ [id])
    else none

def walkFrom (M : Multiset L) (largestIssued : Nat) : Nat → List ID → List ID
  | 0, path => path
  | fuel + 1, path =>
    match walkStep M largestIssued path with
    | none => path
    | some next => walkFrom M largestIssued fuel next

/-- The walk from the genesis ledger. No supported ledger is further away than `maxSeq M` steps,
so the walk always ends by itself (`walkStep_walk`). -/
def walk : List ID :=
  walkFrom M largestIssued (maxSeq M) (hist (Ledger.makeGenesis : L) 1)

def Steps : List ID → List ID → Prop :=
  Relation.ReflTransGen (fun p q => walkStep M largestIssued p = some q)

section Walk

variable {M : Multiset L} {k : Nat} {p q : List ID}

variable {i : ID} {b : ℕ ×ₗ ID} {j : ID}

theorem mem_nextIds : i ∈ nextIds M p ↔
    ∃ x ∈ M, p <+: history x ∧ p.length ≤ seq x ∧ ancestor x p.length = i := by
  simp only [nextIds, Multiset.mem_toFinset, Multiset.mem_map, Multiset.mem_filter]
  tauto

theorem support_append_pos : 0 < support M (p ++ [i]) ↔ i ∈ nextIds M p := by
  rw [support, Multiset.countP_pos, mem_nextIds]
  simp only [append_isPrefix_iff]

theorem ofLex_mem_ranks {r : ℕ ×ₗ ID} (h : r ∈ ranks M p) :
    (ofLex r).2 ∈ nextIds M p ∧ (ofLex r).1 = support M (p ++ [(ofLex r).2]) := by
  obtain ⟨i, hi, rfl⟩ := Finset.mem_image.mp h
  exact ⟨hi, rfl⟩

theorem mem_ranks (h : i ∈ nextIds M p) : toLex (support M (p ++ [i]), i) ∈ ranks M p :=
  Finset.mem_image_of_mem _ h

theorem lead_mem {S : Finset (ℕ ×ₗ ID)} {m : Nat} (h : lead (S.sort (· ≥ ·)) = some (m, i)) :
    ∃ b ∈ S, (ofLex b).2 = i := by
  have hmem : ∀ x ∈ S.sort (· ≥ ·), x ∈ S := fun x hx => (Finset.mem_sort _).mp hx
  match hs : S.sort (· ≥ ·), h with
  | [b], h =>
    simp only [lead, Option.some.injEq, Prod.mk.injEq] at h
    exact ⟨b, hmem b (by rw [hs]; simp), h.2⟩
  | b :: s :: rest, h =>
    simp only [lead, Option.some.injEq, Prod.mk.injEq] at h
    exact ⟨b, hmem b (by rw [hs]; simp), h.2⟩

/-! ## Runs of the walk -/

theorem walkStep_some (h : walkStep M k p = some q) : ∃ i ∈ nextIds M p, q = p ++ [i] := by
  rw [walkStep] at h
  split at h
  · exact absurd h (by simp)
  · rename_i m i hl
    split at h
    · obtain ⟨b, hb, hi⟩ := lead_mem hl
      refine ⟨i, ?_, (Option.some.inj h).symm⟩
      rw [← hi]
      exact (ofLex_mem_ranks hb).1
    · exact absurd h (by simp)

theorem walkStep_length (h : walkStep M k p = some q) : q.length = p.length + 1 := by
  obtain ⟨i, _, rfl⟩ := walkStep_some h
  simp

theorem walkStep_support (h : walkStep M k p = some q) : 0 < support M q := by
  obtain ⟨i, hi, rfl⟩ := walkStep_some h
  exact support_append_pos.mpr hi

theorem Steps.eq_or_support (h : Steps M k p q) : p = q ∨ 0 < support M q := by
  cases h with
  | refl => exact .inl rfl
  | tail _ hstep => exact .inr (walkStep_support hstep)

theorem Steps.length_le (h : Steps M k p q) : p.length ≤ q.length := by
  induction h with
  | refl => exact le_rfl
  | tail _ hstep ih => rw [walkStep_length hstep]; omega

theorem length_le_of_support (h : 0 < support M p) : p.length ≤ maxSeq M + 1 := by
  obtain ⟨x, hx, hp⟩ := Multiset.countP_pos.mp h
  have := hp.length_le
  rw [length_history] at this
  have := seq_le_maxSeq hx
  omega

theorem walkFrom_eq (h : Steps M k p q) (hstop : walkStep M k q = none) :
    ∀ fuel, q.length ≤ p.length + fuel → walkFrom M k fuel p = q := by
  induction h using Relation.ReflTransGen.head_induction_on with
  | refl =>
    intro fuel _
    cases fuel with
    | zero => rfl
    | succ fuel => rw [walkFrom, hstop]
  | head hstep hrest ih =>
    intro fuel hlen
    have h1 := walkStep_length hstep
    have h2 := Steps.length_le hrest
    cases fuel with
    | zero => omega
    | succ fuel =>
      rw [walkFrom, hstep]
      exact ih fuel (by omega)

theorem walk_eq (h : Steps M k (hist (Ledger.makeGenesis : L) 1) q) (hstop : walkStep M k q = none) :
    walk M k = q := by
  refine walkFrom_eq h hstop _ ?_
  rw [length_hist]
  rcases h.eq_or_support with rfl | hpos
  · rw [length_hist]
    omega
  · have := length_le_of_support hpos
    omega

theorem walkFrom_stops (fuel : Nat) :
    ∀ p : List ID, maxSeq M + 1 ≤ p.length + fuel → walkStep M k (walkFrom M k fuel p) = none := by
  induction fuel with
  | zero =>
    intro p hlen
    cases h : walkStep M k p with
    | none => exact h
    | some q =>
      -- a further step would lead beyond every supported ledger
      have h1 := walkStep_length h
      have h2 := length_le_of_support (walkStep_support h)
      omega
  | succ fuel ih =>
    intro p hlen
    rw [walkFrom]
    cases h : walkStep M k p with
    | none => exact h
    | some q =>
      have := walkStep_length h
      exact ih q (by omega)

theorem walkStep_walk (M : Multiset L) (k : Nat) : walkStep M k (walk M k) = none :=
  walkFrom_stops _ _ (by rw [length_hist]; omega)

/-! ## No other child can overtake -/

/-- With `u` more support `x` would still rank below `b`, or there is no such support to give. -/
def Beaten (u : Nat) (x b : ℕ ×ₗ ID) : Prop :=
  toLex ((ofLex x).1 + u, (ofLex x).2) < b ∨ u = 0 ∧ x < b

theorem beaten_of_lead {u : Nat} {x s : ℕ ×ₗ ID} (hx : x ≤ s) (hs : s < b)
    (h : (ofLex b).1 - (ofLex s).1 + (if (ofLex s).2 < (ofLex b).2 then 1 else 0) > u ∨ u = 0) :
    Beaten u x b := by
  rcases h with h | h
  · left
    rw [Prod.Lex.lt_iff]
    rw [Prod.Lex.le_iff] at hx
    rw [Prod.Lex.lt_iff] at hs
    simp only [ofLex_toLex]
    split at h
    · rename_i hid
      -- the tie-break counts for one: equal support is decided by the ids
      rcases hx with hx | ⟨hx, hx2⟩
      · left; omega
      · rcases Nat.lt_or_ge ((ofLex x).1 + u) (ofLex b).1 with hlt | hge
        · exact .inl hlt
        · exact .inr ⟨by omega, hx2.trans_lt hid⟩
    · left
      have : (ofLex x).1 ≤ (ofLex s).1 := by
        rcases hx with hx | ⟨hx, _⟩
        · exact hx.le
        · exact hx.le
      omega
  · exact .inr ⟨h, hx.trans_lt hs⟩

theorem lt_of_support_zero (hi : i ∈ nextIds M p) (hj : j ∉ nextIds M p)
    (hb : b = toLex (support M (p ++ [i]), i)) : toLex (support M (p ++ [j]), j) < b := by
  have hpos := support_append_pos.mpr hi
  have hzero := mt support_append_pos.mp hj
  rw [hb, Prod.Lex.lt_iff]
  left
  simp only [ofLex_toLex]
  omega

theorem walkStep_beats (h : walkStep M k p = some (p ++ [i])) (hij : j ≠ i) :
    Beaten (uncommitted M k p.length) (toLex (support M (p ++ [j]), j))
      (toLex (support M (p ++ [i]), i)) := by
  have hsorted := Finset.pairwise_sort (ranks M p) (· ≥ ·)
  have hnodup := Finset.sort_nodup (ranks M p) (· ≥ ·)
  have hmem : ∀ x, x ∈ (ranks M p).sort (· ≥ ·) ↔ x ∈ ranks M p := fun x => Finset.mem_sort _
  rw [walkStep] at h
  split at h
  · exact absurd h (by simp)
  · rename_i m id hl
    split at h
    · rename_i hmove
      have hid : id = i := by simpa using h
      subst hid
      match hs : (ranks M p).sort (· ≥ ·), hl with
      | [b], hl =>
        simp only [lead, Option.some.injEq, Prod.mk.injEq] at hl
        obtain ⟨hi, hsup⟩ := ofLex_mem_ranks ((hmem b).mp (by rw [hs]; simp))
        have hb : b = toLex (support M (p ++ [id]), id) := by
          rw [← hl.2, ← hsup]; rfl
        have hj : j ∉ nextIds M p := by
          intro hj
          have := (hmem _).mpr (mem_ranks hj)
          rw [hs, List.mem_singleton] at this
          exact hij (by rw [← hl.2, ← this]; rfl)
        have hlt := lt_of_support_zero (hl.2 ▸ hi) hj rfl
        rcases hmove with hmove | hmove
        · left
          have hzero := mt support_append_pos.mp hj
          rw [Prod.Lex.lt_iff]
          left
          rw [hl.2] at hsup
          simp only [ofLex_toLex]
          omega
        · exact .inr ⟨hmove, hlt⟩
      | b :: s :: rest, hl =>
        simp only [lead, Option.some.injEq, Prod.mk.injEq] at hl
        rw [hs] at hsorted hnodup
        obtain ⟨hi, hsup⟩ := ofLex_mem_ranks ((hmem b).mp (by rw [hs]; simp))
        obtain ⟨hi', hsup'⟩ := ofLex_mem_ranks ((hmem s).mp (by rw [hs]; simp))
        have hb : b = toLex (support M (p ++ [id]), id) := by
          rw [← hl.2, ← hsup]; rfl
        have hlt : s < b := by
          refine lt_of_le_of_ne ((List.pairwise_cons.mp hsorted).1 s List.mem_cons_self) ?_
          rintro rfl
          exact (List.nodup_cons.mp hnodup).1 List.mem_cons_self
        have hx : toLex (support M (p ++ [j]), j) ≤ s := by
          by_cases hj : j ∈ nextIds M p
          · have hin := (hmem _).mpr (mem_ranks hj)
            rw [hs, List.mem_cons, List.mem_cons] at hin
            rcases hin with hin | hin | hin
            · exact absurd (congrArg (fun r => (ofLex r).2) (hin.trans hb)) hij
            · exact hin.le
            · exact (List.pairwise_cons.mp (List.pairwise_cons.mp hsorted).2).1 _ hin
          · exact (lt_of_support_zero hi' hj (by rw [← hsup']; rfl)).le
        rw [← hb]
        rw [← hl.1] at hmove
        exact beaten_of_lead hx hlt hmove
    · exact absurd h (by simp)

end Walk

end Ripple.LedgerTrie
