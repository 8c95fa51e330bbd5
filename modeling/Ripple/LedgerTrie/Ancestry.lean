import Ripple.LedgerTrie.Find

/-!
# Ripple.LedgerTrie.Ancestry

Ledgers with exact ancestry. Such a ledger knows the id of each of its ancestors, so it can be
identified with its `history`, the list of these ids from the genesis ledger on, and to descend
from a ledger is to have its history as an initial part.

* `le_mismatch_iff`: `mismatch` says up to where two ledgers agree.
* `history_injective`, `history_isPrefix_iff`: histories stand for ledgers.
-/

namespace Ripple.LedgerTrie

open List
open Ledger (seq ancestor mismatch)

/-- Two ledgers that agree at a sequence number agree below it, all share the genesis ledger, and
`mismatch` is the first number at which the two differ. -/
class ExactAncestry (L : Type) {ID : outParam Type} [Ledger L ID] : Prop where
  genesis_seq : seq (Ledger.makeGenesis : L) = 0
  common_genesis : ∀ a b : L, ancestor a 0 = ancestor b 0
  id_eq_ancestor : ∀ a : L, Ledger.id a = ancestor a (seq a)
  agree_below : ∀ {a b : L} {s r : Nat}, s ≤ seq a → s ≤ seq b → ancestor a s = ancestor b s →
    r ≤ s → ancestor a r = ancestor b r
  mismatch_le_left : ∀ a b : L, mismatch a b ≤ seq a + 1
  mismatch_le_right : ∀ a b : L, mismatch a b ≤ seq b + 1
  agree_of_lt : ∀ {a b : L} {s : Nat}, s < mismatch a b → ancestor a s = ancestor b s
  differ_at : ∀ {a b : L}, mismatch a b ≤ seq a → mismatch a b ≤ seq b →
    ancestor a (mismatch a b) ≠ ancestor b (mismatch a b)
  ext : ∀ {a b : L}, seq a = seq b → Ledger.id a = Ledger.id b → a = b

variable {L ID : Type} [Ledger L ID]

/-- `x` is `l` or a descendant of `l`. -/
def Descends (l x : L) : Prop := seq l ≤ seq x ∧ ancestor x (seq l) = Ledger.id l

instance [DecidableEq ID] (l x : L) : Decidable (Descends l x) :=
  inferInstanceAs (Decidable (_ ∧ _))

def Agree (a b : L) (e : Nat) : Prop := ∀ s < e, ancestor a s = ancestor b s

variable {e : Nat} {a b : L} {e' : Nat} {x : L}

theorem Agree.symm (h : Agree a b e) : Agree b a e :=
  fun s hs => (h s hs).symm

theorem Agree.trans {c : L} (h : Agree a b e) (h' : Agree b c e) : Agree a c e :=
  fun s hs => (h s hs).trans (h' s hs)

theorem Agree.mono (h : Agree a b e) (hle : e' ≤ e) : Agree a b e' :=
  fun s hs => h s (hs.trans_le hle)

/-- The ids of the ancestors of `x` below sequence number `e`, oldest first. -/
def hist (x : L) (e : Nat) : List ID := (List.range e).map (ancestor x)

/-- The ids from the genesis ledger up to the ledger itself. -/
def history (l : L) : List ID := hist l (seq l + 1)

def tipHistory (p : Nat × L) : List ID := hist p.2 p.1

@[simp] theorem length_hist (x : L) (e : Nat) : (hist x e).length = e := by
  simp [hist]

theorem length_history (l : L) : (history l).length = seq l + 1 := length_hist l _

theorem hist_isPrefix_iff : hist a e <+: hist b e' ↔ e ≤ e' ∧ Agree a b e := by
  simp only [prefix_iff_getElem, hist, getElem_map, getElem_range, length_map,
    length_range, exists_prop, Agree]

theorem getElem?_hist (x : L) (e s : Nat) :
    (hist x e)[s]? = if s < e then some (ancestor x s) else none := by
  rw [hist, getElem?_map]
  split
  · rename_i h
    rw [getElem?_range h, Option.map_some]
  · rename_i h
    rw [getElem?_eq_none (by simpa using h), Option.map_none]

theorem append_isPrefix_iff {p : List ID} {i : ID} : p ++ [i] <+: history x ↔
    p <+: history x ∧ p.length ≤ seq x ∧ ancestor x p.length = i := by
  have hget := getElem?_hist x (seq x + 1) p.length
  constructor
  · rintro ⟨rest, hr⟩
    rw [append_assoc] at hr
    have hlen := congrArg List.length hr
    rw [length_append, length_append, length_singleton, length_history] at hlen
    rw [← history, ← hr, getElem?_append_right le_rfl, Nat.sub_self, if_pos (by omega)] at hget
    exact ⟨⟨[i] ++ rest, hr⟩, by omega, (Option.some.inj hget).symm⟩
  · rintro ⟨⟨rest, hr⟩, hlen, hi⟩
    rw [← history, ← hr, getElem?_append_right le_rfl, Nat.sub_self, if_pos (by omega), hi] at hget
    obtain ⟨tail, rfl⟩ := head?_eq_some_iff.mp (head?_eq_getElem? ▸ hget)
    exact ⟨tail, by rw [← hr, append_assoc]; rfl⟩

theorem hist_inj : hist a e = hist b e' ↔ e = e' ∧ Agree a b e := by
  constructor
  · intro h
    have hlen := congrArg List.length h
    simp only [length_hist] at hlen
    exact ⟨hlen, (hist_isPrefix_iff.mp (by rw [h])).2⟩
  · rintro ⟨rfl, h⟩
    exact (hist_isPrefix_iff.mpr ⟨le_rfl, h⟩).eq_of_length (by simp)

variable [ExactAncestry L]

open ExactAncestry

theorem le_mismatch_iff (ha : e ≤ seq a + 1) (hb : e ≤ seq b + 1) :
    e ≤ mismatch a b ↔ Agree a b e := by
  constructor
  · intro h s hs
    exact agree_of_lt (hs.trans_le h)
  · intro h
    by_contra hlt
    exact differ_at (by omega) (by omega) (h (mismatch a b) (by omega))

theorem agree_of_le_mismatch (h : e ≤ mismatch a b) : Agree a b e :=
  (le_mismatch_iff (h.trans (mismatch_le_left a b)) (h.trans (mismatch_le_right a b))).mp h

theorem agree_succ_iff {s : Nat} (ha : s ≤ seq a) (hb : s ≤ seq b) :
    Agree a b (s + 1) ↔ ancestor a s = ancestor b s :=
  ⟨fun h => h s (Nat.lt_succ_self s), fun h _ hr => agree_below ha hb h (Nat.le_of_lt_succ hr)⟩

instance : LawfulLedger L where
  genesis_seq := genesis_seq
  mismatch_pos a b := by
    by_contra h
    have h0 : mismatch a b = 0 := by omega
    exact differ_at (a := a) (b := b) (by omega) (by omega) (by rw [h0]; exact common_genesis a b)
  mismatch_le_left := mismatch_le_left
  mismatch_le_right := mismatch_le_right
  mismatch_self a := by
    refine le_antisymm (mismatch_le_left a a) ?_
    rw [le_mismatch_iff le_rfl le_rfl]
    exact fun _ _ => rfl

theorem history_isPrefix_iff {l : L} : history l <+: history x ↔ Descends l x := by
  rw [history, history, hist_isPrefix_iff, Descends, id_eq_ancestor]
  constructor
  · rintro ⟨hle, h⟩
    exact ⟨by omega, (h (seq l) (Nat.lt_succ_self _)).symm⟩
  · rintro ⟨hle, h⟩
    exact ⟨by omega, (agree_succ_iff le_rfl hle).mpr h.symm⟩

theorem history_injective : Function.Injective (history : L → List ID) := by
  intro a b h
  obtain ⟨hs, hag⟩ := hist_inj.mp h
  have hseq : seq a = seq b := by omega
  refine ext hseq ?_
  rw [id_eq_ancestor, id_eq_ancestor, ← hseq]
  exact hag (seq a) (Nat.lt_succ_self _)

/-! ## Ledgers as lists -/

/-- The ledgers that the tests of the trie write as `h["abc"]`: lists of transactions, each its own id. -/
structure Chain where
  path : List Nat
deriving DecidableEq, Repr

namespace Chain

def commonLength : List Nat → List Nat → Nat
  | x :: xs, y :: ys => if x = y then commonLength xs ys + 1 else 0
  | _, _ => 0

instance : Ledger Chain (List Nat) where
  makeGenesis := ⟨[]⟩
  seq c := c.path.length
  id c := c.path
  ancestor c s := c.path.take s
  mismatch a b := commonLength a.path b.path + 1

theorem commonLength_le (xs ys : List Nat) :
    commonLength xs ys ≤ xs.length ∧ commonLength xs ys ≤ ys.length := by
  fun_induction commonLength xs ys with
  | case1 x xs ys ih => simpa using ih
  | case2 => simp
  | case3 => simp

theorem take_eq_of_le (xs ys : List Nat) :
    ∀ s ≤ commonLength xs ys, xs.take s = ys.take s := by
  fun_induction commonLength xs ys with
  | case1 x xs ys ih =>
    intro s hs
    cases s with
    | zero => rfl
    | succ s => rw [take_succ_cons, take_succ_cons, ih s (by omega)]
  | case2 | case3 => intro s hs; rw [Nat.le_zero.mp hs]; rfl

theorem take_ne (xs ys : List Nat) : commonLength xs ys + 1 ≤ xs.length →
    commonLength xs ys + 1 ≤ ys.length →
      xs.take (commonLength xs ys + 1) ≠ ys.take (commonLength xs ys + 1) := by
  fun_induction commonLength xs ys with
  | case1 x xs ys ih =>
    intro h1 h2 heq
    rw [take_succ_cons, take_succ_cons, List.cons.injEq] at heq
    exact ih (by simpa using h1) (by simpa using h2) heq.2
  | case2 x xs y ys hne =>
    intro _ _ heq
    rw [take_succ_cons, take_succ_cons, List.cons.injEq] at heq
    exact hne heq.1
  | case3 xs ys hcons =>
    intro h1 h2
    rcases xs with _ | ⟨x, xs⟩
    · simp at h1
    · rcases ys with _ | ⟨y, ys⟩
      · simp at h2
      · exact absurd rfl (hcons x xs y ys rfl)

instance : ExactAncestry Chain where
  genesis_seq := rfl
  common_genesis _ _ := rfl
  id_eq_ancestor a := (take_length).symm
  agree_below {a b s r} _ _ h hr := by
    have := congrArg (List.take r) h
    rwa [show Ledger.ancestor a s = a.path.take s from rfl,
      show Ledger.ancestor b s = b.path.take s from rfl, take_take, take_take,
      min_eq_left hr] at this
  mismatch_le_left a b := Nat.succ_le_succ (commonLength_le a.path b.path).1
  mismatch_le_right a b := Nat.succ_le_succ (commonLength_le a.path b.path).2
  agree_of_lt {a b s} hs := take_eq_of_le a.path b.path s (Nat.le_of_lt_succ hs)
  differ_at {a b} ha hb := take_ne a.path b.path ha hb
  ext {a b} _ h := congrArg Chain.mk h

end Chain

end Ripple.LedgerTrie
