import Mathlib.Order.Basic
import Mathlib.Order.Nat
import Mathlib.Data.List.Basic

/-!
# Ripple.Lib.PageChain

Numbered pages in a chain that starts at 0, runs through increasing numbers and closes at 0 again.
Such a chain is fixed by the numbers in it: `Follows` says which page comes after which, and both
links of a doubly linked list are read off it.
-/

namespace Ripple.PageChain

open List

/-- Page `n` comes after page `m`: it is the next number, or `m` is the greatest and `n` is 0. -/
def Follows (chain : List ℕ) (m n : ℕ) : Prop :=
  m ∈ chain ∧ n ∈ chain ∧
    ((m < n ∧ ∀ x ∈ chain, x ≤ m ∨ n ≤ x) ∨ (n = 0 ∧ ∀ x ∈ chain, x ≤ m))

variable {chain : List ℕ} {m m' n n' p q : ℕ}

namespace Follows

theorem right_unique (h : Follows chain m n) (h' : Follows chain m n') : n = n' := by
  obtain ⟨-, hn, ⟨hlt, hgap⟩ | ⟨rfl, hlast⟩⟩ := h
  · obtain ⟨-, hn', ⟨hlt', hgap'⟩ | ⟨rfl, hlast'⟩⟩ := h'
    · have h₁ := hgap n' hn'
      have h₂ := hgap' n hn
      omega
    · have := hlast' n hn
      omega
  · obtain ⟨-, hn', ⟨hlt', hgap'⟩ | ⟨rfl, hlast'⟩⟩ := h'
    · have := hlast n' hn'
      omega
    · rfl

theorem left_unique (h : Follows chain m n) (h' : Follows chain m' n) : m = m' := by
  obtain ⟨hm, hn, ⟨hlt, hgap⟩ | ⟨rfl, hlast⟩⟩ := h
  · obtain ⟨hm', -, ⟨hlt', hgap'⟩ | ⟨rfl, hlast'⟩⟩ := h'
    · have h₁ := hgap m' hm'
      have h₂ := hgap' m hm
      omega
    · omega
  · obtain ⟨hm', -, ⟨hlt', hgap'⟩ | ⟨-, hlast'⟩⟩ := h'
    · omega
    · have h₁ := hlast m' hm'
      have h₂ := hlast' m hm
      omega

theorem last (h : Follows chain m 0) : ∀ x ∈ chain, x ≤ m := by
  obtain ⟨-, -, ⟨hlt, -⟩ | ⟨-, hlast⟩⟩ := h
  · omega
  · exact hlast

theorem lt (h : Follows chain m n) (hn : n ≠ 0) : m < n := by
  obtain ⟨-, -, ⟨hlt, -⟩ | ⟨hzero, -⟩⟩ := h
  · exact hlt
  · exact absurd hzero hn

theorem ne (h : Follows chain m n) (hm : m ≠ 0) : n ≠ m := by
  obtain ⟨-, -, ⟨hlt, -⟩ | ⟨rfl, -⟩⟩ := h
  · omega
  · exact hm.symm

theorem erase (h : Follows chain m n) (hm : m ≠ p) (hn : n ≠ p) :
    Follows (chain.filter (· ≠ p)) m n := by
  obtain ⟨hmem, hmem', hlink⟩ := h
  refine ⟨by simp [hmem, hm], by simp [hmem', hn], ?_⟩
  obtain ⟨hlt, hgap⟩ | ⟨hzero, hlast⟩ := hlink
  · exact .inl ⟨hlt, fun x hx => hgap x ((mem_filter.1 hx).1)⟩
  · exact .inr ⟨hzero, fun x hx => hlast x ((mem_filter.1 hx).1)⟩

theorem erase_between (h : Follows chain m p) (h' : Follows chain p n) (hp : p ≠ 0) :
    Follows (chain.filter (· ≠ p)) m n := by
  have hmp := h.lt hp
  have hnp := h'.ne hp
  obtain ⟨hm, -, ⟨-, hgap⟩ | ⟨hzero, -⟩⟩ := h
  · obtain ⟨-, hn, hlink⟩ := h'
    refine ⟨by simp [hm, hmp.ne], by simp [hn, hnp], ?_⟩
    obtain ⟨hlt, hgap'⟩ | ⟨hzero, hlast⟩ := hlink
    · refine .inl ⟨by omega, fun x hx => ?_⟩
      obtain ⟨hx, hxp⟩ := mem_filter.1 hx
      have h₁ := hgap x hx
      have h₂ := hgap' x hx
      have h₃ : x ≠ p := of_decide_eq_true hxp
      omega
    · refine .inr ⟨hzero, fun x hx => ?_⟩
      obtain ⟨hx, hxp⟩ := mem_filter.1 hx
      have h₁ := hgap x hx
      have h₂ := hlast x hx
      have h₃ : x ≠ p := of_decide_eq_true hxp
      omega
  · exact absurd hzero hp

theorem append (h : Follows chain m n) (hn : n ≠ 0) (hq : ∀ x ∈ chain, x < q) :
    Follows (chain ++ [q]) m n := by
  obtain ⟨hm, hn', ⟨hlt, hgap⟩ | ⟨hzero, -⟩⟩ := h
  · refine ⟨by simp [hm], by simp [hn'], .inl ⟨hlt, fun x hx => ?_⟩⟩
    obtain hx | hx := mem_append.1 hx
    · exact hgap x hx
    · have := hq n hn'
      rw [mem_singleton.1 hx]
      omega
  · exact absurd hzero hn

theorem append_last (h : Follows chain m 0) (hq : ∀ x ∈ chain, x < q) :
    Follows (chain ++ [q]) m q := by
  refine ⟨by simp [h.1], by simp, .inl ⟨hq m h.1, fun x hx => ?_⟩⟩
  obtain hx | hx := mem_append.1 hx
  · exact .inl (h.last x hx)
  · exact .inr (mem_singleton.1 hx).ge

theorem append_root (h : Follows chain m 0) (hq : ∀ x ∈ chain, x < q) :
    Follows (chain ++ [q]) q 0 := by
  refine ⟨by simp, by simp [h.2.1], .inr ⟨rfl, fun x hx => ?_⟩⟩
  obtain hx | hx := mem_append.1 hx
  · exact (hq x hx).le
  · exact (mem_singleton.1 hx).le

end Follows

theorem follows_singleton : Follows [0] 0 0 :=
  ⟨by simp, by simp, .inr ⟨rfl, fun x hx => (mem_singleton.1 hx).le⟩⟩

theorem follows_append {before after : List ℕ} (hchain : (before ++ m :: after).Pairwise (· < ·))
    (hroot : 0 ∈ before ++ m :: after) :
    Follows (before ++ m :: after) m (after.headD 0) := by
  obtain ⟨-, hafter, hcross⟩ := pairwise_append.1 hchain
  obtain ⟨hm, hafter⟩ := pairwise_cons.1 hafter
  have hbefore : ∀ x ∈ before, x < m := fun x hx => hcross x hx m mem_cons_self
  cases after with
  | nil =>
    refine ⟨by simp, hroot, .inr ⟨rfl, fun x hx => ?_⟩⟩
    obtain hx | hx := mem_append.1 hx
    · exact (hbefore x hx).le
    · exact (mem_singleton.1 hx).le
  | cons n after =>
    refine ⟨by simp, by simp, .inl ⟨hm n mem_cons_self, fun x hx => ?_⟩⟩
    obtain hx | hx := mem_append.1 hx
    · exact .inl (hbefore x hx).le
    · obtain rfl | hx := mem_cons.1 hx
      · exact .inl le_rfl
      · obtain rfl | hx := mem_cons.1 hx
        · exact .inr le_rfl
        · exact .inr (rel_of_pairwise_cons hafter hx).le

end Ripple.PageChain
