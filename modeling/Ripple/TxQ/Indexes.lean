import Ripple.TxQ.Calls

/-!
# Ripple.TxQ.Indexes

What it means for `byFee_` and `byAccount_` to agree, and the rules of the operations that erase
entries. Everything a call does to a queue short of adding an entry makes it shrink: entries are
overwritten under the same key or erased from both indexes.
-/

namespace Ripple.TxQ

open List
open Proc (wp wp_bind wp_pure)

/-- `p` is the address of the node of account `a` for sequence `n`. -/
def Stored (s : TxQ) (a : AccountID) (n : Nat) (p : Ptr) : Prop :=
  ∃ q, s.byAccount_.find? a = some q ∧ q.transactions.find? n = some p

/-- The entry `m` is alive at `p`, in the node of its account `q` for its sequence. -/
structure Held (s : TxQ) (p : Ptr) (m : MaybeTx) (q : TxQAccount) : Prop where
  value : s.heap.lookup p = some m
  account : s.byAccount_.find? m.account = some q
  node : q.transactions.find? m.sequence = some p

/-- `byFee_` links exactly the stored entries, each once, by nonincreasing level; a stored entry is
alive and filed under its account and sequence; and nothing else is alive. -/
structure Agree (s : TxQ) : Prop where
  nodup : s.byFee_.Nodup
  linked : ∀ p, p ∈ s.byFee_ ↔ ∃ a n, s.Stored a n p
  filed : ∀ a n p, s.Stored a n p → ∃ m, s.heap.lookup p = some m ∧ m.account = a ∧ m.sequence = n
  sorted : s.byFee_.Pairwise fun p q => s.levelOf q ≤ s.levelOf p
  live : ∀ p m, s.heap.lookup p = some m → p ∈ s.byFee_
  fresh : ∀ p m, s.heap.lookup p = some m → p < s.nextPtr

def MaybeTx.category (m : MaybeTx) : ConsequenceCategory :=
  (m.consequences.getD (calculateConsequences m.pfresult m.txn)).category

/-- Consequences that are still to be computed will be those of a transaction that passed its
preflight. -/
def MaybeTx.Settled (m : MaybeTx) : Prop :=
  m.consequences = none → m.pfresult.ter = TER.tesSUCCESS

/-- `m'` overwrites `m`. Where `C` holds the category stays. -/
structure Kept (C : Prop) (m m' : MaybeTx) : Prop where
  account : m'.account = m.account
  sequence : m'.sequence = m.sequence
  feeLevel : m'.feeLevel = m.feeLevel
  calm : C → m.Settled → m'.Settled ∧ m'.category = m.category

variable {C : Prop} {l : List Ptr} {p f x : Ptr}

theorem Kept.refl (m : MaybeTx) : Kept C m m :=
  { account := rfl, sequence := rfl, feeLevel := rfl, calm := fun _ h => ⟨h, rfl⟩ }

theorem Kept.trans {m₁ m₂ m₃ : MaybeTx} (h : Kept C m₁ m₂) (h' : Kept C m₂ m₃) : Kept C m₁ m₃ where
  account := h'.account.trans h.account
  sequence := h'.sequence.trans h.sequence
  feeLevel := h'.feeLevel.trans h.feeLevel
  calm := fun hC hs =>
    have h₁ := h.calm hC hs
    have h₂ := h'.calm hC h₁.1
    ⟨h₂.1, h₂.2.trans h₁.2⟩

structure Shrinks (C : Prop) (s s' : TxQ) : Prop where
  byFee : s'.byFee_.Sublist s.byFee_
  stored : ∀ a n p, s'.Stored a n p ↔ s.Stored a n p ∧ p ∈ s'.byFee_
  heap : ∀ p m', s'.heap.lookup p = some m' →
    p ∈ s'.byFee_ ∧ ∃ m, s.heap.lookup p = some m ∧ Kept C m m'
  alive : ∀ p ∈ s'.byFee_, ∃ m', s'.heap.lookup p = some m'
  accounts : ∀ a, (s.byAccount_.find? a).isSome → (s'.byAccount_.find? a).isSome
  nextPtr : s'.nextPtr = s.nextPtr
  maxSize : s'.maxSize_ = s.maxSize_

namespace Agree

variable {s : TxQ} {p : Ptr}

variable {a n : Nat}

theorem held (h : Agree s) (hs : s.Stored a n p) :
    ∃ m q, s.Held p m q ∧ m.account = a ∧ m.sequence = n := by
  obtain ⟨m, hm, rfl, rfl⟩ := h.filed a n p hs
  obtain ⟨q, hq, ht⟩ := hs
  exact ⟨m, q, ⟨hm, hq, ht⟩, rfl, rfl⟩

theorem entry (h : Agree s) (hp : p ∈ s.byFee_) : ∃ m q, s.Held p m q := by
  obtain ⟨a, n, hs⟩ := (h.linked p).1 hp
  obtain ⟨m, q, he, -⟩ := h.held hs
  exact ⟨m, q, he⟩

theorem mem_of_stored (h : Agree s) (hs : s.Stored a n p) : p ∈ s.byFee_ :=
  (h.linked p).2 ⟨a, n, hs⟩

theorem stored_inj (h : Agree s) {a' n' : Nat} (hs : s.Stored a n p) (hs' : s.Stored a' n' p) :
    a = a' ∧ n = n' := by
  obtain ⟨m, hm, rfl, rfl⟩ := h.filed a n p hs
  obtain ⟨m', hm', rfl, rfl⟩ := h.filed a' n' p hs'
  rw [hm] at hm'
  cases hm'
  exact ⟨rfl, rfl⟩

theorem congr (h : Agree s) {s' : TxQ} (hfee : s'.byFee_ = s.byFee_) (hheap : s'.heap = s.heap)
    (hptr : s'.nextPtr = s.nextPtr) (hstored : ∀ a n p, s'.Stored a n p ↔ s.Stored a n p) :
    Agree s' where
  nodup := hfee ▸ h.nodup
  linked p := by simp only [hfee, hstored]; exact h.linked p
  filed a n p hs := by rw [hheap]; exact h.filed a n p ((hstored a n p).1 hs)
  sorted := by simp only [hfee, levelOf, hheap]; exact h.sorted
  live p m hm := by rw [hfee]; exact h.live p m (hheap ▸ hm)
  fresh p m hm := by rw [hptr]; exact h.fresh p m (hheap ▸ hm)

theorem shrinks_refl (h : Agree s) : Shrinks C s s where
  byFee := List.Sublist.refl _
  stored a n p := ⟨fun hs => ⟨hs, h.mem_of_stored hs⟩, And.left⟩
  heap p m hm := ⟨h.live p m hm, m, hm, Kept.refl m⟩
  alive p hp := by
    obtain ⟨m, -, hm, -⟩ := h.entry hp
    exact ⟨m, hm⟩
  accounts _ ha := ha
  nextPtr := rfl
  maxSize := rfl

end Agree

namespace Shrinks

variable {C : Prop} {s s' s'' : TxQ}

theorem trans (h : Shrinks C s s') (h' : Shrinks C s' s'') : Shrinks C s s'' where
  byFee := h'.byFee.trans h.byFee
  stored a n p := by
    rw [h'.stored, h.stored, and_assoc]
    exact and_congr_right fun _ => and_iff_right_of_imp fun hp => h'.byFee.subset hp
  heap p m'' hm'' := by
    obtain ⟨hp, m', hm', hk'⟩ := h'.heap p m'' hm''
    obtain ⟨-, m, hm, hk⟩ := h.heap p m' hm'
    exact ⟨hp, m, hm, hk.trans hk'⟩
  alive := h'.alive
  accounts a ha := h'.accounts a (h.accounts a ha)
  nextPtr := h'.nextPtr.trans h.nextPtr
  maxSize := h'.maxSize.trans h.maxSize

theorem agree (h : Shrinks C s s') (ha : Agree s) : Agree s' where
  nodup := h.byFee.nodup ha.nodup
  linked p := by
    simp only [h.stored]
    constructor
    · intro hp
      obtain ⟨a, n, hs⟩ := (ha.linked p).1 (h.byFee.subset hp)
      exact ⟨a, n, hs, hp⟩
    · rintro ⟨_, _, -, hp⟩
      exact hp
  filed a n p hs := by
    obtain ⟨hs, hp⟩ := (h.stored a n p).1 hs
    obtain ⟨m', hm'⟩ := h.alive p hp
    obtain ⟨-, m, hm, hk⟩ := h.heap p m' hm'
    obtain ⟨m₀, hm₀, rfl, rfl⟩ := ha.filed a n p hs
    rw [hm] at hm₀
    cases hm₀
    exact ⟨m', hm', hk.account, hk.sequence⟩
  sorted := by
    have hlevel : ∀ p ∈ s'.byFee_, s'.levelOf p = s.levelOf p := by
      intro p hp
      obtain ⟨m', hm'⟩ := h.alive p hp
      obtain ⟨-, m, hm, hk⟩ := h.heap p m' hm'
      simp only [levelOf, hm', hm, Option.map_some, Option.getD_some, hk.feeLevel]
    refine (ha.sorted.sublist h.byFee).imp_of_mem fun {p q} hp hq hle => ?_
    rwa [hlevel p hp, hlevel q hq]
  live p m hm := (h.heap p m hm).1
  fresh p m hm := by
    obtain ⟨-, m₀, hm₀, -⟩ := h.heap p m hm
    rw [h.nextPtr]
    exact ha.fresh p m₀ hm₀

end Shrinks

/-! ## Positions in a list without repetition -/

def remaining (l : List Ptr) : Option Ptr → Nat
  | none => 0
  | some p => (l.dropWhile (· ≠ p)).length

theorem remaining_le (l : List Ptr) (it : Option Ptr) : remaining l it ≤ l.length := by
  cases it with
  | none => exact Nat.zero_le _
  | some p => exact (dropWhile_sublist _).length_le

theorem following_mem (h : following p l = some f) : f ∈ l := by
  have ht : f ∈ (l.dropWhile (· ≠ p)).tail := mem_of_mem_head? h
  exact (dropWhile_sublist _).subset (mem_of_mem_tail ht)

theorem remaining_cons_of_ne {it : Option Ptr} (h : it ≠ some x) :
    remaining (x :: l) it = remaining l it := by
  cases it with
  | none => rfl
  | some p =>
    have hx : x ≠ p := fun he => h (by rw [he])
    simp [remaining, hx]

theorem remaining_head? (hx : x ∉ l) : remaining (x :: l) l.head? = l.length := by
  cases l with
  | nil => rfl
  | cons y l =>
    have hxy : x ≠ y := fun he => hx (by rw [he]; exact mem_cons_self)
    simp [remaining, hxy]

theorem remaining_following (hn : l.Nodup) (hp : p ∈ l) :
    remaining l (following p l) + 1 = remaining l (some p) ∧
      remaining (l.erase p) (following p l) + 1 = remaining l (some p) := by
  induction l with
  | nil => cases hp
  | cons x l ih =>
    obtain ⟨hx, hn⟩ := nodup_cons.1 hn
    by_cases hxp : x = p
    · subst hxp
      have hf : following x (x :: l) = l.head? := by simp [following]
      rw [hf, remaining_head? hx, erase_cons_head]
      cases l <;> simp [remaining]
    · have hpl : p ∈ l := (mem_cons.1 hp).resolve_left (Ne.symm hxp)
      have hf : following p (x :: l) = following p l := by simp [following, hxp]
      have hne : following p l ≠ some x := fun he => hx (following_mem he)
      rw [hf, erase_cons_tail (by simpa using hxp), remaining_cons_of_ne hne, remaining_cons_of_ne hne,
        remaining_cons_of_ne fun he => hxp (by cases he; rfl)]
      exact ih hn hpl

theorem following_ne (hn : l.Nodup) (hp : p ∈ l) (h : following p l = some f) : f ≠ p := by
  rintro rfl
  have := (remaining_following hn hp).1
  rw [h] at this
  omega

/-! ## The rules of the operations -/

section Rules

variable {R : Type} {s : TxQ} {p : Ptr} {m : MaybeTx} {q : TxQAccount}
  {E : Fault → Prop} {P : R → TxQ → Prop}

theorem wp_deref {Q : MaybeTx → TxQ → Prop} (hm : s.heap.lookup p = some m) :
    wp (deref p) E P Q s ↔ Q m s := by
  simp [deref, hm]

variable {a : AccountID} {Q : Option Ptr → TxQ → Prop}

theorem wp_accountAt {Q : TxQAccount → TxQ → Prop} (hq : s.byAccount_.find? a = some q) :
    wp (accountAt a) E P Q s ↔ Q q s := by
  simp [accountAt, hq]

theorem wp_advance (hp : p ∈ s.byFee_) :
    wp (advance p) E P Q s ↔ Q (following p s.byFee_) s := by
  simp [advance, hp]

theorem wp_unlink {Q : Unit → TxQ → Prop} (hp : p ∈ s.byFee_) :
    wp (unlink p) E P Q s ↔ Q () { s with byFee_ := s.byFee_.erase p } := by
  simp [unlink, hp]

def destroyed (s : TxQ) (a : AccountID) (n : Nat) (q : TxQAccount) (p : Ptr) : TxQ :=
  { s.setAccount a { q with transactions := q.transactions.erase n } with heap := s.heap.erase p }

theorem wp_remove {n : Nat} {Q : Bool → TxQ → Prop} (hq : s.byAccount_.find? a = some q)
    (ht : q.transactions.find? n = some p) (hp : p ∉ s.byFee_) :
    wp (remove a n) E P Q s ↔ Q true (s.destroyed a n q p) := by
  simp [remove, wp_accountAt hq, ht, hp, destroyed]

def dropped (s : TxQ) (p : Ptr) (m : MaybeTx) (q : TxQAccount) : TxQ :=
  ({ s with byFee_ := s.byFee_.erase p } : TxQ).destroyed m.account m.sequence q p

theorem wp_erase (h : Agree s) (he : s.Held p m q) :
    wp (erase p) E P Q s ↔ Q (following p s.byFee_) (s.dropped p m q) := by
  have hp : p ∈ s.byFee_ := h.live p m he.value
  simp only [erase, wp_bind, wp_deref he.value, wp_accountAt he.account, wp_advance hp, wp_unlink hp,
    wp_pure]
  exact wp_remove (s := { s with byFee_ := s.byFee_.erase p }) he.account he.node h.nodup.not_mem_erase

end Rules

/-! ## What shrinks a queue -/

section Shrinking

variable {C : Prop} {s s' : TxQ} {p : Ptr} {m : MaybeTx} {q : TxQAccount}

variable {a a' : AccountID} {n : Nat}

theorem stored_iff (hq : s.byAccount_.find? a = some q) : s.Stored a n p ↔ q.transactions.find? n = some p := by
  simp [Stored, hq]

theorem stored_setAccount : (s.setAccount a q).Stored a' n p ↔
      if a' = a then q.transactions.find? n = some p else s.Stored a' n p := by
  simp only [Stored, setAccount, OrderedMap.find?_insert]
  split <;> simp

theorem stored_destroyed {n' : Nat} (hq : s.byAccount_.find? a = some q) :
    (s.destroyed a n q p).Stored a' n' x ↔ s.Stored a' n' x ∧ ¬ (a' = a ∧ n' = n) := by
  refine (stored_setAccount (s := s)).trans ?_
  by_cases ha : a' = a
  · subst ha
    simp only [if_true, OrderedMap.find?_erase, Stored, hq, Option.some.injEq, exists_eq_left', true_and]
    split <;> simp_all
  · simp [ha]

/-- `s'` is `s` without the entries in `gone`. The flags of accounts may differ. -/
structure Unfiled (gone : Ptr → Prop) (s s' : TxQ) : Prop where
  stored : ∀ a n x, s'.Stored a n x ↔ s.Stored a n x ∧ ¬ gone x
  freed : ∀ x, gone x → s'.heap.lookup x = none
  kept : ∀ x, ¬ gone x → s'.heap.lookup x = s.heap.lookup x
  accounts : ∀ a, (s.byAccount_.find? a).isSome → (s'.byAccount_.find? a).isSome
  nextPtr : s'.nextPtr = s.nextPtr
  maxSize : s'.maxSize_ = s.maxSize_

theorem Agree.shrinks_unfiled {gone : Ptr → Prop} (h : Agree s) (hu : Unfiled gone s s')
    (hsub : s'.byFee_.Sublist s.byFee_) (hmem : ∀ x, x ∈ s'.byFee_ ↔ x ∈ s.byFee_ ∧ ¬ gone x) :
    Shrinks C s s' where
  byFee := hsub
  stored a n x := by
    rw [hu.stored, hmem]
    exact and_congr_right fun hs => (and_iff_right (h.mem_of_stored hs)).symm
  heap x m' hm' := by
    by_cases hx : gone x
    · rw [hu.freed x hx] at hm'
      cases hm'
    · rw [hu.kept x hx] at hm'
      exact ⟨(hmem x).2 ⟨h.live x m' hm', hx⟩, m', hm', Kept.refl m'⟩
  alive x hx := by
    obtain ⟨hx, hnot⟩ := (hmem x).1 hx
    obtain ⟨m', -, hm', -⟩ := h.entry hx
    exact ⟨m', by rw [hu.kept x hnot]; exact hm'⟩
  accounts := hu.accounts
  nextPtr := hu.nextPtr
  maxSize := hu.maxSize

theorem isSome_find?_setAccount (h : (s.byAccount_.find? a').isSome) :
    ((s.setAccount a q).byAccount_.find? a').isSome := by
  simp only [setAccount, OrderedMap.find?_insert]
  split
  · rfl
  · exact h

theorem Agree.stored_ne (h : Agree s) (hm : s.heap.lookup p = some m) {a x : Nat}
    (hs : s.Stored a n x) : ¬ (a = m.account ∧ n = m.sequence) ↔ x ≠ p := by
  obtain ⟨m', q', he⟩ := h.entry (h.live p m hm)
  cases hm.symm.trans he.value
  refine not_congr ⟨?_, ?_⟩
  · rintro ⟨rfl, rfl⟩
    rw [stored_iff he.account, he.node] at hs
    exact (Option.some.inj hs).symm
  · rintro rfl
    exact h.stored_inj hs ⟨q', he.account, he.node⟩

theorem Agree.unfiled_dropped (h : Agree s) (he : s.Held p m q) : Unfiled (· = p) s (s.dropped p m q) where
  stored a n x := by
    refine (stored_destroyed (s := { s with byFee_ := s.byFee_.erase p }) he.account).trans ?_
    exact and_congr_right fun hs => h.stored_ne he.value hs
  freed x hx := (AList.lookup_erase_ite s.heap p x).trans (if_pos hx)
  kept x hx := (AList.lookup_erase_ite s.heap p x).trans (if_neg hx)
  accounts _ ha := isSome_find?_setAccount ha
  nextPtr := rfl
  maxSize := rfl

theorem Agree.mem_dropped (h : Agree s) (x : Ptr) :
    x ∈ (s.dropped p m q).byFee_ ↔ x ∈ s.byFee_ ∧ ¬ x = p :=
  h.nodup.mem_erase_iff.trans and_comm

theorem length_dropped (hp : p ∈ s.byFee_) :
    (s.dropped p m q).byFee_.length + 1 = s.byFee_.length := by
  have hpos : 0 < s.byFee_.length := length_pos_of_mem hp
  have hlen : (s.dropped p m q).byFee_.length = s.byFee_.length - 1 := length_erase_of_mem hp
  omega

theorem Agree.shrinks_dropped (h : Agree s) (he : s.Held p m q) : Shrinks C s (s.dropped p m q) :=
  h.shrinks_unfiled (h.unfiled_dropped he) erase_sublist h.mem_dropped

theorem setAccount_self (hq : s.byAccount_.find? a = some q) : s.setAccount a q = s := by
  have hsame : s.byAccount_.insert a q = s.byAccount_ := OrderedMap.ext_find? fun a' => by
    rw [OrderedMap.find?_insert]
    split
    · rename_i he
      rw [he, hq]
    · rfl
  simp only [setAccount, hsame]

theorem Agree.shrinks_store (h : Agree s) {m' : MaybeTx} (hm : s.heap.lookup p = some m)
    (hk : Kept C m m') : Shrinks C s (s.store p m') where
  byFee := List.Sublist.refl _
  stored a n x := ⟨fun hs => ⟨hs, h.mem_of_stored hs⟩, And.left⟩
  heap x mx hx := by
    simp only [store, AList.lookup_insert_ite] at hx
    split at hx
    · rename_i he
      cases hx
      subst he
      exact ⟨h.live _ m hm, m, hm, hk⟩
    · exact ⟨h.live x mx hx, mx, hx, Kept.refl mx⟩
  alive x hx := by
    obtain ⟨mx, -, hmx, -⟩ := h.entry hx
    simp only [store, AList.lookup_insert_ite]
    split
    · exact ⟨m', rfl⟩
    · exact ⟨mx, hmx⟩
  accounts _ ha := ha
  nextPtr := rfl
  maxSize := rfl

theorem Agree.shrinks_setAccount (h : Agree s) (hsame : ∀ n x, q.transactions.find? n = some x ↔ s.Stored a n x) :
    Shrinks C s (s.setAccount a q) := by
  have hstored : ∀ a' n x, (s.setAccount a q).Stored a' n x ↔ s.Stored a' n x := by
    intro a' n x
    rw [stored_setAccount]
    split
    · rename_i he
      rw [he, hsame]
    · rfl
  have hr := h.shrinks_refl (C := C)
  exact { byFee := hr.byFee, stored := fun a' n x => (hstored a' n x).trans (hr.stored a' n x)
          heap := hr.heap, alive := hr.alive, accounts := fun _ => isSome_find?_setAccount
          nextPtr := rfl, maxSize := rfl }

end Shrinking

/-! ## Erasing and going on -/

theorem nextEntry_spec {t : OrderedMap Nat Ptr} {k k' : Nat} (h : nextEntry t k = some (k', p)) :
    k < k' ∧ t.find? k' = some p := by
  have hmem : (k', p) ∈ t.entries :=
    (dropWhile_sublist _).subset (mem_of_mem_head? h)
  have hfalse := head?_dropWhile_not (fun e : Nat × Ptr => decide (e.1 ≤ k)) t.entries
  rw [show (t.entries.dropWhile fun e => decide (e.1 ≤ k)).head? = some (k', p) from h] at hfalse
  exact ⟨by simpa using hfalse, (t.mem_entries_iff k' p).1 hmem⟩

section Advancing

variable {R : Type} {s : TxQ} {p : Ptr} {m : MaybeTx} {q : TxQAccount}
  {E : Fault → Prop} {P : R → TxQ → Prop} {Q : Option Ptr → TxQ → Prop}

theorem Agree.nextEntry_mem (h : Agree s) {k : Nat} (he : s.Held p m q)
    (hx : nextEntry q.transactions m.sequence = some (k, x)) : x ∈ s.byFee_ ∧ x ≠ p := by
  obtain ⟨hlt, hfind⟩ := nextEntry_spec hx
  have hs : s.Stored m.account k x := ⟨q, he.account, hfind⟩
  exact ⟨h.mem_of_stored hs, (h.stored_ne he.value hs).1 fun heq => Nat.ne_of_gt hlt heq.2⟩

theorem wp_useAccountNext {a : Option (Nat × Ptr)} {f : Option Ptr}
    (ha : ∀ k x, a = some (k, x) → x ∈ s.byFee_) (hf : ∀ x, f = some x → x ∈ s.byFee_)
    (h : Agree s) (hQ : ∀ it, (∀ x, it = some x → ∃ k, a = some (k, x)) → Q it s) :
    wp (useAccountNext m a f) E P Q s := by
  cases a with
  | none => exact wp_pure.2 (hQ none nofun)
  | some e =>
    obtain ⟨k, x⟩ := e
    have hsome : Q (some x) s := hQ (some x) fun y hy => ⟨k, by rw [Option.some.inj hy]⟩
    simp only [useAccountNext]
    refine Proc.wp_ite (fun _ => ?_) fun _ => wp_pure.2 (hQ none nofun)
    cases f with
    | none => exact wp_pure.2 hsome
    | some y =>
      obtain ⟨mx, -, hmx, -⟩ := h.entry (ha k x rfl)
      obtain ⟨my, -, hmy, -⟩ := h.entry (hf y rfl)
      simp only [wp_bind, wp_deref hmx, wp_deref hmy, wp_pure]
      split
      · exact hsome
      · exact hQ none nofun

theorem wp_eraseAndAdvance (h : Agree s) (he : s.Held p m q)
    (hQ : ∀ it, (∀ x, it = some x → x ∈ (s.dropped p m q).byFee_) → Q it (s.dropped p m q)) :
    wp (eraseAndAdvance p) E P Q s := by
  have hp : p ∈ s.byFee_ := h.live p m he.value
  have hfee : ∀ x, x ∈ s.byFee_ → x ≠ p → x ∈ (s.dropped p m q).byFee_ := fun x hx hne =>
    (h.mem_dropped x).2 ⟨hx, hne⟩
  have hnext : ∀ x, following p s.byFee_ = some x → x ∈ (s.dropped p m q).byFee_ := fun x hx =>
    hfee x (following_mem hx) (following_ne h.nodup hp hx)
  simp only [eraseAndAdvance, wp_bind, wp_deref he.value, wp_accountAt he.account, he.node,
    Proc.wp_expect_some, wp_advance hp]
  refine wp_useAccountNext (fun k x hx => (h.nextEntry_mem he hx).1)
    (fun x hx => following_mem hx) h fun it hit => ?_
  rw [wp_unlink hp]
  refine (wp_remove (s := { s with byFee_ := s.byFee_.erase p }) he.account he.node h.nodup.not_mem_erase).2 ?_
  cases it with
  | none => exact wp_pure.2 (hQ _ hnext)
  | some x =>
    obtain ⟨k, hk⟩ := hit x rfl
    obtain ⟨hx, hne⟩ := h.nextEntry_mem he hk
    have hmem : x ∈ (s.dropped p m q).byFee_ := hfee x hx hne
    simp only [wp_bind, Proc.wp_get]
    refine Proc.wp_ite (fun _ => wp_pure.2 (hQ _ fun y hy => ?_)) fun hnot => absurd hmem hnot
    cases hy
    exact hmem

end Advancing

/-! ## Erasing a range -/

section Ranges

variable {R : Type} {C : Prop} {s : TxQ} {a : AccountID} {range : List (Nat × Ptr)}
  {E : Fault → Prop} {P : R → TxQ → Prop}

def Passed (range rest : List (Nat × Ptr)) (x : Ptr) : Prop :=
  x ∈ range.map Prod.snd ∧ x ∉ rest.map Prod.snd

theorem not_passed_cons {e : Nat × Ptr} {rest : List (Nat × Ptr)} (he : e ∈ range)
    (hn : ((e :: rest).map Prod.snd).Nodup) :
    ¬ Passed range rest x ↔ ¬ Passed range (e :: rest) x ∧ x ≠ e.2 := by
  have hmem : e.2 ∈ range.map Prod.snd := mem_map_of_mem he
  rw [map_cons, nodup_cons] at hn
  simp only [Passed, map_cons, mem_cons, not_and, not_not, not_or]
  constructor
  · intro h
    refine ⟨fun hx _ => h hx, ?_⟩
    rintro rfl
    exact hn.1 (h hmem)
  · rintro ⟨h, hne⟩ hx
    exact h hx hne

theorem Unfiled.destroyed {gone gone' : Ptr → Prop} {s' : TxQ} {n : Nat} {q : TxQAccount}
    (hu : Unfiled gone s s') (h : Agree s) (hs : s.Stored a n p)
    (hq : s'.byAccount_.find? a = some q) (hgone : ∀ x, ¬ gone' x ↔ ¬ gone x ∧ x ≠ p) :
    Unfiled gone' s (s'.destroyed a n q p) where
  stored a' n' x := by
    obtain ⟨m, hm, rfl, rfl⟩ := h.filed a n p hs
    rw [stored_destroyed hq, hu.stored, hgone, and_assoc]
    exact and_congr_right fun hs' => and_congr_right fun _ => h.stored_ne hm hs'
  freed x hx := by
    refine (AList.lookup_erase_ite s'.heap p x).trans ?_
    split
    · rfl
    · rename_i hne
      by_cases hg : gone x
      · exact hu.freed x hg
      · exact absurd hx ((hgone x).2 ⟨hg, hne⟩)
  kept x hx := by
    obtain ⟨hg, hne⟩ := (hgone x).1 hx
    exact ((AList.lookup_erase_ite s'.heap p x).trans (if_neg hne)).trans (hu.kept x hg)
  accounts a' ha := isSome_find?_setAccount (hu.accounts a' ha)
  nextPtr := hu.nextPtr
  maxSize := hu.maxSize

variable {Q : Unit → TxQ → Prop}

theorem wp_unlinkRange (h : Agree s) (hrange : ∀ e ∈ range, s.Stored a e.1 e.2)
    (hnodup : (range.map Prod.snd).Nodup)
    (hQ : ∀ l, l.Sublist s.byFee_ → (∀ x, x ∈ l ↔ x ∈ s.byFee_ ∧ ¬ Passed range [] x) →
      Q () { s with byFee_ := l }) :
    wp (Proc.forEach (fun e : Nat × Ptr => unlink e.2) range) E P Q s := by
  let I : List (Nat × Ptr) → TxQ → Prop := fun rest s₁ =>
    (∀ e ∈ rest, e ∈ range) ∧ (rest.map Prod.snd).Nodup ∧
    ∃ l, s₁ = { s with byFee_ := l } ∧ l.Sublist s.byFee_ ∧
      ∀ x, x ∈ l ↔ x ∈ s.byFee_ ∧ ¬ Passed range rest x
  have hstart : I range s :=
    ⟨fun _ he => he, hnodup, s.byFee_, rfl, List.Sublist.refl _,
      fun _ => (and_iff_left fun hpass => hpass.2 hpass.1).symm⟩
  refine Proc.wp_post (Proc.wp_forEach I (fun e rest s₁ hI => ?_) hstart) ?_
  · obtain ⟨hsub, hn, l, rfl, hl, hmem⟩ := hI
    have he : e ∈ range := hsub e mem_cons_self
    have hp : e.2 ∈ l := (hmem e.2).2
      ⟨h.mem_of_stored (hrange e he), fun hpass => hpass.2 (by simp)⟩
    rw [wp_unlink (s := { s with byFee_ := l }) hp]
    refine ⟨fun e' he' => hsub e' (mem_cons_of_mem _ he'), (nodup_cons.1 hn).2,
      l.erase e.2, rfl, erase_sublist.trans hl, fun x => ?_⟩
    rw [(hl.nodup h.nodup).mem_erase_iff, hmem, not_passed_cons he hn]
    tauto
  · rintro _ s₁ ⟨-, -, l, rfl, hl, hmem⟩
    exact hQ l hl hmem

theorem wp_destroyRange (h : Agree s) (hrange : ∀ e ∈ range, s.Stored a e.1 e.2)
    (hnodup : (range.map Prod.snd).Nodup) (hl : ∀ e ∈ range, e.2 ∉ l)
    (hQ : ∀ s', s'.byFee_ = l → Unfiled (Passed range []) s s' → Q () s') :
    wp (Proc.forEach (fun e : Nat × Ptr => do let _ ← remove a e.1) range) E P Q
      { s with byFee_ := l } := by
  let I : List (Nat × Ptr) → TxQ → Prop := fun rest s₂ =>
    (∀ e ∈ rest, e ∈ range) ∧ (rest.map Prod.snd).Nodup ∧ s₂.byFee_ = l ∧
    Unfiled (Passed range rest) s s₂
  have hstart : I range { s with byFee_ := l } := by
    refine ⟨fun _ he => he, hnodup, rfl, ?_⟩
    exact
      { stored := fun _ _ _ => (and_iff_left fun hpass => hpass.2 hpass.1).symm
        freed := fun x hx => absurd hx.1 hx.2, kept := fun _ _ => rfl
        accounts := fun _ ha => ha, nextPtr := rfl, maxSize := rfl }
  refine Proc.wp_post (Proc.wp_forEach I (fun e rest s₂ hI => ?_) hstart) fun _ s₂ hI => hQ s₂ hI.2.2.1 hI.2.2.2
  obtain ⟨hsub, hn, hfee, hu⟩ := hI
  have he : e ∈ range := hsub e mem_cons_self
  have hst : s₂.Stored a e.1 e.2 :=
    (hu.stored a e.1 e.2).2 ⟨hrange e he, fun hpass => hpass.2 (by simp)⟩
  obtain ⟨q, hq, ht⟩ := hst
  simp only [wp_bind]
  rw [wp_remove hq ht (hfee ▸ hl e he), wp_pure]
  exact ⟨fun e' he' => hsub e' (mem_cons_of_mem _ he'), (nodup_cons.1 hn).2, hfee,
    hu.destroyed h (hrange e he) hq fun _ => not_passed_cons he hn⟩

theorem wp_eraseRange (h : Agree s) (hrange : ∀ e ∈ range, s.Stored a e.1 e.2)
    (hnodup : (range.map Prod.snd).Nodup) (hQ : ∀ s', Shrinks C s s' → Q () s') :
    wp (eraseRange a range) E P Q s := by
  rw [eraseRange, wp_bind]
  refine wp_unlinkRange h hrange hnodup fun l hl hmem => ?_
  have hgone : ∀ e ∈ range, e.2 ∉ l := fun e he hx =>
    ((hmem e.2).1 hx).2 ⟨mem_map_of_mem he, not_mem_nil⟩
  refine wp_destroyRange h hrange hnodup hgone fun s' hfee hu => ?_
  exact hQ s' (h.shrinks_unfiled hu (hfee ▸ hl) fun x => hfee ▸ hmem x)

end Ranges

end Ripple.TxQ
