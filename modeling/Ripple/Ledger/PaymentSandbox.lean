import Ripple.Lib.Overlay

/-!
# Ripple.Ledger.PaymentSandbox

Sandboxes in which what an account receives cannot be spent: `ledger/impl/PaymentSandbox.cpp` with its table
`DeferredCredits`, and `accountSend` for XRP in `ledger/impl/View.cpp`. The entries of the table are those for
XRP, and of the entries of the ledger there are the balances of the accounts.

A stack of sandboxes is a list with the innermost one first, over the balances of the view below. Transfers
can be made at any level of it.
-/

namespace Ripple.Ledger.PaymentSandbox

open List OrderedMap

variable {A : Type} [LinearOrder A] [OrderBot A]

def xrpAccount : A := ⊥

/-! ## Deferred credits -/

structure Value where
  lowAcctCredits : ℤ
  highAcctCredits : ℤ
  lowAcctOrigBalance : ℤ

structure Adjustment where
  debits : ℤ
  credits : ℤ
  origBalance : ℤ

abbrev DeferredCredits (A : Type) [LinearOrder A] := OrderedMap (A ×ₗ A) Value

variable (tab : DeferredCredits A)

namespace DeferredCredits

omit [OrderBot A]

def makeKey (a1 a2 : A) : A ×ₗ A := if a1 < a2 then toLex (a1, a2) else toLex (a2, a1)

def credit (sender receiver : A) (amount preCreditSenderBalance : ℤ) : DeferredCredits A :=
  let k := makeKey sender receiver
  match tab.find? k with
  | none =>
    if sender < receiver then tab.insert k ⟨0, amount, preCreditSenderBalance⟩
    else tab.insert k ⟨amount, 0, -preCreditSenderBalance⟩
  | some v =>
    -- the balance is recorded the first time only
    if sender < receiver then tab.insert k { v with highAcctCredits := v.highAcctCredits + amount }
    else tab.insert k { v with lowAcctCredits := v.lowAcctCredits + amount }

def adjustments (main other : A) : Option Adjustment :=
  match tab.find? (makeKey main other) with
  | none => none
  | some v =>
    if main < other then some ⟨v.highAcctCredits, v.lowAcctCredits, v.lowAcctOrigBalance⟩
    else some ⟨v.lowAcctCredits, v.highAcctCredits, -v.lowAcctOrigBalance⟩

def merge (toVal : Option Value) (fromVal : Value) : Value :=
  match toVal with
  | none => fromVal
  | some v =>
    { v with
      lowAcctCredits := v.lowAcctCredits + fromVal.lowAcctCredits
      highAcctCredits := v.highAcctCredits + fromVal.highAcctCredits }

def apply (tab target : DeferredCredits A) : DeferredCredits A :=
  target.absorb tab fun toVal fromVal => some (merge toVal fromVal)

end DeferredCredits

/-! ## Sandboxes -/

/-- The copy of a balance in the table of a sandbox: only peeked, or updated. -/
inductive Copy where
  | cache (balance : ℕ)
  | modify (balance : ℕ)

def Copy.balance : Copy → ℕ
  | cache b => b
  | modify b => b

structure Sandbox (A : Type) [LinearOrder A] where
  items : OrderedMap A Copy := .empty
  tab : DeferredCredits A := .empty

namespace Sandbox

section

omit [OrderBot A]

variable (sb : Sandbox A)

/-- A balance through the table; `below` is what the view below shows. -/
def read (below : A → Option ℕ) (a : A) : Option ℕ :=
  match sb.items.find? a with
  | none => below a
  | some c => some c.balance

def peek (below : A → Option ℕ) (a : A) : Sandbox A :=
  match sb.items.find? a with
  | some _ => sb
  | none =>
    match below a with
    | none => sb
    | some b => { sb with items := sb.items.insert a (.cache b) }

def update (a : A) (balance : ℕ) : Sandbox A :=
  { sb with items := sb.items.insert a (.modify balance) }

def creditHook (sender receiver : A) (amount preCreditBalance : ℤ) : Sandbox A :=
  { sb with tab := sb.tab.credit sender receiver amount preCreditBalance }

/-- The copies that were updated replace those of the view below. -/
def applyItem (_ : Option Copy) : Copy → Option Copy
  | .cache _ => none
  | .modify b => some (.modify b)

def apply (sb target : Sandbox A) : Sandbox A :=
  { items := target.items.absorb sb.items applyItem
    tab := sb.tab.apply target.tab }

end

def receive (fv2Switch : Bool) (below : A → Option ℕ) (sb : Sandbox A) (receiver : A) (amount : ℕ) : Sandbox A :=
  if receiver = xrpAccount then sb
  else
    match sb.read below receiver with
    | none => sb
    | some rcvBal =>
      let sb := if fv2Switch then sb.creditHook xrpAccount receiver amount (-rcvBal) else sb
      sb.update receiver (rcvBal + amount)

/-- `accountSend` for XRP, with whether the transfer succeeds. -/
def accountSend (fv2Switch : Bool) (below : A → Option ℕ) (sb : Sandbox A) (sender receiver : A) (amount : ℕ) :
    Sandbox A × Bool :=
  if amount = 0 ∨ sender = receiver then (sb, true)
  else
    let sb := if fv2Switch then sb else sb.creditHook sender receiver amount 0
    let sb := if sender = xrpAccount then sb else sb.peek below sender
    let sb := if receiver = xrpAccount then sb else sb.peek below receiver
    match if sender = xrpAccount then none else sb.read below sender with
    | none => (sb.receive fv2Switch below receiver amount, true)
    | some sndBal =>
      if sndBal < amount then (sb, false)
      else
        let sb := if fv2Switch then sb.creditHook sender xrpAccount amount sndBal else sb
        ((sb.update sender (sndBal - amount)).receive fv2Switch below receiver amount, true)

end Sandbox

/-! ## The hook -/

structure HookState where
  delta : ℤ
  lastBal : ℤ
  minBal : ℤ

omit [OrderBot A] in
def hookStep (account issuer : A) (s : HookState) (sb : Sandbox A) : HookState :=
  match sb.tab.adjustments account issuer with
  | none => s
  | some adj =>
    { delta := s.delta + adj.debits
      lastBal := adj.origBalance
      minBal := if adj.origBalance < s.minBal then adj.origBalance else s.minBal }

omit [OrderBot A] in
/-- The algorithm before the switchover. -/
def creditStep (account issuer : A) (adjustedAmt : ℤ) (sb : Sandbox A) : ℤ :=
  match sb.tab.adjustments account issuer with
  | none => adjustedAmt
  | some adj => adjustedAmt - adj.credits

/-- `stack` is the sandbox and its parents. -/
def balanceHook (switchover fix1368 : Bool) (stack : List (Sandbox A)) (account issuer : A) (amount : ℤ) : ℤ :=
  let adjustedAmt :=
    if switchover then
      let s := stack.foldl (hookStep account issuer) ⟨0, amount, amount⟩
      let adjustedAmt := min amount (s.lastBal - s.delta)
      if fix1368 then min adjustedAmt s.minBal else adjustedAmt
    else stack.foldl (creditStep account issuer) amount
  -- a negative balance is no error: what was credited cannot be used
  if issuer = xrpAccount ∧ adjustedAmt < 0 then 0 else adjustedAmt

/-! ## Stacks -/

section

omit [OrderBot A]

def balance (base : OrderedMap A ℕ) : List (Sandbox A) → A → Option ℕ
  | [], a => base.find? a
  | sb :: stack, a => sb.read (balance base stack) a

/-- The updated copies of the outermost sandbox replace the balances of the view below. -/
def applyBase (sb : Sandbox A) (base : OrderedMap A ℕ) : OrderedMap A ℕ :=
  base.absorb sb.items fun _ c =>
    match c with
    | .cache _ => none
    | .modify b => some b

end

structure State (A : Type) [LinearOrder A] where
  base : OrderedMap A ℕ
  stack : List (Sandbox A)

/-- A transfer at some level of the stack, or a change of the stack at its top. -/
inductive Op (A : Type) where
  | send (level : ℕ) (sender receiver : A) (amount : ℕ)
  | push
  | apply
  | discard

/-- `accountSend` at a level of the stack, with rules after `fix1141`. -/
def sendAt (base : OrderedMap A ℕ) (sender receiver : A) (amount : ℕ) : ℕ → List (Sandbox A) → List (Sandbox A)
  | _, [] => []
  | 0, sb :: stack => (sb.accountSend true (balance base stack) sender receiver amount).1 :: stack
  | level + 1, sb :: stack => sb :: sendAt base sender receiver amount level stack

def step (s : State A) : Op A → State A
  | .send level sender receiver amount => { s with stack := sendAt s.base sender receiver amount level s.stack }
  | .push => { s with stack := {} :: s.stack }
  | .apply =>
    match s.stack with
    | [] => s
    | [sb] => ⟨applyBase sb s.base, []⟩
    | sb :: parent :: stack => { s with stack := sb.apply parent :: stack }
  | .discard => { s with stack := s.stack.tail }

/-! ## What the accounts have paid -/

def debits (below : A → Option ℕ) (sb : Sandbox A) (sender receiver : A) (amount : ℕ) : Bool :=
  sender ≠ receiver && sender ≠ xrpAccount && (sb.read below sender).any fun b => amount ≤ b

def debitAt (base : OrderedMap A ℕ) (sender receiver : A) (amount : ℕ) :
    ℕ → List (Sandbox A) → List (A → ℤ) → List (A → ℤ)
  | 0, sb :: stack, d :: ds =>
    (if debits (balance base stack) sb sender receiver amount then Function.update d sender (d sender + amount)
      else d) :: ds
  | level + 1, _ :: stack, d :: ds => d :: debitAt base sender receiver amount level stack ds
  | _, _, ds => ds

/-- What is known of a payment: the balances when the outermost sandbox was made, and the debits
that the stack still has. -/
structure History (A : Type) where
  orig : A → Option ℕ
  debits : List (A → ℤ)

def History.next (h : History A) (s : State A) : Op A → History A
  | .send level sender receiver amount =>
    { h with debits := debitAt s.base sender receiver amount level s.stack h.debits }
  | .push =>
    { orig := if s.stack.isEmpty then fun a => balance s.base s.stack a else h.orig
      debits := (fun _ => 0) :: h.debits }
  | .apply =>
    match h.debits with
    | d :: d' :: ds => { h with debits := (fun a => d a + d' a) :: ds }
    | _ => { h with debits := [] }
  | .discard => { h with debits := h.debits.tail }

def run (base : OrderedMap A ℕ) (ops : List (Op A)) : State A × History A :=
  ops.foldl (fun p op => (step p.1 op, p.2.next p.1 op)) (⟨base, []⟩, ⟨fun _ => none, []⟩)

/-! ## The record of an account -/

def xrpKey (a : A) : A ×ₗ A := toLex (⊥, a)

theorem makeKey_sender {a : A} : DeferredCredits.makeKey a xrpAccount = xrpKey a := by
  rw [DeferredCredits.makeKey, xrpAccount, if_neg not_lt_bot]
  rfl

theorem makeKey_receiver {a : A} (ha : a ≠ xrpAccount) : DeferredCredits.makeKey xrpAccount a = xrpKey a := by
  rw [xrpAccount] at ha ⊢
  rw [DeferredCredits.makeKey, if_pos (bot_lt_iff_ne_bot.mpr ha)]
  rfl

theorem xrpKey_injective {a a' : A} (h : xrpKey a = xrpKey a') : a = a' := (Prod.mk.inj (toLex_inj.mp h)).2

def Untouched (a : A) (stack : List (Sandbox A)) : Prop := ∀ sb ∈ stack, sb.tab.find? (xrpKey a) = none

/-- What a stack has recorded of an account with the balance `B` below it and these payments. A
sandbox without an entry has at most an unchanged copy of the balance. -/
inductive Recorded (B : ℕ) (a : A) : List (Sandbox A) → List ℤ → Prop
  | nil : Recorded B a [] []
  | untouched {sb stack ds} (h : Recorded B a stack ds) (hnone : sb.tab.find? (xrpKey a) = none)
      (hcopy : ∀ c, sb.items.find? a = some c →
        ∃ b : ℕ, c = .cache b ∧ (B : ℤ) - ds.sum ≤ b ∧ (Untouched a stack → b = B)) :
      Recorded B a (sb :: stack) (0 :: ds)
  | touched {sb stack ds} {b : ℕ} (v : Value) (h : Recorded B a stack ds)
      (hentry : sb.tab.find? (xrpKey a) = some v)
      (hpaid : 0 ≤ v.lowAcctCredits) (horig : (B : ℤ) - ds.sum ≤ -v.lowAcctOrigBalance)
      (hfirst : Untouched a stack → -v.lowAcctOrigBalance = B) (hcopy : sb.items.find? a = some (.modify b))
      (hbalance : (B : ℤ) - (v.lowAcctCredits + ds.sum) ≤ b) :
      Recorded B a (sb :: stack) (v.lowAcctCredits :: ds)

variable {B : ℕ} {a : A} {stack : List (Sandbox A)} {ds : List ℤ} {base : OrderedMap A ℕ} {sb : Sandbox A} {d : ℤ}

section

variable (h : Recorded B a (sb :: stack) (d :: ds))
include h

theorem Recorded.tail : Recorded B a stack ds := by
  cases h with
  | untouched h | touched v h => exact h

omit h in
theorem Recorded.sum_nonneg (h : Recorded B a stack ds) : 0 ≤ ds.sum := by
  induction h with
  | nil => exact le_rfl
  | untouched h hnone hcopy ih => simpa using ih
  | touched v h hentry hpaid horig hfirst hcopy hbalance ih =>
    rw [sum_cons]
    exact add_nonneg hpaid ih

omit h in
theorem untouched_cons : Untouched a (sb :: stack) ↔ sb.tab.find? (xrpKey a) = none ∧ Untouched a stack := by
  simp [Untouched]

omit h in
theorem Recorded.balance (h : Recorded B a stack ds) (hbase : base.find? a = some B) :
    ∃ b : ℕ, balance base stack a = some b ∧ (B : ℤ) - ds.sum ≤ b ∧ (Untouched a stack → b = B) := by
  induction h with
  | nil => exact ⟨B, hbase, by simp, fun _ => rfl⟩
  | @untouched sb stack ds h hnone hcopy ih =>
    rw [PaymentSandbox.balance, Sandbox.read]
    cases hitem : sb.items.find? a with
    | none =>
      obtain ⟨b, hb, hle, hsame⟩ := ih
      exact ⟨b, hb, by simpa using hle, fun hun => hsame (untouched_cons.mp hun).2⟩
    | some c =>
      obtain ⟨b, rfl, hle, hsame⟩ := hcopy c hitem
      exact ⟨b, rfl, by simpa using hle, fun hun => hsame (untouched_cons.mp hun).2⟩
  | @touched sb stack ds b v h hentry hpaid horig hfirst hcopy hbalance ih =>
    rw [PaymentSandbox.balance, Sandbox.read, hcopy]
    refine ⟨b, rfl, by simpa using hbalance, fun hun => ?_⟩
    simp [(untouched_cons.mp hun).1] at hentry

theorem Recorded.cons_mono {stack' : List (Sandbox A)} {ds' : List ℤ}
    (h' : Recorded B a stack' ds') (hsum : ds.sum ≤ ds'.sum) (hun : Untouched a stack' → Untouched a stack) :
    Recorded B a (sb :: stack') (d :: ds') := by
  cases h with
  | untouched h hnone hcopy =>
    refine .untouched h' hnone fun c hc => ?_
    obtain ⟨b, rfl, hle, hsame⟩ := hcopy c hc
    exact ⟨b, rfl, by omega, fun hnow => hsame (hun hnow)⟩
  | touched v h hentry hpaid horig hfirst hcopy hbalance =>
    exact .touched v h' hentry hpaid (by omega) (fun hnow => hfirst (hun hnow)) hcopy (by omega)

/-! ## Transfers -/

variable {sb' : Sandbox A} {b b' amount : ℕ} {x : A} {d' : ℤ} {gs : List (A → ℤ)}

theorem Recorded.congr (hitems : sb'.items.find? a = sb.items.find? a)
    (htab : sb'.tab.find? (xrpKey a) = sb.tab.find? (xrpKey a)) :
    Recorded B a (sb' :: stack) (d :: ds) := by
  cases h with
  | untouched h hnone hcopy => exact .untouched h (htab.trans hnone) (hitems ▸ hcopy)
  | touched v h hentry hpaid horig hfirst hcopy hbalance =>
    exact .touched v h (htab.trans hentry) hpaid horig hfirst (hitems.trans hcopy) hbalance

theorem Recorded.peek (hbase : base.find? a = some B) (x : A) :
    Recorded B a (sb.peek (PaymentSandbox.balance base stack) x :: stack) (d :: ds) := by
  rw [Sandbox.peek]
  split
  · exact h
  next hitem =>
  split
  · exact h
  · next b hb =>
    by_cases hx : a = x
    · subst hx
      obtain ⟨b', hb', hle, hsame⟩ := h.tail.balance hbase
      obtain rfl := Option.some.inj (hb.symm.trans hb')
      cases h with
      | untouched h hnone hcopy =>
        refine .untouched h hnone fun c hc => ?_
        rw [find?_insert, if_pos rfl] at hc
        exact ⟨b, (Option.some.inj hc).symm, hle, hsame⟩
      | touched v h hentry hpaid horig hfirst hcopy hbalance => simp [hitem] at hcopy
    · refine h.congr ?_ rfl
      rw [find?_insert, if_neg hx]

omit [OrderBot A] in
def credited (low : Bool) (amount pre : ℤ) : Option Value → Value
  | none => if low then ⟨0, amount, pre⟩ else ⟨amount, 0, -pre⟩
  | some v =>
    if low then { v with highAcctCredits := v.highAcctCredits + amount }
    else { v with lowAcctCredits := v.lowAcctCredits + amount }

omit h in
omit [OrderBot A] in
theorem find?_credit (x y : A) (amount pre : ℤ) (k : A ×ₗ A) :
    (tab.credit x y amount pre).find? k =
      if k = DeferredCredits.makeKey x y then some (credited (x < y) amount pre (tab.find? k))
      else tab.find? k := by
  rw [DeferredCredits.credit]
  by_cases hk : k = DeferredCredits.makeKey x y
  · subst hk
    cases tab.find? (DeferredCredits.makeKey x y) <;> by_cases hlt : x < y <;>
      simp [hlt, find?_insert, credited]
  · cases tab.find? (DeferredCredits.makeKey x y) <;> by_cases hlt : x < y <;>
      simp [hlt, find?_insert, hk]

theorem Recorded.touch {low : Bool} {paid : ℕ} {pre : ℤ} (hitem : (sb.items.find? a).map Copy.balance = some b)
    (hitem' : sb'.items.find? a = some (.modify b'))
    (hentry' : sb'.tab.find? (xrpKey a) = some (credited low amount pre (sb.tab.find? (xrpKey a))))
    (hside : low = true ∧ paid = 0 ∧ pre = -b ∨ low = false ∧ paid = amount ∧ pre = b) (hle : b ≤ b' + paid) :
    Recorded B a (sb' :: stack) ((d + paid) :: ds) := by
  cases h with
  | untouched h hnone hcopy =>
    have hnew : (credited low amount pre none).lowAcctCredits = paid ∧
        (credited low amount pre none).lowAcctOrigBalance = -b := by
      obtain ⟨rfl, rfl, rfl⟩ | ⟨rfl, rfl, rfl⟩ := hside <;> simp [credited]
    obtain ⟨c, hc, hcb⟩ := Option.map_eq_some_iff.mp hitem
    obtain ⟨b₀, rfl, hbound, hsame⟩ := hcopy c hc
    obtain rfl : b₀ = b := hcb
    rw [hnone] at hentry'
    rw [zero_add, ← hnew.1]
    refine .touched _ h hentry' ?_ ?_ (fun hun => ?_) hitem' ?_
    · rw [hnew.1]; omega
    · rw [hnew.2]; omega
    · rw [hnew.2, neg_neg, hsame hun]
    · rw [hnew.1]; omega
  | touched v h hentry hpaid horig hfirst hcopy hbalance =>
    have hold : (credited low amount pre (some v)).lowAcctCredits = v.lowAcctCredits + paid ∧
        (credited low amount pre (some v)).lowAcctOrigBalance = v.lowAcctOrigBalance := by
      obtain ⟨rfl, rfl, -⟩ | ⟨rfl, rfl, -⟩ := hside <;> simp [credited]
    rw [hcopy] at hitem
    obtain rfl : _ = b := Option.some.inj hitem
    rw [hentry] at hentry'
    rw [← hold.1]
    refine .touched _ h hentry' ?_ ?_ ?_ hitem' ?_
    · rw [hold.1]; omega
    · rwa [hold.2]
    · rwa [hold.2]
    · rw [hold.1]
      simp only [Copy.balance] at hle
      omega

theorem Recorded.credit {y z : A} {paid : ℕ} {pre : ℤ} (hkey : DeferredCredits.makeKey x y = xrpKey z)
    (hitem : (sb.items.find? z).map Copy.balance = some b)
    (hside : decide (x < y) = true ∧ paid = 0 ∧ pre = -b ∨ decide (x < y) = false ∧ paid = amount ∧ pre = b)
    (hle : b ≤ b' + paid) : Recorded B a ((sb.creditHook x y amount pre).update z b' :: stack)
      ((if a = z then d + paid else d) :: ds) := by
  have hentry := find?_credit sb.tab x y amount pre (xrpKey a)
  rw [hkey] at hentry
  by_cases hz : a = z
  · subst hz
    rw [if_pos rfl]
    exact h.touch hitem ((find?_insert _ _ _ _).trans (if_pos rfl)) (hentry.trans (if_pos rfl)) hside hle
  · rw [if_neg hz]
    exact h.congr ((find?_insert _ _ _ _).trans (if_neg hz))
      (hentry.trans (if_neg fun hk => hz (xrpKey_injective hk)))

theorem Recorded.pay (hitem : (sb.items.find? x).map Copy.balance = some b) (hle : amount ≤ b) :
    Recorded B a ((sb.creditHook x xrpAccount amount b).update x (b - amount) :: stack)
      ((if a = x then d + amount else d) :: ds) := by
  have hlt : ¬x < xrpAccount := not_lt_bot
  exact h.credit makeKey_sender hitem (.inr ⟨decide_eq_false hlt, rfl, rfl⟩) (by omega)

theorem Recorded.collect (hx : x ≠ xrpAccount)
    (hitem : (sb.items.find? x).map Copy.balance = some b) :
    Recorded B a ((sb.creditHook xrpAccount x amount (-b)).update x (b + amount) :: stack) (d :: ds) := by
  have hlt : xrpAccount < x := bot_lt_iff_ne_bot.mpr hx
  simpa using h.credit (makeKey_receiver hx) hitem (.inl ⟨decide_eq_true hlt, rfl, rfl⟩) (by omega)

end

/-! A balance that was peeked is read from the table of the sandbox itself. -/

section Peeked

omit [OrderBot A]

variable {below : A → Option ℕ}

def Peeked (below : A → Option ℕ) (sb : Sandbox A) (x : A) : Prop := sb.items.find? x = none → below x = none

variable {x : A} {b : ℕ} {y : A}

theorem Peeked.item (h : Peeked below sb x) (hread : sb.read below x = some b) :
    (sb.items.find? x).map Copy.balance = some b := by
  rw [Sandbox.read] at hread
  cases hitem : sb.items.find? x with
  | none =>
    rw [hitem, h hitem] at hread
    exact absurd hread (by simp)
  | some c =>
    rw [hitem] at hread
    exact hread

theorem peeked_peek (below : A → Option ℕ) (sb : Sandbox A) (x : A) : Peeked below (sb.peek below x) x := by
  intro hnone
  rw [Sandbox.peek] at hnone
  split at hnone
  · next hitem => simp [hitem] at hnone
  split at hnone
  · assumption
  · simp [find?_insert] at hnone

theorem find?_peek_none (h : (sb.peek below y).items.find? x = none) : sb.items.find? x = none := by
  rw [Sandbox.peek] at h
  split at h
  · exact h
  split at h
  · exact h
  · rw [find?_insert] at h
    split at h
    · simp at h
    · exact h

theorem find?_update_none (h : (sb.update y b).items.find? x = none) : sb.items.find? x = none := by
  rw [Sandbox.update, find?_insert] at h
  split at h
  · simp at h
  · exact h

theorem read_peek (x y : A) : (sb.peek below y).read below x = sb.read below x := by
  rw [Sandbox.peek]
  split
  · rfl
  next hitem =>
  split
  · rfl
  · next b hb =>
    rw [Sandbox.read, Sandbox.read, find?_insert]
    by_cases hx : x = y
    · simp [hx, hitem, hb, Copy.balance]
    · simp [hx]

end Peeked

/-! Entries stay in the table. -/

def Grows (sb sb' : Sandbox A) : Prop := ∀ k, sb'.tab.find? k = none → sb.tab.find? k = none

omit [OrderBot A] in
theorem Grows.creditHook {sb' : Sandbox A} (h : Grows sb sb') (x y : A) (amount pre : ℤ) :
    Grows sb (sb'.creditHook x y amount pre) := by
  intro k hnone
  rw [Sandbox.creditHook, find?_credit] at hnone
  split at hnone
  · simp at hnone
  · exact h k hnone

omit [OrderBot A] in
theorem Grows.peek {sb' : Sandbox A} (h : Grows sb sb') (below : A → Option ℕ) (x : A) :
    Grows sb (sb'.peek below x) := by
  rw [Sandbox.peek]
  split
  · exact h
  split
  · exact h
  · exact h

theorem accountSend_rule {P : ℕ → Sandbox A → Prop} {below : A → Option ℕ} {sender receiver : A} (h : P 0 sb)
    (hpeek : ∀ sb x, P 0 sb → P 0 (sb.peek below x))
    (hpay : ∀ sb b, P 0 sb → (sb.items.find? sender).map Copy.balance = some b → amount ≤ b →
      P amount ((sb.creditHook sender xrpAccount amount b).update sender (b - amount)))
    (hcollect : ∀ n sb b, P n sb → receiver ≠ xrpAccount → (sb.items.find? receiver).map Copy.balance = some b →
      P n ((sb.creditHook xrpAccount receiver amount (-b)).update receiver (b + amount))) :
    P (if debits below sb sender receiver amount then amount else 0)
      (sb.accountSend true below sender receiver amount).1 := by
  rw [Sandbox.accountSend]
  by_cases hidle : amount = 0 ∨ sender = receiver
  · rw [if_pos hidle]
    obtain rfl | rfl := hidle
    · simpa using h
    · simpa [debits] using h
  rw [if_neg hidle]
  push Not at hidle
  simp only [if_true]
  -- the two accounts are peeked
  have hpeeked : ∀ {sb : Sandbox A} (x : A), P 0 sb → P 0 (if x = xrpAccount then sb else sb.peek below x) := by
    intro sb x h
    split
    · exact h
    · exact hpeek sb x h
  have hsame : ∀ (sb : Sandbox A) (x y : A),
      (if x = xrpAccount then sb else sb.peek below x).read below y = sb.read below y := by
    intro sb x y
    split
    · rfl
    · exact read_peek y x
  set sb₁ := if sender = xrpAccount then sb else sb.peek below sender with hsb₁
  set sb₂ := if receiver = xrpAccount then sb₁ else sb₁.peek below receiver with hsb₂
  have h₂ : P 0 sb₂ := hpeeked receiver (hpeeked sender h)
  have hread : sb₂.read below sender = sb.read below sender :=
    (hsame sb₁ receiver sender).trans (hsame sb sender sender)
  have hreceiver : receiver ≠ xrpAccount → Peeked below sb₂ receiver := by
    intro hne
    rw [hsb₂, if_neg hne]
    exact peeked_peek below sb₁ receiver
  have hreceive : ∀ {n : ℕ} {sb : Sandbox A}, P n sb → (receiver ≠ xrpAccount → Peeked below sb receiver) →
      P n (sb.receive true below receiver amount) := by
    intro n sb h hx
    rw [Sandbox.receive]
    split
    · exact h
    next hne =>
    split
    · exact h
    · next b hb => exact hcollect n sb b h hne ((hx hne).item hb)
  by_cases hxrp : sender = xrpAccount
  · have hnot : debits below sb sender receiver amount = false := by simp [debits, hxrp]
    rw [if_pos hxrp]
    simpa [hnot] using hreceive h₂ hreceiver
  have hsender : Peeked below sb₂ sender := by
    have hpeeked₁ : Peeked below sb₁ sender := by
      rw [hsb₁, if_neg hxrp]
      exact peeked_peek below sb sender
    refine fun hnone => hpeeked₁ ?_
    rw [hsb₂] at hnone
    split at hnone
    · exact hnone
    · exact find?_peek_none hnone
  rw [if_neg hxrp, hread]
  have hdebits : debits below sb sender receiver amount = (sb.read below sender).any fun b => amount ≤ b := by
    simp [debits, hidle.2, hxrp]
  rw [hdebits]
  cases hbal : sb.read below sender with
  | none => simpa using hreceive h₂ hreceiver
  | some b =>
    by_cases hle : amount ≤ b
    · have hpaid := hpay sb₂ b h₂ (hsender.item (hread.trans hbal)) hle
      simpa [hle, not_lt.mpr hle] using hreceive hpaid fun hne hnone => hreceiver hne (find?_update_none hnone)
    · simpa [hle, not_le.mp hle] using h₂

theorem Recorded.accountSend {g : A → ℤ} (h : Recorded B a (sb :: stack) (g a :: ds))
    (hbase : base.find? a = some B)
    (sender receiver : A) (amount : ℕ) :
    let below := PaymentSandbox.balance base stack
    Recorded B a ((sb.accountSend true below sender receiver amount).1 :: stack) (Function.update g sender
        (g sender + (if debits below sb sender receiver amount then amount else 0 : ℕ)) a :: ds) ∧
      Grows sb (sb.accountSend true below sender receiver amount).1 := by
  refine accountSend_rule (P := fun n sb' =>
    Recorded B a (sb' :: stack) (Function.update g sender (g sender + (n : ℤ)) a :: ds) ∧ Grows sb sb')
    ⟨by simpa using h, fun _ h => h⟩ ?_ ?_ ?_
  · rintro sb' x ⟨h, hgrows⟩
    exact ⟨h.peek hbase x, hgrows.peek _ x⟩
  · rintro sb' b ⟨h, hgrows⟩ hitem hle
    refine ⟨?_, hgrows.creditHook _ _ _ _⟩
    by_cases ha : a = sender
    · simpa [ha] using h.pay hitem hle
    · simpa [ha] using h.pay hitem hle
  · rintro n sb' b ⟨h, hgrows⟩ hne hitem
    exact ⟨h.collect hne hitem, hgrows.creditHook _ _ _ _⟩

theorem Recorded.sendAt (hbase : base.find? a = some B) (sender receiver : A) (amount : ℕ)
    (level : ℕ) (h : Recorded B a stack (gs.map (· a))) :
    Recorded B a (sendAt base sender receiver amount level stack)
        ((debitAt base sender receiver amount level stack gs).map (· a)) ∧
      (gs.map (· a)).sum ≤ ((debitAt base sender receiver amount level stack gs).map (· a)).sum ∧
      (Untouched a (PaymentSandbox.sendAt base sender receiver amount level stack) → Untouched a stack) := by
  induction stack generalizing level gs with
  | nil =>
    cases gs with
    | nil => cases level <;> exact ⟨.nil, le_rfl, fun h => h⟩
    | cons g gs => cases h
  | cons sb stack ih =>
    cases gs with
    | nil => cases h
    | cons g gs =>
      cases level with
      | zero =>
        obtain ⟨hrec, hgrows⟩ := h.accountSend hbase sender receiver amount
        have hpaid : ∀ D : Bool, (if D then Function.update g sender (g sender + amount) else g) =
            Function.update g sender (g sender + (if D then amount else 0 : ℕ)) := by
          intro D
          cases D <;> simp
        rw [debitAt, map_cons, map_cons, hpaid, sum_cons, sum_cons, PaymentSandbox.sendAt]
        refine ⟨hrec, ?_, fun hun => ?_⟩
        · rw [Function.update_apply]
          split
          · next ha => subst ha; omega
          · exact le_rfl
        · obtain ⟨hnone, hrest⟩ := untouched_cons.mp hun
          exact untouched_cons.mpr ⟨hgrows _ hnone, hrest⟩
      | succ level =>
        obtain ⟨hrec, hsum, hun⟩ := ih level h.tail
        refine ⟨h.cons_mono hrec hsum hun, ?_, fun hnow => ?_⟩
        · rw [debitAt, map_cons, map_cons, sum_cons, sum_cons]
          omega
        · rw [PaymentSandbox.sendAt] at hnow
          obtain ⟨hnone, hrest⟩ := untouched_cons.mp hnow
          exact untouched_cons.mpr ⟨hnone, hun hrest⟩

/-! ## Applying a sandbox to its parent -/

omit [OrderBot A] in
theorem find?_apply_items (sb parent : Sandbox A) (x : A) : (sb.apply parent).items.find? x =
    match sb.items.find? x with
    | some (.modify b) => some (.modify b)
    | _ => parent.items.find? x := by
  rw [Sandbox.apply, find?_absorb]
  cases sb.items.find? x with
  | none => rfl
  | some c => cases c <;> rfl

omit [OrderBot A] in
theorem find?_apply_tab (sb parent : Sandbox A) (k : A ×ₗ A) : (sb.apply parent).tab.find? k =
    match sb.tab.find? k with
    | none => parent.tab.find? k
    | some v => some (DeferredCredits.merge (parent.tab.find? k) v) := by
  rw [Sandbox.apply, DeferredCredits.apply, find?_absorb]
  cases sb.tab.find? k <;> simp

theorem Recorded.apply {parent : Sandbox A}
    (h : Recorded B a (sb :: parent :: stack) (d :: d' :: ds)) :
    Recorded B a (sb.apply parent :: stack) ((d + d') :: ds) := by
  cases h with
  | untouched h hnone hcopy =>
    rw [zero_add]
    refine h.congr ?_ ?_
    · rw [find?_apply_items]
      cases hitem : sb.items.find? a with
      | none => rfl
      | some c =>
        obtain ⟨b, rfl, -, -⟩ := hcopy c hitem
        rfl
    · rw [find?_apply_tab, hnone]
  | @touched _ _ _ b v h hentry hpaid horig hfirst hcopy hbalance =>
    have hitem : (sb.apply parent).items.find? a = some (.modify b) := by rw [find?_apply_items, hcopy]
    cases h with
    | untouched h hnone hcopy' =>
      have hentry' : (sb.apply parent).tab.find? (xrpKey a) = some v := by
        rw [find?_apply_tab, hentry, hnone]
        rfl
      rw [add_zero]
      simp only [sum_cons, zero_add] at horig hbalance
      refine .touched v h hentry' hpaid horig (fun hun => hfirst ?_) hitem hbalance
      exact untouched_cons.mpr ⟨hnone, hun⟩
    | touched w h hentry' hpaid' horig' hfirst' hcopy' hbalance' =>
      have hmerged : (sb.apply parent).tab.find? (xrpKey a) = some (DeferredCredits.merge (some w) v) := by
        rw [find?_apply_tab, hentry, hentry']
      have hlow : (DeferredCredits.merge (some w) v).lowAcctCredits = v.lowAcctCredits + w.lowAcctCredits :=
        add_comm _ _
      rw [sum_cons] at hbalance
      rw [← hlow]
      refine .touched _ h hmerged ?_ horig' hfirst' hitem ?_
      · rw [hlow]
        exact add_nonneg hpaid hpaid'
      · rw [hlow]
        omega

/-! ## The hook -/

theorem adjustments_eq (a : A) : tab.adjustments a xrpAccount =
    (tab.find? (xrpKey a)).map fun v => ⟨v.lowAcctCredits, v.highAcctCredits, -v.lowAcctOrigBalance⟩ := by
  rw [DeferredCredits.adjustments, makeKey_sender]
  have hlt : ¬a < xrpAccount := not_lt_bot
  cases tab.find? (xrpKey a) <;> simp [hlt]

theorem Recorded.hookLoop (h : Recorded B a stack ds) (s : HookState) :
    (stack.foldl (hookStep a xrpAccount) s).delta = s.delta + ds.sum ∧
      (¬Untouched a stack → (stack.foldl (hookStep a xrpAccount) s).lastBal = B) ∧
      (Untouched a stack → stack.foldl (hookStep a xrpAccount) s = s) ∧
      ∀ x, x ≤ s.minBal → x ≤ B - ds.sum → x ≤ (stack.foldl (hookStep a xrpAccount) s).minBal := by
  induction h generalizing s with
  | nil => exact ⟨by simp, fun hun => absurd (by simp [Untouched]) hun, fun _ => rfl, fun _ hx _ => hx⟩
  | @untouched sb stack ds h hnone hcopy ih =>
    have hstep : hookStep a xrpAccount s sb = s := by rw [hookStep, adjustments_eq, hnone]; rfl
    obtain ⟨hdelta, hlast, hsame, hmin⟩ := ih s
    rw [foldl_cons, hstep, untouched_cons]
    refine ⟨by simpa using hdelta, fun hun => hlast fun hun' => hun ⟨hnone, hun'⟩, fun hun => hsame hun.2, ?_⟩
    simpa using hmin
  | @touched sb stack ds b v h hentry hpaid horig hfirst hcopy hbalance ih =>
    have hstep : hookStep a xrpAccount s sb =
        ⟨s.delta + v.lowAcctCredits, -v.lowAcctOrigBalance,
          if -v.lowAcctOrigBalance < s.minBal then -v.lowAcctOrigBalance else s.minBal⟩ := by
      rw [hookStep, adjustments_eq, hentry]
      rfl
    obtain ⟨hdelta, hlast, hsame, hmin⟩ := ih (hookStep a xrpAccount s sb)
    rw [foldl_cons, untouched_cons]
    refine ⟨?_, fun _ => ?_, fun hun => ?_, fun x hx hle => hmin x ?_ ?_⟩
    · rw [hdelta, hstep, sum_cons]
      ring
    · by_cases hun : Untouched a stack
      · rw [hsame hun, hstep]
        exact hfirst hun
      · exact hlast hun
    · simp [hentry] at hun
    · rw [sum_cons] at hle
      have hsum := h.sum_nonneg
      rw [hstep]
      simp only
      split <;> omega
    · rw [sum_cons] at hle
      omega

theorem Recorded.balanceHook (h : Recorded B a stack ds) (hbase : base.find? a = some B) (fix1368 : Bool) :
    ∃ b : ℕ, PaymentSandbox.balance base stack a = some b ∧
      balanceHook true fix1368 stack a xrpAccount b = min (b : ℤ) (max 0 (B - ds.sum)) := by
  obtain ⟨b, hb, hle, hsame⟩ := h.balance hbase
  refine ⟨b, hb, ?_⟩
  obtain ⟨hdelta, hlast, hskip, hmin⟩ := h.hookLoop ⟨0, b, b⟩
  have hsum := h.sum_nonneg
  -- the account has paid, or has what it had
  have hadjusted : min (b : ℤ) ((stack.foldl (hookStep a xrpAccount) ⟨0, b, b⟩).lastBal -
      (stack.foldl (hookStep a xrpAccount) ⟨0, b, b⟩).delta) = min (b : ℤ) (B - ds.sum) := by
    rw [hdelta, zero_add]
    by_cases hun : Untouched a stack
    · have hzero : ds.sum = 0 := by
        have := hskip hun ▸ hdelta
        simpa using this.symm
      rw [hskip hun, hsame hun, hzero]
    · rw [hlast hun]
  have hbounded : min (min (b : ℤ) (B - ds.sum)) (stack.foldl (hookStep a xrpAccount) ⟨0, b, b⟩).minBal =
      min (b : ℤ) (B - ds.sum) :=
    min_eq_left (hmin _ (min_le_left _ _) (min_le_right _ _))
  have hresult : PaymentSandbox.balanceHook true fix1368 stack a xrpAccount b =
      if min (b : ℤ) (B - ds.sum) < 0 then 0 else min (b : ℤ) (B - ds.sum) := by
    simp only [PaymentSandbox.balanceHook, if_true, true_and, hadjusted]
    cases fix1368 with
    | true => simp only [if_true, hbounded]
    | false => simp
  rw [hresult]
  split <;> omega

/-! ## Runs -/

theorem length_sendAt (sender receiver : A) (amount level : ℕ) :
    (sendAt base sender receiver amount level stack).length = stack.length := by
  induction stack generalizing level with
  | nil => cases level <;> rfl
  | cons sb stack ih =>
    cases level with
    | zero => rfl
    | succ level => exact congrArg (· + 1) (ih level)

theorem length_debitAt (sender receiver : A) (amount level : ℕ) :
    (debitAt base sender receiver amount level stack gs).length = gs.length := by
  induction stack generalizing level gs with
  | nil => cases level <;> rfl
  | cons sb stack ih =>
    cases gs with
    | nil => cases level <;> rfl
    | cons g gs =>
      cases level with
      | zero => rfl
      | succ level => exact congrArg (· + 1) (ih level)

structure Accounted (s : State A) (h : History A) : Prop where
  length : h.debits.length = s.stack.length
  orig : s.stack ≠ [] → h.orig = s.base.find?
  recorded : ∀ a B, s.base.find? a = some B → Recorded B a s.stack (h.debits.map (· a))

theorem Accounted.step {s : State A} {h : History A} (hs : Accounted s h) (op : Op A) :
    Accounted (step s op) (h.next s op) := by
  obtain ⟨base, stack⟩ := s
  obtain ⟨orig, gs⟩ := h
  obtain ⟨hlength, horig, hrec⟩ := hs
  cases op with
  | send level sender receiver amount =>
    refine ⟨?_, fun hne => horig fun hnil => hne ?_, fun a B hB => ?_⟩
    · exact (length_debitAt _ _ _ _).trans (hlength.trans (length_sendAt _ _ _ _).symm)
    · simp only at hnil
      simp [PaymentSandbox.step, hnil, sendAt]
    · exact ((hrec a B hB).sendAt hB sender receiver amount level).1
  | push =>
    refine ⟨congrArg (· + 1) hlength, fun _ => ?_, fun a B hB => ?_⟩
    · cases stack with
      | nil => rfl
      | cons sb stack => exact horig (by simp)
    · exact .untouched (hrec a B hB) rfl fun c hc => absurd hc (by simp [OrderedMap.find?, OrderedMap.empty])
  | apply =>
    cases stack with
    | nil =>
      obtain rfl : gs = [] := eq_nil_of_length_eq_zero hlength
      exact ⟨rfl, horig, fun a B hB => .nil⟩
    | cons sb stack =>
      obtain ⟨g, gs, rfl⟩ := exists_cons_of_length_eq_add_one hlength
      cases stack with
      | nil =>
        obtain rfl : gs = [] := eq_nil_of_length_eq_zero (Nat.succ.inj hlength)
        exact ⟨rfl, fun hne => absurd rfl hne, fun a B hB => .nil⟩
      | cons parent stack =>
        obtain ⟨g', gs, rfl⟩ := exists_cons_of_length_eq_add_one (Nat.succ.inj hlength)
        refine ⟨?_, fun _ => horig (by simp), fun a B hB => (hrec a B hB).apply⟩
        simpa [History.next, PaymentSandbox.step] using hlength
  | discard =>
    cases stack with
    | nil =>
      obtain rfl : gs = [] := eq_nil_of_length_eq_zero hlength
      exact ⟨rfl, horig, fun a B hB => .nil⟩
    | cons sb stack =>
      obtain ⟨g, gs, rfl⟩ := exists_cons_of_length_eq_add_one hlength
      refine ⟨?_, fun _ => horig (by simp), fun a B hB => (hrec a B hB).tail⟩
      simpa [History.next, PaymentSandbox.step] using hlength

theorem accounted_run (base : OrderedMap A ℕ) (ops : List (Op A)) :
    Accounted (run base ops).1 (run base ops).2 := by
  induction ops using List.reverseRecOn with
  | nil => exact ⟨rfl, fun hne => absurd rfl hne, fun a B _ => .nil⟩
  | append_singleton ops op ih =>
    rw [run, foldl_append]
    exact ih.step op

theorem Recorded.drop (h : Recorded B a stack ds) (k : ℕ) : Recorded B a (stack.drop k) (ds.drop k) := by
  induction h generalizing k with
  | nil =>
    rw [drop_nil, drop_nil]
    exact .nil
  | untouched h hnone hcopy ih =>
    cases k with
    | zero => exact .untouched h hnone hcopy
    | succ k => exact ih k
  | touched v h hentry hpaid horig hfirst hcopy hbalance ih =>
    cases k with
    | zero => exact .touched v h hentry hpaid horig hfirst hcopy hbalance
    | succ k => exact ih k

/-- An account can spend what it had when the outermost sandbox was made, less what it has paid
since, and no more than its current balance. -/
theorem balanceHook_eq (base : OrderedMap A ℕ) (ops : List (Op A)) {s : State A} {h : History A}
    (hrun : run base ops = (s, h)) (level : ℕ) (hlevel : level < s.stack.length) {a : A} {B : ℕ}
    (hB : h.orig a = some B) (fix1368 : Bool) :
    ∃ b : ℕ, balance s.base (s.stack.drop level) a = some b ∧
      balanceHook true fix1368 (s.stack.drop level) a xrpAccount b =
        min (b : ℤ) (max 0 (B - ((h.debits.drop level).map (· a)).sum)) ∧
      balanceHook true fix1368 (s.stack.drop level) a xrpAccount b ≤ B ∧
      balanceHook true fix1368 (s.stack.drop level) a xrpAccount b ≤ b := by
  have hacc := accounted_run base ops
  rw [hrun] at hacc
  have hbase : s.base.find? a = some B := by
    have hne : s.stack ≠ [] := ne_nil_of_length_pos (by omega)
    rw [← hacc.orig hne]
    exact hB
  have hrec := (hacc.recorded a B hbase).drop level
  rw [← map_drop] at hrec
  have hsum := hrec.sum_nonneg
  obtain ⟨b, hb, hhook⟩ := hrec.balanceHook hbase fix1368
  refine ⟨b, hb, hhook, ?_, ?_⟩ <;> rw [hhook] <;> omega

/-- `1` pays 30; in a sandbox on top it receives 50 and pays 20, and that one is applied. -/
def sampleOps : List (Op ℕ) := [.push, .send 0 1 2 30, .push, .send 0 2 1 50, .send 0 1 2 20, .apply]

def sampleBase : OrderedMap ℕ ℕ := (OrderedMap.empty.insert 1 100).insert 2 200

theorem balanceHook_eq_sample :
    ∃ b : ℕ, balance (run sampleBase sampleOps).1.base ((run sampleBase sampleOps).1.stack.drop 0) 1 = some b ∧
      balanceHook true true ((run sampleBase sampleOps).1.stack.drop 0) 1 xrpAccount b =
        min (b : ℤ) (max 0 (100 - 50)) := by
  obtain ⟨b, hb, hhook, -, -⟩ :=
    balanceHook_eq sampleBase sampleOps (s := (run sampleBase sampleOps).1)
      (h := (run sampleBase sampleOps).2) rfl 0
      (a := 1) (B := 100) (by decide) (by decide) true
  have hdebits : (((run sampleBase sampleOps).2.debits.drop 0).map (· 1)).sum = 50 := by decide
  rw [hdebits] at hhook
  exact ⟨b, hb, hhook⟩

end Ripple.Ledger.PaymentSandbox
