import Mathlib.Tactic.Common

/-!
# Ripple.Lib.Proc

Procedures over a state that may fall through with a value, return early with a reply, or fault,
with the rules of their weakest preconditions. A fault stands for what a program must never do; the
three postconditions of `wp` say what is asked of each way out.
-/

namespace Ripple

inductive Outcome (F S R α : Type) where
  | fault (e : F)
  | ret (r : R) (s : S)
  | next (a : α) (s : S)

def Proc (F S R α : Type) : Type := S → Outcome F S R α

namespace Proc

variable {F S R α β : Type}

def andThen (x : Proc F S R α) (f : α → Proc F S R β) : Proc F S R β := fun s =>
  match x s with
  | .fault e => .fault e
  | .ret r s' => .ret r s'
  | .next a s' => f a s'

instance : Monad (Proc F S R) where
  pure a := fun s => .next a s
  bind := andThen

def fault (e : F) : Proc F S R α := fun _ => .fault e

def ret (r : R) : Proc F S R α := fun s => .ret r s

def get : Proc F S R S := fun s => .next s s

def modify (f : S → S) : Proc F S R Unit := fun s => .next () (f s)

def attempt (f : S → Except F S) : Proc F S R Unit := fun s =>
  match f s with
  | .ok s' => .next () s'
  | .error e => .fault e

def expect (e : F) : Option α → Proc F S R α
  | some a => pure a
  | none => fault e

/-- A call: what the callee returns early is its value. -/
def call (x : Proc F S α α) : Proc F S R α := fun s =>
  match x s with
  | .fault e => .fault e
  | .ret a s' => .next a s'
  | .next a s' => .next a s'

/-- The weakest precondition for `E` of the faults, `P` of the early returns and `Q` of the values.
-/
def wp (x : Proc F S R α) (E : F → Prop) (P : R → S → Prop) (Q : α → S → Prop) (s : S) : Prop :=
  match x s with
  | .fault e => E e
  | .ret r s' => P r s'
  | .next a s' => Q a s'

section Rules

variable {E : F → Prop} {P : R → S → Prop} {Q : α → S → Prop} {s : S}

variable {a : α} {e : F} {x : Proc F S R α} {s' : S}

@[simp] theorem wp_pure : wp (pure a : Proc F S R α) E P Q s ↔ Q a s := Iff.rfl

@[simp] theorem wp_bind {x : Proc F S R β} {f : β → Proc F S R α} :
    wp (x >>= f) E P Q s ↔ wp x E P (fun b s' => wp (f b) E P Q s') s := by
  simp only [wp, bind, andThen]
  cases x s <;> rfl

@[simp] theorem wp_fault : wp (fault e : Proc F S R α) E P Q s ↔ E e := Iff.rfl

@[simp] theorem wp_ret {r : R} : wp (ret r : Proc F S R α) E P Q s ↔ P r s := Iff.rfl

@[simp] theorem wp_get {Q : S → S → Prop} : wp (get : Proc F S R S) E P Q s ↔ Q s s := Iff.rfl

@[simp] theorem wp_modify {f : S → S} {Q : Unit → S → Prop} :
    wp (modify f : Proc F S R Unit) E P Q s ↔ Q () (f s) := Iff.rfl

@[simp] theorem wp_expect_some : wp (expect e (some a) : Proc F S R α) E P Q s ↔ Q a s := Iff.rfl

theorem wp_of_next (h : x s = .next a s') : wp x E P Q s ↔ Q a s' := by
  simp only [wp, h]

theorem wp_attempt {f : S → Except F S} {Q : Unit → S → Prop} (hok : ∀ s', f s = .ok s' → Q () s')
    (herror : ∀ e, f s = .error e → E e) : wp (attempt f : Proc F S R Unit) E P Q s := by
  simp only [wp, attempt]
  cases hf : f s with
  | ok s' => exact hok s' hf
  | error e => exact herror e hf

theorem wp_call {x : Proc F S α α} : wp (call x : Proc F S R α) E P Q s ↔ wp x E Q Q s := by
  simp only [wp, call]
  cases x s <;> rfl

theorem wp_mono {E' : F → Prop} {P' : R → S → Prop} {Q' : α → S → Prop} (h : wp x E P Q s)
    (hE : ∀ e, E e → E' e) (hP : ∀ r s', P r s' → P' r s') (hQ : ∀ a s', Q a s' → Q' a s') :
    wp x E' P' Q' s := by
  revert h
  simp only [wp]
  cases x s with
  | fault e => exact hE e
  | ret r s' => exact hP r s'
  | next a s' => exact hQ a s'

theorem wp_post {Q' : α → S → Prop} (h : wp x E P Q s) (hQ : ∀ a s', Q a s' → Q' a s') :
    wp x E P Q' s :=
  wp_mono h (fun _ he => he) (fun _ _ hp => hp) hQ

theorem wp_ite {c : Prop} [Decidable c] {y : Proc F S R α} (hx : c → wp x E P Q s)
    (hy : ¬ c → wp y E P Q s) : wp (if c then x else y) E P Q s := by
  split
  · exact hx ‹_›
  · exact hy ‹_›

/-- The value of a procedure, returned early or not, and the state it leaves. -/
def result (x : Proc F S α α) (s : S) : Except F (α × S) :=
  match x s with
  | .fault e => .error e
  | .ret a s' => .ok (a, s')
  | .next a s' => .ok (a, s')

theorem result_ok_of_wp {x : Proc F S α α} (h : wp x E Q Q s) (hx : result x s = .ok (a, s')) :
    Q a s' := by
  revert h hx
  simp only [wp, result]
  cases x s with
  | fault e => intro _ hx; cases hx
  | ret r s₁ | next b s₁ => intro h hx; cases hx; exact h

theorem result_of_wp {x : Proc F S α α} (h : wp x (fun _ => False) Q Q s) :
    ∃ a s', result x s = .ok (a, s') ∧ Q a s' := by
  revert h
  simp only [wp, result]
  cases x s with
  | fault e => exact False.elim
  | ret a s' | next a s' => exact fun h => ⟨a, s', rfl, h⟩

/-- The state that running a procedure leaves, if it does not fault. -/
def exec (x : Proc F S R α) (s : S) : Except F S :=
  match x s with
  | .fault e => .error e
  | .ret _ s' => .ok s'
  | .next _ s' => .ok s'

theorem exec_ok_of_wp (h : wp x E P Q s) (hx : exec x s = .ok s') :
    (∃ r, P r s') ∨ ∃ a, Q a s' := by
  revert h hx
  simp only [wp, exec]
  cases x s with
  | fault e => intro _ hx; cases hx
  | ret r s₁ => intro h hx; cases hx; exact .inl ⟨r, h⟩
  | next a s₁ => intro h hx; cases hx; exact .inr ⟨a, h⟩

theorem exec_error_of_wp (h : wp x E P Q s) (hx : exec x s = .error e) : E e := by
  revert h hx
  simp only [wp, exec]
  cases x s with
  | fault e' => intro h hx; cases hx; exact h
  | ret r s₁ | next a s₁ => intro _ hx; cases hx

end Rules

-- the rules are all that is used of `wp` from here on
attribute [irreducible] wp

def forEach (f : β → Proc F S R Unit) : List β → Proc F S R Unit
  | [] => pure ()
  | b :: bs => do
    f b
    forEach f bs

theorem wp_forEach {f : β → Proc F S R Unit} {E : F → Prop} {P : R → S → Prop}
    (I : List β → S → Prop)
    (hstep : ∀ b bs s, I (b :: bs) s → wp (f b) E P (fun _ s' => I bs s') s) :
    ∀ {bs : List β} {s : S}, I bs s → wp (forEach f bs) E P (fun _ s' => I [] s') s := by
  intro bs
  induction bs with
  | nil => intro s h; exact wp_pure.2 h
  | cons b bs ih =>
    intro s h
    simp only [forEach, wp_bind]
    exact wp_post (hstep b bs s h) fun _ _ hi => ih hi

end Proc

end Ripple
