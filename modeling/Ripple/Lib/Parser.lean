import Mathlib.Tactic.Common

/-!
# Ripple.Lib.Parser

Readers of the front of a list: a value and what is left of the list, or an error.

`Reads p w a` says that `p` finds `a` in `w` and leaves alone whatever follows. It composes along
the steps of a reader, as does the other direction: `bind_eq_ok` takes a successful run apart.

`loop` repeats a step that takes an element in every round (`Consumes`). It counts its rounds, which
are never more than the elements: `loop_next` and `loop_done` unfold it, `loop_invariant` is the rule
for what holds at its end.
-/

namespace Ripple

def Parser (E τ α : Type) : Type := List τ → Except E (α × List τ)

namespace Parser

variable {E τ α β : Type}

def andThen (p : Parser E τ α) (f : α → Parser E τ β) : Parser E τ β := fun s =>
  match p s with
  | .error e => .error e
  | .ok (a, rest) => f a rest

instance : Monad (Parser E τ) where
  pure a := fun s => .ok (a, s)
  bind := andThen

def fail (e : E) : Parser E τ α := fun _ => .error e

/-- The next `n` elements, or the error `e` where there are fewer. -/
def take (e : E) (n : Nat) : Parser E τ (List τ) := fun s =>
  if s.length < n then .error e else .ok (s.take n, s.drop n)

def lift (r : Except E α) : Parser E τ α := fun s =>
  match r with
  | .error e => .error e
  | .ok a => .ok (a, s)

def isEmpty : Parser E τ Bool := fun s => .ok (s.isEmpty, s)

@[simp] theorem pure_apply (a : α) (s : List τ) : (pure a : Parser E τ α) s = .ok (a, s) := rfl

@[simp] theorem isEmpty_apply (s : List τ) : (isEmpty : Parser E τ Bool) s = .ok (s.isEmpty, s) := rfl

variable {s rest : List τ} {a : α} {p : Parser E τ α} {f : α → Parser E τ β} {e : E} {w : List τ}
  {n : Nat}

theorem lift_eq_ok {r : Except E α} (h : lift r s = .ok (a, rest)) : r = .ok a ∧ rest = s := by
  cases r with
  | error e => cases h
  | ok a =>
    cases h
    exact ⟨rfl, rfl⟩

theorem bind_apply (h : p s = .ok (a, rest)) : (p >>= f) s = f a rest := by
  change andThen p f s = _
  simp only [andThen, h]

theorem bind_error (h : p s = .error e) : (p >>= f) s = .error e := by
  change andThen p f s = _
  simp only [andThen, h]

theorem bind_eq_ok {r : β × List τ} (h : (p >>= f) s = .ok r) :
    ∃ a rest, p s = .ok (a, rest) ∧ f a rest = .ok r := by
  cases hp : p s with
  | error e =>
    rw [bind_error hp] at h
    cases h
  | ok found =>
    obtain ⟨a, rest⟩ := found
    rw [bind_apply hp] at h
    exact ⟨a, rest, rfl, h⟩

theorem take_append (e : E) (hw : w.length = n) (rest : List τ) :
    take e n (w ++ rest) = .ok (w, rest) := by
  subst hw
  simp [take]

theorem take_eq_ok (h : take e n s = .ok (w, rest)) : w.length = n ∧ s = w ++ rest := by
  unfold take at h
  split at h
  · cases h
  · cases h
    exact ⟨by rw [List.length_take]; omega, (List.take_append_drop n s).symm⟩

/-! ## What a reader finds -/

/-- `p` finds `a` in `w`, and leaves what follows `w`. -/
def Reads (p : Parser E τ α) (w : List τ) (a : α) : Prop := ∀ rest, p (w ++ rest) = .ok (a, rest)

theorem Reads.pure (a : α) : Reads (pure a : Parser E τ α) [] a := fun _ => rfl

theorem Reads.bind {w' : List τ} {b : β} (hp : Reads p w a) (hf : Reads (f a) w' b) :
    Reads (p >>= f) (w ++ w') b := by
  intro rest
  rw [List.append_assoc, bind_apply (hp (w' ++ rest))]
  exact hf rest

theorem Reads.apply_nil (h : Reads p w a) : p w = .ok (a, []) := by
  have := h []
  rwa [List.append_nil] at this

theorem Reads.map (h : Reads p w a) (f : α → β) :
    Reads (p >>= fun a => Pure.pure (f a)) w (f a) := by
  have := h.bind (f := fun a => Pure.pure (f a)) (Reads.pure (f a))
  rwa [List.append_nil] at this

/-! ## Readers that leave no more than they got -/

def Shrinks (p : Parser E τ α) : Prop := ∀ s a rest, p s = .ok (a, rest) → rest.length ≤ s.length

theorem Shrinks.pure (a : α) : Shrinks (pure a : Parser E τ α) := by
  intro s a rest h
  cases h
  exact Nat.le_refl _

theorem Shrinks.fail (e : E) : Shrinks (fail e : Parser E τ α) := fun _ _ _ h => nomatch h

theorem Shrinks.take (e : E) (n : Nat) : Shrinks (take e n : Parser E τ (List τ)) := by
  intro s w rest h
  rw [(take_eq_ok h).2, List.length_append]
  exact Nat.le_add_left _ _

theorem Shrinks.bind (hp : Shrinks p) (hf : ∀ a, Shrinks (f a)) : Shrinks (p >>= f) := by
  intro s b rest h
  obtain ⟨a, rest', h1, h2⟩ := bind_eq_ok h
  exact Nat.le_trans (hf a _ _ _ h2) (hp _ _ _ h1)

/-! ## Loops -/

section Loop

variable {σ : Type} [Inhabited E]

/-- At most `n` rounds of `step`, which goes on with `.inl` and ends with `.inr`. -/
def loopFor (step : σ → Parser E τ (σ ⊕ α)) : Nat → σ → Parser E τ α
  | 0, _ => fail default
  | n + 1, s => step s >>= fun
    | .inl s => loopFor step n s
    | .inr a => pure a

def loop (step : σ → Parser E τ (σ ⊕ α)) (s : σ) : Parser E τ α := fun input =>
  loopFor step (input.length + 1) s input

def Consumes (step : σ → Parser E τ (σ ⊕ α)) : Prop :=
  ∀ s input s' rest, step s input = .ok (.inl s', rest) → rest.length < input.length

variable {step : σ → Parser E τ (σ ⊕ α)}

variable {input rest : List τ} {s s' : σ} {a : α}

theorem loopFor_next {n : Nat} (h : step s input = .ok (.inl s', rest)) :
    loopFor step (n + 1) s input = loopFor step n s' rest := by
  rw [loopFor, bind_apply h]

theorem loopFor_enough (hc : Consumes step) (n : Nat) : ∀ {m : Nat} {s : σ} {input : List τ},
    input.length < n → input.length < m → loopFor step n s input = loopFor step m s input := by
  induction n with
  | zero => exact fun h => absurd h (Nat.not_lt_zero _)
  | succ n ih =>
    intro m s input hn hm
    cases m with
    | zero => exact absurd hm (Nat.not_lt_zero _)
    | succ m =>
      cases hstep : step s input with
      | error e => rw [loopFor, loopFor, bind_error hstep, bind_error hstep]
      | ok found =>
        obtain ⟨r, rest⟩ := found
        cases r with
        | inr a => rw [loopFor, loopFor, bind_apply hstep, bind_apply hstep]
        | inl s' =>
          have := hc _ _ _ _ hstep
          rw [loopFor_next hstep, loopFor_next hstep]
          exact ih (by omega) (by omega)

theorem loop_next (hc : Consumes step) (h : step s input = .ok (.inl s', rest)) :
    loop step s input = loop step s' rest := by
  have := hc _ _ _ _ h
  rw [loop, loopFor_next h]
  exact loopFor_enough hc _ this (Nat.lt_succ_self _)

theorem loop_done (h : step s input = .ok (.inr a, rest)) : loop step s input = .ok (a, rest) := by
  rw [loop, loopFor, bind_apply h]
  rfl

theorem loop_invariant {P : σ → List τ → Prop} {Q : α → List τ → Prop}
    (hnext : ∀ {s input s' rest}, P s input → step s input = .ok (.inl s', rest) → P s' rest)
    (hdone : ∀ {s input a rest}, P s input → step s input = .ok (.inr a, rest) → Q a rest)
    (hs : P s input) (h : loop step s input = .ok (a, rest)) : Q a rest := by
  have hrounds : ∀ (n : Nat) {s : σ} {input : List τ}, P s input →
      loopFor step n s input = .ok (a, rest) → Q a rest := by
    intro n
    induction n with
    | zero => exact fun _ h => nomatch h
    | succ n ih =>
      intro s input hs h
      obtain ⟨r, rest', hstep, hr⟩ := bind_eq_ok h
      cases r with
      | inl s' => exact ih (hnext hs hstep) hr
      | inr a' =>
        cases hr
        exact hdone hs hstep
  exact hrounds _ hs h

theorem Shrinks.loop (h : ∀ s, Shrinks (step s)) (s : σ) : Shrinks (loop step s) := by
  have hrounds : ∀ (n : Nat) (s : σ), Shrinks (loopFor step n s) := by
    intro n
    induction n with
    | zero => exact fun _ => Shrinks.fail _
    | succ n ih =>
      refine fun s => (h s).bind fun r => ?_
      cases r with
      | inl s' => exact ih s'
      | inr a => exact Shrinks.pure a
  exact fun input => hrounds _ s input

end Loop

end Parser

end Ripple
