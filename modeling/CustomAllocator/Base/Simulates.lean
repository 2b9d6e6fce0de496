/-!
# Simulation of computations that can fail

`Simulates R x y` says that `y` completes whenever `x` does, with a result that `R` relates to
that of `x`, and `Ensures P x` that whatever `x` returns satisfies `P`. The rules follow the
parts a computation is made of, so that two programs with the same shape are compared part by
part.
-/

namespace CustomAllocator.Base

universe u v

/-- Whenever `x` completes, so does `y`, and `R` relates the results. -/
def Simulates {ε δ : Type u} {α β : Type v} (R : α → β → Prop) (x : Except ε α)
    (y : Except δ β) : Prop :=
  ∀ a, x = .ok a → ∃ b, y = .ok b ∧ R a b

namespace Simulates

variable {ε δ : Type u} {α β : Type v} {R : α → β → Prop} {x x' : Except ε α}
  {y y' : Except δ β}

/-- Two results. -/
theorem ok {a : α} {b : β} (h : R a b) :
    Simulates R (Except.ok a : Except ε α) (Except.ok b : Except δ β) := by
  intro a' ha
  cases ha
  exact ⟨b, rfl, h⟩

/-- A computation that fails is simulated by any other. -/
theorem error {e : ε} : Simulates R (Except.error e : Except ε α) y := by
  intro a ha
  cases ha

/-- Every computation simulates itself. -/
theorem refl : Simulates (· = ·) x x := fun a h ↦ ⟨a, h, rfl⟩

theorem mono {S : α → β → Prop} (h : Simulates R x y) (hRS : ∀ a b, R a b → S a b) :
    Simulates S x y := by
  intro a ha
  obtain ⟨b, hb, hR⟩ := h a ha
  exact ⟨b, hb, hRS a b hR⟩

/-- A branch on the same condition. -/
theorem ite {p : Prop} [Decidable p] (h : p → Simulates R x y) (h' : ¬ p → Simulates R x' y') :
    Simulates R (if p then x else x') (if p then y else y') := by
  by_cases hp : p
  · rw [if_pos hp, if_pos hp]
    exact h hp
  · rw [if_neg hp, if_neg hp]
    exact h' hp

/-- Sequences of computations. -/
theorem bind {α' β' : Type v} {S : α' → β' → Prop} {f : α → Except ε α'} {g : β → Except δ β'}
    (h : Simulates R x y) (hf : ∀ a b, R a b → Simulates S (f a) (g b)) :
    Simulates S (x >>= f) (y >>= g) := by
  intro c hc
  cases hx : x with
  | error e =>
    rw [hx] at hc
    cases hc
  | ok a =>
    obtain ⟨b, hb, hR⟩ := h a hx
    rw [hx] at hc
    obtain ⟨d, hd, hS⟩ := hf a b hR c hc
    refine ⟨d, ?_, hS⟩
    rw [hb]
    exact hd

/-- Sequences whose first halves give the same result. -/
theorem bindEq {α' β' : Type v} {S : α' → β' → Prop} {w : Except δ α} {f : α → Except ε α'}
    {g : α → Except δ β'} (h : Simulates (· = ·) x w) (hf : ∀ a, Simulates S (f a) (g a)) :
    Simulates S (x >>= f) (w >>= g) := by
  apply h.bind
  intro a b hab
  cases hab
  exact hf a

end Simulates

/-- Whatever `x` returns satisfies `P`. -/
def Ensures {ε : Type u} {α : Type v} (P : α → Prop) (x : Except ε α) : Prop :=
  ∀ a, x = .ok a → P a

namespace Ensures

variable {ε : Type u} {α β : Type v} {P : α → Prop} {Q : β → Prop} {x x' : Except ε α}

/-- A result. -/
theorem ok {a : α} (h : P a) : Ensures P (Except.ok a : Except ε α) := by
  intro b hb
  cases hb
  exact h

/-- A branch. -/
theorem ite {p : Prop} [Decidable p] (h : p → Ensures P x) (h' : ¬ p → Ensures P x') :
    Ensures P (if p then x else x') := by
  by_cases hp : p
  · rw [if_pos hp]
    exact h hp
  · rw [if_neg hp]
    exact h' hp

/-- Sequences of computations. -/
theorem bind {f : α → Except ε β} (h : Ensures P x) (hf : ∀ a, P a → Ensures Q (f a)) :
    Ensures Q (x >>= f) := by
  intro b hb
  cases hx : x with
  | error e =>
    rw [hx] at hb
    cases hb
  | ok a =>
    rw [hx] at hb
    exact hf a (h a hx) b hb

/-- Sequences whose last part alone matters. -/
theorem tail {f : α → Except ε β} (hf : ∀ a, Ensures Q (f a)) : Ensures Q (x >>= f) :=
  bind (fun _ _ ↦ trivial) fun a (_ : True) ↦ hf a

end Ensures

end CustomAllocator.Base
