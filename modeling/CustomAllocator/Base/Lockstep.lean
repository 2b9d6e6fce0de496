/-!
# Machines in lockstep

A machine answers one input at a time, and may fail. Two machines run in lockstep when a relation
between their states is kept by every proper input and forces equal answers; then they answer
whole lists of inputs alike.
-/

namespace CustomAllocator.Base

variable {σ τ α β ε : Type}

/-- Feed inputs to a machine in order, and collect its answers. -/
def feed (step : σ → α → Except ε (σ × β)) : σ → List α → Except ε (σ × List β)
  | s, [] => .ok (s, [])
  | s, a :: as =>
    match step s a with
    | .error e => .error e
    | .ok (s', b) => (feed step s' as).map fun r ↦ (r.1, b :: r.2)

/-- Each input is proper when its turn comes. -/
def AllProper (proper : σ → α → Prop) (step : σ → α → Except ε (σ × β)) : σ → List α → Prop
  | _, [] => True
  | s, a :: as => proper s a ∧
    match step s a with
    | .error _ => True
    | .ok (s', _) => AllProper proper step s' as

instance instDecidableAllProper {proper : σ → α → Prop} [∀ s a, Decidable (proper s a)]
    {step : σ → α → Except ε (σ × β)} : (s : σ) → (as : List α) →
    Decidable (AllProper proper step s as)
  | _, [] => inferInstanceAs (Decidable True)
  | s, a :: as =>
    have : Decidable (match step s a with
        | .error _ => True
        | .ok (s', _) => AllProper proper step s' as) :=
      match step s a with
      | .error _ => inferInstanceAs (Decidable True)
      | .ok (s', _) => instDecidableAllProper s' as
    inferInstanceAs (Decidable (_ ∧ _))

/-- Both machines complete an input that is proper for either of two related states with one
answer, in related states. -/
structure Lockstep (R : σ → τ → Prop) (proper : σ → α → Prop) (proper' : τ → α → Prop)
    (step : σ → α → Except ε (σ × β)) (step' : τ → α → Except ε (τ × β)) : Prop where
  step : ∀ s t a, R s t → proper s a → proper' t a →
    ∃ s' t' b, step s a = .ok (s', b) ∧ step' t a = .ok (t', b) ∧ R s' t'

namespace Lockstep

variable {R : σ → τ → Prop} {proper : σ → α → Prop} {proper' : τ → α → Prop}
  {step : σ → α → Except ε (σ × β)} {step' : τ → α → Except ε (τ × β)} {s : σ} {t : τ}
  {as : List α}

/-- Machines in lockstep answer lists of inputs alike. -/
theorem feed (L : Lockstep R proper proper' step step') (h : R s t)
    (has : AllProper proper step s as) (has' : AllProper proper' step' t as) :
    ∃ s' t' bs, feed step s as = .ok (s', bs) ∧ Base.feed step' t as = .ok (t', bs) ∧ R s' t' := by
  induction as generalizing s t with
  | nil => exact ⟨s, t, [], rfl, rfl, h⟩
  | cons a as ih =>
    obtain ⟨ha, hrest⟩ := has
    obtain ⟨ha', hrest'⟩ := has'
    obtain ⟨s', t', b, hrun, hrun', h'⟩ := L.step s t a h ha ha'
    rw [hrun] at hrest
    rw [hrun'] at hrest'
    obtain ⟨s'', t'', bs, hfeed, hfeed', h''⟩ := ih h' hrest hrest'
    refine ⟨s'', t'', b :: bs, ?_, ?_, h''⟩
    · rw [Base.feed, hrun]
      exact congrArg (Except.map _) hfeed
    · rw [Base.feed, hrun']
      exact congrArg (Except.map _) hfeed'

/-- When related states have the same proper inputs, so have their whole runs. -/
theorem allProper (L : Lockstep R proper proper' step step')
    (admits : ∀ s t a, R s t → proper s a → proper' t a) (h : R s t)
    (has : AllProper proper step s as) : AllProper proper' step' t as := by
  induction as generalizing s t with
  | nil => trivial
  | cons a as ih =>
    obtain ⟨ha, hrest⟩ := has
    have ha' := admits s t a h ha
    obtain ⟨s', t', b, hrun, hrun', h'⟩ := L.step s t a h ha ha'
    rw [hrun] at hrest
    refine ⟨ha', ?_⟩
    rw [hrun']
    exact ih h' hrest

end Lockstep

end CustomAllocator.Base
