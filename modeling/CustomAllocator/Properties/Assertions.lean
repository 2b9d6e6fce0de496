import CustomAllocator.Lifetime.Runs

/-!
# Assertions are silent

In every lifetime, under every interleaving, no assertion fails, no null link is followed and no
list walk runs away. So a build without assertions has the same lifetimes and does the same in
each of them.
-/

namespace CustomAllocator
open CustomAllocator.Base

variable {c : Config} {y y' : System} {e : Event}

/-- What clients may do does not depend on assertions. -/
theorem Event.legal_ndebug (c : Config) (y : System) (e : Event) :
    e.Legal { c with ndebug := true } y ↔ e.Legal c y := by
  rw [← Config.relax_true]
  cases e with
  | act a => exact Action.legal_echo (SystemEcho.none y) a
  | setArenaSize size => exact Iff.rfl
  | shutdown t => exact Iff.rfl

/-- A legal event completes in the same way with and without assertions. -/
theorem Surviving.happen_ndebug (h : Surviving c y) (legal : e.Legal c y) :
    ∃ y', y.happen c e = .ok y' ∧ y.happen { c with ndebug := true } e = .ok y' ∧
      Surviving c y' := by
  obtain ⟨y', hact, S⟩ := h.happen legal
  have hkept := hact false
  have hsilent := hact true
  rw [Config.relax_false] at hkept
  rw [Config.relax_true] at hsilent
  exact ⟨y', hkept, hsilent, S⟩

/-- Every lifetime without assertions is one with assertions. -/
theorem System.Lives.of_ndebug (h : System.Lives { c with ndebug := true } y) :
    System.Lives c y := by
  obtain ⟨mem, offers, arenaSize, hsize, hrun⟩ := h
  induction hrun with
  | refl => exact ⟨mem, offers, arenaSize, hsize, .refl⟩
  | tail _ hstep ih =>
    obtain ⟨e, legal, hact⟩ := hstep
    have legal' := (Event.legal_ndebug c _ e).mp legal
    obtain ⟨y', hact', hsilent, -⟩ := ih.surviving.happen_ndebug legal'
    obtain rfl : y' = _ := by simpa using hsilent.symm.trans hact
    exact ih.episode ⟨e, legal', hact'⟩

/-- Every lifetime with assertions is one without assertions. -/
theorem System.Lives.ndebug (h : System.Lives c y) :
    System.Lives { c with ndebug := true } y := by
  obtain ⟨mem, offers, arenaSize, hsize, hrun⟩ := h
  have hall : System.Lives c y ∧ System.Lives { c with ndebug := true } y := by
    induction hrun with
    | refl => exact ⟨⟨mem, offers, arenaSize, hsize, .refl⟩, mem, offers, arenaSize, hsize, .refl⟩
    | tail _ hstep ih =>
      obtain ⟨hlives, hsilent⟩ := ih
      refine ⟨hlives.episode hstep, ?_⟩
      obtain ⟨e, legal, hact⟩ := hstep
      obtain ⟨y', hact', hact'', -⟩ := hlives.surviving.happen_ndebug legal
      obtain rfl : y' = _ := by simpa using hact'.symm.trans hact
      exact hsilent.episode ⟨e, (Event.legal_ndebug c _ e).mpr legal, hact''⟩
  exact hall.2

/-- In every lifetime of a build every legal event completes, and the build without assertions
has the same lifetimes, the same legal events and the same outcomes. -/
theorem assertions_silent (c : Config) (y : System) :
    (System.Lives { c with ndebug := true } y ↔ System.Lives c y) ∧
      (System.Lives c y → ∀ e : Event,
        (e.Legal { c with ndebug := true } y ↔ e.Legal c y) ∧
        (e.Legal c y → ∃ y', y.happen c e = .ok y' ∧
          y.happen { c with ndebug := true } e = .ok y')) := by
  refine ⟨⟨System.Lives.of_ndebug, System.Lives.ndebug⟩, fun h e ↦
    ⟨Event.legal_ndebug c y e, fun legal ↦ ?_⟩⟩
  obtain ⟨y', hact, hsilent, -⟩ := h.surviving.happen_ndebug legal
  exact ⟨y', hact, hsilent⟩

/-- The section of a free that merges two blocks. -/
theorem assertions_silent_contended : ∃ y', System.contended.advance .fixedBase 1 = .ok y' ∧
    System.contended.advance { Config.fixedBase with ndebug := true } 1 = .ok y' ∧
    getSize y'.state.mem 0x113b0 = 6000 + 32 + 7008 := by
  obtain ⟨-, hall⟩ := assertions_silent .fixedBase .contended
  obtain ⟨y', hact, hsilent⟩ := (hall System.contended_reachable.lives (.act (.advance 1))).2
    (show (Action.advance 1).Legal .fixedBase .contended by decide +kernel)
  have hafter : System.contended.after .fixedBase (.advance 1) = y' := by
    rw [System.after, System.act, show System.contended.advance .fixedBase 1 = .ok y' from hact]
  exact ⟨y', hact, hsilent, hafter ▸ by decide +kernel⟩

end CustomAllocator
