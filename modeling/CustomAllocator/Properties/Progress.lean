import CustomAllocator.Lifetime.Runs

/-!
# Every call returns

A thread in the middle of a call can always take its next step, and returns after at most ten
of its own steps, whatever the other threads do between them.
-/

namespace CustomAllocator
open CustomAllocator.Base

/-- How often thread `t` takes a step of its own in the list. -/
def ownSteps (t : Tid) (events : List Event) : Nat :=
  events.countP fun e ↦ decide (e = .act (.advance t))

variable {c : Config} {y y' : System} {t : Tid} {e : Event} {events : List Event}

/-- While a thread is in a call, neither a shutdown nor a new arena size comes in between. -/
theorem Event.Legal.of_busy (legal : e.Legal c y) (h : ¬ (y.phase t).AtRest) :
    ∃ a, e = .act a := by
  cases e with
  | act a => exact ⟨a, rfl⟩
  | setArenaSize size => exact absurd (legal.2 t) h
  | shutdown u =>
    exfalso
    apply h
    by_cases hu : t = u
    · obtain ⟨r, hr⟩ := legal.1
      rw [hu, hr]
      trivial
    · rcases legal.2 t hu with hr | hr <;> rw [hr] <;> trivial

/-- An event brings a thread in a call nearer to its end if it is its own step, and leaves it
where it is otherwise. -/
theorem Event.Legal.forward (legal : e.Legal c y) (hact : y.happen c e = .ok y')
    (h : ¬ (y.phase t).AtRest) :
    if e = .act (.advance t) then
      (y'.phase t).steps < (y.phase t).steps ∧ y'.phase t ≠ .unborn ∧ y'.phase t ≠ .exited
    else y'.phase t = y.phase t := by
  obtain ⟨a, rfl⟩ := legal.of_busy h
  by_cases ha : a = .advance t
  · subst ha
    have F := System.advance_forward (c := c) h y' hact
    rw [if_pos rfl]
    exact ⟨F.fewer, F.running⟩
  · rw [if_neg fun he ↦ ha (Event.act.inj he)]
    apply Action.Legal.others legal hact
    rintro rfl
    exact ha (Action.Legal.of_busy legal h)

/-- A thread that is neither unborn nor gone is between calls or in one. -/
theorem Phase.idle_or_busy {ph : Phase} (h : ph ≠ .unborn ∧ ph ≠ .exited) :
    (∃ r, ph = .idle r) ∨ ¬ ph.AtRest := by
  cases ph with
  | unborn => exact absurd rfl h.1
  | exited => exact absurd rfl h.2
  | idle r => exact .inl ⟨r, rfl⟩
  | _ => exact .inr id

/-- Enough own steps lead to the return of the call. -/
theorem Surviving.returns (S : Surviving c y) (allows : y.Allows c events)
    (h : y.phase t ≠ .unborn ∧ y.phase t ≠ .exited)
    (hsteps : (y.phase t).steps ≤ ownSteps t events) :
    ∃ n r, (y.pass c (events.take n)).phase t = .idle r := by
  induction events generalizing y with
  | nil =>
    rcases Phase.idle_or_busy h with ⟨r, hr⟩ | hbusy
    · exact ⟨0, r, hr⟩
    · exact absurd ((Phase.steps_eq_zero _).mp (Nat.le_zero.mp hsteps)) hbusy
  | cons e events ih =>
    rcases Phase.idle_or_busy h with ⟨r, hr⟩ | hbusy
    · exact ⟨0, r, hr⟩
    · obtain ⟨legal, allows⟩ := allows
      obtain ⟨y', hact, S'⟩ := S.happen legal
      have hact := hact false
      rw [Config.relax_false] at hact
      have hafter : y.afterEvent c e = y' := by rw [System.afterEvent, hact]
      have hforward := legal.forward hact hbusy
      have hnext : (y'.phase t ≠ .unborn ∧ y'.phase t ≠ .exited) ∧
          (y'.phase t).steps ≤ ownSteps t events := by
        by_cases he : e = .act (.advance t)
        · rw [if_pos he] at hforward
          rw [ownSteps, List.countP_cons_of_pos (by simpa using he)] at hsteps
          exact ⟨hforward.2, by unfold ownSteps; omega⟩
        · rw [if_neg he] at hforward
          rw [ownSteps, List.countP_cons_of_neg (by simpa using he)] at hsteps
          rw [hforward]
          exact ⟨h, hsteps⟩
      rw [hafter] at allows
      obtain ⟨n, r, hr⟩ := ih S' allows hnext.1 hnext.2
      refine ⟨n + 1, r, ?_⟩
      rw [List.take_succ_cons, System.pass, List.foldl_cons, hafter]
      exact hr

/-- In every lifetime a thread in the middle of a call can take its next step, and whatever
happens between its steps, it has returned or has taken fewer than ten. -/
theorem calls_return (h : System.Lives c y) (hbusy : ¬ (y.phase t).AtRest) :
    (∃ y', y.advance c t = .ok y') ∧ (y.phase t).steps ≤ 10 ∧
      ∀ events, y.Allows c events →
        (∃ n r, (y.pass c (events.take n)).phase t = .idle r) ∨
          ownSteps t events < (y.phase t).steps := by
  have S := h.surviving
  have hrun : y.phase t ≠ .unborn ∧ y.phase t ≠ .exited := by
    constructor
    · intro hu
      exact hbusy (hu ▸ trivial)
    · intro hu
      exact hbusy (hu ▸ trivial)
  have legal : (Event.act (.advance t)).Legal c y := hbusy
  obtain ⟨y', hact, -⟩ := S.happen legal
  have hact := hact false
  rw [Config.relax_false] at hact
  refine ⟨⟨y', hact⟩, Phase.steps_le _, fun events allows ↦ ?_⟩
  by_cases hsteps : (y.phase t).steps ≤ ownSteps t events
  · exact .inl (S.returns allows hrun hsteps)
  · exact .inr (Nat.lt_of_not_le hsteps)

/-- Two threads at the start of an allocation from the same empty pool. -/
def System.bothAsking : System :=
  (System.start (fun _ ↦ 0xab) [some 0x10000] 65536).run .fixedBase
    [.start 0, .start 1, .call 0 (.malloc 100), .call 1 (.malloc 100)]

theorem System.bothAsking_reachable : System.Reachable .fixedBase .bothAsking :=
  System.Reachable.run ⟨_, _, _, by decide, .refl⟩ (by decide +kernel)

/-- With steps of thread 1 in between, the four steps of thread 0 take it to its return. -/
theorem calls_return_bothAsking : ∃ n r, (System.bothAsking.pass .fixedBase
    (([.advance 0, .advance 1, .advance 0, .advance 1, .advance 0, .advance 1,
      .advance 0].map Event.act).take n)).phase 0 = .idle r :=
  ((calls_return System.bothAsking_reachable.lives (by decide +kernel)).2.2 _
    (System.Admits.allows (by decide +kernel))).resolve_right (by decide +kernel)

end CustomAllocator
