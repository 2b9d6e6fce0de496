import CustomAllocator.Concurrent.Returns

/-!
# All interleavings

Every legal action completes without a fault from every reachable system, whatever the order of
steps, and what `Consistent` says holds in all of them.
-/

namespace CustomAllocator
open CustomAllocator.Base

/-- The thread that acts; a pointer is handed on by its owner. -/
def Action.actor (y : System) : Action → Tid
  | .start t | .exit t | .call t _ | .advance t | .write t _ _ => t
  | .give ptr _ => y.owner ptr

variable {c : Config} {y y' : System} {t u : Tid} {ts : List Carved}
  {order : List Nat} {sh : Shelves} {g : Grant} {a : Action}

/-- A thread at rest hands nothing out. -/
theorem Phase.AtRest.handed {ph : Phase} (h : ph.AtRest) : ph.handed = 0 := by
  cases ph with
  | got size p use => exact absurd h id
  | _ => rfl

/-- A thread at rest has no batch and a cache within its cap. -/
theorem Phase.AtRest.clear {ph : Phase} (h : ph.AtRest) (i : Fin numSizeClasses) :
    ph.batch i = 0 ∧ ph.excess i = 0 := by
  cases ph with
  | unborn => exact ⟨rfl, rfl⟩
  | exited => exact ⟨rfl, rfl⟩
  | idle r => exact ⟨rfl, rfl⟩
  | _ => exact absurd h id

/-- A thread that has just called carries no batch and has pushed nothing. -/
theorem Call.entry_clear (request : Call) (i : Fin numSizeClasses) :
    request.entry.batch i = 0 ∧ request.entry.excess i = 0 := by
  cases request <;> simp only [Call.entry] <;> (try split) <;> exact ⟨rfl, rfl⟩

/-- A thread that has just called has nothing to hand out yet. -/
theorem Call.entry_handed (request : Call) : request.entry.handed = 0 := by
  cases request <;> simp only [Call.entry] <;> (try split) <;> rfl

/-- A thread at rest knows nothing. -/
theorem PhaseOk.of_atRest {ph : Phase} (h : ph.AtRest) : PhaseOk c y sh t ph := by
  cases ph with
  | unborn => trivial
  | exited => trivial
  | idle r => trivial
  | _ => exact absurd h id

namespace Consistent

/-- An action of a thread at rest that leaves the allocator and the ledger alone. -/
theorem rest (C : Consistent c y ts order sh) (hrest : (y.phase t).AtRest)
    (hstate : y'.state = y.state) (hlive : y'.live = y.live)
    (hphase : ∀ u, u ≠ t → y'.phase u = y.phase u)
    (hbegan : ∀ u, u ≠ t → y'.began u = y.began u)
    (howner : ∀ p, y.owner p ≠ t → y'.owner p = y.owner p)
    (hclear : ∀ i, (y'.phase t).batch i = 0 ∧ (y'.phase t).excess i = 0)
    (hquiet : (y'.phase t).handed = 0)
    (phase : PhaseOk c y' sh t (y'.phase t)) :
    Acted c y sh t y' ts order sh := by
  have htr : y'.transit = y.transit := by
    funext u i
    by_cases hu : u = t
    · simp only [System.transit, hu, (hclear i).1, (hrest.clear i).1]
    · simp only [System.transit, hphase u hu]
  have hcap : ∀ i, (sh (.cache t i)).length ≤ threadLocalCacheCap + (y'.phase t).excess i := by
    intro i
    rw [(hclear i).2, ← (hrest.clear i).2]
    exact C.cap t i
  have motion : Motion t sh (y.phase t) (y'.phase t) sh := .still hcap
  have keeps : ∀ u, u ≠ t → Keeps y y' u everyGrant := by
    intro u hu
    constructor
    · exact hbegan u hu
    · intro g hg ho _
      exact ⟨hlive ▸ hg, (howner g.ptr (ho ▸ hu)).trans ho⟩
    · intro g _ _ _
      rw [hstate]
      exact ⟨rfl, fun _ _ ↦ rfl⟩
  have U := motion.undisturbed hphase keeps
  constructor
  · refine C.next U ?_ C.uncaptured phase hcap
    rw [hstate, hlive, htr]
    exact C.booked
  · exact U
  · exact motion
  · rw [hlive, hstate]
    exact .still (.inl hquiet) (.refl _ _)
  · rw [hstate]
    exact .same rfl

/-- What a thread knows right after calling. -/
theorem entry (C : Consistent c y ts order sh) {request : Call} (hfits : request.Fits)
    (harg : request.argument = 0 ∨
      ∃ g ∈ y.live, g.ptr = request.argument ∧ y.owner g.ptr = t ∧ Routed c y.state g)
    (hstate : y'.state = y.state) (hlive : y'.live = y.live) (howner : y'.owner = y.owner)
    (hbegan : y'.began t = (request, ⟨y.state, y.live⟩)) :
    PhaseOk c y' sh t request.entry := by
  have hclaim : request.argument ≠ 0 →
      ∃ g, g.ptr = request.argument ∧ Claimed c y' t g := by
    intro h0
    obtain ⟨g, hg, hp, ho, hr⟩ := harg.resolve_left h0
    refine ⟨g, hp, ?_⟩
    constructor
    · rw [hlive]
      exact hg
    · rw [howner]
      exact ho
    · rw [hstate]
      exact hr
    · rw [hbegan]
      exact hg
    · rw [hbegan]
      exact fun h hh he ↦ C.booked.grant_eq hh hg he
    · rw [hbegan, hstate]
    · rw [hbegan, hstate]
      exact fun _ _ ↦ rfl
  have hnone : request.argument = 0 → (y'.began t).1.argument = 0 := fun h ↦ by
    rw [hbegan]
    exact h
  cases request with
  | malloc size =>
    refine ⟨?_, hnone rfl⟩
    simp only [Call.Fits, sizeMax] at hfits
    omega
  | calloc count size =>
    simp only [Call.entry]
    by_cases hguard : size ≠ 0 ∧ sizeMax / size < count
    · rw [if_pos hguard]
      trivial
    · rw [if_neg hguard]
      rw [calloc_guard] at hguard
      have hfit := hfits.resolve_right hguard
      simp only [sizeMax] at hfit
      refine ⟨?_, hnone rfl⟩
      rw [mul64_of_lt (by omega)]
      omega
  | realloc ptr newSize =>
    simp only [Call.Fits, sizeMax] at hfits
    simp only [Call.entry]
    by_cases h0 : ptr = 0
    · rw [if_pos h0]
      exact ⟨by omega, hnone h0⟩
    · rw [if_neg h0]
      exact ⟨by omega, hclaim h0, by rw [hbegan]⟩
  | free ptr =>
    simp only [Call.entry]
    by_cases h0 : ptr = 0
    · rw [if_pos h0]
      trivial
    · rw [if_neg h0]
      exact ⟨hclaim h0, ⟨ptr, by rw [hbegan]⟩, Ne.symm h0, by rw [hbegan]; rfl⟩

/-- Every legal action completes. -/
theorem act (C : Consistent c y ts order sh) (legal : a.Legal c y) :
    ∃ y' ts' order' sh', y.act c a = .ok y' ∧ Acted c y sh (a.actor y) y' ts' order' sh' := by
  cases a with
  | start t =>
    have hph : y.phase t = .unborn := legal
    refine ⟨_, ts, order, sh, rfl, C.rest (t := t) (by rw [hph]; trivial) rfl rfl
      (fun u hu ↦ System.setPhase_ne y _ hu) (fun _ _ ↦ rfl) (fun _ _ ↦ rfl) (fun i ↦ ?_) ?_ ?_⟩
    · rw [System.setPhase_same]
      exact ⟨rfl, rfl⟩
    · rw [System.setPhase_same]
      rfl
    · rw [System.setPhase_same]
      trivial
  | exit t =>
    obtain ⟨r, hph⟩ := legal
    refine ⟨_, ts, order, sh, rfl, C.rest (t := t) (by rw [hph]; trivial) rfl rfl
      (fun u hu ↦ System.setPhase_ne y _ hu) (fun _ _ ↦ rfl) (fun _ _ ↦ rfl) (fun i ↦ ?_) ?_ ?_⟩
    · rw [System.setPhase_same]
      exact ⟨rfl, rfl⟩
    · rw [System.setPhase_same]
      rfl
    · rw [System.setPhase_same]
      trivial
  | call t request =>
    obtain ⟨⟨r, hph⟩, hfits, harg⟩ := legal
    refine ⟨_, ts, order, sh, rfl, C.rest (t := t) (by rw [hph]; trivial) rfl rfl
      (fun u hu ↦ if_neg hu) (fun u hu ↦ if_neg hu) (fun _ _ ↦ rfl) (fun i ↦ ?_) ?_ ?_⟩
    · rw [System.setPhase_same]
      exact request.entry_clear i
    · rw [System.setPhase_same]
      exact request.entry_handed
    · rw [System.setPhase_same]
      exact C.entry hfits harg rfl rfl rfl (if_pos rfl)
  | advance t =>
    obtain ⟨y', ts', order', sh', hrun, hadv⟩ := C.advance legal
    exact ⟨y', ts', order', sh', hrun, hadv.toActed⟩
  | write t x v =>
    obtain ⟨⟨r, hph⟩, g, hg, howner, hx⟩ := legal
    have hm : ∀ z, ¬ InPayload y.state g z → write8 y.state.mem x v z = y.state.mem z := by
      intro z hz
      apply write8_of_ne
      rintro rfl
      exact hz hx
    have hsized := (C.booked.write _ fun z hz ↦ ⟨g, hg, by_contra fun h ↦ hz (hm z h)⟩).2
    obtain ⟨B, hsp, -⟩ := C.booked.writeGrant hg hm
    have keeps := Keeps.write (t := t) (y.phase t) hsp
    have hsame :
        (y.setState { y.state with mem := write8 y.state.mem x v }).setPhase t (y.phase t) =
          y.setState { y.state with mem := write8 y.state.mem x v } := by
      simp only [System.setPhase, System.setState]
      congr 1
      funext u
      split
      · next h => rw [h]
      · rfl
    rw [hsame] at keeps
    have motion : Motion t sh (y.phase t) (y.phase t) sh := .still (C.cap t)
    have U : Undisturbed y sh t (y.setState { y.state with mem := write8 y.state.mem x v }) sh :=
      motion.undisturbed (fun _ _ ↦ rfl) fun u hu ↦ (keeps u).every howner hu
    refine ⟨_, ts, order, sh, rfl, ⟨C.next U B C.uncaptured ?_ (C.cap t), U, motion,
      .still (.inr rfl) hsized, .same rfl⟩⟩
    apply PhaseOk.of_atRest
    exact (show y.phase t = _ from hph) ▸ trivial
  | give ptr t =>
    obtain ⟨-, hrest⟩ := legal
    exact ⟨_, ts, order, sh, rfl, C.rest hrest rfl rfl (fun _ _ ↦ rfl) (fun _ _ ↦ rfl)
      (fun p hp ↦ if_neg fun (h : p = ptr) ↦ hp (by rw [h]; rfl)) hrest.clear hrest.handed
      (.of_atRest hrest)⟩

end Consistent

/-- At program start everything is consistent. -/
theorem Consistent.start (c : Config) (mem : Mem) (offers : List (Option Nat)) {arenaSize : Nat}
    (h : arenaSize < 2 ^ 64) :
    Consistent c (.start mem offers arenaSize) [] [] fun _ ↦ [] where
  booked := (Accounted.initial c mem offers h).toBooked
  uncaptured b hb := by simp [Allocated, blocksOf] at hb
  phases _ := trivial
  cap _ _ := Nat.zero_le _

/-- Every reachable system is consistent. -/
theorem System.Reachable.consistent (h : System.Reachable c y) :
    ∃ ts order sh, Consistent c y ts order sh := by
  obtain ⟨mem, offers, arenaSize, hsize, hrun⟩ := h
  induction hrun with
  | refl => exact ⟨[], [], _, .start c mem offers hsize⟩
  | tail _ hstep ih =>
    obtain ⟨ts, order, sh, C⟩ := ih
    obtain ⟨a, legal, hact⟩ := hstep
    obtain ⟨y', ts', order', sh', hact', hacted⟩ := C.act legal
    obtain rfl : y' = _ := by simpa using hact'.symm.trans hact
    exact ⟨ts', order', sh', hacted.consistent⟩

/-- A step leads from a reachable system to a reachable one. -/
theorem System.Reachable.step (h : System.Reachable c y) (hstep : System.Step c y y') :
    System.Reachable c y' := by
  obtain ⟨mem, offers, arenaSize, hsize, hrun⟩ := h
  exact ⟨mem, offers, arenaSize, hsize, hrun.tail hstep⟩

/-- What the step of a reachable system achieves. -/
theorem System.Reachable.acted (h : System.Reachable c y) (hstep : System.Step c y y') :
    ∃ (a : Action) (ts : List Carved) (order : List Nat) (sh : Shelves) (ts' : List Carved)
      (order' : List Nat) (sh' : Shelves), a.Legal c y ∧ y.act c a = .ok y' ∧
        Consistent c y ts order sh ∧ Acted c y sh (a.actor y) y' ts' order' sh' := by
  obtain ⟨ts, order, sh, C⟩ := h.consistent
  obtain ⟨a, legal, hact⟩ := hstep
  obtain ⟨z, ts', order', sh', hz, A⟩ := C.act legal
  obtain rfl : z = y' := by simpa using hz.symm.trans hact
  exact ⟨a, ts, order, sh, ts', order', sh', legal, hact, C, A⟩

/-- A thread in the middle of a call can only go on with it. -/
theorem Action.Legal.of_busy (legal : a.Legal c y) (h : ¬ (y.phase (a.actor y)).AtRest) :
    a = .advance (a.actor y) := by
  have hidle : ∀ {t r}, y.phase t = .idle r → (y.phase t).AtRest := fun hph ↦ by
    rw [hph]
    trivial
  cases a with
  | start t =>
    have hph : y.phase t = .unborn := legal
    exact absurd (by rw [Action.actor, hph]; trivial) h
  | exit t =>
    obtain ⟨r, hph⟩ := legal
    exact absurd (hidle hph) h
  | call t request =>
    obtain ⟨⟨r, hph⟩, -⟩ := legal
    exact absurd (hidle hph) h
  | advance t => rfl
  | write t x v =>
    obtain ⟨⟨r, hph⟩, -⟩ := legal
    exact absurd (hidle hph) h
  | give ptr t => exact absurd legal.2 h

/-- A thread that has exited does nothing any more but hand on its pointers. -/
theorem Action.Legal.exited {a : Action} (legal : a.Legal c y)
    (ht : y.phase (a.actor y) = .exited) : ∃ ptr u, a = .give ptr u := by
  cases a with
  | give ptr u => exact ⟨ptr, u, rfl⟩
  | start u =>
    have hu : y.phase u = .unborn := legal
    cases hu.symm.trans ht
  | advance u => exact absurd (by rw [show y.phase u = _ from ht]; trivial) legal
  | exit u =>
    obtain ⟨r, hu⟩ := legal
    cases hu.symm.trans ht
  | call u request =>
    obtain ⟨⟨r, hu⟩, -⟩ := legal
    cases hu.symm.trans ht
  | write u x v =>
    obtain ⟨⟨r, hu⟩, -⟩ := legal
    cases hu.symm.trans ht

/-- What an exited thread has cached stays there. -/
theorem Acted.stranded {a : Action} (A : Acted c y sh (a.actor y) y' ts' order' sh')
    (legal : a.Legal c y) (hact : y.act c a = .ok y') (ht : y.phase t = .exited)
    (i : Fin numSizeClasses) :
    y'.phase t = .exited ∧ sh' (.cache t i) = sh (.cache t i) := by
  by_cases hu : t = a.actor y
  · subst hu
    obtain ⟨ptr, u, rfl⟩ := legal.exited ht
    cases hact
    have M := A.motion
    rw [ht] at M
    rw [M.rest trivial]
    exact ⟨ht, rfl⟩
  · rw [A.undisturbed.phase t hu, A.undisturbed.cache t hu]
    exact ⟨ht, rfl⟩

/-! ### Building runs -/

instance (ph : Phase) : Decidable (∃ r, ph = .idle r) :=
  match ph with
  | .idle r => .isTrue ⟨r, rfl⟩
  | .unborn | .exited | .malloc .. | .refilled .. | .stocked .. | .got .. | .free .. | .tagged ..
  | .pushed .. | .detached .. | .realloc .. | .retagged .. => .isFalse (by simp)

instance (c : Config) (y : System) (a : Action) : Decidable (a.Legal c y) := by
  cases a <;> unfold Action.Legal InPayload <;> infer_instance

/-- The system after an action, or the same system when the action does not complete. -/
def System.after (y : System) (c : Config) (a : Action) : System :=
  match y.act c a with
  | .ok y' => y'
  | .error _ => y

/-- A legal action leads from a reachable system to a reachable one. -/
theorem System.Reachable.after (h : System.Reachable c y) (legal : a.Legal c y) :
    System.Reachable c (y.after c a) := by
  obtain ⟨ts, order, sh, C⟩ := h.consistent
  obtain ⟨y', _, _, _, hact, -⟩ := C.act legal
  obtain ⟨mem, offers, arenaSize, hsize, hrun⟩ := h
  refine ⟨mem, offers, arenaSize, hsize, hrun.tail ⟨a, legal, ?_⟩⟩
  rw [System.after, hact]

/-- The system after a list of actions. -/
def System.run (y : System) (c : Config) (actions : List Action) : System :=
  actions.foldl (fun y a ↦ y.after c a) y

/-- Each action of the list is legal when its turn comes. -/
def System.Admits (c : Config) : System → List Action → Prop
  | _, [] => True
  | y, a :: actions => a.Legal c y ∧ Admits c (y.after c a) actions

instance instDecidableSystemAdmits (c : Config) : (y : System) → (actions : List Action) →
    Decidable (y.Admits c actions)
  | _, [] => inferInstanceAs (Decidable True)
  | y, a :: actions =>
    have := instDecidableSystemAdmits c (y.after c a) actions
    inferInstanceAs (Decidable (_ ∧ _))

/-- Admitted actions extend a run. -/
theorem System.Reachable.run (h : System.Reachable c y) {actions : List Action}
    (ha : y.Admits c actions) : System.Reachable c (y.run c actions) := by
  induction actions generalizing y with
  | nil => exact h
  | cons a actions ih => exact ih (h.after ha.1) ha.2

/-- Thread 0 allocates a general and a pooled block and hands the pooled one to thread 1, which
is about to free it. -/
def System.handover : System :=
  (System.start (fun _ ↦ 0xab) [some 0x10000, some 0x800000] 65536).run .fixedBase
    [.start 0, .start 1, .call 0 (.malloc 5000), .advance 0, .advance 0,
      .call 0 (.malloc 100), .advance 0, .advance 0, .advance 0, .advance 0,
      .give 0x808f80 1, .call 1 (.free 0x808f80)]

theorem System.handover_reachable : System.Reachable .fixedBase .handover :=
  System.Reachable.run ⟨_, _, _, by decide, .refl⟩ (by decide +kernel)

/-- Thread 0 is moving its block to a larger size, while thread 1 is about to free a block that
lies between it and a free one. -/
def System.contended : System :=
  (System.start (fun _ ↦ 0xab) [some 0x10000] 65536).run .fixedBase
    [.start 0, .start 1, .call 0 (.malloc 5000), .advance 0, .advance 0,
      .call 0 (.malloc 6000), .advance 0, .advance 0, .call 0 (.malloc 7000), .advance 0,
      .advance 0, .give 0x113c0 1, .give 0x12b50 1, .call 1 (.free 0x12b50), .advance 1, .advance 1,
      .call 0 (.realloc 0x10010 9000), .advance 0, .advance 0, .call 1 (.free 0x113c0), .advance 1]

theorem System.contended_reachable : System.Reachable .fixedBase .contended :=
  System.Reachable.run ⟨_, _, _, by decide, .refl⟩ (by decide +kernel)

end CustomAllocator
