import CustomAllocator.Lifetime.Runs

/-!
# A shutdown is a reset

A shutdown gives back every region acquired since the one before it, once and with the size it
was granted with, and whatever happens afterwards happens as from program start: the same calls
are legal, return the same pointers and make the same requests to the kernel.
-/

namespace CustomAllocator
open CustomAllocator.Base

/-- What a client and the kernel can tell about two systems is the same, but for the calls `log`
made before; so is everything the allocator keeps, but for the caches of exited threads. -/
structure Alike (log : List OsCall) (y z : System) : Prop where
  live : y.live = z.live
  owner : y.owner = z.owner
  phase : y.phase = z.phase
  mem : y.state.mem = z.state.mem
  mapped : y.state.os.mapped = z.state.os.mapped
  offers : y.state.os.offers = z.state.os.offers
  calls : y.state.os.log = log ++ z.state.os.log
  arenas : y.state.arenas = z.state.arenas
  freeHead : y.state.freeHead = z.state.freeHead
  arenaSize : y.state.arenaSize = z.state.arenaSize
  pools : y.state.pools = z.state.pools
  caches : ∀ t i, y.phase t ≠ .exited → y.state.caches t i = z.state.caches t i

/-- Two systems that differ by a past whose threads have exited. -/
structure Shadows (c : Config) (past : Past) (z y : System) : Prop where
  echo : ∃ os, SystemEcho past os z y
  surviving : Surviving c z
  gone : ∀ t, past.gone t = true → z.phase t = .exited

variable {c : Config} {past : Past} {y y' z : System} {t : Tid} {a : Action} {e : Event}
  {events : List Event}

/-- Without its past a system survives as well, and differs from itself by that past only. -/
theorem Survives.shadows {os : Os} {ts : List Carved} {order : List Nat} {sh : Shelves}
    (S : Survives c past os z y ts order sh) : Shadows c past z y where
  echo := ⟨os, S.echo⟩
  surviving := by
    have E : SystemEcho .none os z z := ⟨⟨rfl, S.echo.state.2⟩, rfl, rfl, rfl, fun _ ↦ rfl⟩
    refine ⟨.none, os, z, ts, order, sh, E, S.unused, S.consistent, fun t ht ↦ ?_, S.unborn,
      .refl _⟩
    cases ht
  gone := S.gone

theorem Shadows.alike (S : Shadows c past z y) : Alike past.log y z := by
  obtain ⟨os, E⟩ := S.echo
  have hstate := E.state.1
  refine ⟨E.live, E.owner, E.phase, ?_, ?_, ?_, ?_, ?_, ?_, ?_, ?_, fun t i ht ↦ ?_⟩
  case refine_9 =>
    have hpresent : past.gone t = false := by
      by_contra h
      exact ht (by rw [E.phase]; exact S.gone t (by simpa using h))
    rw [E.state.caches_eq hpresent]
  all_goals rw [hstate]; rfl

/-- A shutdown does not look at the past either. -/
theorem allocatorShutdown_past {s : State} (hshape : ∀ i, (s.pools i).Shape i)
    (ht : past.gone t = false) :
    allocatorShutdown (past.state s) t = past.state (allocatorShutdown s t) := by
  have hshape' : ∀ i, ((past.state s).pools i).Shape i := hshape
  rw [allocatorShutdown_eq _ t hshape', allocatorShutdown_eq s t hshape, releaseAll_eq,
    releaseAll_eq]
  simp only [Past.state, Past.machine, State.setMachine, List.append_assoc]
  congr 1
  funext u i
  by_cases hu : u = t
  · simp [hu, ht]
  · simp [hu]

namespace Shadows

/-- The same events are legal. -/
theorem legal_iff (S : Shadows c past z y) (e : Event) : e.Legal c y ↔ e.Legal c z := by
  obtain ⟨os, E⟩ := S.echo
  cases e with
  | act a =>
    have h := Action.legal_echo (c := c) (b := false) E a
    rwa [Config.relax_false] at h
  | setArenaSize size => simp only [Event.Legal, E.phase]
  | shutdown t => simp only [Event.Legal, E.phase]

/-- A legal event leads to systems that still differ by that past only. -/
theorem afterEvent (S : Shadows c past z y) (legal : e.Legal c z) :
    Shadows c past (z.afterEvent c e) (y.afterEvent c e) := by
  obtain ⟨os, E⟩ := S.echo
  obtain ⟨z', hz, S'⟩ := S.surviving.happen legal
  have hz := hz false
  rw [Config.relax_false] at hz
  have hafter : z.afterEvent c e = z' := by rw [System.afterEvent, hz]
  have hrest : ∀ {u}, past.gone u = true → (z.phase u).AtRest := fun hu ↦ by
    rw [S.gone _ hu]
    trivial
  rw [hafter]
  cases e with
  | act a =>
    have hpresent : ∀ u, a = .advance u → past.gone u = false := by
      rintro u rfl
      have hbusy : ¬ (z.phase u).AtRest := legal
      by_contra h
      exact hbusy (hrest (by simpa using h))
    obtain ⟨y', hy, E'⟩ := System.act_echo false E hpresent z' hz
    rw [Config.relax_false] at hy
    have hafter' : y.afterEvent c (.act a) = y' := by
      rw [System.afterEvent, System.happen, hy]
    rw [hafter']
    refine ⟨⟨os, E'⟩, S', fun u hu ↦ ?_⟩
    exact Action.Legal.gone legal hz (S.gone u hu)
  | setArenaSize size =>
    cases hz
    refine ⟨⟨os, E.setState ⟨?_, E.state.2⟩⟩, S', S.gone⟩
    rw [E.state.1]
    rfl
  | shutdown t =>
    cases hz
    obtain ⟨r, hr⟩ := legal.1
    have hpresent : past.gone t = false := by
      by_contra h
      have := S.gone t (by simpa using h)
      rw [hr] at this
      cases this
    obtain ⟨_, _, _, _, _, _, S₀⟩ := S.surviving
    have hstate : (y.shutdown t).state = past.state (z.shutdown t).state := by
      change allocatorShutdown y.state t = past.state (allocatorShutdown z.state t)
      rw [E.state.1, allocatorShutdown_past S₀.shape hpresent]
    refine ⟨⟨_, ⟨hstate, .refl _⟩, rfl, E.owner, E.phase, fun u ↦ ?_⟩, S', S.gone⟩
    change (Call.free 0, Session.mk (y.shutdown t).state []) = _
    rw [hstate]
    rfl

/-- The same holds of whole lists of events. -/
theorem pass (S : Shadows c past z y) (events : List Event) :
    (y.Allows c events ↔ z.Allows c events) ∧
      (z.Allows c events → Shadows c past (z.pass c events) (y.pass c events)) := by
  induction events generalizing y z with
  | nil => exact ⟨Iff.rfl, fun _ ↦ S⟩
  | cons e events ih =>
    by_cases legal : e.Legal c z
    · obtain ⟨hallows, hpass⟩ := ih (S.afterEvent legal)
      exact ⟨and_congr (S.legal_iff e) hallows, fun h ↦ hpass h.2⟩
    · exact ⟨⟨fun h ↦ absurd ((S.legal_iff e).mp h.1) legal, fun h ↦ absurd h.1 legal⟩,
        fun h ↦ absurd h.1 legal⟩

end Shadows

/-! ### What a shutdown gives back -/

theorem System.shutdown_phase (y : System) (t : Tid) : (y.shutdown t).phase = y.phase := rfl

namespace Survives

variable {os : Os} {ts : List Carved} {order : List Nat} {sh : Shelves}

/-- What the allocator keeps is given back, region by region. -/
theorem shutdown_log (S : Survives c past os z y ts order sh) (t : Tid) :
    (y.shutdown t).state.os.log = y.state.os.log ++ releases (regionsOf y.state) := by
  change (allocatorShutdown y.state t).os.log = _
  rw [allocatorShutdown_eq y.state t S.shape, releaseAll_eq]

/-- The regions the allocator keeps lie apart. -/
theorem regions_apart (S : Survives c past os z y ts order sh) :
    (regionsOf y.state).Pairwise OsRegion.Apart := by
  have R := S.consistent.booked.coherent.regions
  rw [S.echo.state.1]
  exact R.kept

/-- Without a shutdown the past stays the same. -/
theorem pass (S : Survives c past os z y ts order sh) (allows : y.Allows c events)
    (hlast : ∀ u, Event.shutdown u ∉ events) :
    ∃ z' ts' order' sh', Survives c past os z' (y.pass c events) ts' order' sh' := by
  induction events generalizing z y ts order sh with
  | nil => exact ⟨z, ts, order, sh, S⟩
  | cons e events ih =>
    obtain ⟨legal, allows⟩ := allows
    have hrest : ∀ u, Event.shutdown u ∉ events := fun u hu ↦ hlast u (List.mem_cons_of_mem e hu)
    have hstep : ∃ z' ts' order' sh', Survives c past os z' (y.afterEvent c e) ts' order' sh' := by
      cases e with
      | act a =>
        obtain ⟨z', y', ts', order', sh', -, hact, S'⟩ := S.act legal
        have hact := hact false
        rw [Config.relax_false] at hact
        have hafter : y.afterEvent c (.act a) = y' := by rw [System.afterEvent, System.happen, hact]
        exact ⟨z', ts', order', sh', hafter ▸ S'⟩
      | setArenaSize size => exact ⟨_, ts, order, sh, S.withArenaSize legal.1 legal.2⟩
      | shutdown u => exact absurd List.mem_cons_self (hlast u)
    obtain ⟨z', ts', order', sh', S'⟩ := hstep
    exact ih S' allows hrest

end Survives

/-- What a shutdown leaves in the allocator's objects: nothing but zeros, except in the caches of
threads that have exited. -/
structure Emptied (y : System) : Prop where
  arenas : y.state.arenas = []
  freeHead : y.state.freeHead = 0
  pools : ∀ i, y.state.pools i = Pool.init (classSize i)
  caches : ∀ u i, y.phase u ≠ .exited → y.state.caches u i = ⟨0, 0, 0⟩

/-- Nothing is mapped after a shutdown, and no object holds an address. -/
theorem Shadows.emptied (S : Shadows c y.past y.fresh y) : y.state.os.mapped = [] ∧ Emptied y := by
  have A := S.alike
  refine ⟨A.mapped, A.arenas, A.freeHead, fun i ↦ ?_, A.caches⟩
  rw [A.pools]
  rfl

/-- A program has just started, or has just shut the allocator down. -/
def System.Anew (c : Config) (y : System) : Prop :=
  (∃ mem offers arenaSize, arenaSize < 2 ^ 64 ∧ y = .start mem offers arenaSize) ∨
  ∃ x u, System.Lives c x ∧ (Event.shutdown u).Legal c x ∧ y = x.shutdown u

/-- Everything before is past then. -/
theorem System.Anew.survives (h : y.Anew c) : ∃ past os z ts order sh,
    Survives c past os z y ts order sh ∧ past.log = y.state.os.log := by
  rcases h with ⟨mem, offers, arenaSize, hsize, rfl⟩ | ⟨x, u, hx, legal, rfl⟩
  · exact ⟨_, _, _, _, _, _, .start c mem offers hsize, rfl⟩
  · obtain ⟨_, _, _, _, _, _, S⟩ := hx.surviving
    exact ⟨_, _, _, _, _, _, S.shutdown legal.1 legal.2, rfl⟩

/-- What the shutdown of `y` by thread `t` achieves, when `x` was the system at program start or
after the shutdown before: the kernel is given back each region granted since, with its size; no
object holds an address; and whatever comes later goes as from program start. -/
structure FullReset (c : Config) (x y : System) (t : Tid) : Prop where
  returned : ∃ since rs, y.state.os.log = x.state.os.log ++ since ∧
    (y.shutdown t).state.os.log = y.state.os.log ++ releases rs ∧
    rs.Perm (acquired since) ∧ rs.Pairwise OsRegion.Apart
  unmapped : (y.shutdown t).state.os.mapped = []
  emptied : Emptied (y.shutdown t)
  later : ∀ events, ((y.shutdown t).Allows c events ↔ (y.shutdown t).fresh.Allows c events) ∧
    ((y.shutdown t).fresh.Allows c events →
      Alike (y.shutdown t).state.os.log ((y.shutdown t).pass c events)
        ((y.shutdown t).fresh.pass c events))

/-! ### Thread 0 alone -/

/-- Threads that do not act stay where they are. -/
theorem Surviving.pass_phase (h : Surviving c y) (allows : y.Allows c events)
    (ht : ∀ a, .act a ∈ events → ∀ x, a.actor x ≠ t) : (y.pass c events).phase t = y.phase t := by
  induction events generalizing y with
  | nil => rfl
  | cons e events ih =>
    obtain ⟨legal, allows⟩ := allows
    obtain ⟨y', hact, S'⟩ := h.happen legal
    have hact := hact false
    rw [Config.relax_false] at hact
    have hafter : y.afterEvent c e = y' := by rw [System.afterEvent, hact]
    have hphase : y'.phase t = y.phase t := by
      cases e with
      | act a => exact Action.Legal.others legal hact (ht a List.mem_cons_self y).symm
      | setArenaSize size =>
        cases hact
        rfl
      | shutdown u =>
        cases hact
        rfl
    change ((y.afterEvent c e).pass c events).phase t = y.phase t
    rw [hafter] at allows ⊢
    exact (ih S' allows fun a ha ↦ ht a (List.mem_cons_of_mem e ha)).trans hphase

/-- Admitted actions and allowed events are the same run. -/
theorem System.pass_map_act (y : System) (c : Config) (actions : List Action) :
    y.pass c (actions.map .act) = y.run c actions := by
  unfold System.pass System.run
  rw [List.foldl_map]
  rfl

/-- Thread 0 allocates a general and a pooled block. -/
def Action.bothPaths : List Action :=
  [.start 0, .call 0 (.malloc 5000), .advance 0, .advance 0,
    .call 0 (.malloc 100), .advance 0, .advance 0, .advance 0, .advance 0]

/-- A program start with a kernel that grants three requests. -/
def System.willing : System :=
  .start (fun _ ↦ 0xab) [some 0x10000, some 0x800000, some 0x10000] 65536

/-- Thread 0 has allocated a general and a pooled block. -/
def System.bothPaths : System := System.willing.run .fixedBase Action.bothPaths

theorem System.bothPaths_admits : System.willing.Admits .fixedBase Action.bothPaths := by
  decide +kernel

theorem System.bothPaths_lives : System.Lives .fixedBase .bothPaths :=
  (System.Reachable.run ⟨_, _, _, by decide, .refl⟩ System.bothPaths_admits).lives

/-- The other threads have not started. -/
theorem System.bothPaths_others {u : Tid} (hu : u ≠ 0) : System.bothPaths.phase u = .unborn := by
  unfold System.bothPaths
  rw [← System.pass_map_act]
  refine Surviving.pass_phase (c := .fixedBase) ⟨_, _, _, _, _, _, .start _ _ _ (by decide)⟩
    System.bothPaths_admits.allows fun a ha x ↦ ?_
  simp only [Action.bothPaths, List.mem_map, List.mem_cons, List.not_mem_nil, or_false,
    Event.act.injEq, exists_eq_right] at ha
  rcases ha with rfl | rfl | rfl | rfl | rfl | rfl | rfl | rfl | rfl <;> exact hu.symm

theorem System.bothPaths_legal : (Event.shutdown 0).Legal .fixedBase .bothPaths :=
  ⟨by decide +kernel, fun _ hu ↦ .inl (System.bothPaths_others hu)⟩

/-- A general allocation. -/
def Event.again : List Event := [.call 0 (.malloc 5000), .advance 0, .advance 0].map .act

theorem System.bothPaths_again : (System.bothPaths.shutdown 0).Allows .fixedBase Event.again :=
  System.Admits.allows (by decide +kernel)

/-- In every lifetime what was acquired was given back or is mapped. A shutdown gives back
exactly the mapped regions, each once, and leaves no address in any of the allocator's objects
but the caches of threads that have exited. -/
theorem shutdown_releases (h : System.Lives c y) (legal : (Event.shutdown t).Legal c y) :
    (acquired y.state.os.log).Perm (released y.state.os.log ++ y.state.os.mapped) ∧
    (∃ rs, (y.shutdown t).state.os.log = y.state.os.log ++ releases rs ∧
      rs.Perm y.state.os.mapped ∧ rs.Pairwise OsRegion.Apart) ∧
    (y.shutdown t).state.os.mapped = [] ∧
    (acquired (y.shutdown t).state.os.log).Perm (released (y.shutdown t).state.os.log) ∧
    (y.shutdown t).state.arenas = [] ∧ (y.shutdown t).state.freeHead = 0 ∧
    (∀ i, (y.shutdown t).state.pools i = Pool.init (classSize i)) ∧
    ∀ u i, y.phase u ≠ .exited → (y.shutdown t).state.caches u i = ⟨0, 0, 0⟩ := by
  obtain ⟨past, os, z, ts, order, sh, S⟩ := h.surviving
  have N := S.shutdown legal.1 legal.2
  obtain ⟨hmapped, E⟩ := N.shadows.emptied
  exact ⟨S.log_balanced, ⟨_, S.shutdown_log t, S.held.symm, S.regions_apart⟩, hmapped, N.balanced,
    E.arenas, E.freeHead, E.pools, E.caches⟩

/-- An arena and the region of a pool are given back. -/
theorem shutdown_releases_bothPaths :
    System.bothPaths.state.os.mapped = [⟨0x800000, 36864⟩, ⟨0x10000, 65536⟩] ∧
    (System.bothPaths.shutdown 0).state.os.mapped = [] ∧
    ∃ rs, (System.bothPaths.shutdown 0).state.os.log =
        System.bothPaths.state.os.log ++ releases rs ∧
      rs.Perm [⟨0x800000, 36864⟩, ⟨0x10000, 65536⟩] := by
  have hmapped : System.bothPaths.state.os.mapped = [⟨0x800000, 36864⟩, ⟨0x10000, 65536⟩] := by
    decide +kernel
  obtain ⟨-, ⟨rs, hlog, hperm, -⟩, hnone, -⟩ :=
    shutdown_releases System.bothPaths_lives System.bothPaths_legal
  exact ⟨hmapped, hnone, rs, hlog, hmapped ▸ hperm⟩

/-- After a shutdown the allocator cannot be told from one at program start: the same events are
legal, and after each of them the clients hold the same pointers with the same contents, every
call returned the same, and the kernel was asked for the same. -/
theorem shutdown_resets (h : System.Lives c y) (legal : (Event.shutdown t).Legal c y)
    (events : List Event) :
    ((y.shutdown t).Allows c events ↔ (y.shutdown t).fresh.Allows c events) ∧
      ((y.shutdown t).fresh.Allows c events →
        Alike (y.shutdown t).state.os.log ((y.shutdown t).pass c events)
          ((y.shutdown t).fresh.pass c events)) := by
  obtain ⟨past, os, z, ts, order, sh, S⟩ := h.surviving
  have N := (S.shutdown legal.1 legal.2).shadows
  obtain ⟨hallows, hpass⟩ := N.pass events
  exact ⟨hallows, fun hz ↦ (hpass hz).alike⟩

/-- A general allocation after the shutdown gets the same block as at program start. -/
theorem shutdown_resets_bothPaths :
    Alike (System.bothPaths.shutdown 0).state.os.log
      ((System.bothPaths.shutdown 0).pass .fixedBase Event.again)
      ((System.bothPaths.shutdown 0).fresh.pass .fixedBase Event.again) ∧
    ((System.bothPaths.shutdown 0).pass .fixedBase Event.again).phase 0 = .idle 0x10010 := by
  obtain ⟨hiff, halike⟩ :=
    shutdown_resets System.bothPaths_lives System.bothPaths_legal Event.again
  exact ⟨halike (hiff.mp System.bothPaths_again), by decide +kernel⟩

/-- Between one shutdown and the next, or program start and the first, any threads may run in any
interleaving: the next shutdown is a full reset. -/
theorem shutdown_full_reset {x : System} (h : x.Anew c) (allows : x.Allows c events)
    (hlast : ∀ u, Event.shutdown u ∉ events)
    (legal : (Event.shutdown t).Legal c (x.pass c events)) :
    FullReset c x (x.pass c events) t := by
  obtain ⟨past, os, z₀, _, _, _, S₀, hpast⟩ := h.survives
  obtain ⟨z, ts, order, sh, S⟩ := S₀.pass allows hlast
  have N := (S.shutdown legal.1 legal.2).shadows
  obtain ⟨hunmapped, hemptied⟩ := N.emptied
  refine ⟨⟨z.state.os.log, regionsOf (x.pass c events).state, ?_, S.shutdown_log t, ?_,
    S.regions_apart⟩, hunmapped, hemptied, fun events ↦ ?_⟩
  · rw [← hpast]
    exact S.log_eq
  · refine S.held.symm.trans ?_
    rw [S.mapped_eq]
    exact List.reverse_perm _
  · obtain ⟨hallows, hpass⟩ := N.pass events
    exact ⟨hallows, fun hz ↦ (hpass hz).alike⟩

/-- The second life of a program whose first used both paths. -/
theorem shutdown_full_reset_again : FullReset .fixedBase (System.bothPaths.shutdown 0)
    ((System.bothPaths.shutdown 0).pass .fixedBase Event.again) 0 := by
  have hanew : (System.bothPaths.shutdown 0).Anew .fixedBase :=
    .inr ⟨_, 0, System.bothPaths_lives, System.bothPaths_legal, rfl⟩
  refine shutdown_full_reset hanew System.bothPaths_again (by simp [Event.again])
    ⟨by decide +kernel, fun u hu ↦ .inl ?_⟩
  obtain ⟨_, _, _, _, _, _, S, -⟩ := hanew.survives
  rw [Surviving.pass_phase ⟨_, _, _, _, _, _, S⟩ System.bothPaths_again ?_, System.shutdown_phase,
    System.bothPaths_others hu]
  intro a ha x
  simp only [Event.again, List.mem_map, List.mem_cons, List.not_mem_nil, or_false,
    Event.act.injEq, exists_eq_right] at ha
  rcases ha with rfl | rfl | rfl <;> exact hu.symm

end CustomAllocator
