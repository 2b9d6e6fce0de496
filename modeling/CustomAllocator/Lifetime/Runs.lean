import CustomAllocator.Concurrent.Flow
import CustomAllocator.Lifetime.Shutdown

/-!
# The lifetime of a process

Clients act, the arena size is overridden, and the allocator is shut down and used again, any
number of times. `Survives` says that such a system is one whose run began at its last shutdown,
with a past that it never looks at.
-/

namespace CustomAllocator
open CustomAllocator.Base

/-- `set_arena_size_for_testing`; `src/allocator.cpp:967–969`. -/
def setArenaSizeForTesting (s : State) (size : Nat) : State := { s with arenaSize := size }

/-- `reset_arena_size_for_testing`; `src/allocator.cpp:971–973`. -/
def resetArenaSizeForTesting (s : State) : State := setArenaSizeForTesting s defaultArenaSize

/-- `allocator_shutdown` called by thread `t`: no pointer is live any more. -/
def System.shutdown (y : System) (t : Tid) : System :=
  { y with
    state := allocatorShutdown y.state t
    live := []
    began := fun _ ↦ (.free 0, ⟨allocatorShutdown y.state t, []⟩) }

/-- The allocator as it is at program start, over the memory and the kernel's answers of `y`, with
every thread where it is. -/
def System.fresh (y : System) : System :=
  { System.start y.state.mem y.state.os.offers y.state.arenaSize with
    owner := y.owner
    phase := y.phase }

/-- What can happen in the lifetime of a process. -/
inductive Event where
  | act (a : Action)
  | setArenaSize (size : Nat)
  | shutdown (t : Tid)
  deriving DecidableEq, Repr

/-- The system after an event. -/
def System.happen (c : Config) (y : System) : Event → Except Fault System
  | .act a => y.act c a
  | .setArenaSize size => .ok (y.setState (setArenaSizeForTesting y.state size))
  | .shutdown t => .ok (y.shutdown t)

/-- What clients may do. The arena size is set between calls, and a thread shuts the allocator
down between its calls when it is the only one left. -/
def Event.Legal (c : Config) (y : System) : Event → Prop
  | .act a => a.Legal c y
  | .setArenaSize size => size < 2 ^ 64 ∧ ∀ t, (y.phase t).AtRest
  | .shutdown t => (∃ r, y.phase t = .idle r) ∧
      ∀ u, u ≠ t → y.phase u = .unborn ∨ y.phase u = .exited

/-- One legal event that completes. -/
def System.Episode (c : Config) (y y' : System) : Prop :=
  ∃ e : Event, e.Legal c y ∧ y.happen c e = .ok y'

/-- The systems of all lifetimes. -/
def System.Lives (c : Config) (y : System) : Prop :=
  ∃ mem offers arenaSize, arenaSize < 2 ^ 64 ∧
    Relation.ReflTransGen (System.Episode c) (System.start mem offers arenaSize) y

/-- No past. -/
def Past.none : Past := ⟨[], fun _ ↦ false, fun _ _ ↦ ⟨0, 0, 0⟩⟩

/-- What a system leaves behind for the run after it. -/
def System.past (y : System) : Past where
  log := y.state.os.log
  gone t := decide (y.phase t = .exited)
  caches := y.state.caches

/-- A kernel that has granted nothing yet. -/
def Os.unused (offers : List (Option Nat)) : Os := { mapped := [], offers := offers, log := [] }

/-- The system `y` is `z` with a past: `z` began with an unused kernel and is consistent, only
threads that have exited are part of the past, threads not yet started have empty caches, and
what was acquired in the past was given back. -/
structure Survives (c : Config) (past : Past) (os : Os) (z y : System) (ts : List Carved)
    (order : List Nat) (sh : Shelves) : Prop where
  echo : SystemEcho past os z y
  unused : os = Os.unused os.offers
  consistent : Consistent c z ts order sh
  gone : ∀ t, past.gone t = true → z.phase t = .exited
  unborn : ∀ t i, z.phase t = .unborn → sh (.cache t i) = []
  balanced : (acquired past.log).Perm (released past.log)

variable {c : Config} {past : Past} {os : Os} {y y' z z' : System} {t u : Tid}
  {ts : List Carved} {order : List Nat} {sh : Shelves} {s : State} {live : List Grant}
  {i : Fin numSizeClasses} {a : Action} {e : Event}

/-! ### The past -/

@[simp] theorem Config.relax_false (c : Config) : c.relax false = c := by
  simp [Config.relax]

theorem Config.relax_true (c : Config) : c.relax true = { c with ndebug := true } := by
  simp [Config.relax]

/-- A system is its own echo without a past. -/
theorem SystemEcho.none (y : System) : SystemEcho .none y.state.os y y :=
  ⟨⟨rfl, .refl _⟩, rfl, rfl, rfl, fun _ ↦ rfl⟩

/-- A system has one echo. -/
theorem SystemEcho.unique {os' : Os} (h : SystemEcho past os z y) (h' : SystemEcho past os' z y') :
    y = y' := by
  cases y with
  | mk state live owner phase began =>
  cases y' with
  | mk state' live' owner' phase' began' =>
  have hbegan : began = began' := by
    funext t
    exact (h.began t).trans (h'.began t).symm
  rw [System.mk.injEq]
  exact ⟨h.state.1.trans h'.state.1.symm, h.live.trans h'.live.symm, h.owner.trans h'.owner.symm,
    h.phase.trans h'.phase.symm, hbegan⟩

/-- A state as at program start, but for the kernel's log and the caches of gone threads. -/
theorem Past.state_initial {s : State} {gone : Tid → Bool} (hmapped : s.os.mapped = [])
    (harenas : s.arenas = []) (hhead : s.freeHead = 0)
    (hpools : s.pools = fun i ↦ Pool.init (classSize i))
    (hcaches : ∀ u i, gone u = false → s.caches u i = ⟨0, 0, 0⟩) :
    s = Past.state ⟨s.os.log, gone, s.caches⟩
      (State.initial s.mem s.os.offers s.arenaSize) := by
  have hall : s.caches = fun u i ↦ if gone u then s.caches u i else ⟨0, 0, 0⟩ := by
    funext u i
    cases hu : gone u with
    | false => exact hcaches u i hu
    | true => rfl
  obtain ⟨⟨mem, mapped, offers, log⟩, arenas, freeHead, arenaSize, pools, caches⟩ := s
  cases hmapped
  cases harenas
  cases hhead
  cases hpools
  simp only [Past.state, Past.machine, State.setMachine, State.initial, List.append_nil]
  rw [← hall]

/-! ### What a step keeps -/

/-- A thread not yet started still has nothing in its caches. -/
theorem Acted.untouched {ts' : List Carved} {order' : List Nat} {sh' : Shelves}
    (A : Acted c y sh (a.actor y) y' ts' order' sh') (legal : a.Legal c y)
    (hact : y.act c a = .ok y') (ht : y'.phase t = .unborn) (i : Fin numSizeClasses) :
    sh' (.cache t i) = sh (.cache t i) := by
  have hbefore := legal.unborn hact ht
  by_cases hu : t = a.actor y
  · have M := A.motion
    rw [← hu, hbefore, ht] at M
    rw [M.rest trivial]
  · exact A.undisturbed.cache t hu i

/-- The arena size is bounded and otherwise free. -/
theorem Booked.withArenaSize {tr : Transit} (A : Booked c s tr live ts order sh) {size : Nat}
    (h : size < 2 ^ 64) : Booked c (setArenaSizeForTesting s size) tr live ts order sh := by
  have C := A.coherent
  have R : Regions (setArenaSizeForTesting s size) :=
    ⟨C.regions.held, C.regions.wf, C.regions.apart⟩
  have H : Shelved c (setArenaSizeForTesting s size) tr sh :=
    C.shelved.congr rfl rfl (fun _ hq ↦ hq) fun _ _ _ ↦ rfl
  exact ⟨⟨C.heap, H, R, h, C.slots, C.carved⟩, A.general, A.pooled, A.blocks, A.slots, A.nodup,
    A.occupied⟩

/-- The arena size may be set while every thread is at rest. -/
theorem Consistent.withArenaSize (C : Consistent c y ts order sh) {size : Nat}
    (h : size < 2 ^ 64) (hrest : ∀ t, (y.phase t).AtRest) :
    Consistent c (y.setState (setArenaSizeForTesting y.state size)) ts order sh where
  booked := C.booked.withArenaSize h
  uncaptured := C.uncaptured
  phases t := .of_atRest (hrest t)
  cap := C.cap

/-- Program start is consistent wherever the threads rest. -/
theorem Consistent.fresh (c : Config) (hsize : y.state.arenaSize < 2 ^ 64)
    (hrest : ∀ t, (y.phase t).AtRest) : Consistent c y.fresh [] [] fun _ ↦ [] where
  booked := by
    have htr : y.fresh.transit = noTransit := by
      funext t i
      exact ((hrest t).clear i).1
    rw [htr]
    exact (Accounted.initial c y.state.mem y.state.os.offers hsize).toBooked
  uncaptured b hb := by simp [Allocated, blocksOf] at hb
  phases t := .of_atRest (hrest t)
  cap _ _ := Nat.zero_le _

/-- An empty cache. -/
theorem Consistent.cache_empty (C : Consistent c y ts order sh) (h : sh (.cache t i) = []) :
    y.state.caches t i = ⟨0, 0, 0⟩ := by
  have hlinked : Chain (read64 y.state.mem) 0 (y.state.caches t i).head (sh (.cache t i)) ∧
      (y.state.caches t i).tail = (sh (.cache t i)).getLastD 0 ∧
      (y.state.caches t i).count = (sh (.cache t i)).length :=
    C.booked.coherent.shelved.linked (.cache t i)
  obtain ⟨hhead, htail, hcount⟩ := hlinked
  rw [h] at htail hcount
  rw [ThreadLocalCache.mk.injEq]
  exact ⟨hhead.head_eq_nil_iff.mpr h, htail, hcount⟩

/-! ### The log -/

theorem acquired_append (log log' : List OsCall) :
    acquired (log ++ log') = acquired log ++ acquired log' := List.filterMap_append

theorem released_append (log log' : List OsCall) :
    released (log ++ log') = released log ++ released log' := List.filterMap_append

/-- Since the last shutdown the kernel was only asked for regions, and those it granted are
mapped. -/
theorem Traced.unused {os' : Os} (h : Traced os os') (hos : os = Os.unused os.offers) :
    released os'.log = [] ∧ os'.mapped = (acquired os'.log).reverse := by
  obtain ⟨new, hlog, hrel, hmap⟩ := h
  rw [hos] at hlog hmap
  rw [hlog, hmap]
  exact ⟨hrel, List.append_nil _⟩

namespace Survives

/-- A lifetime begins without a past. -/
theorem start (c : Config) (mem : Mem) (offers : List (Option Nat)) {arenaSize : Nat}
    (h : arenaSize < 2 ^ 64) :
    Survives c .none (.unused offers) (.start mem offers arenaSize) (.start mem offers arenaSize)
      [] [] fun _ ↦ [] where
  echo := show SystemEcho .none (System.start mem offers arenaSize).state.os _ _ from .none _
  unused := rfl
  consistent := .start c mem offers h
  gone t ht := by cases ht
  unborn _ _ _ := rfl
  balanced := .refl _

variable (S : Survives c past os z y ts order sh)
include S

/-- What is legal now is legal without the past. -/
theorem legal (legal : a.Legal c y) : a.Legal c z := by
  rw [← Config.relax_false c] at legal
  exact (Action.legal_echo S.echo a).mp legal

/-- A legal action completes, with or without assertions. -/
theorem act (legal : a.Legal c y) :
    ∃ z' y' ts' order' sh', z.act c a = .ok z' ∧ (∀ b, y.act (c.relax b) a = .ok y') ∧
      Survives c past os z' y' ts' order' sh' := by
  have legal := S.legal legal
  obtain ⟨z', ts', order', sh', hact, A⟩ := S.consistent.act legal
  have hpresent : ∀ t, a = .advance t → past.gone t = false := by
    rintro t rfl
    have hbusy : ¬ (z.phase t).AtRest := legal
    by_contra h
    rw [S.gone t (by simpa using h)] at hbusy
    exact hbusy trivial
  obtain ⟨y', hy', E⟩ := System.act_echo false S.echo hpresent z' hact
  refine ⟨z', y', ts', order', sh', hact, fun b ↦ ?_, E, S.unused, A.consistent, fun t ht ↦ ?_,
    fun t i ht ↦ ?_, S.balanced⟩
  · obtain ⟨y'', hy'', E'⟩ := System.act_echo b S.echo hpresent z' hact
    rw [hy'', E'.unique E]
  · exact (A.stranded legal hact (S.gone t ht) 0).1
  · rw [A.untouched legal hact ht i]
    exact S.unborn t i (legal.unborn hact ht)

/-- Setting the arena size changes nothing else. -/
theorem withArenaSize {size : Nat} (h : size < 2 ^ 64) (hrest : ∀ t, (y.phase t).AtRest) :
    Survives c past os (z.setState (setArenaSizeForTesting z.state size))
      (y.setState (setArenaSizeForTesting y.state size)) ts order sh where
  echo := by
    have E := S.echo
    refine E.setState ⟨?_, E.state.2⟩
    rw [E.state.1]
    rfl
  unused := S.unused
  consistent := S.consistent.withArenaSize h fun t ↦ by
    rw [← S.echo.phase]
    exact hrest t
  gone := S.gone
  unborn := S.unborn
  balanced := S.balanced

/-- The mapped regions are those acquired since the last shutdown. -/
theorem mapped_eq : y.state.os.mapped = (acquired z.state.os.log).reverse := by
  rw [S.echo.state.1]
  exact (S.echo.state.2.unused S.unused).2

theorem log_eq : y.state.os.log = past.log ++ z.state.os.log := by
  rw [S.echo.state.1]
  rfl

/-- Everything acquired so far was given back or is mapped. -/
theorem log_balanced :
    (acquired y.state.os.log).Perm (released y.state.os.log ++ y.state.os.mapped) := by
  have hreleased := (S.echo.state.2.unused S.unused).1
  rw [S.mapped_eq, S.log_eq, acquired_append, released_append, hreleased, List.append_nil]
  exact S.balanced.append (List.reverse_perm _).symm

/-- The mapped regions are those the allocator keeps. -/
theorem held : y.state.os.mapped.Perm (regionsOf y.state) := by
  have hheld := S.consistent.booked.coherent.regions.held
  rw [S.echo.state.1]
  exact hheld

theorem shape (i : Fin numSizeClasses) : (y.state.pools i).Shape i := by
  rw [S.echo.state.pools_eq]
  exact S.consistent.booked.coherent.shelved.shape i

/-- After a shutdown the run begins anew. -/
theorem shutdown (hcaller : ∃ r, y.phase t = .idle r)
    (halone : ∀ u, u ≠ t → y.phase u = .unborn ∨ y.phase u = .exited) :
    Survives c (y.shutdown t).past (.unused (y.shutdown t).state.os.offers) (y.shutdown t).fresh
      (y.shutdown t) [] [] fun _ ↦ [] := by
  have hrest : ∀ u, (y.phase u).AtRest := by
    intro u
    by_cases hu : u = t
    · obtain ⟨r, hr⟩ := hcaller
      rw [hu, hr]
      trivial
    · rcases halone u hu with h | h <;> rw [h] <;> trivial
  have hstate := allocatorShutdown_eq y.state t S.shape
  have hmapped := foldl_erase_perm S.held
  have hlog : (acquired (y.shutdown t).state.os.log).Perm
      (released (y.shutdown t).state.os.log) := by
    change (acquired (allocatorShutdown y.state t).os.log).Perm
      (released (allocatorShutdown y.state t).os.log)
    rw [hstate, releaseAll_eq, acquired_append, released_append, acquired_releases,
      released_releases, List.append_nil]
    exact S.log_balanced.trans (S.held.append_left _)
  have hcaches : ∀ u i, u ≠ t → y.phase u ≠ .exited → y.state.caches u i = ⟨0, 0, 0⟩ := by
    intro u i hu hne
    have hunborn : z.phase u = .unborn := by
      rw [← S.echo.phase]
      exact (halone u hu).resolve_right hne
    have hpresent : past.gone u = false := by
      by_contra h
      exact hne (by rw [S.echo.phase]; exact S.gone u (by simpa using h))
    rw [S.echo.state.caches_eq hpresent]
    exact S.consistent.cache_empty (S.unborn u i hunborn)
  have hsize : (y.shutdown t).state.arenaSize < 2 ^ 64 := by
    change (allocatorShutdown y.state t).arenaSize < 2 ^ 64
    rw [hstate, S.echo.state.arenaSize_eq]
    exact S.consistent.booked.coherent.arenaSize_lt
  have hself : (y.shutdown t).state =
      (y.shutdown t).past.state (y.shutdown t).fresh.state := by
    apply Past.state_initial
    · change (allocatorShutdown y.state t).os.mapped = []
      rw [hstate, releaseAll_eq]
      exact hmapped
    · change (allocatorShutdown y.state t).arenas = []
      rw [hstate]
    · change (allocatorShutdown y.state t).freeHead = 0
      rw [hstate]
    · change (allocatorShutdown y.state t).pools = _
      rw [hstate]
    · intro u i hu
      change (allocatorShutdown y.state t).caches u i = _
      rw [hstate]
      by_cases hut : u = t
      · exact if_pos hut
      · exact (if_neg hut).trans (hcaches u i hut (of_decide_eq_false hu))
  constructor
  · refine ⟨⟨hself, .refl _⟩, rfl, rfl, rfl, fun u ↦ ?_⟩
    change (Call.free 0, Session.mk (y.shutdown t).state []) = _
    rw [hself]
    rfl
  · rfl
  · exact Consistent.fresh c hsize hrest
  · intro u hu
    exact of_decide_eq_true hu
  · intro u i _
    rfl
  · exact hlog

end Survives

/-- A system that survived its past. -/
def Surviving (c : Config) (y : System) : Prop :=
  ∃ past os z ts order sh, Survives c past os z y ts order sh

/-- Every legal event completes, with or without assertions. -/
theorem Surviving.happen (h : Surviving c y) (legal : e.Legal c y) :
    ∃ y', (∀ b, y.happen (c.relax b) e = .ok y') ∧ Surviving c y' := by
  obtain ⟨past, os, z, ts, order, sh, S⟩ := h
  cases e with
  | act a =>
    obtain ⟨z', y', ts', order', sh', -, hact, S'⟩ := S.act legal
    exact ⟨y', hact, past, os, z', ts', order', sh', S'⟩
  | setArenaSize size =>
    exact ⟨_, fun _ ↦ rfl, past, os, _, ts, order, sh, S.withArenaSize legal.1 legal.2⟩
  | shutdown t =>
    exact ⟨_, fun _ ↦ rfl, _, _, _, _, _, _, S.shutdown legal.1 legal.2⟩

/-- Every system of a lifetime survived its past. -/
theorem System.Lives.surviving (h : System.Lives c y) : Surviving c y := by
  obtain ⟨mem, offers, arenaSize, hsize, hrun⟩ := h
  induction hrun with
  | refl => exact ⟨_, _, _, _, _, _, .start c mem offers hsize⟩
  | tail _ hstep ih =>
    obtain ⟨e, legal, hact⟩ := hstep
    obtain ⟨y', hact', S'⟩ := ih.happen legal
    have hsame := hact' false
    rw [Config.relax_false] at hsame
    obtain rfl : y' = _ := by simpa using hsame.symm.trans hact
    exact S'

/-- Events extend a lifetime. -/
theorem System.Lives.episode (h : System.Lives c y) (hstep : System.Episode c y y') :
    System.Lives c y' := by
  obtain ⟨mem, offers, arenaSize, hsize, hrun⟩ := h
  exact ⟨mem, offers, arenaSize, hsize, hrun.tail hstep⟩

/-- What an interleaving reaches without a shutdown is part of a lifetime. -/
theorem System.Reachable.lives (h : System.Reachable c y) : System.Lives c y := by
  obtain ⟨mem, offers, arenaSize, hsize, hrun⟩ := h
  have hepisode : ∀ y₁ y₂, System.Step c y₁ y₂ → System.Episode c y₁ y₂ := by
    rintro y₁ y₂ ⟨a, legal, hact⟩
    exact ⟨.act a, legal, hact⟩
  exact ⟨mem, offers, arenaSize, hsize, Relation.ReflTransGen.mono hepisode _ _ hrun⟩

/-- Interleaved steps extend a lifetime. -/
theorem System.Lives.run (h : System.Lives c y)
    (hrun : Relation.ReflTransGen (System.Step c) y y') : System.Lives c y' := by
  induction hrun with
  | refl => exact h
  | tail _ hstep ih =>
    obtain ⟨a, legal, hact⟩ := hstep
    exact ih.episode ⟨.act a, legal, hact⟩

/-! ### Building lifetimes -/

/-- The system after an event, or the same system when the event does not complete. -/
def System.afterEvent (y : System) (c : Config) (e : Event) : System :=
  match y.happen c e with
  | .ok y' => y'
  | .error _ => y

/-- The system after a list of events. -/
def System.pass (y : System) (c : Config) (events : List Event) : System :=
  events.foldl (fun y e ↦ y.afterEvent c e) y

/-- Each event of the list is legal when its turn comes. -/
def System.Allows (c : Config) : System → List Event → Prop
  | _, [] => True
  | y, e :: events => e.Legal c y ∧ Allows c (y.afterEvent c e) events

/-- Admitted actions are allowed events. -/
theorem System.Admits.allows {actions : List Action} (h : y.Admits c actions) :
    y.Allows c (actions.map .act) := by
  induction actions generalizing y with
  | nil => trivial
  | cons a actions ih => exact ⟨h.1, ih h.2⟩

end CustomAllocator
