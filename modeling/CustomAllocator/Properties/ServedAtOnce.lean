import CustomAllocator.Concurrent.Refinement
import CustomAllocator.Lifetime.Runs
import CustomAllocator.Properties.Shutdown

/-!
# Every call is served at once

The allocator refines the heap that serves each request at one moment: whatever the threads do
between the steps of a call, and across shutdowns, its clients see blocks appear, move and
disappear as if each call had happened at once between its start and its return.
-/

namespace CustomAllocator
open CustomAllocator.Base

variable {c : Config} {past : Past} {os : Os} {y y' z : System} {t : Tid} {e : Event} {ph : Phase}

/-- The past is not in view. -/
theorem SystemEcho.view_eq (h : SystemEcho past os z y) : y.view = z.view := by
  have hheap : y.holding = z.holding := by
    have husable : ∀ g, usable y.state g = usable z.state g := fun g ↦ by
      unfold usable
      rw [h.state.mem_eq, h.state.pools_eq]
    funext p
    unfold System.holding
    simp only [h.live, h.phase, h.owner, h.state.mem_eq, husable]
  have hstatus : y.view.status = z.view.status := by
    funext t
    rw [System.view_status, System.view_status, h.phase, h.began]
  rw [System.view, hheap]
  exact congrArg (Atomic.mk z.holding) hstatus

/-- Between calls it does not matter what the last call was. -/
theorem Phase.AtRest.status_eq (h : ph.AtRest) (call call' : Call) :
    ph.status call = ph.status call' := by
  cases ph with
  | unborn => rfl
  | exited => rfl
  | idle r => rfl
  | _ => exact absurd h id

/-- While the allocator is shut down every thread rests. -/
theorem Event.Legal.allAtRest (legal : (Event.shutdown t).Legal c y) (u : Tid) :
    (y.phase u).AtRest := by
  by_cases hu : u = t
  · obtain ⟨r, hr⟩ := legal.1
    rw [hu, hr]
    trivial
  · rcases legal.2 u hu with hr | hr <;> rw [hr] <;> trivial

/-- After a shutdown nothing is in view. -/
theorem System.shutdown_view (hrest : ∀ u, (y.phase u).AtRest) :
    (y.shutdown t).view = { y.view with heap := fun _ ↦ none } := by
  have hstatus : (y.shutdown t).view.status = y.view.status := by
    funext u
    rw [System.view_status, System.view_status]
    exact (hrest u).status_eq _ _
  exact congrArg (Atomic.mk fun _ ↦ none) hstatus

/-- What the clients see of an event that leads to the system `y'`: nothing of a new arena size,
and of a shutdown that all blocks are gone. -/
def Event.Shows (y' : System) : Event → List (Label Tid UInt8) → Prop
  | act a, ls => CustomAllocator.Shows y' a ls
  | setArenaSize _, ls => ls = []
  | shutdown _, ls => ls = [.reset]

/-- What the clients see of a legal event is a run of the heap. -/
theorem Surviving.refines (S : Surviving c y) (legal : e.Legal c y)
    (hact : y.happen c e = .ok y') : ∃ ls, e.Shows y' ls ∧ HeapRun ls y.view y'.view := by
  obtain ⟨past, os, z, ts, order, sh, S⟩ := S
  cases e with
  | act a =>
    obtain ⟨z', y'', ts', order', sh', hz, hy, S'⟩ := S.act legal
    have hsame := hy false
    rw [Config.relax_false] at hsame
    obtain rfl : y'' = y' := by simpa using hsame.symm.trans hact
    obtain ⟨ls, hshows, hrun⟩ := S.consistent.refines_act (S.legal legal) hz
    refine ⟨ls, hshows.congr fun t ↦ congrFun S'.echo.phase t, ?_⟩
    rwa [S.echo.view_eq, S'.echo.view_eq]
  | setArenaSize size =>
    cases hact
    exact ⟨[], rfl, .nil _⟩
  | shutdown t =>
    cases hact
    refine ⟨[.reset], rfl, ?_⟩
    rw [System.shutdown_view (Event.Legal.allAtRest legal)]
    exact .single (.reset fun u ↦ (Event.Legal.allAtRest legal u).status _)

/-- In every lifetime, under every interleaving, what the clients see is a run of the heap that
serves each request at one moment, between call and return, and every event extends it. -/
theorem served_at_once (h : System.Lives c y) :
    (∃ ls, HeapRun ls .empty y.view) ∧ y.view.Sound 16 ∧
      ∀ e y', Event.Legal c y e → y.happen c e = .ok y' →
        ∃ ls, e.Shows y' ls ∧ HeapRun ls y.view y'.view := by
  have hrun : ∃ ls, HeapRun ls .empty y.view := by
    obtain ⟨mem, offers, arenaSize, hsize, hrun⟩ := h
    induction hrun with
    | refl => exact ⟨[], .nil _⟩
    | tail hrun hstep ih =>
      obtain ⟨e, legal, hact⟩ := hstep
      obtain ⟨ls, hls⟩ := ih
      have S := System.Lives.surviving (c := c) ⟨mem, offers, arenaSize, hsize, hrun⟩
      obtain ⟨ls', -, hls'⟩ := S.refines legal hact
      exact ⟨ls ++ ls', hls.append hls'⟩
  obtain ⟨ls, hls⟩ := hrun
  refine ⟨⟨ls, hls⟩, Atomic.empty_sound.run hls, ?_⟩
  intro e y' legal hact
  exact h.surviving.refines legal hact

theorem served_at_once_handover : (∃ ls, HeapRun ls .empty System.handover.view) ∧
    ∃ ls, (Event.shutdown 0).Shows (System.bothPaths.shutdown 0) ls ∧
      HeapRun ls System.bothPaths.view (System.bothPaths.shutdown 0).view :=
  ⟨(served_at_once System.handover_reachable.lives).1,
    (served_at_once System.bothPaths_lives).2.2 (.shutdown 0) _ System.bothPaths_legal rfl⟩

end CustomAllocator
