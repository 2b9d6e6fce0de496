import CustomAllocator.Concurrent.Runs
import CustomAllocator.Lifetime.Echo

/-!
# Shutting down

`allocator_shutdown` gives back every region once, with the size it was granted with, and leaves
the allocator's objects as they are at program start. Nothing is left of the past but the
kernel's log and the caches of other threads.
-/

namespace CustomAllocator
open CustomAllocator.Base

/-- Give back the regions `rs`, in order. -/
def releaseAll (k : Machine) (rs : List OsRegion) : Machine :=
  rs.foldl (fun k r ↦ (osRelease k r.base r.size).1) k

/-- The calls that give back the regions `rs`. -/
def releases (rs : List OsRegion) : List OsCall := rs.map fun r ↦ .release r.base r.size

variable {c : Config} {k : Machine} {s : State} {t : Tid} {rs rs' : List OsRegion}

/-! ### Giving back regions -/

theorem releaseAll_append : releaseAll k (rs ++ rs') = releaseAll (releaseAll k rs) rs' :=
  List.foldl_append

theorem releaseAll_eq (k : Machine) (rs : List OsRegion) :
    releaseAll k rs = { k with os := { k.os with
      mapped := rs.foldl List.erase k.os.mapped, log := k.os.log ++ releases rs } } := by
  induction rs generalizing k with
  | nil => simp [releaseAll, releases]
  | cons r rs ih =>
    rw [releaseAll, List.foldl_cons]
    refine (ih _).trans ?_
    simp [osRelease, releases]

/-- Giving back all that is mapped leaves nothing mapped. -/
theorem foldl_erase_perm {mapped : List OsRegion} (h : mapped.Perm rs) :
    rs.foldl List.erase mapped = [] := by
  induction rs generalizing mapped with
  | nil => exact h.eq_nil
  | cons r rs ih =>
    rw [List.foldl_cons]
    apply ih
    simpa using h.erase r

@[simp] theorem released_releases (rs : List OsRegion) : released (releases rs) = rs := by
  induction rs with
  | nil => rfl
  | cons r rs ih =>
    rw [releases, List.map_cons, released, List.filterMap_cons]
    exact congrArg (r :: ·) ih

@[simp] theorem acquired_releases (rs : List OsRegion) : acquired (releases rs) = [] := by
  induction rs with
  | nil => rfl
  | cons r rs ih => exact ih

/-! ### The three loops -/

/-- A pool without regions and slots. -/
def Pool.emptied (p : Pool) : Pool := { p with arenas := [], freeHead := 0 }

/-- A pool that has given back its regions is as new. -/
theorem Pool.Shape.emptied {p : Pool} {i : Fin numSizeClasses} (h : p.Shape i) :
    p.emptied = Pool.init (classSize i) := by
  have hinit := Pool.init_shape i
  rw [Pool.emptied, h.payload_eq, h.total_eq, ← hinit.total_eq]
  rfl

/-- One round of the loop over the pools. -/
def releasePool (s : State) (i : Fin numSizeClasses) : State :=
  let r := (s.pools i).releaseAllArenas s.toMachine
  (s.setMachine r.1).setPool i r.2

theorem releasePool_pools (s : State) (i j : Fin numSizeClasses) :
    (releasePool s i).pools j = if j = i then (s.pools i).emptied else s.pools j := rfl

theorem releasePool_machine (s : State) (i : Fin numSizeClasses) :
    (releasePool s i).toMachine = releaseAll s.toMachine (s.pools i).arenas := rfl

/-- The loop over the pools. -/
theorem releasePools_eq (is : List (Fin numSizeClasses)) (hnd : is.Nodup) (s : State) :
    is.foldl releasePool s =
      { s with
        toMachine := releaseAll s.toMachine (is.flatMap fun i ↦ (s.pools i).arenas)
        pools := fun j ↦ if j ∈ is then (s.pools j).emptied else s.pools j } := by
  induction is generalizing s with
  | nil => simp [releaseAll]
  | cons i is ih =>
    obtain ⟨hi, hnd⟩ := List.nodup_cons.mp hnd
    have hne : ∀ j ∈ is, j ≠ i := fun j hj he ↦ hi (he ▸ hj)
    have harenas : (is.flatMap fun j ↦ ((releasePool s i).pools j).arenas) =
        is.flatMap fun j ↦ (s.pools j).arenas := by
      apply List.flatMap_congr
      intro j hj
      rw [releasePool_pools, if_neg (hne j hj)]
    have hpools : (fun j ↦ if j ∈ is then ((releasePool s i).pools j).emptied
          else (releasePool s i).pools j) =
        fun j ↦ if j ∈ i :: is then (s.pools j).emptied else s.pools j := by
      funext j
      rw [releasePool_pools]
      by_cases hj : j = i
      · rw [if_pos hj, if_neg (hj ▸ hi), if_pos (by simp [hj]), hj]
      · simp [hj]
    rw [List.foldl_cons, ih hnd, harenas, hpools, releasePool_machine, List.flatMap_cons,
      releaseAll_append]
    rfl

/-- The loop over the calling thread's caches. -/
theorem clearCaches_eq (is : List (Fin numSizeClasses)) (s : State) (t : Tid) :
    is.foldl (fun s i ↦ s.setCache t i ⟨0, 0, 0⟩) s =
      { s with caches := fun u j ↦ if u = t ∧ j ∈ is then ⟨0, 0, 0⟩ else s.caches u j } := by
  induction is generalizing s with
  | nil => simp
  | cons i is ih =>
    rw [List.foldl_cons, ih]
    simp only [State.setCache]
    congr 1
    funext u j
    by_cases hu : u = t <;> by_cases hj : j = i <;> simp [hu, hj]

/-- A shutdown gives back every region and leaves the allocator as it is at program start, with
the kernel's log and the caches of other threads. -/
theorem allocatorShutdown_eq (s : State) (t : Tid) (hshape : ∀ i, (s.pools i).Shape i) :
    allocatorShutdown s t =
      { toMachine := releaseAll s.toMachine (regionsOf s)
        arenas := []
        freeHead := 0
        arenaSize := s.arenaSize
        pools := fun i ↦ Pool.init (classSize i)
        caches := fun u i ↦ if u = t then ⟨0, 0, 0⟩ else s.caches u i } := by
  have harenas : s.arenas.foldl (fun k a ↦ (osRelease k a.base a.size).1) s.toMachine =
      releaseAll s.toMachine (s.arenas.map Arena.region) := by
    rw [releaseAll, List.foldl_map]
    rfl
  have hpools := releasePools_eq (List.finRange numSizeClasses)
    (List.nodup_finRange numSizeClasses)
    { s.setMachine (releaseAll s.toMachine (s.arenas.map Arena.region)) with
      arenas := [], freeHead := 0 }
  unfold allocatorShutdown
  rw [harenas]
  change (List.finRange numSizeClasses).foldl (fun s i ↦ s.setCache t i ⟨0, 0, 0⟩)
    ((List.finRange numSizeClasses).foldl releasePool _) = _
  rw [hpools, clearCaches_eq, regionsOf, releaseAll_append]
  simp only [List.mem_finRange, if_true, and_true, State.setMachine]
  congr 1
  funext i
  exact (hshape i).emptied

end CustomAllocator
