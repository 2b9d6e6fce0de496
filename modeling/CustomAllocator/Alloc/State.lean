import CustomAllocator.Heap.FreeList
import CustomAllocator.Pool.Pool

/-!
# Allocator state

The static and thread-local objects of `src/allocator.cpp` over the machine's memory.
A thread is a number; each has its own nine caches.
-/

namespace CustomAllocator
open CustomAllocator.Base

/-- `Arena`; `src/allocator.cpp:194–198`. -/
structure Arena where
  base : Nat
  size : Nat
  used : Nat
  deriving DecidableEq, Repr

/-- The region an arena was made from. -/
def Arena.region (a : Arena) : OsRegion := ⟨a.base, a.size⟩

/-- `ThreadLocalCache`; `src/allocator.cpp:114–118`. -/
structure ThreadLocalCache where
  head : Nat
  tail : Nat
  count : Nat
  deriving DecidableEq, Repr

/-- A thread's identity. -/
abbrev Tid : Type := Nat

/-- Everything the allocator keeps: `arenas()`, the head of `free_list()`, `arena_size()`,
`pools()` and every thread's `tls_caches`, over memory and the kernel. -/
structure State extends Machine where
  arenas : List Arena
  freeHead : Nat
  arenaSize : Nat
  pools : Fin numSizeClasses → Pool
  caches : Tid → Fin numSizeClasses → ThreadLocalCache

/-- `kDefaultArenaSize`; `src/allocator.cpp:155`. -/
def defaultArenaSize : Nat := 1024 * 1024

/-- The allocator's objects at program start over any memory contents and any kernel that has
granted nothing yet; the arena size may have been overridden. -/
def State.initial (mem : Mem) (offers : List (Option Nat)) (arenaSize : Nat) : State where
  mem := mem
  os := { mapped := [], offers := offers, log := [] }
  arenas := []
  freeHead := 0
  arenaSize := arenaSize
  pools i := Pool.init (classSize i)
  caches _ _ := ⟨0, 0, 0⟩

/-- Replace the pool of class `i`. -/
def State.setPool (s : State) (i : Fin numSizeClasses) (p : Pool) : State :=
  { s with pools := fun j ↦ if j = i then p else s.pools j }

/-- Replace thread `t`'s cache of class `i`. -/
def State.setCache (s : State) (t : Tid) (i : Fin numSizeClasses) (cache : ThreadLocalCache) :
    State :=
  { s with caches := fun u j ↦ if u = t ∧ j = i then cache else s.caches u j }

/-- Replace memory and kernel. -/
def State.setMachine (s : State) (k : Machine) : State := { s with toMachine := k }

/-- Replace memory and the free-list head together. -/
def State.setHeap (s : State) (h : Mem × Nat) : State := { s with mem := h.1, freeHead := h.2 }

end CustomAllocator
