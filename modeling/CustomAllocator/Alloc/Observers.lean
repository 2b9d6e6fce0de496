import CustomAllocator.Alloc.Api

/-!
# Test hooks

The functions by which tests look into the allocator; `src/allocator.cpp:975–1006`. They change
nothing.
-/

namespace CustomAllocator
open CustomAllocator.Base

/-- `Pool::arena_count_for_testing`; `include/memory_pool.hpp:126`. -/
def Pool.arenaCountForTesting (p : Pool) : Nat := p.arenas.length

/-- `arena_count_for_testing`; `src/allocator.cpp:975–977`. -/
def arenaCountForTesting (s : State) : Nat := s.arenas.length

/-- `right_neighbor_is_free_for_testing`; `src/allocator.cpp:979–981`. -/
def rightNeighborIsFreeForTesting (c : Config) (s : State) (ptr : Nat) : Except Fault Bool := do
  let right ← rightNeighborIfFree c s.arenas s.mem (headerOf ptr)
  .ok (right != 0)

/-- `left_neighbor_is_free_for_testing`; `src/allocator.cpp:983–985`. -/
def leftNeighborIsFreeForTesting (c : Config) (s : State) (ptr : Nat) : Except Fault Bool := do
  let left ← leftNeighborIfFree c s.arenas s.mem (headerOf ptr)
  .ok (left != 0)

/-- `free_list_size_for_testing`; `src/allocator.cpp:987–989`. -/
def freeListSizeForTesting (c : Config) (s : State) : Except Fault Nat :=
  FreeList.size c s.mem s.freeHead

/-- `block_payload_size_for_testing`; `src/allocator.cpp:991–1001`. -/
def blockPayloadSizeForTesting (c : Config) (s : State) (ptr : Nat) : Except Fault Nat :=
  if isKnownPool c (tagOf s.mem ptr) then do
    let i ← poolAt c (tagOf s.mem ptr)
    .ok (s.pools i).slotPayloadSize
  else .ok (getSize s.mem (headerOf ptr))

/-- `ptr_is_pooled_for_testing`; `src/allocator.cpp:1003–1006`. -/
def ptrIsPooledForTesting (c : Config) (s : State) (ptr : Nat) : Bool :=
  isKnownPool c (tagOf s.mem ptr)

end CustomAllocator
