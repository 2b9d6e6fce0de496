import CustomAllocator.Base.Linked
import CustomAllocator.Os.Memory

/-!
# Fixed-size slot pools

`include/memory_pool.hpp` and `src/memory_pool.cpp`. A slot's header word links it to the
next free slot while it is free and holds the address of its pool while it is allocated.
Every access through a slot pointer faults on null.
-/

namespace CustomAllocator
open CustomAllocator.Base

/-- `sizeof(PoolSlotHeader)`. -/
abbrev sizeofPoolSlotHeader : Nat := 16

/-- `kSlotsPerArena`; `src/memory_pool.cpp:27`. -/
abbrev slotsPerArena : Nat := 256

/-- The data members of `Pool`; `include/memory_pool.hpp:156–160`. -/
structure Pool where
  slotPayloadSize : Nat
  slotTotalSize : Nat
  freeHead : Nat
  arenas : List OsRegion
  deriving Repr

/-- `Pool::SlotBatch`; `include/memory_pool.hpp:91–95`. -/
structure SlotBatch where
  head : Nat
  tail : Nat
  count : Nat
  deriving DecidableEq, Repr

/-- Read `slot->next_free`. -/
def loadNext (m : Mem) (slot : Nat) : Except Fault Nat :=
  if slot = 0 then .error .nullDereference else .ok (read64 m slot)

/-- Assign `slot->next_free` or `slot->owning_pool`, which share one word. -/
def storeWord (m : Mem) (slot v : Nat) : Except Fault Mem :=
  if slot = 0 then .error .nullDereference else .ok (write64 m slot v)

/-- The loop of `Pool::expand` from slot number `i`; `src/memory_pool.cpp:50–54`. -/
def carveSlots (base total : Nat) : Nat → Nat → Mem → Nat → Mem × Nat
  | _, 0, m, head => (m, head)
  | i, n + 1, m, head =>
    let slot := add64 base (mul64 i total)
    carveSlots base total (i + 1) n (write64 m slot head) slot

namespace Pool

/-- `Pool::Pool`; `src/memory_pool.cpp:31–32`. -/
def init (slotPayloadSize : Nat) : Pool where
  slotPayloadSize := slotPayloadSize
  slotTotalSize := add64 sizeofPoolSlotHeader slotPayloadSize
  freeHead := 0
  arenas := []

/-- `Pool::expand`; `src/memory_pool.cpp:34–57`. -/
def expand (c : Config) (k : Machine) (p : Pool) : Machine × Pool × Bool :=
  match osAcquire c k (mul64 p.slotTotalSize slotsPerArena) with
  | (k, none) => (k, p, false)
  | (k, some region) =>
    let carved := carveSlots region.base p.slotTotalSize 0 (region.size / p.slotTotalSize)
      k.mem p.freeHead
    ({ k with mem := carved.1 },
      { p with arenas := p.arenas ++ [region], freeHead := carved.2 }, true)

/-- `free_head_ != nullptr || expand()`: whether a slot can be popped. -/
def ready (c : Config) (k : Machine) (p : Pool) : Machine × Pool × Bool :=
  if p.freeHead = 0 then p.expand c k else (k, p, true)

/-- `Pool::allocate` of the pool object at `self`; `src/memory_pool.cpp:59–74`. -/
def allocate (c : Config) (self : Nat) (k : Machine) (p : Pool) :
    Except Fault (Machine × Pool × Nat) :=
  match p.ready c k with
  | (k, p, false) => .ok (k, p, 0)
  | (k, p, true) => do
    let next ← loadNext k.mem p.freeHead
    let mem ← storeWord k.mem p.freeHead self
    .ok ({ k with mem := mem }, { p with freeHead := next },
      add64 p.freeHead sizeofPoolSlotHeader)

/-- `Pool::deallocate`; `src/memory_pool.cpp:76–80`. -/
def deallocate (m : Mem) (p : Pool) (ptr : Nat) : Except Fault (Mem × Pool) := do
  let slot := sub64 ptr sizeofPoolSlotHeader
  let m ← storeWord m slot p.freeHead
  .ok (m, { p with freeHead := slot })

/-- Append a detached slot to a batch; the tail of the loop body of `allocate_batch`. -/
def appendSlot (m : Mem) (batch : SlotBatch) (slot : Nat) : Except Fault (Mem × SlotBatch) :=
  if batch.tail = 0 then .ok (m, ⟨slot, slot, batch.count + 1⟩)
  else do
    let m ← storeWord m batch.tail slot
    .ok (m, ⟨batch.head, slot, batch.count + 1⟩)

/-- The loop of `Pool::allocate_batch` with `n` slots still to gather;
`src/memory_pool.cpp:85–101`. -/
def gather (c : Config) : Nat → Machine → Pool → SlotBatch →
    Except Fault (Machine × Pool × SlotBatch)
  | 0, k, p, batch => .ok (k, p, batch)
  | n + 1, k, p, batch =>
    match p.ready c k with
    | (k, p, false) => .ok (k, p, batch)
    | (k, p, true) => do
      let next ← loadNext k.mem p.freeHead
      let mem ← storeWord k.mem p.freeHead 0
      let appended ← appendSlot mem batch p.freeHead
      gather c n { k with mem := appended.1 } { p with freeHead := next } appended.2

/-- `Pool::allocate_batch`; `src/memory_pool.cpp:82–104`. -/
def allocateBatch (c : Config) (k : Machine) (p : Pool) (maxCount : Nat) :
    Except Fault (Machine × Pool × SlotBatch) :=
  gather c maxCount k p ⟨0, 0, 0⟩

/-- `Pool::deallocate_batch`; `src/memory_pool.cpp:106–109`. -/
def deallocateBatch (m : Mem) (p : Pool) (chainHead chainTail : Nat) :
    Except Fault (Mem × Pool) := do
  let m ← storeWord m chainTail p.freeHead
  .ok (m, { p with freeHead := chainHead })

end Pool

/-! ### Size classes -/

/-- `kSizeClasses`; `include/memory_pool.hpp:168`. -/
def sizeClasses : List Nat := [16, 32, 64, 128, 256, 512, 1024, 2048, 4096]

/-- `kNoSizeClass`; `include/memory_pool.hpp:174`. -/
def noSizeClass : Nat := 2 ^ 64 - 1

/-- `size_class_for`; `src/memory_pool.cpp:119–126`. -/
def sizeClassFor (requested : Nat) : Nat :=
  (sizeClasses.find? fun sizeClass ↦ decide (requested ≤ sizeClass)).getD noSizeClass

/-- The size class of index `i`. -/
def classSize (i : Fin numSizeClasses) : Nat := sizeClasses.get i

/-- `Pool::release_all_arenas`; `src/memory_pool.cpp:111–117`. -/
def Pool.releaseAllArenas (k : Machine) (p : Pool) : Machine × Pool :=
  (p.arenas.foldl (fun k arena ↦ (osRelease k arena.base arena.size).1) k,
    { p with arenas := [], freeHead := 0 })

end CustomAllocator
