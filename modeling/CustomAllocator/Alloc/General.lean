import CustomAllocator.Alloc.State

/-!
# The general path

The helpers of `src/allocator.cpp` for blocks above the largest size class, and the parts
of the public functions that run under `general_path_lock`: the body of a general
allocation, the body of a general free and the first locked section of a general
reallocation. A part that changes only memory and the free-list head works on that pair.
-/

namespace CustomAllocator
open CustomAllocator.Base

/-- `align_up`, `(size + 15) & ~15`; `src/allocator.cpp:166–169`. -/
def alignUp (size : Nat) : Nat := sub64 (add64 size 16) 1 / 16 * 16

/-- `kMinBlockSize`; `src/allocator.cpp:188`. -/
abbrev minBlockSize : Nat := sizeofBlockHeader + sizeofFreeListLinks + sizeofBlockFooter

/-- The kernel request of `arena_with_room`; `src/allocator.cpp:412`. -/
def arenaRequest (arenaSize needed : Nat) : Nat := if needed > arenaSize then needed else arenaSize

/-- `current.size - current.used >= needed`; `src/allocator.cpp:404`. -/
def Arena.hasRoom (a : Arena) (needed : Nat) : Bool := decide (needed ≤ sub64 a.size a.used)

/-- `arena_with_room`; `src/allocator.cpp:400–420`. The arena is named by its index. -/
def arenaWithRoom (c : Config) (s : State) (needed : Nat) : State × Option Nat :=
  if s.arenas.getLast?.any (·.hasRoom needed) then (s, some (s.arenas.length - 1))
  else
    match osAcquire c s.toMachine (arenaRequest s.arenaSize needed) with
    | (k, none) => (s.setMachine k, none)
    | (k, some region) =>
      ({ s.setMachine k with arenas := s.arenas ++ [⟨region.base, region.size, 0⟩] },
        some s.arenas.length)

/-- `arena_owning`; `src/allocator.cpp:445–454`. -/
def arenaOwning (arenas : List Arena) (addr : Nat) : Option Arena :=
  arenas.find? fun a ↦ decide (a.base ≤ addr ∧ addr < add64 a.base a.used)

/-- `assert(arena != nullptr)` and the dereference that follows it. -/
def owningArena (c : Config) (arenas : List Arena) (addr : Nat) (text : String) :
    Except Fault Arena := do
  assert c (arenaOwning arenas addr).isSome text
  match arenaOwning arenas addr with
  | none => .error .nullDereference
  | some arena => .ok arena

/-- `right_neighbor_if_free`; `src/allocator.cpp:460–482`. -/
def rightNeighborIfFree (c : Config) (arenas : List Arena) (m : Mem) (block : Nat) :
    Except Fault Nat := do
  let arena ← owningArena c arenas block "block does not belong to any tracked arena"
  assert c (footerInSync m block) "block's footer is stale before computing its right neighbor"
  let candidate := nextPhysicalHeader m block
  let carvedEnd := add64 arena.base arena.used
  if candidate < arena.base ∨ carvedEnd < add64 candidate sizeofBlockHeader then .ok 0
  else if !isFree m candidate then .ok 0
  else do
    assert c (footerInSync m candidate) "right neighbor's footer is stale"
    .ok candidate

/-- `left_neighbor_if_free`; `src/allocator.cpp:488–520`. -/
def leftNeighborIfFree (c : Config) (arenas : List Arena) (m : Mem) (block : Nat) :
    Except Fault Nat := do
  let arena ← owningArena c arenas block "block does not belong to any tracked arena"
  assert c (footerInSync m block) "block's footer is stale before computing its left neighbor"
  if sub64 block sizeofBlockFooter < arena.base then .ok 0
  else
    let candidate := headerFromFooter m (precedingFooter block)
    if candidate < arena.base ∨ block ≤ candidate then .ok 0
    else if !isFree m candidate then .ok 0
    else do
      assert c (footerInSync m candidate) "left neighbor's footer is stale"
      .ok candidate

/-- `header_of`; `src/allocator.cpp:536–538`. -/
def headerOf (ptr : Nat) : Nat := sub64 ptr sizeofBlockHeader

/-- `combined_payload_size`; `src/allocator.cpp:547–549`. -/
def combinedPayloadSize (m : Mem) (first second : Nat) : Nat :=
  add64 (add64 (add64 (getSize m first) sizeofBlockFooter) sizeofBlockHeader) (getSize m second)

/-- `set_size` followed by `sync_footer`. -/
def resize (m : Mem) (block size : Nat) : Mem := syncFooter (setSize m block size) block

/-- `absorb_right_neighbor`; `src/allocator.cpp:557–561`. -/
def absorbRightNeighbor (c : Config) (m : Mem) (head block right : Nat) :
    Except Fault (Mem × Nat) := do
  let removed ← FreeList.remove c m head right
  .ok (resize removed.1 block (combinedPayloadSize removed.1 block right), removed.2)

/-- `maybe_split`; `src/allocator.cpp:573–588`. -/
def maybeSplit (c : Config) (m : Mem) (head header payloadSize : Nat) :
    Except Fault (Mem × Nat) := do
  assert c (decide (payloadSize ≤ getSize m header)) "header->get_size() >= payload_size"
  let remainder := sub64 (getSize m header) payloadSize
  if remainder < minBlockSize then .ok (m, head)
  else
    let m := resize m header payloadSize
    let rest := nextPhysicalHeader m header
    let restSize := sub64 (sub64 remainder sizeofBlockHeader) sizeofBlockFooter
    let m := syncFooter (constructHeader m rest restSize true) rest
    FreeList.insert c m head rest

/-- Reuse of a listed block by `my_malloc`; `src/allocator.cpp:620–625`. -/
def reuseBlock (c : Config) (m : Mem) (head reused payloadSize : Nat) :
    Except Fault ((Mem × Nat) × Nat) := do
  let removed ← FreeList.remove c m head reused
  let split ← maybeSplit c removed.1 removed.2 reused payloadSize
  let m := setFree split.1 reused false
  let ptr ← payload c m reused
  .ok ((m, split.2), ptr)

/-- `sizeof(BlockHeader) + payload_size + sizeof(BlockFooter)`; `src/allocator.cpp:630`. -/
def neededBytes (payloadSize : Nat) : Nat :=
  add64 (add64 sizeofBlockHeader payloadSize) sizeofBlockFooter

/-- Carve a block at the bump pointer of arena number `i`; `src/allocator.cpp:637–644`. -/
def carveBlock (c : Config) (s : State) (i payloadSize : Nat) : Except Fault (State × Nat) :=
  match s.arenas[i]? with
  | none => .error .outOfRange
  | some arena => do
    let block := add64 arena.base arena.used
    let m := syncFooter (constructHeader s.mem block payloadSize false) block
    let carved := { arena with used := add64 arena.used (neededBytes payloadSize) }
    let ptr ← payload c m block
    .ok ({ s with mem := m, arenas := s.arenas.set i carved }, ptr)

/-- A block of `payloadSize` bytes from the free list or the bump pointer;
`src/allocator.cpp:620–644`. -/
def allocatePayload (c : Config) (s : State) (payloadSize : Nat) :
    Except Fault (State × Nat) := do
  let reused ← FreeList.findFirstFit c s.mem s.freeHead payloadSize
  if reused = 0 then
    match arenaWithRoom c s (neededBytes payloadSize) with
    | (s, none) => .ok (s, 0)
    | (s, some i) => carveBlock c s i payloadSize
  else do
    let out ← reuseBlock c s.mem s.freeHead reused payloadSize
    .ok (s.setHeap out.1, out.2)

/-- The body of a general `my_malloc` under the lock; `src/allocator.cpp:612–645`. -/
def mallocGeneral (c : Config) (s : State) (size : Nat) : Except Fault (State × Nat) :=
  allocatePayload c s (alignUp size)

/-- Merge a free right neighbour into `merged`, if there is one; `src/allocator.cpp:757–764`. -/
def coalesceRight (c : Config) (arenas : List Arena) (m : Mem) (head merged : Nat) :
    Except Fault (Mem × Nat) := do
  let right ← rightNeighborIfFree c arenas m merged
  if right = 0 then .ok (m, head) else absorbRightNeighbor c m head merged right

/-- Merge `merged` into a free left neighbour, if there is one, and name the block that
results; `src/allocator.cpp:766–781`. -/
def coalesceLeft (c : Config) (arenas : List Arena) (m : Mem) (head merged : Nat) :
    Except Fault ((Mem × Nat) × Nat) := do
  let left ← leftNeighborIfFree c arenas m merged
  if left = 0 then .ok ((m, head), merged)
  else do
    let removed ← FreeList.remove c m head left
    .ok ((resize removed.1 left (combinedPayloadSize removed.1 left merged), removed.2), left)

/-- The body of a general `my_free` under the lock; `src/allocator.cpp:731–790`. -/
def freeGeneral (c : Config) (arenas : List Arena) (m : Mem) (head ptr : Nat) :
    Except Fault (Mem × Nat) := do
  let header := headerOf ptr
  assert c (arenaOwning arenas header).isSome
    ("my_free() received a pointer that is neither a recognized pooled allocation nor a " ++
      "tracked general-path arena block")
  let m := setFree m header true
  let afterRight ← coalesceRight c arenas m head header
  let afterLeft ← coalesceLeft c arenas afterRight.1 afterRight.2 header
  FreeList.insert c afterLeft.1.1 afterLeft.1.2 afterLeft.2

/-- What the first locked section of a general `my_realloc` decides. -/
inductive InPlace where
  /-- The block already fits, or has grown in place: the pointer is returned. -/
  | done
  /-- The contents have to move; carries `old_payload_size`. -/
  | move (oldPayloadSize : Nat)
  deriving DecidableEq, Repr

/-- The first locked section of a general `my_realloc`; `src/allocator.cpp:854–907`. -/
def reallocInPlace (c : Config) (arenas : List Arena) (m : Mem) (head header newSize : Nat) :
    Except Fault ((Mem × Nat) × InPlace) := do
  assert c (arenaOwning arenas header).isSome
    ("my_realloc() received a pointer that is neither a recognized pooled allocation nor a " ++
      "tracked general-path arena block")
  let oldPayloadSize := getSize m header
  let newPayloadSize := alignUp newSize
  if newPayloadSize ≤ oldPayloadSize then .ok ((m, head), .done)
  else do
    let right ← rightNeighborIfFree c arenas m header
    if right = 0 then .ok ((m, head), .move oldPayloadSize)
    else if newPayloadSize ≤ combinedPayloadSize m header right then do
      let absorbed ← absorbRightNeighbor c m head header right
      let split ← maybeSplit c absorbed.1 absorbed.2 header newPayloadSize
      .ok (split, .done)
    else .ok ((m, head), .move oldPayloadSize)

end CustomAllocator
