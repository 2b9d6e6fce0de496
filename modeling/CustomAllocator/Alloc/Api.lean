import CustomAllocator.Alloc.General
import CustomAllocator.Alloc.Cache

/-!
# The public functions

`my_malloc`, `my_calloc`, `my_free`, `my_realloc` and `allocator_shutdown` of
`src/allocator.cpp`, called by thread `t`. A returned pointer of zero is `nullptr`.
-/

namespace CustomAllocator
open CustomAllocator.Base

/-- `SIZE_MAX`. -/
abbrev sizeMax : Nat := 2 ^ 64 - 1

/-- `pool_index_for_size_class`; `src/allocator.cpp:239–246`. -/
def poolIndexForSizeClass (sizeClass : Nat) : Nat := sizeClasses.findIdx (· == sizeClass)

/-- `is_known_pool`; `src/allocator.cpp:257–264`. -/
def isKnownPool (c : Config) (candidate : Nat) : Bool :=
  (List.finRange numSizeClasses).any fun i ↦ c.poolAddr i == candidate

/-- `pool_index_of`, pointer subtraction within the array; `src/allocator.cpp:297–299`. -/
def poolIndexOf (c : Config) (pool : Nat) : Nat := (pool - c.poolsBase) / c.poolSize

/-- The pool object at an address that passed `is_known_pool`. -/
def poolAt (c : Config) (pool : Nat) : Except Fault (Fin numSizeClasses) :=
  if h : poolIndexOf c pool < numSizeClasses then .ok ⟨poolIndexOf c pool, h⟩
  else .error .outOfRange

/-- The speculatively read tag word of a pointer; `src/allocator.cpp:711`. -/
def tagOf (m : Mem) (ptr : Nat) : Nat := read64 m (sub64 ptr sizeofPoolSlotHeader)

/-- The pooled part of `my_malloc`; `src/allocator.cpp:602–609`. -/
def mallocPooled (c : Config) (s : State) (t : Tid) (i : Fin numSizeClasses) :
    Except Fault (State × Nat) :=
  match c.stage with
  | .threadCaches => mallocPooledStage3 c s t i
  | _ => do
    let (k, p, ptr) ← (s.pools i).allocate c (c.poolAddr i) s.toMachine
    .ok ((s.setMachine k).setPool i p, ptr)

/-- `my_malloc`; `src/allocator.cpp:592–645`. -/
def myMalloc (c : Config) (s : State) (t : Tid) (size : Nat) : Except Fault (State × Nat) :=
  if sizeClassFor size = noSizeClass then mallocGeneral c s size
  else
    let i := poolIndexForSizeClass (sizeClassFor size)
    if h : i < numSizeClasses then mallocPooled c s t ⟨i, h⟩ else .error .outOfRange

/-- `my_calloc`; `src/allocator.cpp:647–689`. -/
def myCalloc (c : Config) (s : State) (t : Tid) (count size : Nat) :
    Except Fault (State × Nat) :=
  if size ≠ 0 ∧ sizeMax / size < count then .ok (s, 0)
  else do
    let total := mul64 count size
    let (s, ptr) ← myMalloc c s t total
    if ptr = 0 then .ok (s, 0)
    else .ok ({ s with mem := fill s.mem ptr 0 total }, ptr)

/-- The pooled part of `my_free`; `src/allocator.cpp:713–728`. -/
def freePooled (c : Config) (s : State) (t : Tid) (i : Fin numSizeClasses) (ptr : Nat) :
    Except Fault State :=
  match c.stage with
  | .threadCaches => freePooledStage3 s t i (sub64 ptr sizeofPoolSlotHeader)
  | _ => do
    let (mem, p) ← (s.pools i).deallocate s.mem ptr
    .ok ({ s with mem := mem }.setPool i p)

/-- `my_free`; `src/allocator.cpp:691–790`. -/
def myFree (c : Config) (s : State) (t : Tid) (ptr : Nat) : Except Fault State :=
  if ptr = 0 then .ok s
  else if isKnownPool c (tagOf s.mem ptr) then do
    let i ← poolAt c (tagOf s.mem ptr)
    freePooled c s t i ptr
  else do
    let heap ← freeGeneral c s.arenas s.mem s.freeHead ptr
    .ok (s.setHeap heap)

/-- Allocate, copy `copySize` bytes of `ptr` and free it: the moving end of `my_realloc`;
`src/allocator.cpp:830–836, 914–926`. -/
def moveTo (c : Config) (s : State) (t : Tid) (ptr newSize copySize : Nat) :
    Except Fault (State × Nat) := do
  let (s, newPtr) ← myMalloc c s t newSize
  if newPtr = 0 then .ok (s, 0)
  else do
    let s ← myFree c { s with mem := copy s.mem newPtr ptr copySize } t ptr
    .ok (s, newPtr)

/-- `my_realloc`; `src/allocator.cpp:792–927`. -/
def myRealloc (c : Config) (s : State) (t : Tid) (ptr newSize : Nat) :
    Except Fault (State × Nat) :=
  if ptr = 0 then myMalloc c s t newSize
  else if isKnownPool c (tagOf s.mem ptr) then do
    let i ← poolAt c (tagOf s.mem ptr)
    let oldPayloadSize := (s.pools i).slotPayloadSize
    if newSize ≤ oldPayloadSize then .ok (s, ptr)
    else moveTo c s t ptr newSize oldPayloadSize
  else do
    let (heap, outcome) ← reallocInPlace c s.arenas s.mem s.freeHead (headerOf ptr) newSize
    let s := s.setHeap heap
    match outcome with
    | .done => .ok (s, ptr)
    | .move oldPayloadSize =>
      moveTo c s t ptr newSize (if oldPayloadSize < newSize then oldPayloadSize else newSize)

/-- `allocator_shutdown`; `src/allocator.cpp:929–965`. -/
def allocatorShutdown (s : State) (t : Tid) : State :=
  let k := s.arenas.foldl (fun k a ↦ (osRelease k a.base a.size).1) s.toMachine
  let s := { s.setMachine k with arenas := [], freeHead := 0 }
  let s := (List.finRange numSizeClasses).foldl (fun s i ↦
    let r := (s.pools i).releaseAllArenas s.toMachine
    (s.setMachine r.1).setPool i r.2) s
  (List.finRange numSizeClasses).foldl (fun s i ↦ s.setCache t i ⟨0, 0, 0⟩) s

end CustomAllocator
