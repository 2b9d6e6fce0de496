import CustomAllocator.Alloc.State

/-!
# Thread-local caches

The Stage 3 path of `src/allocator.cpp`. Each function is split where the source takes or
releases a pool's mutex, so that the parts are the atomic steps of a thread.
-/

namespace CustomAllocator
open CustomAllocator.Base

/-- `kThreadLocalCacheBatchSize`; `src/allocator.cpp:131`. -/
abbrev threadLocalCacheBatchSize : Nat := 32

/-- `kThreadLocalCacheCap`; `src/allocator.cpp:141`. -/
abbrev threadLocalCacheCap : Nat := 2 * threadLocalCacheBatchSize

/-- `pop_from_cache`; `src/allocator.cpp:305–315`. -/
def popFromCache (c : Config) (s : State) (t : Tid) (i : Fin numSizeClasses) :
    Except Fault (State × Nat) := do
  let cache := s.caches t i
  let next ← loadNext s.mem cache.head
  let tail := if next = 0 then 0 else cache.tail
  let mem ← storeWord s.mem cache.head (c.poolAddr i)
  .ok ({ s with mem := mem }.setCache t i ⟨next, tail, sub64 cache.count 1⟩,
    add64 cache.head sizeofPoolSlotHeader)

/-- The locked section of a cache refill; `src/allocator.cpp:326–331`. -/
def refillBatch (c : Config) (s : State) (i : Fin numSizeClasses) :
    Except Fault (State × SlotBatch) := do
  let (k, p, batch) ← (s.pools i).allocateBatch c s.toMachine threadLocalCacheBatchSize
  .ok ((s.setMachine k).setPool i p, batch)

/-- Take over a nonempty batch as the thread's cache; `src/allocator.cpp:336–338`. -/
def installBatch (s : State) (t : Tid) (i : Fin numSizeClasses) (batch : SlotBatch) : State :=
  s.setCache t i ⟨batch.head, batch.tail, batch.count⟩

/-- `my_malloc_pooled_stage3`; `src/allocator.cpp:320–340`. -/
def mallocPooledStage3 (c : Config) (s : State) (t : Tid) (i : Fin numSizeClasses) :
    Except Fault (State × Nat) :=
  if (s.caches t i).head = 0 then do
    let (s, batch) ← refillBatch c s i
    if batch.head = 0 then .ok (s, 0)
    else popFromCache c (installBatch s t i batch) t i
  else popFromCache c s t i

/-- The push of a freed slot onto the freeing thread's cache; `src/allocator.cpp:384–389`. -/
def pushToCache (s : State) (t : Tid) (i : Fin numSizeClasses) (slot : Nat) :
    Except Fault State := do
  let cache := s.caches t i
  let mem ← storeWord s.mem slot cache.head
  let tail := if cache.head = 0 then slot else cache.tail
  .ok ({ s with mem := mem }.setCache t i ⟨slot, tail, add64 cache.count 1⟩)

/-- The loop of `flush_batch_to_pool` with at most `n` further steps;
`src/allocator.cpp:352–355`. -/
def detachLoop (m : Mem) : Nat → Nat → Nat → Except Fault (Nat × Nat)
  | 0, detachTail, detachCount => .ok (detachTail, detachCount)
  | n + 1, detachTail, detachCount => do
    let next ← loadNext m detachTail
    if next = 0 then .ok (detachTail, detachCount)
    else detachLoop m n next (detachCount + 1)

/-- The part of `flush_batch_to_pool` before the lock: a chain from the front of the cache,
given by its first and last slot; `src/allocator.cpp:349–362`. -/
def detachBatch (s : State) (t : Tid) (i : Fin numSizeClasses) :
    Except Fault (State × Nat × Nat) := do
  let cache := s.caches t i
  let (detachTail, detachCount) ← detachLoop s.mem (threadLocalCacheBatchSize - 1) cache.head 1
  let head ← loadNext s.mem detachTail
  let mem ← storeWord s.mem detachTail 0
  let tail := if head = 0 then 0 else cache.tail
  .ok ({ s with mem := mem }.setCache t i ⟨head, tail, sub64 cache.count detachCount⟩,
    cache.head, detachTail)

/-- The locked section of a flush; `src/allocator.cpp:364–365`. -/
def spliceBatch (s : State) (i : Fin numSizeClasses) (chainHead chainTail : Nat) :
    Except Fault State := do
  let (mem, p) ← (s.pools i).deallocateBatch s.mem chainHead chainTail
  .ok ({ s with mem := mem }.setPool i p)

/-- `flush_batch_to_pool`; `src/allocator.cpp:348–366`. -/
def flushBatchToPool (s : State) (t : Tid) (i : Fin numSizeClasses) : Except Fault State := do
  let (s, chainHead, chainTail) ← detachBatch s t i
  spliceBatch s i chainHead chainTail

/-- `cache.count > kThreadLocalCacheCap`. -/
def overCap (s : State) (t : Tid) (i : Fin numSizeClasses) : Bool :=
  decide (threadLocalCacheCap < (s.caches t i).count)

/-- `my_free_pooled_stage3`; `src/allocator.cpp:381–394`. -/
def freePooledStage3 (s : State) (t : Tid) (i : Fin numSizeClasses) (slot : Nat) :
    Except Fault State := do
  let s ← pushToCache s t i slot
  if overCap s t i then flushBatchToPool s t i else .ok s

/-! ### The kernel is not asked -/

variable {c : Config} {s s' : State} {t : Tid} {i : Fin numSizeClasses}

theorem popFromCache_os {r : State × Nat} (h : popFromCache c s t i = .ok r) :
    r.1.os = s.os := by
  simp only [popFromCache, bind_eq_ok] at h
  obtain ⟨_, -, _, -, h⟩ := h
  cases h
  rfl

theorem pushToCache_os {slot : Nat} (h : pushToCache s t i slot = .ok s') : s'.os = s.os := by
  simp only [pushToCache, bind_eq_ok] at h
  obtain ⟨_, -, h⟩ := h
  cases h
  rfl

theorem flushBatchToPool_os (h : flushBatchToPool s t i = .ok s') : s'.os = s.os := by
  simp only [flushBatchToPool, detachBatch, spliceBatch, bind_eq_ok] at h
  obtain ⟨_, ⟨_, -, _, -, _, -, h₁⟩, _, -, h₂⟩ := h
  cases h₁
  cases h₂
  rfl

end CustomAllocator
