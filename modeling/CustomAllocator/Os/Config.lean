import CustomAllocator.Base.ByteMemory

/-!
# Build and platform parameters

What the source leaves to the build and the loader: the concurrency stage, whether
assertions are compiled in, the page size, and where the nine `Pool` objects lie.
`Fault` lists the ways a call can go wrong without returning.
-/

namespace CustomAllocator
open CustomAllocator.Base

/-- `ALLOCATOR_CONCURRENCY_STAGE`; `src/allocator.cpp:41–51`. -/
inductive Stage where
  /-- Stage 1, one mutex for all state. -/
  | globalLock
  /-- Stage 2, one mutex per pool and one for the general path. -/
  | poolLocks
  /-- Stage 3, thread-local caches over the per-pool mutexes. -/
  | threadCaches
  deriving DecidableEq, Repr

/-- Number of size classes, `kNumSizeClasses`; `include/memory_pool.hpp:167`. -/
abbrev numSizeClasses : Nat := 9

/-- Build and platform parameters. The nine `Pool` objects form one array of static
storage, so they are given by the address of the first and the object size. -/
structure Config where
  stage : Stage
  /-- `NDEBUG`: assertions are compiled out. -/
  ndebug : Bool
  /-- `sysconf(_SC_PAGESIZE)`. -/
  page : Nat
  poolsBase : Nat
  /-- `sizeof(Pool)`. -/
  poolSize : Nat
  page_pos : 0 < page
  page_lt : page < 2 ^ 64
  page_dvd : page % 4096 = 0
  poolsBase_pos : 0 < poolsBase
  poolsBase_even : poolsBase % 2 = 0
  poolSize_pos : 0 < poolSize
  poolSize_even : poolSize % 2 = 0
  pools_lt : poolsBase + numSizeClasses * poolSize < 2 ^ 64

/-- A Stage 3 debug build on 4 KiB pages whose `Pool` objects lie in the data segment of a
program linked at a fixed address. -/
def Config.fixedBase : Config where
  stage := .threadCaches
  ndebug := false
  page := 4096
  poolsBase := 0x404100
  poolSize := 88
  page_pos := by decide
  page_lt := by decide
  page_dvd := by decide
  poolsBase_pos := by decide
  poolsBase_even := by decide
  poolSize_pos := by decide
  poolSize_even := by decide
  pools_lt := by decide

/-- The address of `pools()[i]`. -/
def Config.poolAddr (c : Config) (i : Fin numSizeClasses) : Nat := c.poolsBase + i * c.poolSize

/-- Distinct pools have distinct addresses. -/
theorem Config.poolAddr_inj (c : Config) {i j : Fin numSizeClasses}
    (h : c.poolAddr i = c.poolAddr j) : i = j := by
  unfold Config.poolAddr at h
  exact Fin.ext (Nat.eq_of_mul_eq_mul_right c.poolSize_pos (by omega))

/-- A pool's address is a nonzero even word: it leaves the free bit clear. -/
theorem Config.poolAddr_word (c : Config) (i : Fin numSizeClasses) :
    0 < c.poolAddr i ∧ c.poolAddr i % 2 = 0 ∧ c.poolAddr i < 2 ^ 64 := by
  have hpos := c.poolsBase_pos
  have hlt := c.pools_lt
  have hmul : i.val * c.poolSize ≤ numSizeClasses * c.poolSize :=
    Nat.mul_le_mul_right _ (Nat.le_of_lt i.isLt)
  refine ⟨by unfold Config.poolAddr; omega, ?_, by unfold Config.poolAddr; omega⟩
  rw [Config.poolAddr, Nat.add_mod, c.poolsBase_even, Nat.mul_mod, c.poolSize_even]
  simp

/-- How a call can fail to return. -/
inductive Fault where
  /-- An `assert` whose condition is false, in a build that keeps assertions. -/
  | assertion (text : String)
  /-- A slot link read or written through the null pointer. -/
  | nullDereference
  /-- A list walk that visits more nodes than there are addresses. -/
  | endlessWalk
  /-- An array index past the end. -/
  | outOfRange
  deriving DecidableEq, Repr

/-- `assert(cond && text)`. -/
def assert (c : Config) (cond : Bool) (text : String) : Except Fault Unit :=
  if c.ndebug || cond then .ok () else .error (.assertion text)

/-- A true assertion has no effect in either build. -/
@[simp] theorem assert_true (c : Config) (text : String) : assert c true text = .ok () := by
  simp [assert]

/-- A completed computation passes its value on. -/
@[simp] theorem ok_bind {α β : Type} (a : α) (f : α → Except Fault β) :
    (Except.ok a >>= f) = f a := by
  simp only [bind, Except.bind]

/-- A fault ends the computation. -/
@[simp] theorem error_bind {α β : Type} (e : Fault) (f : α → Except Fault β) :
    (Except.error e >>= f) = .error e := by
  simp only [bind, Except.bind]

/-- A completed computation is the first half of every completed sequence. -/
theorem bind_eq_ok {α β : Type} {x : Except Fault α} {f : α → Except Fault β} {b : β} :
    (x >>= f) = .ok b ↔ ∃ a, x = .ok a ∧ f a = .ok b := by
  cases x with
  | error e => simp [bind, Except.bind]
  | ok a => simp

end CustomAllocator
