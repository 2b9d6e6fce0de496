import CustomAllocator.Base.Simulates
import CustomAllocator.Concurrent.System

/-!
# What an allocation never looks at

No function of the allocator reads the calls already made to the kernel or the caches of other
threads, and an assertion that holds has no effect. So a build with assertions is simulated by one
without, on a state that has a longer past: more calls in the log, and caches of threads that
have exited. Along the way every function adds to the kernel's log exactly the regions that
become mapped.
-/

namespace CustomAllocator
open CustomAllocator.Base

/-- The same build, with assertions compiled out if `b` says so. -/
def Config.relax (c : Config) (b : Bool) : Config := { c with ndebug := c.ndebug || b }

/-- What a state carries over from before a shutdown: the calls made to the kernel, and the caches
of threads that have exited. -/
structure Past where
  log : List OsCall
  gone : Tid → Bool
  caches : Tid → Fin numSizeClasses → ThreadLocalCache

/-- The machine with the calls of the past in its log. -/
def Past.machine (past : Past) (k : Machine) : Machine :=
  { k with os := { k.os with log := past.log ++ k.os.log } }

/-- The state with the past it carries over. -/
def Past.state (past : Past) (s : State) : State :=
  { s.setMachine (past.machine s.toMachine) with
    caches := fun t i ↦ if past.gone t then past.caches t i else s.caches t i }

/-- A recorded session with the past its state carries over. -/
def Past.session (past : Past) (w : Session) : Session := ⟨past.state w.state, w.live⟩

/-- The regions granted by a list of kernel calls. -/
def acquired (log : List OsCall) : List OsRegion :=
  log.filterMap fun
    | .acquire _ answer => answer
    | .release _ _ => none

/-- The regions given back by a list of kernel calls. -/
def released (log : List OsCall) : List OsRegion :=
  log.filterMap fun
    | .acquire _ _ => none
    | .release base size => some ⟨base, size⟩

/-- From `os` to `os'` the log grew by requests only, and what they granted became mapped. -/
def Traced (os os' : Os) : Prop :=
  ∃ new, os'.log = os.log ++ new ∧ released new = [] ∧
    os'.mapped = (acquired new).reverse ++ os.mapped

/-- `k'` is `k` with a past, and what `k` has mapped since `os` is in its log. -/
def MachineEcho (past : Past) (os : Os) (k k' : Machine) : Prop :=
  k' = past.machine k ∧ Traced os k.os

/-- `s'` is `s` with a past, and what `s` has mapped since `os` is in its log. -/
def Echo (past : Past) (os : Os) (s s' : State) : Prop :=
  s' = past.state s ∧ Traced os s.os

/-- The same for what a computation returns besides the machine. -/
def MachineEchoes {α : Type} (past : Past) (os : Os) (r r' : Machine × α) : Prop :=
  MachineEcho past os r.1 r'.1 ∧ r'.2 = r.2

/-- The same for what a computation returns besides the state. -/
def Echoes {α : Type} (past : Past) (os : Os) (r r' : State × α) : Prop :=
  Echo past os r.1 r'.1 ∧ r'.2 = r.2

variable {c : Config} {b : Bool} {past : Past} {os : Os} {k k' : Machine} {s s' : State}
  {m : Mem} {head block : Nat} {arenas : List Arena} {p : Pool} {t : Tid}
  {i : Fin numSizeClasses}

theorem Traced.refl (os : Os) : Traced os os := ⟨[], by simp, rfl, rfl⟩

theorem Traced.trans {os' os'' : Os} (h : Traced os os') (h' : Traced os' os'') :
    Traced os os'' := by
  obtain ⟨new, hlog, hrel, hmap⟩ := h
  obtain ⟨new', hlog', hrel', hmap'⟩ := h'
  refine ⟨new ++ new', ?_, ?_, ?_⟩
  · rw [hlog', hlog, List.append_assoc]
  · rw [released, List.filterMap_append]
    exact List.append_eq_nil_iff.mpr ⟨hrel, hrel'⟩
  · rw [hmap', hmap, acquired, acquired, acquired, List.filterMap_append, List.reverse_append,
      List.append_assoc]

/-! ### Assertions -/

theorem assert_relax (c : Config) (b : Bool) (cond : Bool) (text : String) :
    Simulates (· = ·) (assert c cond text) (assert (c.relax b) cond text) := by
  intro a ha
  have hpass : (c.ndebug || cond) = true := by
    by_contra hfail
    rw [assert, if_neg hfail] at ha
    cases ha
  have hrelaxed : ((c.relax b).ndebug || cond) = true := by
    rw [Config.relax, Bool.or_right_comm, hpass, Bool.true_or]
  exact ⟨(), if_pos hrelaxed, rfl⟩

theorem freeListLinks_relax :
    Simulates (· = ·) (freeListLinks c m block) (freeListLinks (c.relax b) m block) := by
  apply (assert_relax c b _ _).bindEq
  intro _
  exact .refl

theorem payload_relax : Simulates (· = ·) (payload c m block) (payload (c.relax b) m block) := by
  apply (assert_relax c b _ _).bindEq
  intro _
  exact .refl

namespace FreeList

theorem insert_relax :
    Simulates (· = ·) (insert c m head block) (insert (c.relax b) m head block) := by
  unfold insert
  apply (assert_relax c b _ _).bindEq
  intro _
  apply (assert_relax c b _ _).bindEq
  intro _
  apply freeListLinks_relax.bindEq
  intro links
  apply Simulates.ite
  · intro _
    exact .refl
  · intro _
    apply freeListLinks_relax.bindEq
    intro _
    exact .refl

theorem remove_relax :
    Simulates (· = ·) (remove c m head block) (remove (c.relax b) m head block) := by
  have hforward : ∀ links, Simulates (· = ·) (unlinkForward c m head links)
      (unlinkForward (c.relax b) m head links) := by
    intro links
    apply Simulates.ite
    · intro _
      exact .refl
    · intro _
      apply freeListLinks_relax.bindEq
      intro _
      exact .refl
  have hbackward : ∀ m links, Simulates (· = ·) (unlinkBackward c m links)
      (unlinkBackward (c.relax b) m links) := by
    intro m links
    apply Simulates.ite
    · intro _
      exact .refl
    · intro _
      apply freeListLinks_relax.bindEq
      intro _
      exact .refl
  unfold remove
  apply (assert_relax c b _ _).bindEq
  intro _
  apply (assert_relax c b _ _).bindEq
  intro _
  apply freeListLinks_relax.bindEq
  intro links
  apply (hforward links).bindEq
  intro out
  apply (hbackward out.1 links).bindEq
  intro _
  exact .refl

theorem findFrom_relax (size fuel : Nat) : Simulates (· = ·) (findFrom c m size fuel block)
    (findFrom (c.relax b) m size fuel block) := by
  induction fuel generalizing block with
  | zero => exact .error
  | succ fuel ih =>
    unfold findFrom
    apply Simulates.ite
    · intro _
      exact .refl
    intro _
    apply Simulates.ite
    · intro _
      exact .refl
    intro _
    apply freeListLinks_relax.bindEq
    intro links
    exact ih

theorem findFirstFit_relax (size : Nat) : Simulates (· = ·) (findFirstFit c m head size)
    (findFirstFit (c.relax b) m head size) := findFrom_relax size addressCount

end FreeList

/-! ### The general path -/

theorem owningArena_relax (addr : Nat) (text : String) :
    Simulates (· = ·) (owningArena c arenas addr text)
      (owningArena (c.relax b) arenas addr text) := by
  apply (assert_relax c b _ _).bindEq
  intro _
  exact .refl

theorem rightNeighborIfFree_relax : Simulates (· = ·) (rightNeighborIfFree c arenas m block)
    (rightNeighborIfFree (c.relax b) arenas m block) := by
  apply (owningArena_relax _ _).bindEq
  intro arena
  apply (assert_relax c b _ _).bindEq
  intro _
  apply Simulates.ite
  · intro _
    exact .refl
  intro _
  apply Simulates.ite
  · intro _
    exact .refl
  intro _
  apply (assert_relax c b _ _).bindEq
  intro _
  exact .refl

theorem leftNeighborIfFree_relax : Simulates (· = ·) (leftNeighborIfFree c arenas m block)
    (leftNeighborIfFree (c.relax b) arenas m block) := by
  apply (owningArena_relax _ _).bindEq
  intro arena
  apply (assert_relax c b _ _).bindEq
  intro _
  apply Simulates.ite
  · intro _
    exact .refl
  intro _
  apply Simulates.ite
  · intro _
    exact .refl
  intro _
  apply Simulates.ite
  · intro _
    exact .refl
  intro _
  apply (assert_relax c b _ _).bindEq
  intro _
  exact .refl

theorem absorbRightNeighbor_relax (right : Nat) :
    Simulates (· = ·) (absorbRightNeighbor c m head block right)
      (absorbRightNeighbor (c.relax b) m head block right) := by
  apply FreeList.remove_relax.bindEq
  intro _
  exact .refl

theorem maybeSplit_relax (payloadSize : Nat) :
    Simulates (· = ·) (maybeSplit c m head block payloadSize)
      (maybeSplit (c.relax b) m head block payloadSize) := by
  apply (assert_relax c b _ _).bindEq
  intro _
  apply Simulates.ite
  · intro _
    exact .refl
  · intro _
    exact FreeList.insert_relax

theorem reuseBlock_relax (reused payloadSize : Nat) :
    Simulates (· = ·) (reuseBlock c m head reused payloadSize)
      (reuseBlock (c.relax b) m head reused payloadSize) := by
  apply FreeList.remove_relax.bindEq
  intro removed
  apply (maybeSplit_relax payloadSize).bindEq
  intro split
  apply payload_relax.bindEq
  intro _
  exact .refl

theorem coalesceRight_relax (merged : Nat) :
    Simulates (· = ·) (coalesceRight c arenas m head merged)
      (coalesceRight (c.relax b) arenas m head merged) := by
  apply rightNeighborIfFree_relax.bindEq
  intro right
  apply Simulates.ite
  · intro _
    exact .refl
  · intro _
    exact absorbRightNeighbor_relax right

theorem coalesceLeft_relax (merged : Nat) :
    Simulates (· = ·) (coalesceLeft c arenas m head merged)
      (coalesceLeft (c.relax b) arenas m head merged) := by
  apply leftNeighborIfFree_relax.bindEq
  intro left
  apply Simulates.ite
  · intro _
    exact .refl
  · intro _
    apply FreeList.remove_relax.bindEq
    intro _
    exact .refl

theorem freeGeneral_relax (ptr : Nat) : Simulates (· = ·) (freeGeneral c arenas m head ptr)
    (freeGeneral (c.relax b) arenas m head ptr) := by
  apply (assert_relax c b _ _).bindEq
  intro _
  apply (coalesceRight_relax _).bindEq
  intro afterRight
  apply (coalesceLeft_relax _).bindEq
  intro afterLeft
  exact FreeList.insert_relax

theorem reallocInPlace_relax (header newSize : Nat) :
    Simulates (· = ·) (reallocInPlace c arenas m head header newSize)
      (reallocInPlace (c.relax b) arenas m head header newSize) := by
  apply (assert_relax c b _ _).bindEq
  intro _
  apply Simulates.ite
  · intro _
    exact .refl
  intro _
  apply rightNeighborIfFree_relax.bindEq
  intro right
  apply Simulates.ite
  · intro _
    exact .refl
  intro _
  apply Simulates.ite
  · intro _
    apply (absorbRightNeighbor_relax right).bindEq
    intro absorbed
    apply (maybeSplit_relax _).bindEq
    intro _
    exact .refl
  · intro _
    exact .refl

/-! ### The kernel and the pools -/

/-- The kernel answers from the offers and the mappings alone. -/
theorem mmap_echo (b : Bool) (past : Past) (c : Config) (os : Os) (length : Nat) :
    mmap (c.relax b) { os with log := past.log ++ os.log } length =
      ({ (mmap c os length).1 with log := past.log ++ (mmap c os length).1.log },
        (mmap c os length).2) := by
  obtain ⟨mapped, offers, log⟩ := os
  have hok : ∀ r, Mappable (c.relax b) mapped r ↔ Mappable c mapped r := fun _ ↦ .rfl
  unfold mmap
  by_cases hz : length = 0
  · simp only [if_pos hz]
  simp only [if_neg hz]
  rcases offers with _ | ⟨_ | base, rest⟩
  · rfl
  · rfl
  · by_cases hm : Mappable c mapped ⟨base, length⟩
    · simp only [if_pos hm, if_pos ((hok _).mpr hm)]
    · simp only [if_neg hm, if_neg (mt (hok _).mp hm)]

theorem roundUpToPage_relax (c : Config) (b : Bool) (size : Nat) :
    roundUpToPage (c.relax b) size = roundUpToPage c size := by
  have hpage : (c.relax b).page = c.page := rfl
  rw [roundUpToPage, roundUpToPage, hpage]

/-- A request that the kernel refuses. -/
theorem osAcquire_none {k : Machine} {size : Nat} {os' : Os} (hz : size ≠ 0)
    (h : mmap c k.os (roundUpToPage c size) = (os', none)) :
    osAcquire c k size =
      ({ k with os := { os' with log := os'.log ++ [.acquire size none] } }, none) := by
  simp only [osAcquire, if_neg hz, h]

/-- A request that the kernel grants. -/
theorem osAcquire_some {k : Machine} {size base : Nat} {os' : Os} (hz : size ≠ 0)
    (h : mmap c k.os (roundUpToPage c size) = (os', some base)) :
    osAcquire c k size =
      ({ mem := fill k.mem base 0 (roundUpToPage c size),
         os := { os' with log := os'.log ++
          [.acquire size (some ⟨base, roundUpToPage c size⟩)] } },
        some ⟨base, roundUpToPage c size⟩) := by
  simp only [osAcquire, if_neg hz, h]

/-- A request to the kernel. -/
theorem osAcquire_echo (b : Bool) (h : MachineEcho past os k k') (size : Nat) :
    MachineEchoes past os (osAcquire c k size) (osAcquire (c.relax b) k' size) := by
  obtain ⟨rfl, traced⟩ := h
  have htraced : Traced k.os (osAcquire c k size).1.os := by
    refine ⟨_, osAcquire_log c k size, rfl, ?_⟩
    rw [osAcquire_mapped]
    congr 1
    cases (osAcquire c k size).2 <;> rfl
  have hpair : osAcquire (c.relax b) (past.machine k) size =
      (past.machine (osAcquire c k size).1, (osAcquire c k size).2) := by
    by_cases hz : size = 0
    · rw [osAcquire, osAcquire, if_pos hz, if_pos hz]
      dsimp only [Past.machine]
      rw [List.append_assoc]
    have hround := roundUpToPage_relax c b size
    have hm := mmap_echo b past c k.os (roundUpToPage c size)
    rcases hmm : mmap c k.os (roundUpToPage c size) with ⟨os', _ | base⟩
    · rw [hmm, ← hround] at hm
      rw [osAcquire_none hz hmm, osAcquire_none hz hm]
      dsimp only [Past.machine]
      rw [List.append_assoc]
    · rw [hmm, ← hround] at hm
      rw [osAcquire_some hz hmm, osAcquire_some hz hm, hround]
      dsimp only [Past.machine]
      rw [List.append_assoc]
  rw [hpair]
  exact ⟨⟨rfl, traced.trans htraced⟩, rfl⟩

/-- Memory plays no part in the past. -/
theorem MachineEcho.write (h : MachineEcho past os k k') (f : Mem → Mem) :
    MachineEcho past os { k with mem := f k.mem } { k' with mem := f k'.mem } := by
  obtain ⟨rfl, traced⟩ := h
  exact ⟨rfl, traced⟩

theorem MachineEcho.mem_eq (h : MachineEcho past os k k') : k'.mem = k.mem := by
  rw [h.1]
  rfl

namespace Pool

theorem expand_echo (b : Bool) (h : MachineEcho past os k k') (p : Pool) :
    MachineEchoes past os (p.expand c k) (p.expand (c.relax b) k') := by
  unfold expand
  have hask := osAcquire_echo (c := c) b h (mul64 p.slotTotalSize slotsPerArena)
  generalize mul64 p.slotTotalSize slotsPerArena = size at hask ⊢
  revert hask
  rcases osAcquire c k size with ⟨k₁, answer⟩
  rcases osAcquire (c.relax b) k' size with ⟨k₂, answer'⟩
  rintro ⟨hk, heq⟩
  cases heq
  cases answer with
  | none => exact ⟨hk, rfl⟩
  | some region =>
    obtain ⟨rfl, traced⟩ := hk
    exact ⟨⟨rfl, traced⟩, rfl⟩

theorem ready_echo (b : Bool) (h : MachineEcho past os k k') (p : Pool) :
    MachineEchoes past os (p.ready c k) (p.ready (c.relax b) k') := by
  unfold ready
  split
  · exact expand_echo b h p
  · exact ⟨h, rfl⟩

theorem allocate_echo (b : Bool) (h : MachineEcho past os k k') (p : Pool) (self : Nat) :
    Simulates (MachineEchoes past os) (p.allocate c self k)
      (p.allocate (c.relax b) self k') := by
  unfold allocate
  have hready := ready_echo (c := c) b h p
  revert hready
  rcases p.ready c k with ⟨k₁, p₁, ready⟩
  rcases p.ready (c.relax b) k' with ⟨k₂, p₂, ready'⟩
  rintro ⟨hk, heq⟩
  cases heq
  cases ready with
  | false => exact .ok ⟨hk, rfl⟩
  | true =>
    dsimp only
    rw [hk.mem_eq]
    apply Simulates.refl.bindEq
    intro next
    apply Simulates.refl.bindEq
    intro mem
    exact .ok ⟨hk.write fun _ ↦ mem, rfl⟩

theorem gather_echo (b : Bool) (n : Nat) {k k' : Machine} (h : MachineEcho past os k k')
    (p : Pool) (batch : SlotBatch) : Simulates (MachineEchoes past os)
      (gather c n k p batch) (gather (c.relax b) n k' p batch) := by
  induction n generalizing k k' p batch with
  | zero => exact .ok ⟨h, rfl⟩
  | succ n ih =>
    unfold gather
    have hready := ready_echo (c := c) b h p
    revert hready
    rcases p.ready c k with ⟨k₁, p₁, ready⟩
    rcases p.ready (c.relax b) k' with ⟨k₂, p₂, ready'⟩
    rintro ⟨hk, heq⟩
    cases heq
    cases ready with
    | false => exact .ok ⟨hk, rfl⟩
    | true =>
      dsimp only
      rw [hk.mem_eq]
      apply Simulates.refl.bindEq
      intro next
      apply Simulates.refl.bindEq
      intro mem
      apply Simulates.refl.bindEq
      intro appended
      exact ih (hk.write fun _ ↦ appended.1) _ _

end Pool

/-! ### The state -/

namespace Echo

theorem machine (h : Echo past os s s') : MachineEcho past os s.toMachine s'.toMachine := by
  obtain ⟨rfl, traced⟩ := h
  exact ⟨rfl, traced⟩

theorem setMachine (h : Echo past os s s') (hk : MachineEcho past os k k') :
    Echo past os (s.setMachine k) (s'.setMachine k') := by
  obtain ⟨rfl, -⟩ := h
  obtain ⟨rfl, traced⟩ := hk
  exact ⟨rfl, traced⟩

theorem setPool (h : Echo past os s s') (i : Fin numSizeClasses) (p : Pool) :
    Echo past os (s.setPool i p) (s'.setPool i p) := by
  obtain ⟨rfl, traced⟩ := h
  exact ⟨rfl, traced⟩

theorem setHeap (h : Echo past os s s') (heap : Mem × Nat) :
    Echo past os (s.setHeap heap) (s'.setHeap heap) := by
  obtain ⟨rfl, traced⟩ := h
  exact ⟨rfl, traced⟩

theorem setMem (h : Echo past os s s') (m : Mem) :
    Echo past os { s with mem := m } { s' with mem := m } := by
  obtain ⟨rfl, traced⟩ := h
  exact ⟨rfl, traced⟩

theorem setArenas (h : Echo past os s s') (arenas : List Arena) :
    Echo past os { s with arenas := arenas } { s' with arenas := arenas } := by
  obtain ⟨rfl, traced⟩ := h
  exact ⟨rfl, traced⟩

/-- A thread that is not gone works on its own caches. -/
theorem setCache (h : Echo past os s s') (ht : past.gone t = false) (i : Fin numSizeClasses)
    (cache : ThreadLocalCache) :
    Echo past os (s.setCache t i cache) (s'.setCache t i cache) := by
  obtain ⟨rfl, traced⟩ := h
  refine ⟨?_, traced⟩
  simp only [State.setCache, Past.state, State.setMachine, Past.machine]
  congr 1
  funext u j
  by_cases hu : u = t ∧ j = i
  · rw [if_pos hu, hu.1, ht]
    exact (if_pos ⟨rfl, hu.2⟩).symm
  · rw [if_neg hu]
    split <;> rfl

theorem mem_eq (h : Echo past os s s') : s'.mem = s.mem := by
  rw [h.1]
  rfl

theorem arenas_eq (h : Echo past os s s') : s'.arenas = s.arenas := by
  rw [h.1]
  rfl

theorem freeHead_eq (h : Echo past os s s') : s'.freeHead = s.freeHead := by
  rw [h.1]
  rfl

theorem arenaSize_eq (h : Echo past os s s') : s'.arenaSize = s.arenaSize := by
  rw [h.1]
  rfl

theorem pools_eq (h : Echo past os s s') : s'.pools = s.pools := by
  rw [h.1]
  rfl

theorem caches_eq (h : Echo past os s s') (ht : past.gone t = false) :
    s'.caches t = s.caches t := by
  rw [h.1]
  funext i
  exact if_neg (by rw [ht]; exact Bool.false_ne_true)

end Echo

theorem arenaWithRoom_echo (b : Bool) (h : Echo past os s s') (needed : Nat) :
    Echoes past os (arenaWithRoom c s needed) (arenaWithRoom (c.relax b) s' needed) := by
  unfold arenaWithRoom
  rw [h.arenas_eq, h.arenaSize_eq]
  split
  · exact ⟨h, rfl⟩
  have hask := osAcquire_echo (c := c) b h.machine (arenaRequest s.arenaSize needed)
  revert hask
  rcases osAcquire c s.toMachine (arenaRequest s.arenaSize needed) with ⟨k₁, answer⟩
  rcases osAcquire (c.relax b) s'.toMachine (arenaRequest s.arenaSize needed) with ⟨k₂, answer'⟩
  rintro ⟨hk, heq⟩
  cases heq
  cases answer with
  | none => exact ⟨h.setMachine hk, rfl⟩
  | some region => exact ⟨(h.setMachine hk).setArenas _, rfl⟩

theorem carveBlock_echo (b : Bool) (h : Echo past os s s') (n payloadSize : Nat) :
    Simulates (Echoes past os) (carveBlock c s n payloadSize)
      (carveBlock (c.relax b) s' n payloadSize) := by
  unfold carveBlock
  rw [h.arenas_eq, h.mem_eq]
  cases s.arenas[n]? with
  | none => exact .error
  | some arena =>
    apply payload_relax.bindEq
    intro ptr
    exact .ok ⟨(h.setMem _).setArenas _, rfl⟩

/-- The body of a general allocation. -/
theorem mallocGeneral_echo (b : Bool) (h : Echo past os s s') (size : Nat) :
    Simulates (Echoes past os) (mallocGeneral c s size) (mallocGeneral (c.relax b) s' size) := by
  unfold mallocGeneral allocatePayload
  generalize alignUp size = payloadSize
  rw [h.mem_eq, h.freeHead_eq]
  apply (FreeList.findFirstFit_relax payloadSize).bindEq
  intro reused
  apply Simulates.ite
  · intro _
    have hroom := arenaWithRoom_echo (c := c) b h (neededBytes payloadSize)
    revert hroom
    generalize neededBytes payloadSize = needed
    rcases arenaWithRoom c s needed with ⟨s₁, index⟩
    rcases arenaWithRoom (c.relax b) s' needed with ⟨s₂, index'⟩
    rintro ⟨hs, heq⟩
    cases heq
    cases index with
    | none => exact .ok ⟨hs, rfl⟩
    | some n => exact carveBlock_echo b hs n payloadSize
  · intro _
    apply (reuseBlock_relax reused payloadSize).bindEq
    intro out
    exact .ok ⟨h.setHeap _, rfl⟩

/-! ### Caches -/

theorem popFromCache_echo (b : Bool) (h : Echo past os s s') (ht : past.gone t = false)
    (i : Fin numSizeClasses) :
    Simulates (Echoes past os) (popFromCache c s t i) (popFromCache (c.relax b) s' t i) := by
  unfold popFromCache
  rw [h.caches_eq ht, h.mem_eq]
  apply Simulates.refl.bindEq
  intro next
  apply Simulates.refl.bindEq
  intro mem
  exact .ok ⟨(h.setMem mem).setCache ht i _, rfl⟩

theorem refillBatch_echo (b : Bool) (h : Echo past os s s') (i : Fin numSizeClasses) :
    Simulates (Echoes past os) (refillBatch c s i) (refillBatch (c.relax b) s' i) := by
  unfold refillBatch
  rw [h.pools_eq]
  apply (Pool.gather_echo b threadLocalCacheBatchSize h.machine _ _).bind
  rintro ⟨k₁, p, batch⟩ ⟨k₂, out⟩ ⟨hk, heq⟩
  cases heq
  exact .ok ⟨(h.setMachine hk).setPool i p, rfl⟩

theorem pushToCache_echo (h : Echo past os s s') (ht : past.gone t = false)
    (i : Fin numSizeClasses) (slot : Nat) :
    Simulates (Echo past os) (pushToCache s t i slot) (pushToCache s' t i slot) := by
  unfold pushToCache
  rw [h.caches_eq ht, h.mem_eq]
  apply Simulates.refl.bindEq
  intro mem
  exact .ok ((h.setMem mem).setCache ht i _)

theorem detachBatch_echo (h : Echo past os s s') (ht : past.gone t = false)
    (i : Fin numSizeClasses) :
    Simulates (Echoes past os) (detachBatch s t i) (detachBatch s' t i) := by
  unfold detachBatch
  rw [h.caches_eq ht, h.mem_eq]
  apply Simulates.refl.bindEq
  rintro ⟨detachTail, detachCount⟩
  apply Simulates.refl.bindEq
  intro head
  apply Simulates.refl.bindEq
  intro mem
  exact .ok ⟨(h.setMem mem).setCache ht i _, rfl⟩

theorem spliceBatch_echo (h : Echo past os s s') (i : Fin numSizeClasses)
    (chainHead chainTail : Nat) :
    Simulates (Echo past os) (spliceBatch s i chainHead chainTail)
      (spliceBatch s' i chainHead chainTail) := by
  have hsame : Simulates (· = ·) ((s.pools i).deallocateBatch s.mem chainHead chainTail)
      ((s'.pools i).deallocateBatch s'.mem chainHead chainTail) := by
    rw [h.pools_eq, h.mem_eq]
    exact .refl
  apply hsame.bindEq
  rintro ⟨mem, p⟩
  exact .ok ((h.setMem mem).setPool i p)

theorem overCap_echo (h : Echo past os s s') (ht : past.gone t = false)
    (i : Fin numSizeClasses) : overCap s' t i = overCap s t i := by
  rw [overCap, overCap, h.caches_eq ht]

/-! ### The pooled path of every stage -/

theorem mallocPooledStage3_echo (b : Bool) (h : Echo past os s s') (ht : past.gone t = false)
    (i : Fin numSizeClasses) : Simulates (Echoes past os) (mallocPooledStage3 c s t i)
      (mallocPooledStage3 (c.relax b) s' t i) := by
  unfold mallocPooledStage3
  rw [h.caches_eq ht]
  apply Simulates.ite
  · intro _
    apply (refillBatch_echo b h i).bind
    rintro ⟨s₁, batch⟩ ⟨s₂, batch'⟩ ⟨hs, heq⟩
    cases heq
    apply Simulates.ite
    · intro _
      exact .ok ⟨hs, rfl⟩
    · intro _
      exact popFromCache_echo b (hs.setCache ht i _) ht i
  · intro _
    exact popFromCache_echo b h ht i

theorem mallocPooled_echo (b : Bool) (h : Echo past os s s') (ht : past.gone t = false)
    (i : Fin numSizeClasses) : Simulates (Echoes past os) (mallocPooled c s t i)
      (mallocPooled (c.relax b) s' t i) := by
  have hshared : Simulates (Echoes past os)
      ((s.pools i).allocate c (c.poolAddr i) s.toMachine >>= fun r ↦
        Except.ok ((s.setMachine r.1).setPool i r.2.1, r.2.2))
      ((s'.pools i).allocate (c.relax b) (c.poolAddr i) s'.toMachine >>= fun r ↦
        Except.ok ((s'.setMachine r.1).setPool i r.2.1, r.2.2)) := by
    rw [h.pools_eq]
    apply (Pool.allocate_echo b h.machine _ _).bind
    rintro ⟨k₁, p, ptr⟩ ⟨k₂, out⟩ ⟨hk, heq⟩
    cases heq
    exact .ok ⟨(h.setMachine hk).setPool i p, rfl⟩
  have hstage : (c.relax b).stage = c.stage := rfl
  unfold mallocPooled
  rw [hstage]
  cases c.stage with
  | globalLock => exact hshared
  | poolLocks => exact hshared
  | threadCaches => exact mallocPooledStage3_echo b h ht i

theorem freePooledStage3_echo (h : Echo past os s s') (ht : past.gone t = false)
    (i : Fin numSizeClasses) (slot : Nat) : Simulates (Echo past os) (freePooledStage3 s t i slot)
      (freePooledStage3 s' t i slot) := by
  apply (pushToCache_echo h ht i slot).bind
  intro s₁ s₂ hs
  rw [overCap_echo hs ht]
  apply Simulates.ite
  · intro _
    apply (detachBatch_echo hs ht i).bind
    rintro ⟨s₁, hd, tl⟩ ⟨s₂, out⟩ ⟨hs, heq⟩
    cases heq
    exact spliceBatch_echo hs i hd tl
  · intro _
    exact .ok hs

theorem freePooled_echo (b : Bool) (h : Echo past os s s') (ht : past.gone t = false)
    (i : Fin numSizeClasses) (ptr : Nat) : Simulates (Echo past os) (freePooled c s t i ptr)
      (freePooled (c.relax b) s' t i ptr) := by
  have hshared : Simulates (Echo past os)
      ((s.pools i).deallocate s.mem ptr >>= fun r ↦
        Except.ok ({ s with mem := r.1 }.setPool i r.2))
      ((s'.pools i).deallocate s'.mem ptr >>= fun r ↦
        Except.ok ({ s' with mem := r.1 }.setPool i r.2)) := by
    have hsame : Simulates (· = ·) ((s.pools i).deallocate s.mem ptr)
        ((s'.pools i).deallocate s'.mem ptr) := by
      rw [h.pools_eq, h.mem_eq]
      exact .refl
    apply hsame.bindEq
    rintro ⟨mem, p⟩
    exact .ok ((h.setMem mem).setPool i p)
  have hstage : (c.relax b).stage = c.stage := rfl
  unfold freePooled
  rw [hstage]
  cases c.stage with
  | globalLock => exact hshared
  | poolLocks => exact hshared
  | threadCaches => exact freePooledStage3_echo h ht i _

/-! ### The system -/

/-- `y'` is `y` with a past, and what `y` has mapped since `os` is in its log. -/
structure SystemEcho (past : Past) (os : Os) (y y' : System) : Prop where
  state : Echo past os y.state y'.state
  live : y'.live = y.live
  owner : y'.owner = y.owner
  phase : y'.phase = y.phase
  began : ∀ t, y'.began t = ((y.began t).1, past.session (y.began t).2)

section system

variable {y y' : System}

namespace SystemEcho

theorem setState (h : SystemEcho past os y y') (hs : Echo past os s s') :
    SystemEcho past os (y.setState s) (y'.setState s') :=
  ⟨hs, h.live, h.owner, h.phase, h.began⟩

theorem setPhase (h : SystemEcho past os y y') (t : Tid) (ph : Phase) :
    SystemEcho past os (y.setPhase t ph) (y'.setPhase t ph) := by
  refine ⟨h.state, h.live, h.owner, ?_, h.began⟩
  simp only [System.setPhase, h.phase]

theorem handOut (h : SystemEcho past os y y') (t : Tid) (size ptr : Nat) (use : Purpose) :
    SystemEcho past os (y.handOut t size ptr use) (y'.handOut t size ptr use) := by
  unfold System.handOut
  split
  · exact h.setPhase t _
  · apply setPhase
    constructor
    · exact h.state
    · simp only [System.grant, h.live]
    · simp only [System.grant, h.owner]
    · exact h.phase
    · exact h.began

theorem takeBack (h : SystemEcho past os y y') (ptr : Nat) :
    SystemEcho past os (y.takeBack ptr) (y'.takeBack ptr) := by
  refine ⟨h.state, ?_, h.owner, h.phase, h.began⟩
  simp only [System.takeBack, h.live]

theorem renew (h : SystemEcho past os y y') (ptr newSize : Nat) :
    SystemEcho past os (y.renew ptr newSize) (y'.renew ptr newSize) := by
  refine ⟨h.state, ?_, h.owner, h.phase, h.began⟩
  simp only [System.renew, h.live]

end SystemEcho

/-- A thread's own allocation step. -/
theorem System.handOut_echo {x : Except Fault (State × Nat)} {x' : Except Fault (State × Nat)}
    (h : SystemEcho past os y y') (hx : Simulates (Echoes past os) x x') (t : Tid) (size : Nat)
    (use : Purpose) : Simulates (SystemEcho past os)
      (x >>= fun r ↦ Except.ok ((y.setState r.1).handOut t size r.2 use))
      (x' >>= fun r ↦ Except.ok ((y'.setState r.1).handOut t size r.2 use)) := by
  apply hx.bind
  rintro ⟨s₁, ptr⟩ ⟨s₂, out⟩ ⟨hs, heq⟩
  cases heq
  exact .ok ((h.setState hs).handOut t size ptr use)

/-- The next atomic step of a thread that is not gone. -/
theorem System.advance_echo (b : Bool) (h : SystemEcho past os y y')
    (ht : past.gone t = false) :
    Simulates (SystemEcho past os) (y.advance c t) (y'.advance (c.relax b) t) := by
  have hs := h.state
  have hstage : (c.relax b).stage = c.stage := rfl
  have hknown : ∀ tag, isKnownPool (c.relax b) tag = isKnownPool c tag := fun _ ↦ rfl
  have hpool : ∀ tag, poolAt (c.relax b) tag = poolAt c tag := fun _ ↦ rfl
  unfold System.advance
  rw [h.phase]
  cases y.phase t with
  | unborn => exact .ok h
  | exited => exact .ok h
  | idle r => exact .ok h
  | malloc size use =>
    dsimp only
    cases originOf size with
    | none => exact System.handOut_echo h (mallocGeneral_echo b hs size) t size use
    | some i =>
      rw [hstage]
      cases c.stage with
      | globalLock => exact System.handOut_echo h (mallocPooled_echo b hs ht i) t size use
      | poolLocks => exact System.handOut_echo h (mallocPooled_echo b hs ht i) t size use
      | threadCaches =>
        dsimp only
        rw [hs.caches_eq ht]
        apply Simulates.ite
        · intro _
          apply (refillBatch_echo b hs i).bind
          rintro ⟨s₁, batch⟩ ⟨s₂, out⟩ ⟨hs₁, heq⟩
          cases heq
          exact .ok ((h.setState hs₁).setPhase t _)
        · intro _
          exact System.handOut_echo h (popFromCache_echo b hs ht i) t size use
  | refilled size i batch use =>
    apply Simulates.ite
    · intro _
      exact .ok (h.handOut t size 0 use)
    · intro _
      exact .ok ((h.setState (hs.setCache ht i _)).setPhase t _)
  | stocked size i use => exact System.handOut_echo h (popFromCache_echo b hs ht i) t size use
  | got size ptr use =>
    apply Simulates.ite
    · intro _
      exact .ok (h.setPhase t _)
    · intro _
      dsimp only
      rw [hs.mem_eq]
      cases use with
      | malloc => exact .ok (h.setPhase t _)
      | calloc => exact .ok ((h.setState (hs.setMem _)).setPhase t _)
      | realloc ptr' copySize => exact .ok ((h.setState (hs.setMem _)).setPhase t _)
  | free ptr sequel =>
    dsimp only
    rw [hs.mem_eq]
    exact .ok (h.setPhase t _)
  | tagged ptr tag sequel =>
    dsimp only
    rw [hknown, hpool, hstage]
    apply Simulates.ite
    · intro _
      apply Simulates.refl.bindEq
      intro i
      cases c.stage with
      | globalLock =>
        apply (freePooled_echo b hs ht i ptr).bind
        intro s₁ s₂ hs₁
        exact .ok (((h.setState hs₁).takeBack ptr).setPhase t _)
      | poolLocks =>
        apply (freePooled_echo b hs ht i ptr).bind
        intro s₁ s₂ hs₁
        exact .ok (((h.setState hs₁).takeBack ptr).setPhase t _)
      | threadCaches =>
        apply (pushToCache_echo hs ht i _).bind
        intro s₁ s₂ hs₁
        exact .ok (((h.setState hs₁).takeBack ptr).setPhase t _)
    · intro _
      rw [hs.arenas_eq, hs.mem_eq, hs.freeHead_eq]
      apply (freeGeneral_relax ptr).bindEq
      intro heap
      exact .ok (((h.setState (hs.setHeap heap)).takeBack ptr).setPhase t _)
  | pushed i sequel =>
    dsimp only
    rw [overCap_echo hs ht]
    apply Simulates.ite
    · intro _
      apply (detachBatch_echo hs ht i).bind
      rintro ⟨s₁, hd, tl⟩ ⟨s₂, out⟩ ⟨hs₁, heq⟩
      cases heq
      exact .ok ((h.setState hs₁).setPhase t _)
    · intro _
      exact .ok (h.setPhase t _)
  | detached i chainHead chainTail sequel =>
    apply (spliceBatch_echo hs i chainHead chainTail).bind
    intro s₁ s₂ hs₁
    exact .ok ((h.setState hs₁).setPhase t _)
  | realloc ptr newSize =>
    dsimp only
    rw [hs.mem_eq]
    exact .ok (h.setPhase t _)
  | retagged ptr newSize tag =>
    dsimp only
    rw [hknown, hpool, hs.pools_eq]
    apply Simulates.ite
    · intro _
      apply Simulates.refl.bindEq
      intro i
      apply Simulates.ite
      · intro _
        exact .ok ((h.renew ptr newSize).setPhase t _)
      · intro _
        exact .ok (h.setPhase t _)
    · intro _
      rw [hs.arenas_eq, hs.mem_eq, hs.freeHead_eq]
      apply (reallocInPlace_relax _ newSize).bindEq
      rintro ⟨heap, outcome⟩
      have hheap := h.setState (hs.setHeap heap)
      cases outcome with
      | done => exact .ok ((hheap.renew ptr newSize).setPhase t _)
      | move oldPayloadSize => exact .ok (hheap.setPhase t _)

/-- Actions of threads that are not gone. -/
theorem System.act_echo (b : Bool) (h : SystemEcho past os y y') {a : Action}
    (ha : ∀ t, a = .advance t → past.gone t = false) :
    Simulates (SystemEcho past os) (y.act c a) (y'.act (c.relax b) a) := by
  cases a with
  | start t => exact .ok (h.setPhase t _)
  | exit t => exact .ok (h.setPhase t _)
  | call t request =>
    apply Simulates.ok
    apply SystemEcho.setPhase
    refine ⟨h.state, h.live, h.owner, h.phase, fun u ↦ ?_⟩
    by_cases hu : u = t
    · simp only [hu, if_true, Past.session, h.live, h.state.1]
    · simp only [if_neg hu]
      exact h.began u
  | advance t => exact System.advance_echo b h (ha t rfl)
  | write t x v =>
    apply Simulates.ok
    apply h.setState
    rw [h.state.mem_eq]
    exact h.state.setMem _
  | give ptr t =>
    apply Simulates.ok
    refine ⟨h.state, h.live, ?_, h.phase, h.began⟩
    simp only [h.owner]

/-- What clients may do does not depend on the past. -/
theorem Action.legal_echo (h : SystemEcho past os y y') (a : Action) :
    a.Legal (c.relax b) y' ↔ a.Legal c y := by
  have hs := h.state
  have hrouted : ∀ g, Routed (c.relax b) y'.state g ↔ Routed c y.state g := fun g ↦ by
    unfold Routed
    rw [hs.mem_eq]
    rfl
  have hpayload : ∀ g x, InPayload y'.state g x ↔ InPayload y.state g x := fun g x ↦ by
    unfold InPayload usable
    rw [hs.mem_eq, hs.pools_eq]
  cases a with
  | start t => simp only [Action.Legal, h.phase]
  | exit t => simp only [Action.Legal, h.phase]
  | call t request => simp only [Action.Legal, h.phase, h.live, h.owner, hrouted]
  | advance t => simp only [Action.Legal, h.phase]
  | write t x v => simp only [Action.Legal, h.phase, h.live, h.owner, hpayload]
  | give ptr t => simp only [Action.Legal, h.phase, h.live, h.owner]

end system

end CustomAllocator
