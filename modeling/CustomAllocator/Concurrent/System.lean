import CustomAllocator.Client.Runs

/-!
# Threads

Any number of threads run calls of the public interface on one allocator. A call advances by
atomic steps: a locked section, an operation on the thread's own cache, or an unlocked access
to a block the thread owns. Between two steps of one thread any other thread may act.
-/

namespace CustomAllocator
open CustomAllocator.Base

/-- What a running `my_malloc` was called for. -/
inductive Purpose where
  /-- To return the pointer. -/
  | malloc
  /-- By `my_calloc`, which zeroes the block. -/
  | calloc
  /-- By `my_realloc`, which copies `copySize` bytes of `ptr` and frees it. -/
  | realloc (ptr copySize : Nat)
  deriving DecidableEq, Repr

/-- What a running `my_free` was called for. -/
inductive Sequel where
  /-- To return. -/
  | free
  /-- By `my_realloc`, which returns `newPtr` with `copySize` bytes copied. -/
  | realloc (newPtr copySize : Nat)
  deriving DecidableEq, Repr

/-- What the call returns once the free is done; a plain free returns nothing, given as zero. -/
def Sequel.result : Sequel → Nat
  | free => 0
  | realloc newPtr _ => newPtr

/-- Where a thread stands. -/
inductive Phase where
  /-- Not started yet. -/
  | unborn
  | exited
  /-- Between calls; the last one returned `result`. -/
  | idle (result : Nat)
  /-- On entry to `my_malloc(size)`. -/
  | malloc (size : Nat) (use : Purpose)
  /-- After the locked section of a refill. -/
  | refilled (size : Nat) (i : Fin numSizeClasses) (batch : SlotBatch) (use : Purpose)
  /-- After the batch has become the cache. -/
  | stocked (size : Nat) (i : Fin numSizeClasses) (use : Purpose)
  /-- With the pointer, or null, that `my_malloc(size)` returns. -/
  | got (size ptr : Nat) (use : Purpose)
  /-- On entry to `my_free(ptr)`. -/
  | free (ptr : Nat) (sequel : Sequel)
  /-- After the speculative read of the tag in `my_free`. -/
  | tagged (ptr tag : Nat) (sequel : Sequel)
  /-- After the push of a freed slot. -/
  | pushed (i : Fin numSizeClasses) (sequel : Sequel)
  /-- With a detached batch, before the locked section of a flush. -/
  | detached (i : Fin numSizeClasses) (chainHead chainTail : Nat) (sequel : Sequel)
  /-- On entry to `my_realloc(ptr, newSize)`. -/
  | realloc (ptr newSize : Nat)
  /-- After the speculative read of the tag in `my_realloc`. -/
  | retagged (ptr newSize tag : Nat)
  deriving DecidableEq, Repr

/-- The thread runs no call. -/
def Phase.AtRest : Phase → Prop
  | unborn | exited | idle _ => True
  | _ => False

instance (ph : Phase) : Decidable ph.AtRest := by
  cases ph <;> unfold Phase.AtRest <;> infer_instance

/-- The allocator, what the clients hold, and every thread. `began` is history that no step
reads: each thread's last call, with the session in which it began. -/
structure System where
  state : State
  live : List Grant
  owner : Nat → Tid
  phase : Tid → Phase
  began : Tid → Call × Session

namespace System

/-- Program start: no thread runs yet. -/
def start (mem : Mem) (offers : List (Option Nat)) (arenaSize : Nat) : System where
  state := State.initial mem offers arenaSize
  live := []
  owner _ := 0
  phase _ := .unborn
  began _ := (.free 0, .start mem offers arenaSize)

/-- Replace the allocator's state. -/
def setState (y : System) (s : State) : System := { y with state := s }

/-- Replace the phase of thread `t`. -/
def setPhase (y : System) (t : Tid) (ph : Phase) : System :=
  { y with phase := fun u ↦ if u = t then ph else y.phase u }

/-- Thread `t` comes to own a block or slot of `size` requested bytes at `p`. -/
def grant (y : System) (t : Tid) (size p : Nat) : System :=
  { y with
    live := ⟨p, size, originOf size⟩ :: y.live,
    owner := fun q ↦ if q = p then t else y.owner q }

/-- `my_malloc(size)` of thread `t` is about to return `p`. -/
def handOut (y : System) (t : Tid) (size p : Nat) (use : Purpose) : System :=
  if p = 0 then y.setPhase t (.got size 0 use) else (y.grant t size p).setPhase t (.got size p use)

/-- The pointer `p` goes back to the allocator. -/
def takeBack (y : System) (p : Nat) : System := { y with live := without y.live p }

/-- The pointer `p` now stands for `newSize` requested bytes. -/
def renew (y : System) (p newSize : Nat) : System := { y with live := renewed y.live p newSize }

/-- The next atomic step of thread `t`. -/
def advance (c : Config) (y : System) (t : Tid) : Except Fault System :=
  match y.phase t with
  | .unborn | .exited | .idle _ => .ok y
  | .malloc size use =>
    match originOf size with
    | none => do
      let (s, p) ← mallocGeneral c y.state size
      .ok ((y.setState s).handOut t size p use)
    | some i =>
      match c.stage with
      | .threadCaches =>
        if (y.state.caches t i).head = 0 then do
          let (s, batch) ← refillBatch c y.state i
          .ok ((y.setState s).setPhase t (.refilled size i batch use))
        else do
          let (s, p) ← popFromCache c y.state t i
          .ok ((y.setState s).handOut t size p use)
      | _ => do
        let (s, p) ← mallocPooled c y.state t i
        .ok ((y.setState s).handOut t size p use)
  | .refilled size i batch use =>
    if batch.head = 0 then .ok (y.handOut t size 0 use)
    else .ok ((y.setState (installBatch y.state t i batch)).setPhase t (.stocked size i use))
  | .stocked size i use => do
    let (s, p) ← popFromCache c y.state t i
    .ok ((y.setState s).handOut t size p use)
  | .got size p use =>
    if p = 0 then .ok (y.setPhase t (.idle 0))
    else
      match use with
      | .malloc => .ok (y.setPhase t (.idle p))
      | .calloc => .ok ((y.setState { y.state with mem := fill y.state.mem p 0 size }).setPhase t
          (.idle p))
      | .realloc ptr copySize =>
        .ok ((y.setState { y.state with mem := copy y.state.mem p ptr copySize }).setPhase t
          (.free ptr (.realloc p copySize)))
  | .free ptr sequel => .ok (y.setPhase t (.tagged ptr (tagOf y.state.mem ptr) sequel))
  | .tagged ptr tag sequel =>
    if isKnownPool c tag then do
      let i ← poolAt c tag
      match c.stage with
      | .threadCaches => do
        let s ← pushToCache y.state t i (sub64 ptr sizeofPoolSlotHeader)
        .ok (((y.setState s).takeBack ptr).setPhase t (.pushed i sequel))
      | _ => do
        let s ← freePooled c y.state t i ptr
        .ok (((y.setState s).takeBack ptr).setPhase t (.idle sequel.result))
    else do
      let heap ← freeGeneral c y.state.arenas y.state.mem y.state.freeHead ptr
      .ok (((y.setState (y.state.setHeap heap)).takeBack ptr).setPhase t (.idle sequel.result))
  | .pushed i sequel =>
    if overCap y.state t i then do
      let (s, chainHead, chainTail) ← detachBatch y.state t i
      .ok ((y.setState s).setPhase t (.detached i chainHead chainTail sequel))
    else .ok (y.setPhase t (.idle sequel.result))
  | .detached i chainHead chainTail sequel => do
    let s ← spliceBatch y.state i chainHead chainTail
    .ok ((y.setState s).setPhase t (.idle sequel.result))
  | .realloc ptr newSize =>
    .ok (y.setPhase t (.retagged ptr newSize (tagOf y.state.mem ptr)))
  | .retagged ptr newSize tag =>
    if isKnownPool c tag then do
      let i ← poolAt c tag
      let oldPayloadSize := (y.state.pools i).slotPayloadSize
      if newSize ≤ oldPayloadSize then .ok ((y.renew ptr newSize).setPhase t (.idle ptr))
      else .ok (y.setPhase t (.malloc newSize (.realloc ptr oldPayloadSize)))
    else do
      let (heap, outcome) ←
        reallocInPlace c y.state.arenas y.state.mem y.state.freeHead (headerOf ptr) newSize
      let y := y.setState (y.state.setHeap heap)
      match outcome with
      | .done => .ok ((y.renew ptr newSize).setPhase t (.idle ptr))
      | .move oldPayloadSize => .ok (y.setPhase t (.malloc newSize
          (.realloc ptr (if oldPayloadSize < newSize then oldPayloadSize else newSize))))

end System

/-- Where a thread stands right after calling. -/
def Call.entry : Call → Phase
  | .malloc size => .malloc size .malloc
  | .calloc count size =>
    if size ≠ 0 ∧ sizeMax / size < count then .idle 0 else .malloc (mul64 count size) .calloc
  | .realloc ptr newSize => if ptr = 0 then .malloc newSize .malloc else .realloc ptr newSize
  | .free ptr => if ptr = 0 then .idle 0 else .free ptr .free

/-- What can happen next. -/
inductive Action where
  | start (t : Tid)
  | exit (t : Tid)
  | call (t : Tid) (request : Call)
  | advance (t : Tid)
  /-- A byte stored into a block the thread owns. -/
  | write (t : Tid) (x : Nat) (v : UInt8)
  /-- A pointer handed to another thread. -/
  | give (ptr : Nat) (t : Tid)
  deriving DecidableEq, Repr

/-- The system after an action. -/
def System.act (c : Config) (y : System) : Action → Except Fault System
  | .start t => .ok (y.setPhase t (.idle 0))
  | .exit t => .ok (y.setPhase t .exited)
  | .call t request => .ok ({ y with
      began := fun u ↦ if u = t then (request, ⟨y.state, y.live⟩) else y.began u }.setPhase t
        request.entry)
  | .advance t => y.advance c t
  | .write _ x v => .ok (y.setState { y.state with mem := write8 y.state.mem x v })
  | .give ptr t => .ok { y with owner := fun q ↦ if q = ptr then t else y.owner q }

/-- What clients may do. Only the owner of a pointer frees, reallocates or writes to its block,
and hands it on only between calls; requests are bounded, and a pointer passed back is routed to
where it came from. -/
def Action.Legal (c : Config) (y : System) : Action → Prop
  | .start t => y.phase t = .unborn
  | .exit t => ∃ r, y.phase t = .idle r
  | .call t request => (∃ r, y.phase t = .idle r) ∧ request.Fits ∧ (request.argument = 0 ∨
      ∃ g ∈ y.live, g.ptr = request.argument ∧ y.owner g.ptr = t ∧ Routed c y.state g)
  | .advance t => ¬ (y.phase t).AtRest
  | .write t x _ => (∃ r, y.phase t = .idle r) ∧
      ∃ g ∈ y.live, y.owner g.ptr = t ∧ InPayload y.state g x
  | .give ptr _ => (∃ g ∈ y.live, g.ptr = ptr) ∧ (y.phase (y.owner ptr)).AtRest

/-- One legal action that completes. -/
def System.Step (c : Config) (y y' : System) : Prop :=
  ∃ a : Action, a.Legal c y ∧ y.act c a = .ok y'

/-- The systems of all interleavings from a program start. -/
def System.Reachable (c : Config) (y : System) : Prop :=
  ∃ mem offers arenaSize, arenaSize < 2 ^ 64 ∧
    Relation.ReflTransGen (System.Step c) (System.start mem offers arenaSize) y

end CustomAllocator
