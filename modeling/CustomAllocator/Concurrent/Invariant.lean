import CustomAllocator.Concurrent.System

/-!
# The invariant of all interleavings

`Consistent` adds to the booked ledger what each thread knows in the middle of a call: the
block it was given is still its own and unchanged, the batch it carries is the one in transit,
and its cache is within the cap up to the slot just pushed. A step of one thread leaves
everything the others know as it is.
-/

namespace CustomAllocator
open CustomAllocator.Base

/-- The first slot of the batch a thread carries between a cache and the pool of class `i`. -/
def Phase.batch : Phase → Fin numSizeClasses → Nat
  | refilled _ j b _, i => if i = j then b.head else 0
  | detached j chainHead _ _, i => if i = j then chainHead else 0
  | _, _ => 0

/-- How far a cache of class `i` may exceed its cap: by the slot just pushed. -/
def Phase.excess : Phase → Fin numSizeClasses → Nat
  | pushed j _, i => if i = j then 1 else 0
  | _, _ => 0

/-- The batches the threads carry. -/
def System.transit (y : System) : Transit := fun t i ↦ (y.phase t).batch i

/-- The grant `g` was given to thread `t`'s running call and has not changed since. -/
structure Claimed (c : Config) (y : System) (t : Tid) (g : Grant) : Prop where
  live : g ∈ y.live
  owner : y.owner g.ptr = t
  routed : Routed c y.state g
  before : g ∈ (y.began t).2.live
  unique : ∀ h ∈ (y.began t).2.live, h.ptr = g.ptr → h = g
  usable_eq : usable y.state g = usable (y.began t).2.state g
  bytes : ∀ x, InPayload y.state g x → y.state.mem x = (y.began t).2.state.mem x

/-- Thread `t`'s call moves a block to `newSize` bytes, of which `copySize` come from the old
block at `ptr`. -/
structure Moving (y : System) (t : Tid) (ptr newSize copySize : Nat) : Prop where
  call : (y.began t).1 = .realloc ptr newSize
  size : ∃ g ∈ (y.began t).2.live, g.ptr = ptr ∧
    copySize = min (usable (y.began t).2.state g) newSize

/-- Thread `t` owns the block at `newPtr`, which holds the bytes its call has to keep. -/
def Moved (y : System) (t : Tid) (newPtr copySize : Nat) : Prop :=
  ∃ ptr newSize, Moving y t ptr newSize copySize ∧ ∃ q ∈ y.live, q.ptr = newPtr ∧
    q.requested = newSize ∧ y.owner newPtr = t ∧
    ∀ k, k < copySize → y.state.mem (newPtr + k) = (y.began t).2.state.mem (ptr + k)

/-- What a thread in `my_malloc(size)` knows about its caller. -/
def PurposeOk (c : Config) (y : System) (t : Tid) (size : Nat) : Purpose → Prop
  | .malloc | .calloc => (y.began t).1.argument = 0
  | .realloc ptr copySize =>
    (∃ g, g.ptr = ptr ∧ Claimed c y t g) ∧ Moving y t ptr size copySize

/-- What a thread in `my_free` knows about its caller. -/
def SequelOk (y : System) (t : Tid) : Sequel → Prop
  | .free => ∃ ptr, (y.began t).1 = .free ptr
  | .realloc newPtr copySize => Moved y t newPtr copySize

/-- What a thread knows in each phase. -/
def PhaseOk (c : Config) (y : System) (sh : Shelves) (t : Tid) : Phase → Prop
  | .unborn | .exited | .idle _ => True
  | .malloc size use => size + 47 < 2 ^ 64 ∧ PurposeOk c y t size use
  | .refilled size i b use => originOf size = some i ∧ b.tail = (sh (.transit t i)).getLastD 0 ∧
      b.count = (sh (.transit t i)).length ∧ b.count ≤ threadLocalCacheBatchSize ∧
      sh (.cache t i) = [] ∧ PurposeOk c y t size use
  | .stocked size i use => originOf size = some i ∧ sh (.cache t i) ≠ [] ∧
      PurposeOk c y t size use
  | .got size p use => PurposeOk c y t size use ∧
      (p ≠ 0 → ⟨p, size, originOf size⟩ ∈ y.live ∧ y.owner p = t ∧
        ∀ ptr copySize, use = .realloc ptr copySize → p ≠ ptr)
  | .free ptr sequel => (∃ g, g.ptr = ptr ∧ Claimed c y t g) ∧ SequelOk y t sequel ∧
      sequel.result ≠ ptr ∧ (y.began t).1.argument = ptr
  | .tagged ptr tag sequel => (∃ g, g.ptr = ptr ∧ Claimed c y t g) ∧ SequelOk y t sequel ∧
      sequel.result ≠ ptr ∧ (y.began t).1.argument = ptr ∧ tag = tagOf y.state.mem ptr
  | .pushed _ sequel => SequelOk y t sequel
  | .detached i _ chainTail sequel => SequelOk y t sequel ∧ ∃ xs,
      sh (.transit t i) = xs ++ [chainTail] ∧ xs.length + 1 = threadLocalCacheBatchSize
  | .realloc ptr newSize => newSize + 47 < 2 ^ 64 ∧ (∃ g, g.ptr = ptr ∧ Claimed c y t g) ∧
      (y.began t).1 = .realloc ptr newSize
  | .retagged ptr newSize tag => newSize + 47 < 2 ^ 64 ∧ (∃ g, g.ptr = ptr ∧ Claimed c y t g) ∧
      (y.began t).1 = .realloc ptr newSize ∧ tag = tagOf y.state.mem ptr

/-- The invariant: ledger and allocator agree on the carved arenas `ts`, the free list `order`
and the shelves `sh`, and so does every thread. -/
structure Consistent (c : Config) (y : System) (ts : List Carved) (order : List Nat)
    (sh : Shelves) : Prop where
  booked : Booked c y.state y.transit y.live ts order sh
  uncaptured : Uncaptured ts sh
  phases : ∀ t, PhaseOk c y sh t (y.phase t)
  cap : ∀ t i, (sh (.cache t i)).length ≤ threadLocalCacheCap + (y.phase t).excess i

/-- The grants of thread `u` that `K` selects are still its own and unchanged. -/
structure Keeps (y y' : System) (u : Tid) (K : Grant → Prop) : Prop where
  began : y'.began u = y.began u
  owned : ∀ g ∈ y.live, y.owner g.ptr = u → K g → g ∈ y'.live ∧ y'.owner g.ptr = u
  spared : ∀ g ∈ y.live, y.owner g.ptr = u → K g → usable y'.state g = usable y.state g ∧
    ∀ x, InPayload y.state g x → y'.state.mem x = y.state.mem x

/-- Every grant. -/
def everyGrant : Grant → Prop := fun _ ↦ True

/-- A step of thread `t` leaves the other threads' phases, slots and blocks as they are. -/
structure Undisturbed (y : System) (sh : Shelves) (t : Tid) (y' : System) (sh' : Shelves) :
    Prop where
  phase : ∀ u, u ≠ t → y'.phase u = y.phase u
  keeps : ∀ u, u ≠ t → Keeps y y' u everyGrant
  cache : ∀ u, u ≠ t → ∀ i, sh' (.cache u i) = sh (.cache u i)
  transit : ∀ u, u ≠ t → ∀ i, sh' (.transit u i) = sh (.transit u i)

variable {c : Config} {y y' : System} {t u : Tid} {ts ts' : List Carved}
  {order order' : List Nat} {sh sh' : Shelves} {g : Grant} {i : Fin numSizeClasses}
  {K : Grant → Prop}

/-! ### What a thread keeps -/

section keeps

/-- The tag word of a grant is fixed by its origin and its usable size. -/
theorem Booked.tag_eq {s s' : State} {tr tr' : Transit} {live live' : List Grant}
    (A : Booked c s tr live ts order sh) (A' : Booked c s' tr' live' ts' order' sh')
    (hg : g ∈ live) (hg' : g ∈ live') (hu : usable s' g = usable s g) :
    tagOf s'.mem g.ptr = tagOf s.mem g.ptr := by
  cases ho : g.origin with
  | some i => rw [A.tag_pooled hg ho, A'.tag_pooled hg' ho]
  | none =>
    obtain ⟨b, hb, -⟩ := A.general g hg ho
    obtain ⟨b', hb', -⟩ := A'.general g hg' ho
    rw [A.tag_general hb, A'.tag_general hb', ← A.usable_general ho hb,
      ← A'.usable_general ho hb', hu]

/-- Routing is fixed by the origin and the usable size. -/
theorem Booked.routed_of_usable {s s' : State} {tr tr' : Transit} {live live' : List Grant}
    (A : Booked c s tr live ts order sh) (A' : Booked c s' tr' live' ts' order' sh')
    (hg : g ∈ live) (hg' : g ∈ live') (hu : usable s' g = usable s g) (hr : Routed c s g) :
    Routed c s' g := by
  rw [A'.routed_iff hg', hu]
  exact (A.routed_iff hg).mp hr

variable {tr tr' : Transit} (A : Booked c y.state tr y.live ts order sh) (N : Keeps y y' u K)
include A N

/-- Copied bytes stay. -/
theorem SequelOk.keep {sequel : Sequel} (h : SequelOk y u sequel)
    (hK : ∀ q n, sequel = .realloc q.ptr n → K q) : SequelOk y' u sequel := by
  cases sequel with
  | free =>
    obtain ⟨ptr, hcall⟩ := h
    exact ⟨ptr, N.began ▸ hcall⟩
  | realloc newPtr copySize =>
    obtain ⟨ptr, newSize, ⟨hcall, hsize⟩, q, hq, rfl, hreq, howner, hbytes⟩ := h
    have hKq := hK q copySize rfl
    obtain ⟨hlive, howner'⟩ := N.owned q hq howner hKq
    obtain ⟨-, hspared⟩ := N.spared q hq howner hKq
    refine ⟨ptr, newSize, ⟨?_, ?_⟩, q, hlive, rfl, hreq, howner', fun k hk ↦ ?_⟩
    · rw [N.began]
      exact hcall
    · rw [N.began]
      exact hsize
    · obtain ⟨g, -, -, hcopy⟩ := hsize
      have hle := A.requested_le hq
      have hin : InPayload y.state q (q.ptr + k) := by
        unfold InPayload
        omega
      rw [N.began, hspared _ hin]
      exact hbytes k hk

variable (A' : Booked c y'.state tr' y'.live ts' order' sh')
include A'

/-- A kept grant stays claimed. -/
theorem Claimed.keep (h : Claimed c y u g) (hK : K g) : Claimed c y' u g := by
  obtain ⟨hlive, howner⟩ := N.owned g h.live h.owner hK
  obtain ⟨husable, hbytes⟩ := N.spared g h.live h.owner hK
  constructor
  · exact hlive
  · exact howner
  · exact A.routed_of_usable A' h.live hlive husable h.routed
  · rw [N.began]
    exact h.before
  · rw [N.began]
    exact h.unique
  · rw [N.began, husable]
    exact h.usable_eq
  · intro x hx
    rw [InPayload, husable] at hx
    rw [N.began, hbytes x hx]
    exact h.bytes x hx

/-- A call keeps moving its block. -/
theorem PurposeOk.keep {size : Nat} {use : Purpose} (h : PurposeOk c y u size use)
    (hK : ∀ g n, use = .realloc g.ptr n → K g) : PurposeOk c y' u size use := by
  cases use with
  | malloc => simpa only [PurposeOk, N.began] using h
  | calloc => simpa only [PurposeOk, N.began] using h
  | realloc ptr copySize =>
    obtain ⟨⟨g, rfl, hg⟩, hcall, hsize⟩ := h
    refine ⟨⟨g, rfl, hg.keep A N A' (hK g copySize rfl)⟩, ?_, ?_⟩
    · rw [N.began]
      exact hcall
    · rw [N.began]
      exact hsize

/-- A tag that was read stays the tag. -/
theorem Claimed.tag_keep (h : Claimed c y u g) (hK : K g) :
    tagOf y'.state.mem g.ptr = tagOf y.state.mem g.ptr :=
  A.tag_eq A' h.live (N.owned g h.live h.owner hK).1 (N.spared g h.live h.owner hK).1

end keeps

section others

variable (A : Booked c y.state y.transit y.live ts order sh) (U : Undisturbed y sh t y' sh')
  (hu : u ≠ t) (A' : Booked c y'.state y'.transit y'.live ts' order' sh')
include A U hu A'

/-- Whatever another thread knows stays true. -/
theorem PhaseOk.other {ph : Phase} (h : PhaseOk c y sh u ph) : PhaseOk c y' sh' u ph := by
  have N := U.keeps u hu
  have hclaim : ∀ {ptr : Nat}, (∃ g, g.ptr = ptr ∧ Claimed c y u g) →
      ∃ g, g.ptr = ptr ∧ Claimed c y' u g := by
    rintro ptr ⟨g, hp, hg⟩
    exact ⟨g, hp, hg.keep A N A' trivial⟩
  have htag : ∀ {ptr : Nat}, (∃ g, g.ptr = ptr ∧ Claimed c y u g) →
      tagOf y.state.mem ptr = tagOf y'.state.mem ptr := by
    rintro ptr ⟨g, rfl, hg⟩
    exact (hg.tag_keep A N A' trivial).symm
  have huse : ∀ {size : Nat} {use : Purpose}, PurposeOk c y u size use →
      PurposeOk c y' u size use := fun h ↦ h.keep A N A' fun _ _ _ ↦ trivial
  have hseq : ∀ {sequel : Sequel}, SequelOk y u sequel → SequelOk y' u sequel :=
    fun h ↦ h.keep A N fun _ _ _ ↦ trivial
  cases ph with
  | unborn => trivial
  | exited => trivial
  | idle result => trivial
  | malloc size use => exact ⟨h.1, huse h.2⟩
  | refilled size i b use =>
    obtain ⟨ho, htail, hcount, hle, hcache, h⟩ := h
    rw [← U.transit u hu i] at htail hcount
    rw [← U.cache u hu i] at hcache
    exact ⟨ho, htail, hcount, hle, hcache, huse h⟩
  | stocked size i use =>
    obtain ⟨ho, hcache, h⟩ := h
    rw [← U.cache u hu i] at hcache
    exact ⟨ho, hcache, huse h⟩
  | got size p use =>
    refine ⟨huse h.1, fun hp ↦ ?_⟩
    obtain ⟨hlive, howner, hne⟩ := h.2 hp
    obtain ⟨hlive', howner'⟩ := N.owned _ hlive howner trivial
    exact ⟨hlive', howner', hne⟩
  | free ptr sequel =>
    refine ⟨hclaim h.1, hseq h.2.1, h.2.2.1, ?_⟩
    rw [N.began]
    exact h.2.2.2
  | tagged ptr tag sequel =>
    refine ⟨hclaim h.1, hseq h.2.1, h.2.2.1, ?_, h.2.2.2.2.trans (htag h.1)⟩
    rw [N.began]
    exact h.2.2.2.1
  | pushed i sequel => exact hseq h
  | detached i chainHead chainTail sequel =>
    obtain ⟨h, hbatch⟩ := h
    rw [← U.transit u hu i] at hbatch
    exact ⟨hseq h, hbatch⟩
  | realloc ptr newSize =>
    refine ⟨h.1, hclaim h.2.1, ?_⟩
    rw [N.began]
    exact h.2.2
  | retagged ptr newSize tag =>
    refine ⟨h.1, hclaim h.2.1, ?_, h.2.2.2.trans (htag h.2.1)⟩
    rw [N.began]
    exact h.2.2.1

end others

/-- A step of thread `t` keeps the invariant when it keeps what `t` itself relies on. -/
theorem Consistent.next (C : Consistent c y ts order sh) (U : Undisturbed y sh t y' sh')
    (booked : Booked c y'.state y'.transit y'.live ts' order' sh')
    (uncaptured : Uncaptured ts' sh') (phase : PhaseOk c y' sh' t (y'.phase t))
    (cap : ∀ i, (sh' (.cache t i)).length ≤ threadLocalCacheCap + (y'.phase t).excess i) :
    Consistent c y' ts' order' sh' where
  booked := booked
  uncaptured := uncaptured
  phases u := by
    by_cases hu : u = t
    · rwa [hu]
    · rw [U.phase u hu]
      exact (C.phases u).other C.booked U hu booked
  cap u i := by
    by_cases hu : u = t
    · rw [hu]
      exact cap i
    · rw [U.cache u hu i, U.phase u hu]
      exact C.cap u i

end CustomAllocator
