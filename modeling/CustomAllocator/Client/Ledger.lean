import CustomAllocator.Alloc.Api
import CustomAllocator.Client.Coherent

/-!
# The client's ledger

What the client holds: one entry for each pointer it was given and has not returned.
`Booked` says that the ledger and the allocator agree, `Accounted` that they do between calls. An
entry owns the payload of one allocated block or of one live slot, and payloads share no byte with
each other or with any header, footer, link or slot word.
-/

namespace CustomAllocator
open CustomAllocator.Base

/-! ### Which path serves a request -/

/-- The pool that serves a request of `size` bytes, or `none` for the general path. -/
def originOf (size : Nat) : Option (Fin numSizeClasses) :=
  if h : poolIndexForSizeClass (sizeClassFor size) < numSizeClasses then some ⟨_, h⟩ else none

private theorem sizeClassFor_cases (size : Nat) :
    (∃ i : Fin numSizeClasses, sizeClassFor size = classSize i ∧ size ≤ classSize i) ∨
      sizeClassFor size = noSizeClass ∧ 4096 < size := by
  unfold sizeClassFor
  cases h : sizeClasses.find? fun sizeClass ↦ decide (size ≤ sizeClass) with
  | some k =>
    obtain ⟨n, hn, hk⟩ := List.mem_iff_getElem.mp (List.mem_of_find?_eq_some h)
    have hle : size ≤ k := by simpa using List.find?_some h
    have hi : classSize ⟨n, hn⟩ = k := hk
    exact .inl ⟨⟨n, hn⟩, hi.symm, hi.symm ▸ hle⟩
  | none =>
    have := List.find?_eq_none.mp h 4096 (by decide)
    exact .inr ⟨rfl, by simpa using this⟩

private theorem poolIndex_classSize (i : Fin numSizeClasses) :
    poolIndexForSizeClass (classSize i) = i := by
  revert i
  decide

private theorem poolIndex_noSizeClass : poolIndexForSizeClass noSizeClass = numSizeClasses := by
  decide

private theorem classSize_ne_noSizeClass (i : Fin numSizeClasses) : classSize i ≠ noSizeClass := by
  revert i
  decide

/-- The general path serves exactly the sizes above the largest class. -/
theorem originOf_eq_none {size : Nat} : originOf size = none ↔ 4096 < size := by
  unfold originOf
  rcases sizeClassFor_cases size with ⟨i, hi, hle⟩ | ⟨h, hlt⟩
  · have := classSize_bounds i
    simp only [hi, poolIndex_classSize, i.isLt, dite_true, reduceCtorEq, false_iff]
    omega
  · simp only [h, poolIndex_noSizeClass, Nat.lt_irrefl, dite_false, true_iff]
    exact hlt

/-- A pool serves only sizes its slots can hold. -/
theorem originOf_eq_some {size : Nat} {i : Fin numSizeClasses} (h : originOf size = some i) :
    size ≤ classSize i := by
  unfold originOf at h
  rcases sizeClassFor_cases size with ⟨j, hj, hle⟩ | ⟨hn, -⟩
  · simp only [hj, poolIndex_classSize, j.isLt, dite_true, Option.some.injEq] at h
    exact h ▸ hle
  · simp [hn, poolIndex_noSizeClass] at h

/-- `my_malloc` takes the path of the request's origin. -/
theorem myMalloc_eq (c : Config) (s : State) (t : Tid) (size : Nat) :
    myMalloc c s t size =
      match originOf size with
      | none => mallocGeneral c s size
      | some i => mallocPooled c s t i := by
  unfold myMalloc originOf
  rcases sizeClassFor_cases size with ⟨i, hi, -⟩ | ⟨h, -⟩
  · simp [hi, classSize_ne_noSizeClass, poolIndex_classSize]
  · simp [h, poolIndex_noSizeClass]

/-! ### Ledger entries -/

/-- A pointer the client holds, the size last requested for it, and the pool it came from. -/
structure Grant where
  ptr : Nat
  requested : Nat
  origin : Option (Fin numSizeClasses)
  deriving DecidableEq, Repr

/-- The usable bytes of a grant: the payload size of its pool, or `get_size()` of its block. -/
def usable (s : State) (g : Grant) : Nat :=
  match g.origin with
  | some i => (s.pools i).slotPayloadSize
  | none => getSize s.mem (headerOf g.ptr)

/-- The address `x` lies in the usable range of the grant. -/
def InPayload (s : State) (g : Grant) (x : Nat) : Prop := g.ptr ≤ x ∧ x < g.ptr + usable s g

/-- The grant is the payload of block `b`. -/
structure OwnsBlock (m : Mem) (ts : List Carved) (g : Grant) (b : Block) : Prop where
  allocated : Allocated ts b
  ptr_eq : g.ptr = b.addr + 16
  headed : Headed m b
  requested_le : g.requested ≤ b.size

/-- The ledger `live` and the allocator agree, with the batches of `tr` in transit. -/
structure Booked (c : Config) (s : State) (tr : Transit) (live : List Grant) (ts : List Carved)
    (order : List Nat) (sh : Shelves) : Prop where
  coherent : Coherent c s tr ts order sh
  general : ∀ g ∈ live, g.origin = none →
    ∃ b, OwnsBlock s.mem ts g b ∧ ∀ i, ¬ Stands sh i b.addr
  pooled : ∀ g ∈ live, ∀ i, g.origin = some i →
    ∃ x ∈ sh (.live i), g.ptr = x + 16 ∧ g.requested ≤ classSize i
  blocks : ∀ b, Allocated ts b →
    (∃ g ∈ live, g.origin = none ∧ g.ptr = b.addr + 16) ∨ ∃ i, Stands sh i b.addr
  slots : ∀ i, ∀ x ∈ sh (.live i), ∃ g ∈ live, g.origin = some i ∧ g.ptr = x + 16
  nodup : (live.map Grant.ptr).Nodup
  occupied : ∀ a ∈ s.arenas, 0 < a.used

/-- The ledger `live` and the allocator agree between calls. -/
structure Accounted (c : Config) (s : State) (live : List Grant) (ts : List Carved)
    (order : List Nat) (sh : Shelves) : Prop
    extends Booked c s noTransit live ts order sh where
  settled : Settled c s sh

variable {c : Config} {s : State} {tr : Transit} {live : List Grant} {ts : List Carved}
  {order : List Nat} {sh : Shelves} {g g' : Grant} {b : Block} {i : Fin numSizeClasses} {x y : Nat}

theorem OwnsBlock.headerOf_eq {m : Mem} (P : Placed ts) (h : OwnsBlock m ts g b) :
    headerOf g.ptr = b.addr := by
  have := P.block_bounds h.allocated.1
  rw [h.ptr_eq, headerOf_add (by omega)]

/-- A live slot stands in its class. -/
theorem stands_of_live (hx : x ∈ sh (.live i)) : Stands sh i x := ⟨.live i, rfl, hx⟩

namespace Booked

/-- A pointer has one entry. -/
theorem grant_eq (A : Booked c s tr live ts order sh) (hg : g ∈ live) (hg' : g' ∈ live)
    (h : g.ptr = g'.ptr) : g = g' :=
  List.inj_on_of_nodup_map A.nodup hg hg' h

/-- The usable bytes of a general grant are the payload of its block. -/
theorem usable_general (A : Booked c s tr live ts order sh) (ho : g.origin = none)
    (hb : OwnsBlock s.mem ts g b) : usable s g = b.size := by
  have P := A.coherent.heap.rep.placed
  simp only [usable, ho, hb.headerOf_eq P]
  exact hb.headed.getSize (P.block_wf hb.allocated.1)

/-- The usable bytes of a pooled grant are its class. -/
theorem usable_pooled (A : Booked c s tr live ts order sh) (ho : g.origin = some i) :
    usable s g = classSize i := by
  simp only [usable, ho]
  exact (A.coherent.shelved.shape i).payload_eq

/-- A usable range is as long as what was requested. -/
theorem requested_le (A : Booked c s tr live ts order sh) (hg : g ∈ live) :
    g.requested ≤ usable s g := by
  cases ho : g.origin with
  | none =>
    obtain ⟨b, hb, -⟩ := A.general g hg ho
    rw [A.usable_general ho hb]
    exact hb.requested_le
  | some i =>
    obtain ⟨x, -, -, hle⟩ := A.pooled g hg i ho
    rw [A.usable_pooled ho]
    exact hle

/-- A usable range lies in one mapped region. -/
theorem payload_region (A : Booked c s tr live ts order sh) (hg : g ∈ live) :
    ∃ r ∈ s.os.mapped, r.base ≤ g.ptr ∧ g.ptr + usable s g ≤ r.stop := by
  have hblock : ∀ d ∈ blocksOf ts, ∃ r ∈ s.os.mapped, r.base ≤ d.addr ∧ d.stop ≤ r.stop := by
    intro d hd
    obtain ⟨a, ha, hlo, hhi⟩ := A.coherent.block_region hd
    exact ⟨a.region, A.coherent.regions.arena_mapped ha, hlo, hhi⟩
  cases ho : g.origin with
  | none =>
    obtain ⟨b, hb, -⟩ := A.general g hg ho
    obtain ⟨r, hr, hlo, hhi⟩ := hblock b hb.allocated.1
    rw [A.usable_general ho hb, hb.ptr_eq]
    exact ⟨r, hr, by omega, by unfold Block.stop at hhi; omega⟩
  | some i =>
    obtain ⟨x, hx, hptr, -⟩ := A.pooled g hg i ho
    rw [A.usable_pooled ho, hptr]
    rcases A.coherent.slots i x (stands_of_live hx) with h | ⟨d, hd, rfl⟩
    · obtain ⟨r, hr, hlo, hhi⟩ := h.bounds
      exact ⟨r, A.coherent.regions.pool_mapped hr, by omega, by omega⟩
    · obtain ⟨r, hr, hlo, hhi⟩ := hblock d hd.1
      have := A.coherent.heap.large d hd.1 hd.2
      have := classSize_bounds i
      exact ⟨r, hr, by omega, by unfold Block.stop at hhi; omega⟩

/-- Every pointer the client holds is aligned and not null. -/
theorem ptr_aligned (A : Booked c s tr live ts order sh) (hg : g ∈ live) :
    g.ptr % 16 = 0 ∧ 16 < g.ptr ∧ g.ptr < 2 ^ 64 := by
  cases ho : g.origin with
  | none =>
    obtain ⟨b, hb, -⟩ := A.general g hg ho
    have hw := A.coherent.heap.rep.placed.block_wf hb.allocated.1
    have := A.coherent.heap.rep.placed.block_bounds hb.allocated.1
    have := hw.addr_aligned
    rw [hb.ptr_eq]
    omega
  | some i =>
    obtain ⟨x, hx, hptr, -⟩ := A.pooled g hg i ho
    have := A.coherent.slotAddr (stands_of_live hx)
    unfold SlotAddr at this
    omega

/-- No payload meets the header word of a slot. -/
theorem payload_slot (A : Booked c s tr live ts order sh) (hg : g ∈ live) (hx : InPayload s g x)
    (hy : Stands sh i y) : x < y ∨ y + 16 ≤ x := by
  obtain ⟨hlo, hhi⟩ := hx
  have hcls := classSize_bounds i
  cases ho : g.origin with
  | none =>
    obtain ⟨b, hb, hnot⟩ := A.general g hg ho
    rw [A.usable_general ho hb] at hhi
    have hptr := hb.ptr_eq
    rcases A.coherent.slot_block hy hb.allocated.1 with h | h | ⟨rfl, -⟩
    · omega
    · unfold Block.stop at h
      omega
    · exact absurd hy (hnot i)
  | some j =>
    obtain ⟨z, hz, hptr, -⟩ := A.pooled g hg j ho
    rw [A.usable_pooled ho] at hhi
    by_cases hzy : z = y
    · omega
    · have := A.coherent.slot_slot (stands_of_live hz) hy hzy
      omega

/-- A payload meets a block only inside the payload of an allocated block. -/
theorem payload_block (A : Booked c s tr live ts order sh) (hg : g ∈ live) (hx : InPayload s g x)
    (hb : b ∈ blocksOf ts) (hbx : b.Covers x) :
    b.free = false ∧ b.addr + 16 ≤ x ∧ x < b.addr + 16 + b.size := by
  obtain ⟨hlo, hhi⟩ := hx
  have hcov := hbx
  simp only [Block.Covers] at hcov
  cases ho : g.origin with
  | none =>
    obtain ⟨d, hd, -⟩ := A.general g hg ho
    rw [A.usable_general ho hd] at hhi
    have hptr := hd.ptr_eq
    have hdb := A.coherent.heap.rep.placed.block_eq hd.allocated.1 hb
      ⟨by omega, by unfold Block.stop; omega⟩ hbx
    subst hdb
    exact ⟨hd.allocated.2, by omega, by omega⟩
  | some j =>
    obtain ⟨z, hz, hptr, -⟩ := A.pooled g hg j ho
    rw [A.usable_pooled ho] at hhi
    have hcls := classSize_bounds j
    rcases A.coherent.slot_block (stands_of_live hz) hb with h | h | ⟨rfl, hf⟩
    · omega
    · omega
    · have := A.coherent.heap.large b hb hf
      exact ⟨hf, by omega, by omega⟩

/-- Payloads of distinct grants share no byte. -/
theorem payload_apart (A : Booked c s tr live ts order sh) (hg : g ∈ live) (hg' : g' ∈ live)
    (hne : g ≠ g') (hx : InPayload s g x) : ¬ InPayload s g' x := by
  have hptr : g.ptr ≠ g'.ptr := fun h ↦ hne (A.grant_eq hg hg' h)
  rintro hx'
  cases ho : g.origin with
  | none =>
    obtain ⟨b, hb, hnot⟩ := A.general g hg ho
    have hu := A.usable_general ho hb
    have hbp := hb.ptr_eq
    have hbx : b.Covers x := by
      simp only [InPayload, hu, hbp] at hx
      exact ⟨by omega, by unfold Block.stop; omega⟩
    cases ho' : g'.origin with
    | none =>
      obtain ⟨d, hd, -⟩ := A.general g' hg' ho'
      have hdp := hd.ptr_eq
      simp only [InPayload, A.usable_general ho' hd, hdp] at hx'
      have := A.coherent.heap.rep.placed.block_eq hd.allocated.1 hb.allocated.1
        ⟨by omega, by unfold Block.stop; omega⟩ hbx
      exact hptr (by rw [hbp, hdp, this])
    | some j =>
      obtain ⟨z, hz, hzp, -⟩ := A.pooled g' hg' j ho'
      have hst := stands_of_live hz
      simp only [InPayload, A.usable_pooled ho'] at hx'
      simp only [Block.Covers] at hbx
      rcases A.coherent.slot_block hst hb.allocated.1 with h | h | ⟨rfl, -⟩
      · omega
      · omega
      · exact hnot j hst
  | some i =>
    obtain ⟨y, hy, hyp, -⟩ := A.pooled g hg i ho
    have hst := stands_of_live hy
    have hx := hx
    simp only [InPayload, A.usable_pooled ho] at hx
    cases ho' : g'.origin with
    | none =>
      obtain ⟨b, hb, hnot⟩ := A.general g' hg' ho'
      have hbp := hb.ptr_eq
      simp only [InPayload, A.usable_general ho' hb, hbp] at hx'
      rcases A.coherent.slot_block hst hb.allocated.1 with h | h | ⟨rfl, -⟩
      · omega
      · unfold Block.stop at h
        omega
      · exact hnot i hst
    | some j =>
      obtain ⟨z, hz, hzp, -⟩ := A.pooled g' hg' j ho'
      simp only [InPayload, A.usable_pooled ho'] at hx'
      have := A.coherent.slot_slot hst (stands_of_live hz) (by omega)
      omega

/-- Whatever is written into payloads, the ledger stays accounted for. -/
theorem write (A : Booked c s tr live ts order sh) (m' : Mem)
    (hm : ∀ x, m' x ≠ s.mem x → ∃ g ∈ live, InPayload s g x) :
    Booked c { s with mem := m' } tr live ts order sh ∧
      ∀ g ∈ live, usable { s with mem := m' } g = usable s g := by
  have hblock : ∀ b ∈ blocksOf ts, ∀ x, b.Covers x →
      (b.free = false → x < b.addr + 16 ∨ b.addr + 16 + b.size ≤ x) → m' x = s.mem x := by
    intro b hb x hbx hout
    by_contra hne
    obtain ⟨g, hg, hx⟩ := hm x hne
    obtain ⟨hf, hlo, hhi⟩ := A.payload_block hg hx hb hbx
    have := hout hf
    omega
  have hhead : ∀ b, Allocated ts b → read64 m' b.addr = read64 s.mem b.addr := fun b hb ↦
    read64_congr fun k hk ↦ hblock b hb.1 _ ⟨by omega, by unfold Block.stop; omega⟩
      fun _ ↦ .inl (by omega)
  have hfoot : ∀ b, Allocated ts b →
      read64 m' (b.addr + 16 + b.size) = read64 s.mem (b.addr + 16 + b.size) := fun b hb ↦
    read64_congr fun k hk ↦ hblock b hb.1 _ ⟨by omega, by unfold Block.stop; omega⟩
      fun _ ↦ .inr (by omega)
  have hslots : ∀ i x, Stands sh i x → read64 m' x = read64 s.mem x := by
    refine fun i x hx ↦ read64_congr fun k hk ↦ ?_
    by_contra hne
    obtain ⟨g, hg, hxg⟩ := hm _ hne
    have := A.payload_slot hg hxg hx
    omega
  have C' := A.coherent.write (fun b hb hf x hx ↦ hblock b hb x hx fun h ↦ by simp [hf] at h)
    hfoot hhead hslots
  have hown : ∀ g b, OwnsBlock s.mem ts g b → OwnsBlock m' ts g b := fun g b hb ↦
    ⟨hb.allocated, hb.ptr_eq, (hhead b hb.allocated).trans hb.headed, hb.requested_le⟩
  have A' : Booked c { s with mem := m' } tr live ts order sh :=
    ⟨C', fun g hg ho ↦ by
      obtain ⟨b, hb, hn⟩ := A.general g hg ho
      exact ⟨b, hown g b hb, hn⟩, A.pooled, A.blocks, A.slots, A.nodup, A.occupied⟩
  refine ⟨A', fun g hg ↦ ?_⟩
  cases ho : g.origin with
  | none =>
    obtain ⟨b, hb, -⟩ := A.general g hg ho
    rw [A.usable_general ho hb, A'.usable_general ho (hown g b hb)]
  | some i => rw [A.usable_pooled ho, A'.usable_pooled ho]

end Booked

/-- The same between calls. -/
theorem Accounted.write (A : Accounted c s live ts order sh) (m' : Mem)
    (hm : ∀ x, m' x ≠ s.mem x → ∃ g ∈ live, InPayload s g x) :
    Accounted c { s with mem := m' } live ts order sh ∧
      ∀ g ∈ live, usable { s with mem := m' } g = usable s g := by
  obtain ⟨B, hu⟩ := A.toBooked.write m' hm
  exact ⟨⟨B, ⟨B.coherent.shelved, A.settled.idle, A.settled.cap⟩⟩, hu⟩

end CustomAllocator
