import CustomAllocator.Client.Runs

/-!
# Heap safety

In every session of a single-threaded run, whatever the client stored, live ranges are
aligned, long enough, inside one mapped region, apart from each other and from every word the
allocator keeps; and each further call spares the ranges it was not given.
-/

namespace CustomAllocator
open CustomAllocator.Base

/-- The address `x` belongs to the allocator's own data: the header or footer of a carved block,
the links of a free block, or the header of a carved slot. -/
def Metadata (s : State) (ts : List Carved) (x : Nat) : Prop :=
  (∃ b ∈ blocksOf ts, (b.addr ≤ x ∧ x < b.addr + sizeofBlockHeader) ∨
    (b.addr + 16 + b.size ≤ x ∧ x < b.addr + 16 + b.size + sizeofBlockFooter) ∨
    b.free = true ∧ b.addr + 16 ≤ x ∧ x < b.addr + 16 + sizeofFreeListLinks) ∨
  ∃ i y, CarvedFrom (classSize i + 16) (s.pools i).arenas y ∧
    y ≤ x ∧ x < y + sizeofPoolSlotHeader

namespace Accounted

variable {c : Config} {s : State} {live : List Grant} {ts : List Carved} {order : List Nat}
  {sh : Shelves} {g : Grant} {x : Nat}

/-- No payload meets the allocator's own data. -/
theorem payload_metadata (A : Accounted c s live ts order sh) (hg : g ∈ live)
    (hx : InPayload s g x) : ¬ Metadata s ts x := by
  rintro (⟨b, hb, hcase⟩ | ⟨i, y, hy, hlo, hhi⟩)
  · unfold sizeofBlockHeader sizeofBlockFooter sizeofFreeListLinks at hcase
    have hw := (A.coherent.heap.rep.placed.block_wf hb).size_min
    have hbx : b.Covers x := by
      unfold Block.Covers Block.stop
      omega
    obtain ⟨hf, hlo, hhi⟩ := A.payload_block hg hx hb hbx
    rcases hcase with h | h | ⟨h, -⟩
    · omega
    · omega
    · simp [hf] at h
  · unfold sizeofPoolSlotHeader at hhi
    have := A.payload_slot hg hx (A.coherent.carved i y hy)
    omega

end Accounted

/-- The carved arenas as memory records them: blocks tile each arena's carved part, headers and
footers hold their sizes, and the free list is threaded through the free blocks. -/
def Carves (s : State) (ts : List Carved) : Prop :=
  s.arenas = ts.map Carved.arena ∧ ∃ order, Represents s.mem s.freeHead ts order

/-- What a client may rely on in a session. -/
structure HeapSafe (c : Config) (t : Tid) (w : Session) : Prop where
  aligned : ∀ g ∈ w.live, g.ptr % 16 = 0
  long_enough : ∀ g ∈ w.live, g.requested ≤ usable w.state g
  mapped : ∀ g ∈ w.live, ∃ r ∈ w.state.os.mapped,
    r.base ≤ g.ptr ∧ g.ptr + usable w.state g ≤ r.stop
  distinct : (w.live.map Grant.ptr).Nodup
  disjoint : ∀ g ∈ w.live, ∀ g' ∈ w.live, g.ptr ≠ g'.ptr →
    ∀ x, InPayload w.state g x → ¬ InPayload w.state g' x
  own_data : ∃ ts, Carves w.state ts ∧
    ∀ g ∈ w.live, ∀ x, InPayload w.state g x → ¬ Metadata w.state ts x
  calls : ∀ call : Call, call.Legal w.live → call.Fits →
    ∃ s' r, exec c w.state t call = .ok (s', r) ∧
      ∀ g ∈ w.live, g.ptr ≠ call.argument → usable s' g = usable w.state g ∧
        ∀ x, InPayload w.state g x → s'.mem x = w.state.mem x

variable {c : Config} {t : Tid} {w : Session}

/-- Every session of a run is safe. -/
theorem heap_safety (h : Reachable c t anyCall w) : HeapSafe c t w := by
  obtain ⟨ts, order, sh, A, -⟩ := h.accounted
  refine ⟨fun g hg ↦ (A.ptr_aligned hg).1, fun g hg ↦ A.requested_le hg,
    fun g hg ↦ A.payload_region hg, A.nodup,
    fun g hg g' hg' hne x hx ↦ A.payload_apart hg hg' (fun he ↦ hne (he ▸ rfl)) hx,
    ⟨ts, ⟨A.coherent.heap.arenas_eq, order, A.coherent.heap.rep⟩,
      fun g hg x hx ↦ A.payload_metadata hg hx⟩, fun call legal fits ↦ ?_⟩
  obtain ⟨s', r, _, _, _, hrun, -, hsp, -⟩ := A.exec t legal fits
  exact ⟨s', r, hrun, fun g hg hne ↦ hsp g (mem_without.mpr ⟨hg, hne⟩)⟩

theorem heap_safety_twoBlocks : Session.twoBlocks.live.length = 2 ∧
    HeapSafe .fixedBase 0 .twoBlocks :=
  ⟨by rw [Session.twoBlocks_live]; rfl,
    heap_safety (Session.twoBlocks_reachable fun _ _ _ ↦ trivial)⟩

end CustomAllocator
