import CustomAllocator.Layout.Canonical
import CustomAllocator.Client.Runs

/-!
# The general heap in a routed session

While every pointer is routed to where it came from, no block is taken for a slot, so memory
spells out the tiling in full: every header, allocated or free, holds its block's size and
flag, and the allocated blocks are exactly those of live general pointers.
-/

namespace CustomAllocator
open CustomAllocator.Base

/-- Memory spells out the carved arenas `ts` and the free list `order`: the general invariant
holds and every header is intact. -/
structure Tiled (s : State) (ts : List Carved) (order : List Nat) : Prop where
  heap : GeneralHeap s.mem s.freeHead s.arenas ts order
  headed : ∀ b ∈ blocksOf ts, Headed s.mem b
  occupied : ∀ a ∈ s.arenas, 0 < a.used

variable {c : Config} {s s' : State} {tr : Transit} {live live' : List Grant}
  {ts : List Carved} {order order' : List Nat} {sh sh' : Shelves} {g : Grant} {b : Block}

namespace Booked

/-- An allocated block that no pool has taken belongs to a live general pointer. -/
theorem owner (A : Booked c s tr live ts order sh) (hun : Uncaptured ts sh)
    (hb : Allocated ts b) : ∃ g ∈ live, g.origin = none ∧ OwnsBlock s.mem ts g b := by
  rcases A.blocks b hb with ⟨g, hg, ho, hp⟩ | ⟨i, hs⟩
  · obtain ⟨d, hd, -⟩ := A.general g hg ho
    have hdb : d = b := A.coherent.heap.rep.placed.block_eq_of_addr hd.allocated.1 hb.1
      (by have := hd.ptr_eq; omega)
    exact ⟨g, hg, ho, hdb ▸ hd⟩
  · exact absurd hs (hun b hb i)

/-- Every header is intact. -/
theorem tiled (A : Booked c s tr live ts order sh) (hun : Uncaptured ts sh) :
    Tiled s ts order where
  heap := A.coherent.heap
  headed b hb := by
    cases hf : b.free with
    | true => exact (A.coherent.heap.rep.tagged b hb).header hf
    | false =>
      obtain ⟨g, -, -, hown⟩ := A.owner hun ⟨hb, hf⟩
      exact hown.headed
  occupied := A.occupied

/-- A block is allocated exactly when its payload address is a live pointer. -/
theorem allocated_iff (A : Booked c s tr live ts order sh) (hun : Uncaptured ts sh)
    (hb : b ∈ blocksOf ts) : b.free = false ↔ ∃ g ∈ live, g.ptr = b.addr + 16 := by
  constructor
  · intro hf
    obtain ⟨g, hg, -, hown⟩ := A.owner hun ⟨hb, hf⟩
    exact ⟨g, hg, hown.ptr_eq⟩
  · rintro ⟨g, hg, hp⟩
    cases ho : g.origin with
    | none =>
      obtain ⟨d, hd, -⟩ := A.general g hg ho
      have hdb : d = b := A.coherent.heap.rep.placed.block_eq_of_addr hd.allocated.1 hb
        (by have := hd.ptr_eq; omega)
      exact hdb ▸ hd.allocated.2
    | some i =>
      obtain ⟨x, hx, hxp, -⟩ := A.pooled g hg i ho
      have hcls := classSize_bounds i
      rcases A.coherent.slot_block (stands_of_live hx) hb with h | h | ⟨-, hf⟩
      · omega
      · unfold Block.stop at h
        omega
      · exact hf

end Booked

/-- Two ledgers with the same general pointers describe the same tiling of the same arenas. -/
theorem Tiled.canonical (T : Tiled s ts order) {ts' : List Carved} (T' : Tiled s' ts' order')
    (harenas : s'.arenas = s.arenas) (halloc : ∀ d, Allocated ts d ↔ Allocated ts' d) :
    ts = ts' ∧ order.Perm order' := by
  have H' : GeneralHeap s'.mem s'.freeHead s.arenas ts' order' := harenas ▸ T'.heap
  obtain rfl := T.heap.canonical H' halloc
  exact ⟨rfl, T.heap.order_perm H'⟩

/-- Every routed session has a tiled heap. -/
theorem Reachable.tiled {t : Tid} {w : Session} (h : Reachable c t (routedCall c) w) :
    ∃ ts order, Tiled w.state ts order := by
  obtain ⟨ts, order, sh, A, hun⟩ := h.routed
  exact ⟨ts, order, A.tiled hun⟩

end CustomAllocator
