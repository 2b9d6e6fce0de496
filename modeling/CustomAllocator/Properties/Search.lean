import CustomAllocator.Layout.Density
import CustomAllocator.Properties.SharedHeap

/-!
# The length of a search

Coalescing leaves no two free blocks side by side. So the free list is no longer than the blocks
that clients hold and the arenas are many, and `find_first_fit` visits no more nodes than that,
whatever was freed before.
-/

namespace CustomAllocator
open CustomAllocator.Base

/-- How many live blocks the general path serves. -/
def System.generalLive (y : System) : Nat :=
  (y.live.filter fun g ↦ decide (g.origin = none)).length

variable {c : Config} {y : System} {ts : List Carved} {order : List Nat} {sh : Shelves}

/-- Every allocated block is live. -/
theorem Consistent.allocated_le (C : Consistent c y ts order sh) :
    (allocatedOf ts).length ≤ y.generalLive := by
  have P := C.booked.coherent.heap.rep.placed
  have hnd : ((allocatedOf ts).map fun b ↦ b.addr + 16).Nodup := by
    have hall := P.nodup_addr.map (f := (· + 16)) fun a b h ↦ Nat.add_right_cancel h
    rw [List.map_map] at hall
    exact hall.sublist (List.filter_sublist.map _)
  have hsub : ((allocatedOf ts).map fun b ↦ b.addr + 16) ⊆
      (y.live.filter fun g ↦ decide (g.origin = none)).map Grant.ptr := by
    intro p hp
    obtain ⟨b, hb, rfl⟩ := List.mem_map.mp hp
    have hb := mem_allocatedOf.mp hb
    rcases C.booked.blocks b hb with ⟨g, hg, ho, hptr⟩ | ⟨i, hs⟩
    · exact List.mem_map.mpr ⟨g, List.mem_filter.mpr ⟨hg, by simpa using ho⟩, hptr⟩
    · exact absurd hs (C.uncaptured b hb i)
  simpa [System.generalLive] using (List.subperm_of_subset hnd hsub).length_le

/-- In every interleaving the free list is no longer than the live blocks of the general path and
the arenas are many, and no search visits more nodes than that. -/
theorem search_bounded (h : System.Reachable c y) : ∃ l, FreeListExact y.state l ∧
    l.length ≤ y.generalLive + y.state.arenas.length ∧
    ∀ size, FreeList.findFrom c y.state.mem size (y.generalLive + y.state.arenas.length + 1)
      y.state.freeHead = FreeList.findFirstFit c y.state.mem y.state.freeHead size := by
  obtain ⟨ts, order, sh, C⟩ := h.consistent
  have H := C.booked.coherent.heap
  have hle : order.length ≤ y.generalLive + y.state.arenas.length := by
    have := H.order_le
    have := C.allocated_le
    omega
  refine ⟨order, (C.booked.tiled C.uncaptured).freeListExact, hle, fun size ↦ ?_⟩
  rw [H.rep.findFirstFit]
  exact FreeList.findFrom_spec c size H.rep.links.chain (H.rep.freeNodes H.rep.listed).free
    (Nat.lt_succ_of_le hle)

/-- Two live blocks and one arena, while one of the blocks is being moved. -/
theorem search_bounded_contended : ∃ l, FreeListExact System.contended.state l ∧ l.length ≤ 3 ∧
    ∀ size, FreeList.findFrom .fixedBase System.contended.state.mem size (3 + 1)
      System.contended.state.freeHead =
        FreeList.findFirstFit .fixedBase System.contended.state.mem System.contended.state.freeHead
          size := by
  have hbound : System.contended.generalLive + System.contended.state.arenas.length = 3 := by
    decide +kernel
  have h := search_bounded System.contended_reachable
  rwa [hbound] at h

end CustomAllocator
