import CustomAllocator.Layout.Canonical

/-!
# How many blocks are free

The blocks of all arenas have different addresses, and coalescing leaves at most one free block
between two allocated ones: free blocks are few when allocated ones are.
-/

namespace CustomAllocator
open CustomAllocator.Base

/-- The allocated blocks. -/
def allocatedOf (ts : List Carved) : List Block := (blocksOf ts).filter fun b ↦ !b.free

/-- The free blocks. -/
def freeOf (ts : List Carved) : List Block := (blocksOf ts).filter Block.free

variable {ts : List Carved} {order : List Nat} {b : Block} {m : Mem} {head : Nat}
  {arenas : List Arena}

@[simp] theorem mem_allocatedOf : b ∈ allocatedOf ts ↔ Allocated ts b := by
  simp [allocatedOf, Allocated]

theorem allocatedOf_cons (t : Carved) (ts : List Carved) :
    allocatedOf (t :: ts) = (t.blocks.filter fun b ↦ !b.free) ++ allocatedOf ts := by
  simp [allocatedOf, blocksOf]

theorem freeOf_cons (t : Carved) (ts : List Carved) :
    freeOf (t :: ts) = t.blocks.filter Block.free ++ freeOf ts := by
  simp [freeOf, blocksOf]

/-- The blocks of all arenas have different addresses. -/
theorem Placed.nodup_addr (P : Placed ts) : ((blocksOf ts).map Block.addr).Nodup := by
  have hinj : ∀ b ∈ blocksOf ts, ∀ d ∈ blocksOf ts, b.addr = d.addr → b = d :=
    fun b hb d hd ↦ P.block_eq_of_addr hb hd
  apply List.Nodup.map_on hinj
  unfold blocksOf
  rw [List.nodup_flatMap]
  constructor
  · intro t ht
    exact (P.wf t ht).tiling.nodup
  · refine (List.pairwise_map.mp P.apart).imp_of_mem fun {t u} ht hu happart ↦
      List.disjoint_left.mpr fun b hbt hbu ↦ ?_
    have hbt := (P.wf t ht).bounds hbt
    have hbu := (P.wf u hu).bounds hbu
    have := (P.wf t ht).used_le
    have := (P.wf u hu).used_le
    simp only [OsRegion.Apart, OsRegion.stop, Arena.region] at happart
    omega

/-- There is at most one free block more in each arena than there are allocated ones. -/
theorem freeOf_le : ∀ {ts : List Carved}, (∀ t ∈ ts, Separated t.blocks) →
    (freeOf ts).length ≤ (allocatedOf ts).length + ts.length
  | [], _ => Nat.le_refl _
  | t :: ts, h => by
    have hrest := freeOf_le fun u hu ↦ h u (List.mem_cons_of_mem t hu)
    have ht := countP_le_of_isChain (h t List.mem_cons_self)
    rw [List.countP_eq_length_filter, List.countP_eq_length_filter] at ht
    rw [freeOf_cons, allocatedOf_cons, List.length_append, List.length_append, List.length_cons]
    omega

/-- The list is no longer than the allocated blocks and the arenas are many. -/
theorem GeneralHeap.order_le (H : GeneralHeap m head arenas ts order) :
    order.length ≤ (allocatedOf ts).length + arenas.length := by
  have hsub : order ⊆ (freeOf ts).map Block.addr := by
    intro x hx
    obtain ⟨b, hb, haddr, hf⟩ := H.rep.listed x hx
    exact List.mem_map.mpr ⟨b, List.mem_filter.mpr ⟨hb, hf⟩, haddr⟩
  have hle := (List.subperm_of_subset H.rep.links.chain.nodup hsub).length_le
  have hfree := freeOf_le H.separated
  rw [List.length_map] at hle
  rw [H.arenas_eq, List.length_map]
  omega

end CustomAllocator
