import Mathlib.Algebra.Ring.Nat
import CustomAllocator.Client.Tiled

/-!
# Boundary tags and the free list

What a walk through memory finds in a routed session. From the base of an arena
`next_physical_header` visits blocks up to the bump pointer, with matching headers and
footers, no two free ones in a row, and exactly the live pointers marked as allocated. From
the list head the `next` links visit exactly the free blocks, mirrored by the `prev` links.
-/

namespace CustomAllocator
open CustomAllocator.Base

/-- Walking from `a` by `next_physical_header` visits the headers `l` and arrives at `stop`. -/
def Walk (m : Mem) (stop : Nat) : Nat → List Nat → Prop
  | a, [] => a = stop
  | a, b :: bs => a = b ∧ b < stop ∧ Walk m stop (nextPhysicalHeader m b) bs

/-- A walk through an arena's carved part visits the headers `l`. -/
def Arena.Walk (m : Mem) (a : Arena) (l : List Nat) : Prop :=
  CustomAllocator.Walk m (a.base + a.used) a.base l

/-- What the headers `l` of an arena look like while `live` is held. -/
structure BoundaryTags (m : Mem) (live : List Grant) (a : Arena) (l : List Nat) : Prop where
  used_le : a.used ≤ a.size
  walk : a.Walk m l
  total : (l.map fun b ↦ getSize m b + 32).sum = a.used
  sizes : ∀ b ∈ l, getSize m b % 16 = 0 ∧ sizeofFreeListLinks ≤ getSize m b
  footers : ∀ b ∈ l, read64 m (footer m b) = getSize m b
  flags : ∀ b ∈ l, isFree m b = false ↔ ∃ g ∈ live, g.ptr = dataAddress b
  separated : l.IsChain fun b d ↦ ¬ (isFree m b = true ∧ isFree m d = true)

/-- The free list `l` names exactly the free blocks of all arenas. -/
structure FreeListExact (s : State) (l : List Nat) : Prop where
  walk : Dll (nextOf s.mem) (prevOf s.mem) 0 s.freeHead 0 l
  nodup : l.Nodup
  sound : ∀ b ∈ l, isFree s.mem b = true ∧ ∃ a ∈ s.arenas, ∃ bs, a.Walk s.mem bs ∧ b ∈ bs
  complete : ∀ a ∈ s.arenas, ∀ bs, a.Walk s.mem bs → ∀ b ∈ bs, isFree s.mem b = true → b ∈ l

/-! ### Walking a tiling -/

/-- The headers visited are determined. -/
theorem Walk.unique {m : Mem} {stop a : Nat} {l l' : List Nat} (h : Walk m stop a l)
    (h' : Walk m stop a l') : l = l' := by
  induction l generalizing a l' with
  | nil =>
    cases l' with
    | nil => rfl
    | cons b bs => exact absurd (h.symm.trans h'.1) (Nat.ne_of_gt h'.2.1)
  | cons b bs ih =>
    cases l' with
    | nil => exact absurd (h'.symm.trans h.1) (Nat.ne_of_gt h.2.1)
    | cons d ds =>
      obtain rfl : b = d := h.1.symm.trans h'.1
      rw [ih h.2.2 h'.2.2]

/-- Intact headers lead through a tiling. -/
theorem Walk.of_tiling {m : Mem} {bs : List Block} {lo hi : Nat}
    (h : Tiling Block.addr Block.stop lo hi bs) (hw : ∀ b ∈ bs, b.WF)
    (hh : ∀ b ∈ bs, Headed m b) (hlt : hi < 2 ^ 64) : Walk m hi lo (bs.map Block.addr) := by
  induction bs generalizing lo with
  | nil => exact h
  | cons b bs ih =>
    have hb := h.bounds (b := b) (by simp)
    have hstop : b.addr + b.size + 32 ≤ hi := hb.2.2
    have hsize := (hh b (by simp)).getSize (hw b (by simp))
    refine ⟨h.1.symm, by omega, ?_⟩
    rw [nextPhysicalHeader_eq hsize (by omega)]
    exact ih h.2.2 (fun d hd ↦ hw d (by simp [hd])) fun d hd ↦ hh d (by simp [hd])

/-- The sizes of a tiling, with their headers and footers, add up to its span. -/
theorem sum_of_tiling {m : Mem} {bs : List Block} {lo hi : Nat}
    (h : Tiling Block.addr Block.stop lo hi bs) (hw : ∀ b ∈ bs, b.WF)
    (hh : ∀ b ∈ bs, Headed m b) :
    lo + ((bs.map Block.addr).map fun b ↦ getSize m b + 32).sum = hi := by
  induction bs generalizing lo with
  | nil =>
    rw [Tiling.nil_iff] at h
    simpa using h
  | cons b bs ih =>
    have hsize := (hh b (by simp)).getSize (hw b (by simp))
    have hrest := ih h.2.2 (fun d hd ↦ hw d (by simp [hd])) fun d hd ↦ hh d (by simp [hd])
    have hstart := h.1
    simp only [List.map_cons, List.sum_cons, hsize]
    unfold Block.stop at hrest
    omega

/-- The walk through an arena visits the blocks carved from it. -/
theorem Tiled.walk {s : State} {ts : List Carved} {order : List Nat} (T : Tiled s ts order)
    {t : Carved} (ht : t ∈ ts) : t.arena.Walk s.mem (t.blocks.map Block.addr) := by
  have hw := T.heap.rep.wf t ht
  have := hw.used_le
  have := hw.stop_le
  exact Walk.of_tiling hw.tiling hw.blocks_wf
    (fun b hb ↦ T.headed b (mem_blocksOf.mpr ⟨t, ht, hb⟩)) (by omega)

/-- The flag read from any header is the flag of its block. -/
theorem Tiled.free_eq {s : State} {ts : List Carved} {order : List Nat} (T : Tiled s ts order)
    {b : Block} (hb : b ∈ blocksOf ts) : isFree s.mem b.addr = b.free :=
  (T.headed b hb).isFree (T.heap.rep.placed.block_wf hb)

/-- The size read from any header is the size of its block. -/
theorem Tiled.size_eq {s : State} {ts : List Carved} {order : List Nat} (T : Tiled s ts order)
    {b : Block} (hb : b ∈ blocksOf ts) : getSize s.mem b.addr = b.size :=
  (T.headed b hb).getSize (T.heap.rep.placed.block_wf hb)

/-- The headers a walk through some arena visits are those of the carved blocks. -/
theorem Tiled.visited {s : State} {ts : List Carved} {order : List Nat} (T : Tiled s ts order)
    {x : Nat} : (∃ a ∈ s.arenas, ∃ bs, a.Walk s.mem bs ∧ x ∈ bs) ↔
      ∃ b ∈ blocksOf ts, b.addr = x := by
  rw [T.heap.arenas_eq]
  constructor
  · rintro ⟨a, ha, bs, hbs, hx⟩
    obtain ⟨u, hu, rfl⟩ := List.mem_map.mp ha
    rw [Walk.unique hbs (T.walk hu)] at hx
    obtain ⟨b, hb, rfl⟩ := List.mem_map.mp hx
    exact ⟨b, mem_blocksOf.mpr ⟨u, hu, hb⟩, rfl⟩
  · rintro ⟨b, hb, rfl⟩
    obtain ⟨u, hu, hbu⟩ := mem_blocksOf.mp hb
    exact ⟨u.arena, List.mem_map_of_mem hu, _, T.walk hu, List.mem_map_of_mem hbu⟩

/-- The free list of a tiled heap is exact. -/
theorem Tiled.freeListExact {s : State} {ts : List Carved} {order : List Nat}
    (T : Tiled s ts order) : FreeListExact s order where
  walk := T.heap.rep.links
  nodup := T.heap.rep.links.chain.nodup
  sound x hx := by
    obtain ⟨b, hb, rfl, hf⟩ := T.heap.rep.listed x hx
    exact ⟨(T.free_eq hb).trans hf, T.visited.mpr ⟨b, hb, rfl⟩⟩
  complete a ha bs hbs x hx hf := by
    obtain ⟨b, hb, rfl⟩ := T.visited.mp ⟨a, ha, bs, hbs, hx⟩
    exact T.heap.complete b hb ((T.free_eq hb).symm.trans hf)

variable {c : Config} {t : Tid} {w : Session}

/-- Each arena carries its boundary tags while no block is taken for a slot. -/
theorem Booked.boundaryTags {s : State} {tr : Transit} {live : List Grant} {ts : List Carved}
    {order : List Nat} {sh : Shelves} (A : Booked c s tr live ts order sh)
    (hun : Uncaptured ts sh) : ∀ a ∈ s.arenas, ∃ l, BoundaryTags s.mem live a l := by
  have T := A.tiled hun
  intro a ha
  rw [A.coherent.heap.arenas_eq] at ha
  obtain ⟨u, hu, rfl⟩ := List.mem_map.mp ha
  have hw := A.coherent.heap.rep.wf u hu
  have hmem : ∀ b ∈ u.blocks, b ∈ blocksOf ts := fun b hb ↦ mem_blocksOf.mpr ⟨u, hu, hb⟩
  have hsize : ∀ b ∈ u.blocks, getSize s.mem b.addr = b.size := fun b hb ↦
    T.size_eq (hmem b hb)
  have hflag : ∀ b ∈ u.blocks, isFree s.mem b.addr = b.free := fun b hb ↦
    T.free_eq (hmem b hb)
  have hsum := sum_of_tiling hw.tiling hw.blocks_wf fun b hb ↦ T.headed b (hmem b hb)
  have P := A.coherent.heap.rep.placed
  refine ⟨u.blocks.map Block.addr, hw.used_le, T.walk hu, by omega, ?_, ?_, ?_, ?_⟩
  · simp only [List.forall_mem_map]
    intro b hb
    rw [hsize b hb]
    exact ⟨(hw.blocks_wf b hb).size_aligned, (hw.blocks_wf b hb).size_min⟩
  · simp only [List.forall_mem_map]
    intro b hb
    have hbd := P.block_bounds (hmem b hb)
    rw [footer_eq (hsize b hb) (by omega), hsize b hb]
    exact (A.coherent.heap.rep.tagged b (hmem b hb)).footer
  · simp only [List.forall_mem_map]
    intro b hb
    have hbd := P.block_bounds (hmem b hb)
    rw [hflag b hb, dataAddress_eq (by omega)]
    exact A.allocated_iff hun (hmem b hb)
  · rw [List.isChain_map]
    refine (A.coherent.heap.separated u hu).imp_of_mem_imp fun b d hb hd hbd ↦ ?_
    rwa [hflag b hb, hflag d hd]

/-- In every routed session, each arena carries its boundary tags. -/
theorem boundary_tags (h : Reachable c t (routedCall c) w) :
    ∀ a ∈ w.state.arenas, ∃ l, BoundaryTags w.state.mem w.live a l := by
  obtain ⟨ts, order, sh, A, hun⟩ := h.routed
  exact A.boundaryTags hun

theorem boundary_tags_gap : Session.gap.state.arenas.length = 1 ∧
    ∀ a ∈ Session.gap.state.arenas,
      ∃ l, BoundaryTags Session.gap.state.mem Session.gap.live a l :=
  ⟨by decide +kernel, boundary_tags Session.gap_routed⟩

/-- In every routed session, the free list names exactly the free blocks. -/
theorem free_list_exact (h : Reachable c t (routedCall c) w) :
    ∃ l, FreeListExact w.state l := by
  obtain ⟨ts, order, T⟩ := h.tiled
  exact ⟨order, T.freeListExact⟩

theorem free_list_exact_gap : Session.gap.state.freeHead ≠ 0 ∧
    ∃ l, FreeListExact Session.gap.state l :=
  ⟨by decide +kernel, free_list_exact Session.gap_routed⟩

end CustomAllocator
