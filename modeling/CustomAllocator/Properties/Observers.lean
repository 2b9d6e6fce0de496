import Mathlib.Algebra.Ring.Nat
import CustomAllocator.Alloc.Observers
import CustomAllocator.Layout.Density
import CustomAllocator.Lifetime.Runs
import CustomAllocator.Properties.Adjacency

/-!
# What the test hooks report

At every moment of every lifetime the hooks give the true answers: the free list is as long as
there are free blocks, a neighbour is reported free exactly when the block beside it is, every
mapped region is counted once, and sizes and origins are right for every pointer that would be
routed correctly.
-/

namespace CustomAllocator
open CustomAllocator.Base

variable {c : Config} {y : System} {s : State} {ts : List Carved} {order : List Nat} {sh : Shelves}
  {tr : Transit} {live : List Grant} {g : Grant} {head : Nat} {m : Mem} {b : Block}

/-- The free list is as long as there are free blocks. -/
theorem Tiled.length_order (T : Tiled s ts order) :
    order.length = ((blocksOf ts).map Block.addr).countP (isFree s.mem) := by
  have hnd := T.heap.rep.placed.nodup_addr
  rw [List.countP_eq_length_filter]
  apply List.Perm.length_eq
  rw [List.perm_ext_iff_of_nodup T.heap.rep.links.chain.nodup (hnd.filter _)]
  intro x
  rw [T.heap.mem_order, List.mem_filter, List.mem_map]
  constructor
  · rintro ⟨b, hb, rfl, hf⟩
    exact ⟨⟨b, hb, rfl⟩, (T.free_eq hb).trans hf⟩
  · rintro ⟨⟨b, hb, rfl⟩, hf⟩
    exact ⟨b, hb, rfl, (T.free_eq hb).symm.trans hf⟩

/-- A neighbour search finds a block exactly when the block beside it reads as free. -/
theorem Tiled.freeAddr_ne_zero (T : Tiled s ts order) {o : Option Block}
    (h : ∀ d ∈ o, d ∈ blocksOf ts) :
    (freeAddr o != 0) = (o.map Block.addr).any (isFree s.mem) := by
  cases o with
  | none => rfl
  | some d =>
    have hd := h d rfl
    have hne : d.addr ≠ 0 := Nat.ne_of_gt (T.heap.rep.placed.block_bounds hd).1
    rw [Option.map_some, Option.any_some, T.free_eq hd]
    cases hf : d.free with
    | false => simp [freeAddr, hf]
    | true => simp [freeAddr, hf, hne]

/-- What the hooks say about the block at `b` of an arena, which stands between the headers `before`
and `after`. -/
structure NeighborHooks (c : Config) (s : State) (before : List Nat) (b : Nat) (after : List Nat) :
    Prop where
  right : rightNeighborIsFreeForTesting c s (b + 16) = .ok (after.head?.any (isFree s.mem))
  left : leftNeighborIsFreeForTesting c s (b + 16) = .ok (before.getLast?.any (isFree s.mem))

/-- The hooks tell whether the blocks beside a block are free. -/
theorem Tiled.neighborHooks (c : Config) (T : Tiled s ts order) {t : Carved} (ht : t ∈ ts)
    {bs es : List Block} {d : Block} (hblocks : t.blocks = bs ++ d :: es) :
    NeighborHooks c s (bs.map Block.addr) d.addr (es.map Block.addr) := by
  have hd : d ∈ blocksOf ts := mem_blocksOf.mpr ⟨t, ht, by simp [hblocks]⟩
  have hheaded := T.headed d hd
  have hheader : headerOf (d.addr + 16) = d.addr :=
    headerOf_add (by have := T.heap.rep.placed.block_bounds hd; omega)
  have hbeside : ∀ o : Option Block, (∀ e ∈ o, e ∈ t.blocks) →
      (freeAddr o != 0) = (o.map Block.addr).any (isFree s.mem) := fun o ho ↦
    T.freeAddr_ne_zero fun e he ↦ mem_blocksOf.mpr ⟨t, ht, ho e he⟩
  have hright := hbeside es.head? fun e he ↦ by simp [hblocks, List.mem_of_mem_head? he]
  have hleft := hbeside bs.getLast? fun e he ↦ by simp [hblocks, List.mem_of_getLast? he]
  obtain ⟨ls, rs, rfl⟩ := List.append_of_mem ht
  have hz : ls ++ t :: rs = (⟨ls, t.arena, bs, es, rs⟩ : Site).fill [d] := by
    simp [Site.fill, ← hblocks]
  have R := T.heap.rep
  have harenas := T.heap.arenas_eq
  rw [hz] at R harenas
  constructor
  · rw [rightNeighborIsFreeForTesting, hheader, harenas, R.rightNeighbor c hheaded, ok_bind, hright,
      List.head?_map]
  · rw [leftNeighborIsFreeForTesting, hheader, harenas, R.leftNeighbor c hheaded, ok_bind, hleft,
      List.getLast?_map]

/-- The size hook is right exactly for the pointers that would be routed correctly. -/
theorem Booked.payloadSize_iff (A : Booked c s tr live ts order sh) (hg : g ∈ live) :
    blockPayloadSizeForTesting c s g.ptr = .ok (usable s g) ↔
      ptrIsPooledForTesting c s g.ptr = g.origin.isSome := by
  unfold blockPayloadSizeForTesting ptrIsPooledForTesting
  cases hk : isKnownPool c (tagOf s.mem g.ptr) with
  | false =>
    rw [if_neg (by decide), Except.ok.injEq]
    cases ho : g.origin with
    | none => simp [usable, ho]
    | some j =>
      have hknown : isKnownPool c (tagOf s.mem g.ptr) = true :=
        isKnownPool_iff.mpr ⟨j, (A.tag_pooled hg ho).symm⟩
      rw [hk] at hknown
      cases hknown
  | true =>
    obtain ⟨i, hi⟩ := isKnownPool_iff.mp hk
    have hpay := (A.coherent.shelved.shape i).payload_eq
    rw [if_pos rfl, ← hi, poolAt_poolAddr, ok_bind, Except.ok.injEq, hpay]
    cases ho : g.origin with
    | none =>
      have hcls := classSize_bounds i
      obtain ⟨b, hb, -⟩ := A.general g hg ho
      have hlarge := A.coherent.heap.large b hb.allocated.1 hb.allocated.2
      rw [A.usable_general ho hb]
      simp only [Option.isSome_none, Bool.true_eq_false, iff_false]
      omega
    | some j =>
      obtain rfl : i = j := c.poolAddr_inj (hi.trans (A.tag_pooled hg ho))
      simp [A.usable_pooled ho]

/-- What the hooks report of a state while `live` is held. -/
structure HooksExact (c : Config) (s : State) (live : List Grant) : Prop where
  regions : s.os.mapped.length = arenaCountForTesting s +
    ((List.finRange numSizeClasses).map fun i ↦ (s.pools i).arenaCountForTesting).sum
  blocks : ∃ walks : List (List Nat), List.Forall₂ (fun a l ↦ a.Walk s.mem l) s.arenas walks ∧
    freeListSizeForTesting c s = .ok (walks.flatten.countP (isFree s.mem)) ∧
    ∀ l ∈ walks, ∀ before b after, l = before ++ b :: after → NeighborHooks c s before b after
  sizes : ∀ g ∈ live, blockPayloadSizeForTesting c s g.ptr = .ok (usable s g) ↔
    ptrIsPooledForTesting c s g.ptr = g.origin.isSome

/-- The walks through the arenas of a tiled heap. -/
theorem Tiled.walks (T : Tiled s ts order) : List.Forall₂ (fun a l ↦ a.Walk s.mem l) s.arenas
    (ts.map fun t ↦ t.blocks.map Block.addr) := by
  rw [T.heap.arenas_eq, List.forall₂_map_left_iff, List.forall₂_map_right_iff, List.forall₂_same]
  intro t ht
  exact T.walk ht

/-- The hooks are exact for a tiled heap that keeps all mapped regions. -/
theorem Tiled.hooks (c : Config) (T : Tiled s ts order) (hheld : s.os.mapped.Perm (regionsOf s))
    (hsizes : ∀ g ∈ live, blockPayloadSizeForTesting c s g.ptr = .ok (usable s g) ↔
      ptrIsPooledForTesting c s g.ptr = g.origin.isSome) : HooksExact c s live := by
  refine ⟨?_, ⟨_, T.walks, ?_, ?_⟩, hsizes⟩
  · rw [hheld.length_eq, regionsOf, List.length_append, List.length_map, List.length_flatMap]
    rfl
  · have hd := T.heap.rep.links
    have hf := T.heap.rep.freeNodes T.heap.rep.listed
    have hlt := hf.length_lt hd.chain.nodup
    unfold addressCount at hlt
    have hflat : (ts.map fun t ↦ t.blocks.map Block.addr).flatten =
        (blocksOf ts).map Block.addr := by
      rw [blocksOf, List.map_flatMap, List.flatMap]
    rw [hflat, ← T.length_order, freeListSizeForTesting, FreeList.size,
      FreeList.sizeFrom_spec c hd.chain hf.free hlt (by omega), Nat.zero_add]
  · intro l hl before b after hsplit
    obtain ⟨t, ht, rfl⟩ := List.mem_map.mp hl
    obtain ⟨bs, ds, hblocks, rfl, hds⟩ := List.map_eq_append_iff.mp hsplit
    obtain ⟨d, es, rfl, rfl, rfl⟩ := List.map_eq_cons_iff.mp hds
    exact T.neighborHooks c ht hblocks

/-- In every lifetime, whatever the threads are in the middle of, the test hooks are exact. -/
theorem hooks_exact (h : System.Lives c y) : HooksExact c y.state y.live := by
  obtain ⟨past, os, z, ts, order, sh, S⟩ := h.surviving
  have E := S.echo.state
  have A := S.consistent.booked
  have T := A.tiled S.consistent.uncaptured
  have T' : Tiled y.state ts order := by
    constructor
    · rw [E.mem_eq, E.freeHead_eq, E.arenas_eq]
      exact T.heap
    · rw [E.mem_eq]
      exact T.headed
    · rw [E.arenas_eq]
      exact T.occupied
  refine T'.hooks c S.held fun g hg ↦ ?_
  have husable : usable y.state g = usable z.state g := by
    unfold usable
    rw [E.mem_eq, E.pools_eq]
  have hsize : blockPayloadSizeForTesting c y.state g.ptr =
      blockPayloadSizeForTesting c z.state g.ptr := by
    unfold blockPayloadSizeForTesting
    rw [E.mem_eq, E.pools_eq]
  have hpooled : ptrIsPooledForTesting c y.state g.ptr = ptrIsPooledForTesting c z.state g.ptr := by
    unfold ptrIsPooledForTesting
    rw [E.mem_eq]
  rw [husable, hsize, hpooled]
  exact A.payloadSize_iff (S.echo.live ▸ hg)

theorem hooks_exact_handover : System.handover.live.length = 2 ∧
    HooksExact .fixedBase System.handover.state System.handover.live :=
  ⟨by decide +kernel, hooks_exact System.handover_reachable.lives⟩

end CustomAllocator
