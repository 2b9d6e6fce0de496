import Mathlib.Data.List.Perm.Lattice
import CustomAllocator.Properties.BoundaryTags

/-!
# The order of frees does not matter

Freeing a set of live general pointers of a routed session in two orders ends in the same
heap: the same arenas, blocks, headers and footers, and the same listed blocks. With every
general pointer freed, each arena is one free block.
-/

namespace CustomAllocator
open CustomAllocator.Base

/-- Free the pointers one after the other. -/
def freeAll (c : Config) (s : State) (t : Tid) : List Nat → Except Fault State
  | [] => .ok s
  | p :: ps => do
    let s ← myFree c s t p
    freeAll c s t ps

/-- The headers `l` have the same words and the same footers in both memories. -/
structure SameTags (m m' : Mem) (l : List Nat) : Prop where
  headers : ∀ b ∈ l, read64 m' b = read64 m b
  footers : ∀ b ∈ l, footer m' b = footer m b ∧
    read64 m' (footer m' b) = read64 m (footer m b)

/-- A walk through an arena finds the same blocks in both memories. -/
def Arena.SameBlocks (a : Arena) (m m' : Mem) : Prop :=
  ∃ l, a.Walk m l ∧ a.Walk m' l ∧ SameTags m m' l

/-- Two states hold the same heap up to the order of the free list. -/
structure SameHeap (s s' : State) : Prop where
  arenas : s'.arenas = s.arenas
  blocks : ∀ a ∈ s.arenas, a.SameBlocks s.mem s'.mem
  listed : ∃ l l', FreeListExact s l ∧ FreeListExact s' l' ∧ l.Perm l'

/-- Every arena of the state is one free block, and the list has one entry for each. -/
structure AllFree (s : State) : Prop where
  blocks : ∀ a ∈ s.arenas, a.Walk s.mem [a.base] ∧ isFree s.mem a.base = true ∧
    getSize s.mem a.base = a.used - 32
  listed : ∃ l, FreeListExact s l ∧ l.Perm (s.arenas.map Arena.base)

variable {c : Config} {t : Tid} {w : Session} {s s' : State} {live : List Grant}
  {ts : List Carved} {order order' : List Nat} {sh : Shelves}

/-! ### Comparing tiled heaps -/

/-- Blocks that both memories spell out look the same in both. -/
theorem Tiled.sameTags {ts' : List Carved} (T : Tiled s ts order) (T' : Tiled s' ts' order')
    {bs : List Block} (hbs : ∀ b ∈ bs, b ∈ blocksOf ts ∧ b ∈ blocksOf ts') :
    SameTags s.mem s'.mem (bs.map Block.addr) := by
  constructor
  · simp only [List.forall_mem_map]
    intro b hb
    exact (T'.headed b (hbs b hb).2).trans (T.headed b (hbs b hb).1).symm
  · simp only [List.forall_mem_map]
    intro b hb
    have hbd := T.heap.rep.placed.block_bounds (hbs b hb).1
    have hfoot : footer s.mem b.addr = b.addr + 16 + b.size :=
      footer_eq (T.size_eq (hbs b hb).1) (by omega)
    have hfoot' : footer s'.mem b.addr = b.addr + 16 + b.size :=
      footer_eq (T'.size_eq (hbs b hb).2) (by omega)
    rw [hfoot, hfoot']
    exact ⟨rfl, ((T'.heap.rep.tagged b (hbs b hb).2).footer).trans
      (T.heap.rep.tagged b (hbs b hb).1).footer.symm⟩

/-- An arena with the same blocks in both tilings. -/
theorem Tiled.sameBlocks {ts' : List Carved} (T : Tiled s ts order) (T' : Tiled s' ts' order')
    {u : Carved} (hu : u ∈ ts) (hu' : u ∈ ts') : u.arena.SameBlocks s.mem s'.mem :=
  ⟨_, T.walk hu, T'.walk hu', T.sameTags T' fun _ hb ↦
    ⟨mem_blocksOf.mpr ⟨u, hu, hb⟩, mem_blocksOf.mpr ⟨u, hu', hb⟩⟩⟩

/-- One tiling of the same arenas makes the same heap. -/
theorem Tiled.sameHeap (T : Tiled s ts order) (T' : Tiled s' ts order')
    (harenas : s'.arenas = s.arenas) : SameHeap s s' := by
  have H' : GeneralHeap s'.mem s'.freeHead s.arenas ts order' := harenas ▸ T'.heap
  refine ⟨harenas, fun a ha ↦ ?_, order, order', T.freeListExact, T'.freeListExact,
    T.heap.order_perm H'⟩
  rw [T.heap.arenas_eq] at ha
  obtain ⟨u, hu, rfl⟩ := List.mem_map.mp ha
  exact T.sameBlocks T' hu hu

/-- With no allocated block, every arena is one free block. -/
theorem Tiled.allFree (T : Tiled s ts order) (hnone : ∀ b ∈ blocksOf ts, b.free = true) :
    AllFree s := by
  have hone : ∀ u ∈ ts, ∃ b, u.blocks = [b] ∧ b.free = true ∧ b.addr = u.arena.base ∧
      b.size = u.arena.used - 32 := by
    intro u hu
    have hfree : ∀ b ∈ u.blocks, b.free = true := fun b hb ↦
      hnone b (mem_blocksOf.mpr ⟨u, hu, hb⟩)
    have hw := T.heap.rep.wf u hu
    have htile := hw.tiling
    have hused := T.occupied u.arena (T.heap.arenas_eq ▸ List.mem_map_of_mem hu)
    have hsep := T.heap.separated u hu
    rcases hb : u.blocks with _ | ⟨b, _ | ⟨d, ds⟩⟩
    · rw [hb, Tiling.nil_iff] at htile
      omega
    · rw [hb, Tiling.cons_iff, Tiling.nil_iff] at htile
      obtain ⟨haddr, -, hstop⟩ := htile
      unfold Block.stop at hstop
      exact ⟨b, rfl, hfree b (by simp [hb]), haddr, by omega⟩
    · rw [hb, Separated, List.isChain_cons_cons] at hsep
      exact absurd ⟨hfree b (by simp [hb]), hfree d (by simp [hb])⟩ hsep.1
  have hbase : ∀ u ∈ ts, ∃ b ∈ blocksOf ts, u.blocks = [b] ∧ b.free = true ∧
      b.addr = u.arena.base ∧ b.size = u.arena.used - 32 := fun u hu ↦ by
    obtain ⟨b, hb, h⟩ := hone u hu
    exact ⟨b, mem_blocksOf.mpr ⟨u, hu, by simp [hb]⟩, hb, h⟩
  refine ⟨fun a ha ↦ ?_, order, T.freeListExact, ?_⟩
  · rw [T.heap.arenas_eq] at ha
    obtain ⟨u, hu, rfl⟩ := List.mem_map.mp ha
    obtain ⟨b, hbm, hb, hf, haddr, hsize⟩ := hbase u hu
    have hwalk := T.walk hu
    rw [hb, List.map_singleton] at hwalk
    rw [← haddr, T.free_eq hbm, T.size_eq hbm]
    exact ⟨hwalk, hf, hsize⟩
  · refine (List.perm_ext_iff_of_nodup T.heap.rep.links.chain.nodup ?_).mpr fun x ↦ ?_
    · -- Occupied arenas in separate regions have distinct bases.
      rw [T.heap.arenas_eq, List.map_map, List.Nodup, List.pairwise_map]
      have hapart := List.pairwise_map.mp T.heap.rep.apart
      refine hapart.imp_of_mem fun {u v} hu hv huv heq ↦ ?_
      have hu' := T.occupied u.arena (T.heap.arenas_eq ▸ List.mem_map_of_mem hu)
      have hv' := T.occupied v.arena (T.heap.arenas_eq ▸ List.mem_map_of_mem hv)
      have hwu := (T.heap.rep.wf u hu).used_le
      have hwv := (T.heap.rep.wf v hv).used_le
      simp only [Function.comp, OsRegion.Apart, OsRegion.stop, Arena.region] at huv heq
      omega
    · rw [T.heap.mem_order, T.heap.arenas_eq, List.map_map, List.mem_map]
      constructor
      · rintro ⟨b, hb, rfl, -⟩
        obtain ⟨u, hu, hbu⟩ := mem_blocksOf.mp hb
        obtain ⟨d, -, hd, -, haddr, -⟩ := hbase u hu
        rw [hd, List.mem_singleton] at hbu
        exact ⟨u, hu, by rw [hbu]; exact haddr.symm⟩
      · rintro ⟨u, hu, rfl⟩
        obtain ⟨b, hbm, -, hf, haddr, -⟩ := hbase u hu
        exact ⟨b, hbm, haddr, hf⟩

/-! ### Freeing a set of pointers -/

/-- The grant is a live general pointer whose tag sends it to the general path. -/
def GeneralPointer (c : Config) (w : Session) (p : Nat) : Prop :=
  ∃ g ∈ w.live, g.ptr = p ∧ g.origin = none ∧ Routed c w.state g

/-- Freeing distinct general pointers takes their blocks, and no others, off the allocated ones. -/
theorem Accounted.freeAll (A : Accounted c s live ts order sh) (hun : Uncaptured ts sh) (t : Tid)
    {ps : List Nat} (hnd : ps.Nodup) (hps : ∀ p ∈ ps, GeneralPointer c ⟨s, live⟩ p) :
    ∃ s' live' ts' order', CustomAllocator.freeAll c s t ps = .ok s' ∧
      Accounted c s' live' ts' order' sh ∧ Uncaptured ts' sh ∧ s'.arenas = s.arenas ∧
      ∀ d, Allocated ts' d ↔ Allocated ts d ∧ d.addr + 16 ∉ ps := by
  induction ps generalizing s live ts order with
  | nil => exact ⟨s, live, ts, order, rfl, A, hun, rfl, by simp⟩
  | cons p ps ih =>
    obtain ⟨hnot, hnd'⟩ := List.nodup_cons.mp hnd
    obtain ⟨g, hg, rfl, ho, hr⟩ := hps p (by simp)
    obtain ⟨b, hb, hbn⟩ := A.general g hg ho
    have hk : ¬ isKnownPool c b.size = true := by
      unfold Routed at hr
      rw [A.tag_general hb, ho] at hr
      simp [hr]
    obtain ⟨heap, ts₁, order₁, k, hrun, hret, F⟩ := A.freeBlock t hg hb hbn hk
    have hun₁ : Uncaptured ts₁ sh := fun d hd j ↦ hun d ((F.allocated d).mp hd).1 j
    obtain ⟨s', live', ts', order', hrest, A', hun', harenas, halloc⟩ :=
      ih hret.accounted hun₁ hnd' fun q hq ↦ by
        obtain ⟨h, hh, rfl, hho, hhr⟩ := hps q (List.mem_cons_of_mem _ hq)
        have hh' : h ∈ without live g.ptr :=
          mem_without.mpr ⟨hh, fun he ↦ hnot (he ▸ hq)⟩
        refine ⟨h, hh', rfl, hho, ?_⟩
        rw [hret.accounted.routed_iff hh', (hret.spared h hh').1]
        exact (A.routed_iff hh).mp hhr
    refine ⟨s', live', ts', order', by simp only [CustomAllocator.freeAll, hrun, ok_bind, hrest],
      A', hun', harenas, fun d ↦ ?_⟩
    rw [halloc d, F.allocated d, hb.ptr_eq, List.mem_cons, not_or, and_assoc]
    refine and_congr_right fun hd ↦ and_congr_left fun _ ↦ not_congr ⟨fun he ↦ by rw [he],
      fun he ↦ ?_⟩
    exact A.coherent.heap.rep.placed.block_eq_of_addr hd.1 hb.allocated.1 (by omega)

/-- In every routed session, freeing a set of live general pointers in any two orders completes
in the same heap; with all of them freed, every arena is one free block. -/
theorem free_order (h : Reachable c t (routedCall c) w) {ps qs : List Nat} (hnd : ps.Nodup)
    (hps : ∀ p ∈ ps, GeneralPointer c w p) (hperm : ps.Perm qs) :
    ∃ s₁ s₂, freeAll c w.state t ps = .ok s₁ ∧ freeAll c w.state t qs = .ok s₂ ∧
      SameHeap s₁ s₂ ∧
      ((∀ g ∈ w.live, g.origin = none → g.ptr ∈ ps) → AllFree s₁ ∧ AllFree s₂) := by
  obtain ⟨ts, order, sh, A, hun⟩ := h.routed
  obtain ⟨s₁, live₁, ts₁, order₁, hrun₁, A₁, hun₁, harenas₁, halloc₁⟩ :=
    A.freeAll hun t hnd hps
  obtain ⟨s₂, live₂, ts₂, order₂, hrun₂, A₂, hun₂, harenas₂, halloc₂⟩ :=
    A.freeAll hun t (hperm.nodup hnd) fun p hp ↦ hps p (hperm.mem_iff.mpr hp)
  have T₁ := A₁.tiled hun₁
  have T₂ := A₂.tiled hun₂
  have harenas : s₂.arenas = s₁.arenas := harenas₂.trans harenas₁.symm
  obtain ⟨rfl, -⟩ := T₁.canonical T₂ harenas fun d ↦ by
    rw [halloc₁, halloc₂, hperm.mem_iff]
  refine ⟨s₁, s₂, hrun₁, hrun₂, T₁.sameHeap T₂ harenas, fun hall ↦ ?_⟩
  have hnone : ∀ b ∈ blocksOf ts₁, b.free = true := by
    intro b hb
    cases hf : b.free with
    | true => rfl
    | false =>
      obtain ⟨hb', hnot⟩ := (halloc₁ b).mp ⟨hb, hf⟩
      obtain ⟨g, hg, ho, hown⟩ := A.owner hun hb'
      exact absurd (hown.ptr_eq ▸ hall g hg ho) hnot
  exact ⟨T₁.allFree hnone, T₂.allFree hnone⟩

/-- The two blocks around the gap, freed in either order. -/
theorem free_order_gap : ∃ s₁ s₂,
    freeAll .fixedBase Session.gap.state 0 [Grant.low.ptr, Grant.high.ptr] = .ok s₁ ∧
      freeAll .fixedBase Session.gap.state 0 [Grant.high.ptr, Grant.low.ptr] = .ok s₂ ∧
      SameHeap s₁ s₂ ∧ AllFree s₁ ∧ AllFree s₂ := by
  have hlow : Routed .fixedBase Session.gap.state .low := by decide +kernel
  have hhigh : Routed .fixedBase Session.gap.state .high := by decide +kernel
  have hps : ∀ p ∈ [Grant.low.ptr, Grant.high.ptr], GeneralPointer .fixedBase .gap p := by
    intro p hp
    rw [GeneralPointer, Session.gap_live]
    simp only [List.mem_cons, List.not_mem_nil, or_false] at hp
    rcases hp with rfl | rfl
    · exact ⟨.low, by simp, rfl, rfl, hlow⟩
    · exact ⟨.high, by simp, rfl, rfl, hhigh⟩
  obtain ⟨s₁, s₂, hrun₁, hrun₂, hsame, hall⟩ :=
    free_order Session.gap_routed (by decide) hps (.swap _ _ _)
  exact ⟨s₁, s₂, hrun₁, hrun₂, hsame, hall (by rw [Session.gap_live]; simp)⟩

end CustomAllocator
