import CustomAllocator.Layout.General

/-!
# The heap is its allocated blocks

A general heap has no redundancy: coalescing leaves one free block in every gap, so the
arenas and the allocated blocks determine the whole tiling, and with it the set of listed
addresses. Two histories that end with the same arenas and the same allocated blocks
therefore end in the same heap, up to the order of the free list.
-/

namespace CustomAllocator
open CustomAllocator.Base

variable {m m' : Mem} {head head' : Nat} {arenas : List Arena} {ts ts' : List Carved}
  {order order' : List Nat} {b : Block}

/-- A free block is determined by its two ends. -/
theorem Block.eq_of_ends {b d : Block} (hb : b.free = true) (hd : d.free = true)
    (haddr : b.addr = d.addr) (hstop : b.stop = d.stop) : b = d := by
  unfold Block.stop at hstop
  rcases b with ⟨a, n, f⟩
  rcases d with ⟨a', n', f'⟩
  simp only [Block.mk.injEq] at *
  exact ⟨haddr, by omega, hb.trans hd.symm⟩

/-- The blocks of an arena are determined by the arena and its allocated blocks. -/
theorem Carved.WF.blocks_eq {t u : Carved} (ht : t.WF) (hu : u.WF) (ha : t.arena = u.arena)
    (st : Separated t.blocks) (su : Separated u.blocks)
    (halloc : ∀ d, d.free = false → (d ∈ t.blocks ↔ d ∈ u.blocks)) : t.blocks = u.blocks :=
  @Tiling.eq_of_solid _ _ _ (fun d : Block ↦ d.free = true) _ _ _ _ ht.tiling
    (ha ▸ hu.tiling) st su (fun _ _ hb hd ↦ Block.eq_of_ends hb hd)
    fun d hd ↦ halloc d (by simpa using hd)

/-- An allocated block stands in the arena of the other heap that owns its address. -/
theorem Placed.mem_region (P : Placed ts) (P' : Placed ts') {t u : Carved}
    (ht : t ∈ ts) (hu : u ∈ ts') (ha : t.arena.region = u.arena.region) {d : Block}
    (hd : d ∈ t.blocks) (hd' : d ∈ blocksOf ts') : d ∈ u.blocks := by
  obtain ⟨v, hv, hdv⟩ := mem_blocksOf.mp hd'
  have hbt := (P.wf t ht).bounds hd
  have hbv := (P'.wf v hv).bounds hdv
  have hut := (P.wf t ht).used_le
  have huv := (P'.wf v hv).used_le
  simp only [Arena.region, OsRegion.mk.injEq] at ha
  rwa [← P'.arena_eq hv hu (x := d.addr) (by omega) (by omega)]

/-- Two heaps with the same allocated blocks have the same blocks in an arena they share. -/
theorem GeneralHeap.blocks_eq {arenas' : List Arena} (H : GeneralHeap m head arenas ts order)
    (H' : GeneralHeap m' head' arenas' ts' order')
    {t u : Carved} (ht : t ∈ ts) (hu : u ∈ ts') (ha : t.arena = u.arena)
    (halloc : ∀ d, d ∈ t.blocks ∨ d ∈ u.blocks → (Allocated ts d ↔ Allocated ts' d)) :
    t.blocks = u.blocks := by
  have P := H.rep.placed
  have P' := H'.rep.placed
  refine (P.wf t ht).blocks_eq (P'.wf u hu) ha (H.separated t ht) (H'.separated u hu)
    fun d hf ↦ ⟨fun hd ↦ ?_, fun hd ↦ ?_⟩
  · exact P.mem_region P' ht hu (by rw [ha]) hd
      ((halloc d (.inl hd)).mp ⟨mem_blocksOf.mpr ⟨t, ht, hd⟩, hf⟩).1
  · exact P'.mem_region P hu ht (by rw [ha]) hd
      ((halloc d (.inr hd)).mpr ⟨mem_blocksOf.mpr ⟨u, hu, hd⟩, hf⟩).1

/-- Lists of carved arenas with equal arenas and equal blocks, arena by arena. -/
private theorem carved_ext : ∀ {ts ts' : List Carved}, ts.map Carved.arena = ts'.map Carved.arena →
    (∀ t ∈ ts, ∀ u ∈ ts', t.arena = u.arena → t.blocks = u.blocks) → ts = ts'
  | [], [], _, _ => rfl
  | [], _ :: _, h, _ => by simp at h
  | _ :: _, [], h, _ => by simp at h
  | t :: ts, u :: us, h, hb => by
    obtain ⟨ha, hrest⟩ := List.cons.inj h
    have hblocks := hb t (by simp) u (by simp) ha
    rw [carved_ext hrest fun t ht u hu ↦ hb t (by simp [ht]) u (by simp [hu])]
    rcases t with ⟨a, bs⟩
    rcases u with ⟨a', bs'⟩
    simp only at ha hblocks
    rw [ha, hblocks]

/-- Arenas and allocated blocks determine the tiling. -/
theorem GeneralHeap.canonical (H : GeneralHeap m head arenas ts order)
    (H' : GeneralHeap m' head' arenas ts' order')
    (halloc : ∀ d, Allocated ts d ↔ Allocated ts' d) : ts = ts' :=
  carved_ext (H.arenas_eq.symm.trans H'.arenas_eq) fun _ ht _ hu ha ↦
    H.blocks_eq H' ht hu ha fun d _ ↦ halloc d

/-- The list names exactly the free blocks. -/
theorem GeneralHeap.mem_order (H : GeneralHeap m head arenas ts order) {x : Nat} :
    x ∈ order ↔ ∃ b ∈ blocksOf ts, b.addr = x ∧ b.free = true := by
  refine ⟨H.rep.listed x, ?_⟩
  rintro ⟨b, hb, rfl, hf⟩
  exact H.complete b hb hf

/-- Two free lists over one tiling differ in their order only. -/
theorem GeneralHeap.order_perm (H : GeneralHeap m head arenas ts order)
    (H' : GeneralHeap m' head' arenas ts order') : order.Perm order' :=
  (List.perm_ext_iff_of_nodup H.rep.links.chain.nodup H'.rep.links.chain.nodup).mpr fun x ↦ by
    rw [H.mem_order, H'.mem_order]

/-! ### One free block more -/

/-- The blocks `bs` followed by the free block `f`, which merges with a free last block. -/
def appendFree (bs : List Block) (f : Block) : List Block :=
  match bs.getLast? with
  | some d => if d.free then bs.dropLast ++ [d.join f] else bs ++ [f]
  | none => [f]

/-- Blocks of an arena that carved `n + 32` bytes more without a new allocated block: the
extension is free, and merged with a free last block. -/
theorem Carved.WF.blocks_extended {u : Carved} {bs : List Block} {a : Arena} {n : Nat}
    (htile : Tiling Block.addr Block.stop a.base (a.base + a.used) bs) (hsep : Separated bs)
    (hu : u.WF) (ha : u.arena = { a with used := a.used + (n + 32) })
    (su : Separated u.blocks)
    (halloc : ∀ d, d.free = false → (d ∈ bs ↔ d ∈ u.blocks)) :
    u.blocks = appendFree bs ⟨a.base + a.used, n, true⟩ := by
  have htile' : Tiling Block.addr Block.stop a.base (a.base + (a.used + (n + 32))) u.blocks := by
    have := hu.tiling
    rwa [ha] at this
  -- Both are tilings of the extended arena with the same allocated blocks.
  refine @Tiling.eq_of_solid _ _ _ (fun d : Block ↦ d.free = true) _ _ _ _ htile' ?_ su ?_
    (fun _ _ hb hd ↦ Block.eq_of_ends hb hd) fun d hd ↦
      (halloc d (by simpa using hd)).symm.trans ?_
  · rcases List.eq_nil_or_concat bs with rfl | ⟨front, d, rfl⟩
    · rw [Tiling.nil_iff] at htile
      simp only [appendFree, List.getLast?_nil, Tiling.cons_iff, Tiling.nil_iff, Block.stop]
      omega
    · rw [List.concat_eq_append] at htile
      have hstop : d.stop = a.base + a.used := htile.stop_last
      simp only [appendFree, List.concat_eq_append, List.getLast?_concat, List.dropLast_concat]
      split
      · obtain ⟨hfront, hlt, -⟩ := htile.split
        refine Tiling.append_iff.mpr ⟨d.addr, hfront, ?_⟩
        simp only [Tiling.cons_iff, Tiling.nil_iff, Block.join, Block.stop, true_and] at hstop ⊢
        omega
      · have := htile.concat (b := ⟨a.base + a.used, n, true⟩) rfl (by unfold Block.stop; omega)
        simpa [Block.stop, Nat.add_assoc] using this
  · rcases List.eq_nil_or_concat bs with rfl | ⟨front, d, rfl⟩
    · simp [appendFree]
    · simp only [appendFree, List.concat_eq_append, List.getLast?_concat, List.dropLast_concat]
      rw [Separated, List.concat_eq_append] at hsep
      split
      · next hf =>
        rw [List.isChain_append] at hsep ⊢
        refine ⟨hsep.1, by simp, fun x hx y hy ↦ ?_⟩
        obtain rfl : d.join ⟨a.base + a.used, n, true⟩ = y := by simpa using hy
        simpa [Block.join] using hsep.2.2 x hx d (by simp)
      · next hf =>
        rw [List.isChain_append]
        refine ⟨hsep, by simp, fun x hx y hy ↦ ?_⟩
        obtain rfl : d = x := by simpa using hx
        simp [hf]
  · rcases List.eq_nil_or_concat bs with rfl | ⟨front, e, rfl⟩
    · simp only [appendFree, List.getLast?_nil, List.not_mem_nil, List.mem_singleton, false_iff]
      rintro rfl
      exact hd rfl
    · simp only [appendFree, List.concat_eq_append, List.getLast?_concat, List.dropLast_concat]
      split
      · next hf =>
        simp only [List.mem_append, List.mem_singleton]
        refine or_congr_right ⟨?_, ?_⟩
        · rintro rfl
          exact absurd hf hd
        · rintro rfl
          exact absurd hf hd
      · simp only [List.mem_append, List.mem_singleton]
        refine ⟨.inl, fun h ↦ h.resolve_right ?_⟩
        rintro rfl
        exact hd rfl

end CustomAllocator
