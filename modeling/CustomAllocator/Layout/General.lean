import CustomAllocator.Layout.InHand

/-!
# The general heap

`GeneralHeap` is the invariant of the general path: the carved arenas are represented in
memory, the list holds exactly the free blocks, no two neighbours are free and allocated
blocks are larger than every size class. The bodies of a general free, of an in-place
reallocation and of a reuse keep it; each says which allocated blocks change and which
bytes may.
-/

namespace CustomAllocator
open CustomAllocator.Base

/-- The invariant of the general path over carved arenas `ts` and free list `order`. -/
structure GeneralHeap (m : Mem) (head : Nat) (arenas : List Arena) (ts : List Carved)
    (order : List Nat) : Prop where
  rep : Represents m head ts order
  arenas_eq : arenas = ts.map Carved.arena
  complete : ∀ b ∈ blocksOf ts, b.free = true → b.addr ∈ order
  separated : ∀ t ∈ ts, Separated t.blocks
  large : ∀ b ∈ blocksOf ts, b.free = false → 4096 < b.size

/-- A carved block that is not free. -/
def Allocated (ts : List Carved) (b : Block) : Prop := b ∈ blocksOf ts ∧ b.free = false

/-- The block `r` comes right after `b` in one arena. -/
def Follows (ts : List Carved) (b r : Block) : Prop :=
  ∃ t ∈ ts, b ∈ t.blocks ∧ r ∈ t.blocks ∧ b.stop = r.addr

/-- Only free blocks, the block at `a` and uncarved parts of arenas change. -/
structure HeapFrame (ts ts' : List Carved) (a : Nat) (m m' : Mem) : Prop where
  allocated : ∀ d, Allocated ts d → d.addr ≠ a → ∀ x, d.Covers x → m' x = m x
  outside : ∀ x, (∀ t ∈ ts', x < t.arena.base ∨ t.arena.base + t.arena.size ≤ x) → m' x = m x

/-! ### Addresses and rounding -/

/-- The header comes sixteen bytes before the payload. -/
theorem headerOf_add {a : Nat} (h : a + 16 < 2 ^ 64) : headerOf (a + 16) = a := by
  unfold headerOf
  rw [sub64_of_le (by unfold sizeofBlockHeader; omega) h]
  simp

/-- Rounded sizes are multiples of sixteen. -/
theorem alignUp_mod (size : Nat) : alignUp size % 16 = 0 := by
  unfold alignUp
  omega

/-- Rounding is exact while it does not wrap. -/
theorem alignUp_spec {size : Nat} (h : size + 16 ≤ 2 ^ 64) :
    size ≤ alignUp size ∧ alignUp size < size + 16 := by
  have hsum : sub64 (add64 size 16) 1 = size + 15 := by
    unfold sub64 add64
    omega
  unfold alignUp
  rw [hsum]
  omega

/-- The one multiple of sixteen that rounding can give. -/
theorem alignUp_eq {size n : Nat} (h : size + 16 ≤ 2 ^ 64) (hn : n % 16 = 0) (hle : size ≤ n)
    (hlt : n < size + 16) : alignUp size = n := by
  have := alignUp_spec h
  have := alignUp_mod size
  omega

/-! ### Neighbours in the tiling -/

section neighbours

variable {ts : List Carved} {z : Site} {b r l : Block}

/-- At most one block comes after a block. -/
theorem Follows.right_unique (h : Follows ts b r) (h' : Follows ts b l) (P : Placed ts) :
    r = l := by
  obtain ⟨t, ht, -, hr, har⟩ := h
  obtain ⟨u, hu, -, hl, hal⟩ := h'
  exact P.block_eq_of_addr (mem_blocksOf.mpr ⟨t, ht, hr⟩) (mem_blocksOf.mpr ⟨u, hu, hl⟩)
    (har.symm.trans hal)

/-- The block after a site follows the block at the site. -/
theorem Placed.follows_right (P : Placed (z.fill [b])) {after : List Block}
    (hz : z.after = r :: after) : Follows (z.fill [b]) b r := by
  refine ⟨_, z.mem_arenas_fill [b], by simp, by simp [hz], ?_⟩
  obtain ⟨lo, hi, hspan⟩ := (z.fill_after [b] r after hz ▸ P).span
  exact (tiling_pair.mp hspan).2.1

/-- No block comes after the last one of an arena. -/
theorem Placed.not_follows (P : Placed (z.fill [b])) (hz : z.after = []) :
    ¬ Follows (z.fill [b]) b r := by
  rintro ⟨t, ht, hb, hr, hadj⟩
  have hw := P.wf _ (z.mem_arenas_fill [b])
  have htile := hw.tiling
  simp only [hz, List.append_nil] at htile
  have hlast : b.stop = z.arena.base + z.arena.used := htile.stop_last
  have hrb := (P.wf t ht).bounds hr
  have hbb := (P.wf t ht).bounds hb
  have hzb := hw.bounds (b := b) (by simp)
  have hle := hw.used_le
  have hle' := (P.wf t ht).used_le
  have hteq : t = ⟨z.arena, z.before ++ [b] ++ z.after⟩ :=
    P.arena_eq ht (z.mem_arenas_fill [b]) (x := b.addr) (by omega) (by dsimp only at *; omega)
  rw [hteq] at hrb
  dsimp only at hrb
  unfold Block.stop at hadj hlast
  omega

end neighbours

/-! ### Taking a block in hand and handing it back -/

section hand

variable {m m' : Mem} {head : Nat} {arenas : List Arena} {ts : List Carved} {order : List Nat}
  {z z' : Site} {b b' : Block}

theorem separated_three {before after : List Block} (hb : Separated before)
    (ha : Separated after) (h : b.free = true →
      (∀ l ∈ before.getLast?, l.free = false) ∧ ∀ r ∈ after.head?, r.free = false) :
    Separated (before ++ [b] ++ after) := by
  unfold Separated at *
  rw [List.append_assoc, List.singleton_append, List.isChain_append, List.isChain_cons]
  refine ⟨hb, ⟨fun r hr hf ↦ ?_, ha⟩, fun l hl d hd hf ↦ ?_⟩
  · exact absurd ((h hf.1).2 r hr) (by simp [hf.2])
  · obtain rfl : b = d := by simpa using hd
    exact absurd ((h hf.2).1 l hl) (by simp [hf.1])

theorem separated_fill (hs : ∀ t ∈ z.left ++ z.right, Separated t.blocks)
    (h : Separated (z.before ++ [b] ++ z.after)) : ∀ t ∈ z.fill [b], Separated t.blocks := by
  intro t ht
  simp only [Site.fill, List.mem_append, List.mem_cons] at ht
  rcases ht with ht | rfl | ht
  · exact hs t (by simp [ht])
  · exact h
  · exact hs t (by simp [ht])

/-- Everything about the heap except the block at the site itself. -/
theorem GeneralHeap.around (H : GeneralHeap m head arenas (z.fill [b]) order) :
    (∀ t ∈ z.left ++ z.right, Separated t.blocks) ∧ Separated z.before ∧ Separated z.after ∧
      (b.free = true → z.ClosedRight) := by
  have hz := H.separated _ (z.mem_arenas_fill [b])
  unfold Separated at hz
  simp only [List.append_assoc, List.singleton_append] at hz
  rw [List.isChain_append, List.isChain_cons] at hz
  refine ⟨fun t ht ↦ H.separated t ?_, hz.1, hz.2.1.2, fun hb r hr ↦ ?_⟩
  · simp only [List.mem_append] at ht
    simp only [Site.fill, List.mem_append, List.mem_cons]
    tauto
  · simpa [hb] using hz.2.1.1 r hr

/-- An allocated block with an intact header can be taken in hand. -/
theorem GeneralHeap.hold (H : GeneralHeap m head arenas ts order) (hb : Allocated ts b)
    (hh : Headed m b) : ∃ z : Site, ts = z.fill [b] ∧ InHand m head arenas z b order := by
  obtain ⟨z, rfl⟩ := Site.exists_of_mem hb.1
  obtain ⟨hs, hbefore, hafter, -⟩ := H.around
  exact ⟨z, rfl, H.rep, H.arenas_eq, hh, H.rep.not_listed hb.1 hb.2,
    fun d hd hf ↦ H.complete d (Site.mem_fill.mpr (.inl hd)) hf, hs, hbefore, hafter,
    fun d hd hf ↦ H.large d (Site.mem_fill.mpr (.inl hd)) hf⟩

/-- A free block is in hand once it has left the list. -/
theorem GeneralHeap.take (c : Config) (H : GeneralHeap m head arenas ts order)
    (hb : b ∈ blocksOf ts) (hf : b.free = true) :
    ∃ z m' head', ts = z.fill [b] ∧ FreeList.remove c m head b.addr = .ok (m', head') ∧
      InHand m' head' arenas z b (b.outside order) ∧ z.ClosedRight ∧
      ∀ x, ¬ z.Loose [b] x → m' x = m x := by
  obtain ⟨z, rfl⟩ := Site.exists_of_mem hb
  obtain ⟨hs, hbefore, hafter, hright⟩ := H.around
  obtain ⟨xs, ys, rfl⟩ := List.append_of_mem (H.complete b hb hf)
  obtain ⟨m', head', hrun, R', hh, hn, hch⟩ := H.rep.take c hb hf
  have hdrop : InHand m' head' arenas z b (xs ++ ys) := by
    refine ⟨R', H.arenas_eq, hh, hn, fun d hd hdf ↦ ?_, hs, hbefore, hafter,
      fun d hd hdf ↦ H.large d (Site.mem_fill.mpr (.inl hd)) hdf⟩
    have hdm : d ∈ blocksOf (z.fill [b]) := Site.mem_fill.mpr (.inl hd)
    rcases List.mem_append.mp (H.complete d hdm hdf) with h | h
    · exact List.mem_append_left _ h
    · rcases List.mem_cons.mp h with h | h
      · rw [H.rep.placed.block_eq_of_addr hdm hb h] at hd
        exact absurd (by simp) (H.rep.placed.not_mem_run hd)
      · exact List.mem_append_right _ h
  rw [Block.outside_drop ⟨Nat.le_refl _, by unfold Block.stop; omega⟩ fun x hx ↦ hdrop.outside hx]
  refine ⟨z, m', head', rfl, hrun, hdrop, hright hf, hch.loose fun x hx ↦ ?_⟩
  · obtain ⟨d, hd, hda, hdf⟩ := H.rep.listed x hx
    exact ⟨d, hd, hda, hdf, H.rep.placed.block_wf hd⟩

/-- Handing the block in hand to the client. -/
theorem InHand.close (I : InHand m head arenas z b order) (hb : b.free = false)
    (hlarge : 4096 < b.size) : GeneralHeap m head arenas (z.fill [b]) order where
  rep := I.rep
  arenas_eq := I.arenas_eq
  complete d hd hf := by
    rcases Site.mem_fill.mp hd with hd | hd
    · exact I.complete d hd hf
    · rw [List.mem_singleton.mp hd, hb] at hf
      exact absurd hf (by decide)
  separated := separated_fill I.separated
    (separated_three I.before I.after fun h ↦ by simp [h] at hb)
  large d hd hf := by
    rcases Site.mem_fill.mp hd with hd | hd
    · exact I.large d hd hf
    · exact List.mem_singleton.mp hd ▸ hlarge

/-- Handing the block in hand to the free list. -/
theorem InHand.release (c : Config) (I : InHand m head arenas z b order) (hb : b.free = true)
    (hl : z.ClosedLeft) (hr : z.ClosedRight) :
    ∃ m', FreeList.insert c m head b.addr = .ok (m', b.addr) ∧
      GeneralHeap m' b.addr arenas (z.fill [b]) (b.addr :: order) ∧
      ∀ x, ¬ z.Loose [b] x → m' x = m x := by
  obtain ⟨m', hrun, R', hch⟩ := I.rep.insert c z.mem_self hb I.unlisted
  refine ⟨m', hrun, ⟨R', I.arenas_eq, fun d hd hf ↦ ?_, separated_fill I.separated
    (separated_three I.before I.after fun _ ↦ ⟨hl, hr⟩), fun d hd hf ↦ ?_⟩,
    hch.loose fun x hx ↦ ?_⟩
  · rcases Site.mem_fill.mp hd with hd | hd
    · exact List.mem_cons_of_mem _ (I.complete d hd hf)
    · exact List.mem_singleton.mp hd ▸ List.mem_cons_self
  · rcases Site.mem_fill.mp hd with hd | hd
    · exact I.large d hd hf
    · rw [List.mem_singleton.mp hd, hb] at hf
      exact absurd hf (by decide)
  · obtain ⟨d, hd, hda, hdf⟩ := R'.listed x hx
    exact ⟨d, hd, hda, hdf, I.rep.placed.block_wf hd⟩

/-- Bytes of other allocated blocks and bytes outside the arenas are never loose. -/
theorem heapFrame_of_loose (P : Placed (z.fill [b]))
    (harenas : (z'.fill [b']).map Carved.arena = (z.fill [b]).map Carved.arena)
    (h : ∀ x, ¬ z.Loose [b] x → m' x = m x) :
    HeapFrame (z.fill [b]) (z'.fill [b']) b.addr m m' where
  allocated d hd hne x hx := by
    refine h x ?_
    rintro (⟨e, he, hex⟩ | ⟨e, he, hef, hex⟩)
    · have := P.block_eq hd.1 (Site.mem_fill.mpr (.inr he)) hx hex
      exact hne (by rw [this, List.mem_singleton.mp he])
    · have := P.block_eq hd.1 (Site.mem_fill.mpr (.inl he)) hx hex
      exact absurd (this ▸ hd.2) (by simp [hef])
  outside x hx := by
    have hout : ∀ e ∈ blocksOf (z.fill [b]), ¬ e.Covers x := by
      intro e he hex
      obtain ⟨t, ht, hlo, hhi, hle⟩ := P.block_in_region he
      obtain ⟨u, hu, hua⟩ := List.mem_map.mp (harenas ▸ List.mem_map_of_mem ht)
      have := hx u hu
      rw [hua] at this
      simp only [Block.Covers] at hex
      omega
    refine h x ?_
    rintro (⟨e, he, hex⟩ | ⟨e, he, -, hex⟩)
    · exact hout e (Site.mem_fill.mpr (.inr he)) hex
    · exact hout e (Site.mem_fill.mpr (.inl he)) hex

/-- After steps with a block in hand, the allocated blocks besides it are those of before. -/
theorem HandStep.allocated_iff (h : HandStep m z b m' z' b') (P : Placed (z.fill [b]))
    (d : Block) :
    Allocated (z'.fill [b']) d ↔ (d = b' ∧ b'.free = false) ∨ Allocated (z.fill [b]) d ∧ d ≠ b := by
  unfold Allocated
  simp only [Site.mem_fill, List.mem_singleton]
  constructor
  · rintro ⟨hd | rfl, hf⟩
    · have hd' := (h.allocated d hf).mp hd
      exact .inr ⟨⟨.inl hd', hf⟩, fun he ↦ P.not_mem_run hd' (by simp [he])⟩
    · exact .inl ⟨rfl, hf⟩
  · rintro (⟨rfl, hf⟩ | ⟨⟨hd | rfl, hf⟩, hne⟩)
    · exact ⟨.inr rfl, hf⟩
    · exact ⟨.inl ((h.allocated d hf).mpr hd), hf⟩
    · exact absurd rfl hne

end hand

end CustomAllocator
