import CustomAllocator.Layout.Edits

/-!
# Carving at the bump pointer

The two ways the carved arenas grow: an empty arena over a freshly granted region, and a
new allocated block at the end of the newest arena. Both write only where no block lies.
-/

namespace CustomAllocator
open CustomAllocator.Base

variable {m m' : Mem} {head : Nat} {ts init : List Carved} {order : List Nat}

/-- A representation survives every write that spares free blocks and footers and leaves the
headers of allocated blocks even. -/
theorem Represents.congr (R : Represents m head ts order)
    (hfree : ∀ b ∈ blocksOf ts, b.free = true → ∀ x, b.Covers x → m' x = m x)
    (hfoot : ∀ b ∈ blocksOf ts, b.free = false →
      read64 m' (b.addr + 16 + b.size) = read64 m (b.addr + 16 + b.size))
    (heven : ∀ b ∈ blocksOf ts, b.free = false → read64 m' b.addr % 2 = 0) :
    Represents m' head ts order := by
  have hnode := (R.freeNodes R.listed).addr
  have hlinks : ∀ x ∈ order, nextOf m' x = nextOf m x ∧ prevOf m' x = prevOf m x := by
    intro x hx
    obtain ⟨b, hb, rfl, hf⟩ := R.listed x hx
    have hw := (R.placed.block_wf hb).size_min
    rw [nextOf_eq _ (hnode _ hx), nextOf_eq _ (hnode _ hx), prevOf_eq _ (hnode _ hx),
      prevOf_eq _ (hnode _ hx)]
    exact ⟨read64_congr fun k hk ↦ hfree b hb hf _ ⟨by omega, by unfold Block.stop; omega⟩,
      read64_congr fun k hk ↦ hfree b hb hf _ ⟨by omega, by unfold Block.stop; omega⟩⟩
  refine ⟨R.wf, R.apart, fun b hb ↦ ?_, ?_, R.listed⟩
  · cases hf : b.free with
    | false => exact ⟨(hfoot b hb hf).trans (R.tagged b hb).footer,
        fun h ↦ absurd h (by simp [hf]), fun _ ↦ heven b hb hf⟩
    | true => exact (R.tagged b hb).congr (hfree b hb hf)
  · exact R.links.congr (fun x hx ↦ (hlinks x hx).1) fun x hx ↦ (hlinks x hx).2

/-- A representation depends only on the bytes of its blocks. -/
theorem Represents.congr_blocks (R : Represents m head ts order)
    (h : ∀ b ∈ blocksOf ts, ∀ x, b.Covers x → m' x = m x) : Represents m' head ts order :=
  R.congr (fun b hb _ ↦ h b hb)
    (fun b hb _ ↦ read64_congr fun k hk ↦ h b hb _ ⟨by omega, by unfold Block.stop; omega⟩)
    fun b hb hf ↦ by
      rw [read64_congr fun k hk ↦ h b hb _ ⟨by omega, by unfold Block.stop; omega⟩]
      exact (R.tagged b hb).even hf

/-- A block lies in the region of its arena. -/
theorem Placed.block_in_region (P : Placed ts) {b : Block} (hb : b ∈ blocksOf ts) :
    ∃ t ∈ ts, t.arena.base ≤ b.addr ∧ b.stop ≤ t.arena.base + t.arena.used ∧
      t.arena.used ≤ t.arena.size := by
  obtain ⟨t, ht, hbt⟩ := mem_blocksOf.mp hb
  have hbb := (P.wf t ht).bounds hbt
  exact ⟨t, ht, hbb.1, hbb.2, (P.wf t ht).used_le⟩

/-- An empty arena over a region apart from all others. -/
theorem Represents.addArena (R : Represents m head ts order) {r : OsRegion} (hr : r.WF)
    (hap : ∀ t ∈ ts, r.Apart t.arena.region)
    (hm : ∀ x, (r.base ≤ x → r.stop ≤ x) → m' x = m x) :
    Represents m' head (ts ++ [⟨⟨r.base, r.size, 0⟩, []⟩]) order := by
  have hblocks : blocksOf (ts ++ [⟨⟨r.base, r.size, 0⟩, []⟩]) = blocksOf ts := by
    simp [blocksOf]
  have hkeep : Represents m' head ts order := R.congr_blocks fun b hb x hx ↦ by
    obtain ⟨t, ht, hlo, hhi, hle⟩ := R.placed.block_in_region hb
    have := hap t ht
    simp only [OsRegion.Apart, OsRegion.stop, Arena.region] at this
    simp only [Block.Covers] at hx
    exact hm x (by unfold OsRegion.stop; omega)
  refine ⟨fun t ht ↦ ?_, ?_, ?_, hkeep.links, ?_⟩
  · rcases List.mem_append.mp ht with ht | ht
    · exact R.wf t ht
    · have hb := hr.base_ge
      rw [List.mem_singleton.mp ht]
      exact ⟨by dsimp only; omega, hr.base_aligned, rfl, Nat.zero_le _, hr.stop_le, rfl,
        by simp⟩
  · rw [List.map_append, List.pairwise_append]
    refine ⟨R.apart, by simp, fun a ha b hb ↦ ?_⟩
    obtain ⟨t, ht, rfl⟩ := List.mem_map.mp ha
    rw [List.map_singleton, List.mem_singleton] at hb
    exact hb ▸ (hap t ht).symm
  · exact hblocks ▸ hkeep.tagged
  · exact hblocks ▸ hkeep.listed

/-- The newest arena after `n` payload bytes were carved at its bump pointer. -/
def Carved.bump (t : Carved) (n : Nat) : Carved where
  arena := { t.arena with used := t.arena.used + (n + 32) }
  blocks := t.blocks ++ [⟨t.arena.base + t.arena.used, n, false⟩]

/-- The block a bump adds. -/
def Carved.fresh (t : Carved) (n : Nat) : Block := ⟨t.arena.base + t.arena.used, n, false⟩

theorem mem_bump {t : Carved} {n : Nat} {b : Block} :
    b ∈ blocksOf (init ++ [t.bump n]) ↔ b ∈ blocksOf (init ++ [t]) ∨ b = t.fresh n := by
  simp [blocksOf, Carved.bump, Carved.fresh, or_assoc]

/-- No carved block reaches past the bump pointer into the block about to be carved. -/
theorem Placed.fresh_apart {t : Carved} {n : Nat} (P : Placed (init ++ [t]))
    (hroom : t.arena.used + (n + 32) ≤ t.arena.size) {b : Block}
    (hb : b ∈ blocksOf (init ++ [t])) {x : Nat} (hx : b.Covers x) :
    x < t.arena.base + t.arena.used ∨ t.arena.base + t.arena.used + n + 32 ≤ x := by
  obtain ⟨u, hu, hlo, hhi, hle⟩ := P.block_in_region hb
  simp only [Block.Covers] at hx
  rcases List.mem_append.mp hu with hu | hu
  · have hp := P.apart
    rw [List.map_append, List.pairwise_append] at hp
    have := hp.2.2 u.arena (List.mem_map_of_mem hu) t.arena (by simp)
    simp only [OsRegion.Apart, OsRegion.stop, Arena.region] at this
    omega
  · rw [List.mem_singleton.mp hu] at hlo hhi hle
    omega

/-- A block at the bump pointer of the newest arena, once its header and footer are written. -/
theorem Represents.bump {t : Carved} {n : Nat} (R : Represents m head (init ++ [t]) order)
    (hn16 : n % 16 = 0) (hn : 16 ≤ n) (hroom : t.arena.used + (n + 32) ≤ t.arena.size)
    (hh : Headed m' (t.fresh n)) (hf : read64 m' (t.arena.base + t.arena.used + 16 + n) = n)
    (hm : ∀ x, ¬ (t.fresh n).Covers x → m' x = m x) :
    Represents m' head (init ++ [t.bump n]) order := by
  have ht : t ∈ init ++ [t] := by simp
  have hw := R.wf t ht
  have hkeep : Represents m' head (init ++ [t]) order := R.congr_blocks fun b hb x hx ↦ by
    have := R.placed.fresh_apart hroom hb hx
    exact hm x (by simp only [Block.Covers, Block.stop, Carved.fresh]; omega)
  have hua := hw.used_aligned
  have hba := hw.base_aligned
  have hblock : (t.fresh n).WF := ⟨by simp only [Carved.fresh]; omega, hn16, hn⟩
  refine ⟨fun u hu ↦ ?_, ?_, fun b hb ↦ ?_, hkeep.links, fun x hx ↦ ?_⟩
  · rcases List.mem_append.mp hu with hu | hu
    · exact R.wf u (by simp [hu])
    · rw [List.mem_singleton.mp hu]
      refine ⟨hw.base_pos, hba, by simp only [Carved.bump]; omega, hroom, hw.stop_le, ?_, ?_⟩
      · have htile := hw.tiling.concat (b := t.fresh n) rfl
          (by simp only [Carved.fresh, Block.stop]; omega)
        have hstop : (t.fresh n).stop = t.arena.base + (t.arena.used + (n + 32)) := by
          simp only [Carved.fresh, Block.stop]
          omega
        exact hstop ▸ htile
      · intro b hb
        rcases List.mem_append.mp hb with hb | hb
        · exact hw.blocks_wf b hb
        · exact List.mem_singleton.mp hb ▸ hblock
  · have hp := R.apart
    simp only [List.map_append, List.map_singleton] at hp ⊢
    rw [List.pairwise_append] at hp ⊢
    refine ⟨hp.1, by simp, fun a ha b hb ↦ ?_⟩
    have := hp.2.2 a ha t.arena (by simp)
    rw [List.mem_singleton.mp hb]
    exact this
  · rcases mem_bump.mp hb with hb | rfl
    · exact hkeep.tagged b hb
    · exact hh.tagged (by simp only [Carved.fresh]; omega) hf
  · obtain ⟨b, hb, hxb⟩ := hkeep.listed x hx
    exact ⟨b, mem_bump.mpr (.inl hb), hxb⟩

end CustomAllocator
