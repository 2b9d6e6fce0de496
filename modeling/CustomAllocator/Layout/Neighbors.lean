import CustomAllocator.Layout.Edits

/-!
# Owners and physical neighbours

`arena_owning` finds the arena a carved block was cut from, and the two neighbour searches
find exactly the free block before or after it: the boundary tags they follow belong to
blocks of the tiling, and the arena's ends stop them.
-/

namespace CustomAllocator
open CustomAllocator.Base

variable {m : Mem} {head : Nat} {order : List Nat} {z : Site} {b : Block}

/-- The address of a free block; null for an allocated block and for no block. -/
def freeAddr : Option Block → Nat
  | some b => if b.free then b.addr else 0
  | none => 0

/-- The arena of a site lies inside the address space, and owns the blocks of its run. -/
theorem Placed.arena_bounds {run : List Block} (P : Placed (z.fill run)) (hb : b ∈ run) :
    16 ≤ z.arena.base ∧ z.arena.base ≤ b.addr ∧
      b.addr + b.size + 32 ≤ z.arena.base + z.arena.used ∧
      z.arena.used ≤ z.arena.size ∧ z.arena.base + z.arena.size + 4096 ≤ 2 ^ 64 := by
  have hw := P.wf _ (z.mem_arenas_fill run)
  have hbb := hw.bounds (b := b) (by simp [hb])
  have hpos := hw.base_pos
  have hal := hw.base_aligned
  exact ⟨by dsimp only at hpos hal; omega, hbb.1, hbb.2, hw.used_le, hw.stop_le⟩

/-- The owner of a block is the arena it was carved from. -/
theorem Placed.arenaOwning_eq {run : List Block} (P : Placed (z.fill run)) (hb : b ∈ run) :
    arenaOwning ((z.fill run).map Carved.arena) b.addr = some z.arena := by
  obtain ⟨hbase, hlo, hhi, hused, hstop⟩ := P.arena_bounds hb
  have hend : add64 z.arena.base z.arena.used = z.arena.base + z.arena.used :=
    add64_of_lt (by omega)
  refine List.find?_eq_some_iff_append.mpr
    ⟨by simp only [hend, decide_eq_true_eq]; omega, z.left.map Carved.arena,
      z.right.map Carved.arena, by simp [Site.fill], fun a ha ↦ ?_⟩
  obtain ⟨t, ht, rfl⟩ := List.mem_map.mp ha
  have hmem : t ∈ z.fill run := by simp [Site.fill, ht]
  have hw := P.wf t hmem
  have hend' : add64 t.arena.base t.arena.used = t.arena.base + t.arena.used :=
    add64_of_lt (by have := hw.used_le; have := hw.stop_le; omega)
  have hp := P.apart
  rw [Site.fill, List.map_append, List.pairwise_append] at hp
  have hap := hp.2.2 _ ha z.arena (by simp)
  have hle := hw.used_le
  simp only [OsRegion.Apart, OsRegion.stop, Arena.region] at hap
  simp only [hend', Bool.not_eq_true', decide_eq_false_iff_not]
  omega

/-- The assertion that a block has an owner holds. -/
theorem Placed.owningArena_ok {run : List Block} (c : Config) (P : Placed (z.fill run))
    (hb : b ∈ run) (text : String) :
    owningArena c ((z.fill run).map Carved.arena) b.addr text = .ok z.arena := by
  simp [owningArena, P.arenaOwning_eq hb]

/-- A block with an intact header has its footer in sync. -/
theorem Headed.inSync (hb : Headed m b) (ht : Tagged m b) (hw : b.WF)
    (hlt : b.addr + b.size + 4096 ≤ 2 ^ 64) : footerInSync m b.addr = true :=
  footerInSync_eq (hb.getSize hw) (by omega) ht.footer

/-- The right neighbour is the next block of the tiling when that block is free. -/
theorem Represents.rightNeighbor (c : Config) (R : Represents m head (z.fill [b]) order)
    (hb : Headed m b) :
    rightNeighborIfFree c ((z.fill [b]).map Carved.arena) m b.addr =
      .ok (freeAddr z.after.head?) := by
  have hmem : b ∈ blocksOf (z.fill [b]) := Site.mem_fill.mpr (.inr (by simp))
  have hw := R.placed.block_wf hmem
  have hbd := R.placed.block_bounds hmem
  obtain ⟨hbase, hlo, hhi, hused, hstop⟩ := R.placed.arena_bounds (b := b) (by simp)
  have hend : add64 z.arena.base z.arena.used = z.arena.base + z.arena.used :=
    add64_of_lt (by omega)
  have hnext : nextPhysicalHeader m b.addr = b.addr + b.size + 32 :=
    nextPhysicalHeader_eq (hb.getSize hw) (by omega)
  have hcand : add64 (b.addr + b.size + 32) sizeofBlockHeader = b.addr + b.size + 48 :=
    add64_of_lt (by unfold sizeofBlockHeader; omega)
  have htile : Tiling Block.addr Block.stop z.arena.base (z.arena.base + z.arena.used)
      (z.before ++ b :: z.after) := by
    simpa using (R.wf _ (z.mem_arenas_fill [b])).tiling
  have hafter := htile.split.2.2
  simp only [rightNeighborIfFree, R.placed.owningArena_ok c (b := b) (by simp),
    hb.inSync (R.tagged b hmem) hw hbd.2, assert_true, ok_bind, hnext, hend, hcand]
  cases hz : z.after with
  | nil =>
    rw [hz, Tiling.nil_iff, Block.stop] at hafter
    rw [if_pos (by omega)]
    rfl
  | cons r rs =>
    have hr : r ∈ blocksOf (z.fill [b]) := Site.mem_fill.mpr (.inl (by simp [Site.others, hz]))
    have hrw := R.placed.block_wf hr
    have hra : b.addr + b.size + 32 = r.addr := by
      rw [hz] at hafter
      exact hafter.1.symm
    have hrend : r.addr + r.size + 32 ≤ z.arena.base + z.arena.used := by
      rw [hz] at hafter
      exact hafter.2.2.le
    have hrbd := R.placed.block_bounds hr
    rw [hra, if_neg (by omega), (R.tagged r hr).isFree hrw]
    cases hf : r.free with
    | false => simp [freeAddr, hf]
    | true =>
      have hrs := ((R.tagged r hr).header hf).inSync (R.tagged r hr) hrw hrbd.2
      simp [freeAddr, hf, hrs]

/-- The left neighbour is the previous block of the tiling when that block is free. -/
theorem Represents.leftNeighbor (c : Config) (R : Represents m head (z.fill [b]) order)
    (hb : Headed m b) :
    leftNeighborIfFree c ((z.fill [b]).map Carved.arena) m b.addr =
      .ok (freeAddr z.before.getLast?) := by
  have hmem : b ∈ blocksOf (z.fill [b]) := Site.mem_fill.mpr (.inr (by simp))
  have hw := R.placed.block_wf hmem
  have hbd := R.placed.block_bounds hmem
  obtain ⟨hbase, hlo, hhi, hused, hstop⟩ := R.placed.arena_bounds (b := b) (by simp)
  have hprev : sub64 b.addr 16 = b.addr - 16 := sub64_of_le (by omega) (by omega)
  have htile : Tiling Block.addr Block.stop z.arena.base (z.arena.base + z.arena.used)
      (z.before ++ b :: z.after) := by
    simpa using (R.wf _ (z.mem_arenas_fill [b])).tiling
  have hbefore := htile.split.1
  simp only [leftNeighborIfFree, R.placed.owningArena_ok c (b := b) (by simp),
    hb.inSync (R.tagged b hmem) hw hbd.2, assert_true, ok_bind, precedingFooter,
    sizeofBlockFooter, hprev]
  rcases List.eq_nil_or_concat z.before with hz | ⟨ls, l, hz⟩
  · rw [hz, Tiling.nil_iff] at hbefore
    rw [if_pos (by omega), hz]
    rfl
  · have hl : l ∈ blocksOf (z.fill [b]) := Site.mem_fill.mpr (.inl (by simp [Site.others, hz]))
    have hlw := R.placed.block_wf hl
    have hlbd := R.placed.block_bounds hl
    rw [hz, List.concat_eq_append] at hbefore
    have hls : l.addr + l.size + 32 = b.addr := hbefore.stop_last
    have hlb := (hbefore.bounds (b := l) (by simp)).1
    have hfoot : b.addr - 16 = l.addr + 16 + l.size := by omega
    have hcand : headerFromFooter m (l.addr + 16 + l.size) = l.addr :=
      headerFromFooter_eq (by omega) (R.tagged l hl).footer
    rw [hfoot, if_neg (by omega), hcand, if_neg (by omega), (R.tagged l hl).isFree hlw, hz]
    cases hf : l.free with
    | false => simp [freeAddr, hf]
    | true =>
      have hsync := ((R.tagged l hl).header hf).inSync (R.tagged l hl) hlw hlbd.2
      simp [freeAddr, hf, hsync]

end CustomAllocator
