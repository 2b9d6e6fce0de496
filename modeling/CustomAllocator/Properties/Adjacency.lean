import CustomAllocator.Properties.BoundaryTags

/-!
# Neighbour detection

In a routed session the two neighbour searches return exactly the free block after or before
a block of the same arena. Each search is accompanied by the list of the words it may read;
the list decides the result, and every word of it lies in the carved part of the arena.
-/

namespace CustomAllocator
open CustomAllocator.Base

/-- The words read by `footer_in_sync` and `get_size`. -/
def tagReads (m : Mem) (block : Nat) : List Nat := [block, footer m block]

/-- The words `right_neighbor_if_free` may read, those of its assertions included. -/
def rightNeighborReads (arenas : List Arena) (m : Mem) (block : Nat) : List Nat :=
  match arenaOwning arenas block with
  | none => []
  | some arena =>
    let candidate := nextPhysicalHeader m block
    let carvedEnd := add64 arena.base arena.used
    tagReads m block ++
      if candidate < arena.base ∨ carvedEnd < add64 candidate sizeofBlockHeader then []
      else if !isFree m candidate then [candidate]
      else tagReads m candidate

/-- The words `left_neighbor_if_free` may read, those of its assertions included. -/
def leftNeighborReads (arenas : List Arena) (m : Mem) (block : Nat) : List Nat :=
  match arenaOwning arenas block with
  | none => []
  | some arena =>
    tagReads m block ++
      if sub64 block sizeofBlockFooter < arena.base then []
      else
        let candidate := headerFromFooter m (precedingFooter block)
        precedingFooter block ::
          if candidate < arena.base ∨ block ≤ candidate then []
          else if !isFree m candidate then [candidate]
          else tagReads m candidate

/-- The address of a free header; null for an allocated one and for none. -/
def freeHeader (m : Mem) : Option Nat → Nat
  | some b => if isFree m b then b else 0
  | none => 0

/-! ### The reads decide the result -/

section reads

variable {m m' : Mem} {block : Nat} {arenas : List Arena} {c : Config}

private theorem getSize_reads (h : ∀ a ∈ tagReads m block, read64 m' a = read64 m a) :
    getSize m' block = getSize m block ∧ footer m' block = footer m block ∧
      footerInSync m' block = footerInSync m block := by
  have hhead : read64 m' block = read64 m block := h _ (by simp [tagReads])
  have hfoot := h (footer m block) (by simp [tagReads])
  have hsize : getSize m' block = getSize m block := by
    unfold getSize
    rw [hhead]
  have hf : footer m' block = footer m block := by
    unfold footer
    rw [hsize]
  refine ⟨hsize, hf, ?_⟩
  unfold footerInSync
  rw [hf, hfoot, hsize]

private theorem isFree_reads (h : read64 m' block = read64 m block) :
    isFree m' block = isFree m block := by
  unfold isFree
  rw [h]

private theorem owningArena_of_none (text : String) (h : arenaOwning arenas block = none) :
    ∃ e, owningArena c arenas block text = .error e := by
  unfold owningArena
  rw [h]
  cases assert c (none : Option Arena).isSome text with
  | error e => exact ⟨e, error_bind e _⟩
  | ok _ => exact ⟨.nullDereference, ok_bind () _⟩

private theorem owningArena_of_some {text : String} {arena : Arena}
    (h : arenaOwning arenas block = some arena) :
    owningArena c arenas block text = .ok arena := by
  simp [owningArena, h]

/-- A search that finds the same words finds the same right neighbour. -/
theorem rightNeighbor_reads
    (h : ∀ a ∈ rightNeighborReads arenas m block, read64 m' a = read64 m a) :
    rightNeighborIfFree c arenas m' block = rightNeighborIfFree c arenas m block := by
  unfold rightNeighborReads at h
  unfold rightNeighborIfFree
  cases how : arenaOwning arenas block with
  | none =>
    obtain ⟨e, he⟩ := owningArena_of_none (c := c)
      "block does not belong to any tracked arena" how
    simp only [he, error_bind]
  | some arena =>
    rw [owningArena_of_some how, ok_bind, ok_bind]
    simp only [how, List.mem_append] at h
    obtain ⟨-, hfoot, hsync⟩ := getSize_reads fun a ha ↦ h a (.inl ha)
    have hnext : nextPhysicalHeader m' block = nextPhysicalHeader m block := by
      unfold nextPhysicalHeader
      rw [hfoot]
    rw [hsync, hnext]
    by_cases hend : nextPhysicalHeader m block < arena.base ∨ add64 arena.base arena.used <
        add64 (nextPhysicalHeader m block) sizeofBlockHeader
    · simp only [if_pos hend]
    · simp only [if_neg hend] at h ⊢
      by_cases hf : isFree m (nextPhysicalHeader m block) = true
      · simp only [hf, Bool.not_true, Bool.false_eq_true, if_false] at h
        have hc := getSize_reads fun a ha ↦ h a (.inr ha)
        rw [isFree_reads (h _ (.inr (by simp [tagReads]))), hc.2.2]
      · simp only [hf, Bool.not_false, if_true] at h
        rw [isFree_reads (h _ (.inr (by simp)))]
        simp only [hf, Bool.not_false, if_true]

/-- A search that finds the same words finds the same left neighbour. -/
theorem leftNeighbor_reads
    (h : ∀ a ∈ leftNeighborReads arenas m block, read64 m' a = read64 m a) :
    leftNeighborIfFree c arenas m' block = leftNeighborIfFree c arenas m block := by
  unfold leftNeighborReads at h
  unfold leftNeighborIfFree
  cases how : arenaOwning arenas block with
  | none =>
    obtain ⟨e, he⟩ := owningArena_of_none (c := c)
      "block does not belong to any tracked arena" how
    simp only [he, error_bind]
  | some arena =>
    rw [owningArena_of_some how, ok_bind, ok_bind]
    simp only [how, List.mem_append] at h
    obtain ⟨-, -, hsync⟩ := getSize_reads fun a ha ↦ h a (.inl ha)
    rw [hsync]
    by_cases hstart : sub64 block sizeofBlockFooter < arena.base
    · simp only [if_pos hstart]
    · simp only [if_neg hstart, List.mem_cons] at h ⊢
      have hcand : headerFromFooter m' (precedingFooter block) =
          headerFromFooter m (precedingFooter block) := by
        unfold headerFromFooter
        rw [h _ (.inr (.inl rfl))]
      rw [hcand]
      by_cases hend : headerFromFooter m (precedingFooter block) < arena.base ∨
          block ≤ headerFromFooter m (precedingFooter block)
      · simp only [if_pos hend]
      · simp only [if_neg hend] at h ⊢
        by_cases hf : isFree m (headerFromFooter m (precedingFooter block)) = true
        · simp only [hf, Bool.not_true, Bool.false_eq_true, if_false] at h
          have hc := getSize_reads fun a ha ↦ h a (.inr (.inr ha))
          rw [isFree_reads (h _ (.inr (.inr (by simp [tagReads])))), hc.2.2]
        · simp only [hf, Bool.not_false, if_true] at h
          rw [isFree_reads (h _ (.inr (.inr (by simp))))]
          simp only [hf, Bool.not_false, if_true]

end reads

/-! ### The reads stay in the arena -/

section confined

variable {m : Mem} {head : Nat} {order : List Nat} {z : Site} {b d : Block}

/-- The bytes from `x` to `x + 8` lie in the carved part of the arena. -/
def Arena.Holds (a : Arena) (x : Nat) : Prop := a.base ≤ x ∧ x + 8 ≤ a.base + a.used

/-- The boundary tags of a block lie in its arena. -/
theorem Placed.tagReads_holds (P : Placed (z.fill [b])) (hd : Headed m d)
    (hmem : d ∈ z.before ++ [b] ++ z.after) : ∀ x ∈ tagReads m d.addr, z.arena.Holds x := by
  have hw := P.wf _ (z.mem_arenas_fill [b])
  have hdw := hw.blocks_wf d hmem
  have hle : z.arena.used ≤ z.arena.size := hw.used_le
  have hstop : z.arena.base + z.arena.size + 4096 ≤ 2 ^ 64 := hw.stop_le
  have hbd : z.arena.base ≤ d.addr ∧ d.addr + d.size + 32 ≤ z.arena.base + z.arena.used :=
    hw.bounds hmem
  have hfoot : footer m d.addr = d.addr + 16 + d.size := footer_eq (hd.getSize hdw) (by omega)
  intro x hx
  simp only [tagReads, hfoot, List.mem_cons, List.not_mem_nil, or_false] at hx
  unfold Arena.Holds
  rcases hx with rfl | rfl <;> omega

/-- The search for the right neighbour reads only the arena of its block. -/
theorem Represents.rightReads (R : Represents m head (z.fill [b]) order) (hb : Headed m b) :
    ∀ x ∈ rightNeighborReads ((z.fill [b]).map Carved.arena) m b.addr, z.arena.Holds x := by
  have hmem : b ∈ blocksOf (z.fill [b]) := Site.mem_fill.mpr (.inr (by simp))
  obtain ⟨hbase, hlo, hhi, hused, hstop⟩ := R.placed.arena_bounds (b := b) (by simp)
  have hend : add64 z.arena.base z.arena.used = z.arena.base + z.arena.used :=
    add64_of_lt (by omega)
  have hnext : nextPhysicalHeader m b.addr = b.stop :=
    nextPhysicalHeader_eq (hb.getSize (R.placed.block_wf hmem)) (by omega)
  have hcand : add64 b.stop sizeofBlockHeader = b.stop + 16 :=
    add64_of_lt (by unfold Block.stop sizeofBlockHeader; omega)
  intro x hx
  simp only [rightNeighborReads, R.placed.arenaOwning_eq (b := b) (List.mem_singleton_self b),
    hend, hnext, hcand, List.mem_append] at hx
  rcases hx with hx | hx
  · exact R.placed.tagReads_holds hb (by simp) x hx
  by_cases hout : b.stop < z.arena.base ∨ z.arena.base + z.arena.used < b.stop + 16
  · simp [if_pos hout] at hx
  rw [if_neg hout] at hx
  cases hf : isFree m b.stop with
  | false =>
    simp only [hf, Bool.not_false, if_true, List.mem_singleton] at hx
    subst hx
    constructor <;> omega
  | true =>
    -- What reads as free right after the block is the next block, with its own boundary tags.
    have htile : Tiling Block.addr Block.stop z.arena.base (z.arena.base + z.arena.used)
        (z.before ++ b :: z.after) := by
      simpa using (R.wf _ (z.mem_arenas_fill [b])).tiling
    have hafter := htile.split.2.2
    simp only [hf, Bool.not_true, Bool.false_eq_true, if_false] at hx
    cases hz : z.after with
    | nil =>
      rw [hz, Tiling.nil_iff] at hafter
      omega
    | cons r rs =>
      rw [hz] at hafter
      have hra : r.addr = b.stop := hafter.1
      have hr : r ∈ blocksOf (z.fill [b]) := Site.mem_fill.mpr (.inl (by simp [Site.others, hz]))
      rw [← hra] at hf hx
      rw [(R.tagged r hr).isFree (R.placed.block_wf hr)] at hf
      exact R.placed.tagReads_holds ((R.tagged r hr).header hf) (by simp [hz]) x hx

/-- The search for the left neighbour reads only the arena of its block. -/
theorem Represents.leftReads (R : Represents m head (z.fill [b]) order) (hb : Headed m b) :
    ∀ x ∈ leftNeighborReads ((z.fill [b]).map Carved.arena) m b.addr, z.arena.Holds x := by
  obtain ⟨hbase, hlo, hhi, hused, hstop⟩ := R.placed.arena_bounds (b := b) (by simp)
  have hprev : sub64 b.addr 16 = b.addr - 16 := sub64_of_le (by omega) (by omega)
  have htile : Tiling Block.addr Block.stop z.arena.base (z.arena.base + z.arena.used)
      (z.before ++ b :: z.after) := by
    simpa using (R.wf _ (z.mem_arenas_fill [b])).tiling
  have hbefore := htile.split.1
  intro x hx
  simp only [leftNeighborReads, R.placed.arenaOwning_eq (b := b) (List.mem_singleton_self b),
    precedingFooter, sizeofBlockFooter, hprev, List.mem_append] at hx
  rcases hx with hx | hx
  · exact R.placed.tagReads_holds hb (by simp) x hx
  by_cases hstart : b.addr - 16 < z.arena.base
  · simp [if_pos hstart] at hx
  rw [if_neg hstart, List.mem_cons] at hx
  rcases hx with rfl | hx
  · constructor <;> omega
  -- The footer before the block belongs to the previous block of the arena.
  rcases List.eq_nil_or_concat z.before with hz | ⟨ls, l, hz⟩
  · rw [hz, Tiling.nil_iff] at hbefore
    omega
  rw [hz, List.concat_eq_append] at hbefore
  have hl : l ∈ blocksOf (z.fill [b]) := Site.mem_fill.mpr (.inl (by simp [Site.others, hz]))
  have hls : l.addr + l.size + 32 = b.addr := hbefore.stop_last
  have hlb := (hbefore.bounds (b := l) (by simp)).1
  have hcand : headerFromFooter m (b.addr - 16) = l.addr := by
    rw [show b.addr - 16 = l.addr + 16 + l.size by omega]
    exact headerFromFooter_eq (by omega) (R.tagged l hl).footer
  rw [hcand, if_neg (by omega)] at hx
  cases hf : isFree m l.addr with
  | false =>
    simp only [hf, Bool.not_false, if_true, List.mem_singleton] at hx
    subst hx
    constructor <;> omega
  | true =>
    simp only [hf, Bool.not_true, Bool.false_eq_true, if_false] at hx
    rw [(R.tagged l hl).isFree (R.placed.block_wf hl)] at hf
    exact R.placed.tagReads_holds ((R.tagged l hl).header hf) (by simp [hz]) x hx

end confined

/-! ### Every block of a routed session -/

/-- What the neighbour searches do for the header `b` of arena `a`, which stands between the
headers `before` and `after`. -/
structure NeighborsExact (c : Config) (s : State) (a : Arena) (before : List Nat) (b : Nat)
    (after : List Nat) : Prop where
  right : rightNeighborIfFree c s.arenas s.mem b = .ok (freeHeader s.mem after.head?)
  left : leftNeighborIfFree c s.arenas s.mem b = .ok (freeHeader s.mem before.getLast?)
  right_reads : ∀ x ∈ rightNeighborReads s.arenas s.mem b, a.Holds x
  left_reads : ∀ x ∈ leftNeighborReads s.arenas s.mem b, a.Holds x
  right_decided : ∀ m', (∀ x ∈ rightNeighborReads s.arenas s.mem b, read64 m' x = read64 s.mem x) →
    rightNeighborIfFree c s.arenas m' b = rightNeighborIfFree c s.arenas s.mem b
  left_decided : ∀ m', (∀ x ∈ leftNeighborReads s.arenas s.mem b, read64 m' x = read64 s.mem x) →
    leftNeighborIfFree c s.arenas m' b = leftNeighborIfFree c s.arenas s.mem b

variable {c : Config} {t : Tid} {w : Session}

/-- In every routed session and for every block, free or allocated, the neighbour searches find
exactly the free block beside it in its arena and read nothing outside the arena. -/
theorem neighbors_exact (h : Reachable c t (routedCall c) w) :
    ∀ a ∈ w.state.arenas, ∃ l, a.Walk w.state.mem l ∧ ∀ before b after,
      l = before ++ b :: after → NeighborsExact c w.state a before b after := by
  obtain ⟨ts, order, T⟩ := h.tiled
  intro a ha
  have harenas := T.heap.arenas_eq
  rw [harenas] at ha
  obtain ⟨u, hu, rfl⟩ := List.mem_map.mp ha
  refine ⟨u.blocks.map Block.addr, T.walk hu, fun before b after hl ↦ ?_⟩
  obtain ⟨bs, ds, hblocks, rfl, hds⟩ := List.map_eq_append_iff.mp hl
  obtain ⟨d, es, rfl, rfl, rfl⟩ := List.map_eq_cons_iff.mp hds
  obtain ⟨ls, rs, rfl⟩ := List.append_of_mem hu
  have hz : ls ++ u :: rs = (⟨ls, u.arena, bs, es, rs⟩ : Site).fill [d] := by
    simp [Site.fill, ← hblocks]
  have R := T.heap.rep
  have hd := T.headed d (mem_blocksOf.mpr ⟨u, hu, by simp [hblocks]⟩)
  have hfree : ∀ o : Option Block, (∀ e ∈ o, e ∈ u.blocks) →
      freeAddr o = freeHeader w.state.mem (o.map Block.addr) := by
    intro o ho
    cases o with
    | none => rfl
    | some e =>
      have he := mem_blocksOf.mpr ⟨u, hu, ho e rfl⟩
      simp only [freeAddr, Option.map_some, freeHeader,
        (R.tagged e he).isFree (R.placed.block_wf he)]
  have hright := hfree es.head? fun e he ↦ by
    simp [hblocks, List.mem_of_mem_head? he]
  have hleft := hfree bs.getLast? fun e he ↦ by
    simp [hblocks, List.mem_of_getLast? he]
  rw [hz] at R harenas
  refine ⟨?_, ?_, ?_, ?_, fun m' hm ↦ rightNeighbor_reads hm, fun m' hm ↦ leftNeighbor_reads hm⟩
  · rw [harenas, R.rightNeighbor c hd, hright, List.head?_map]
  · rw [harenas, R.leftNeighbor c hd, hleft, List.getLast?_map]
  · rw [harenas]
    exact R.rightReads hd
  · rw [harenas]
    exact R.leftReads hd

theorem neighbors_exact_gap : Session.gap.state.arenas ≠ [] ∧ ∀ a ∈ Session.gap.state.arenas,
    ∃ l, a.Walk Session.gap.state.mem l ∧ ∀ before b after, l = before ++ b :: after →
      NeighborsExact .fixedBase Session.gap.state a before b after :=
  ⟨by decide +kernel, neighbors_exact Session.gap_routed⟩

end CustomAllocator
