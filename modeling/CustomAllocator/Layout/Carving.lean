import Mathlib.Data.List.Pairwise
import Mathlib.Tactic.Tauto
import CustomAllocator.Base.Tiling
import CustomAllocator.Alloc.General

/-!
# Carved arenas

The abstract view of the general heap: every arena with the list of blocks carved from it,
and the free list as a list of block addresses. `Represents` says that memory, arenas and
list head realise such a view: the blocks of an arena tile its carved region, headers and
footers hold the sizes, and the list is threaded through free blocks. Two edits keep it:
changing the free list, which only writes links, and replacing a run of unlisted blocks.
-/

namespace CustomAllocator
open CustomAllocator.Base

/-- A carved block: the address of its header, its payload size and its free flag. -/
structure Block where
  addr : Nat
  size : Nat
  free : Bool
  deriving DecidableEq, Repr

namespace Block

/-- The first address past the block's footer. -/
def stop (b : Block) : Nat := b.addr + b.size + 32

/-- Aligned, and large enough to hold free-list links. -/
structure WF (b : Block) : Prop where
  addr_aligned : b.addr % 16 = 0
  size_aligned : b.size % 16 = 0
  size_min : 16 ≤ b.size

/-- The byte at `x` belongs to the block. -/
def Covers (b : Block) (x : Nat) : Prop := b.addr ≤ x ∧ x < b.stop

end Block

/-- The header word holds the size and flag of the block. -/
def Headed (m : Mem) (b : Block) : Prop := read64 m b.addr = headerWord b.size b.free

/-- What memory says about a block at any time. The header of an allocated block need only
leave the free bit clear, since its word may serve as a slot header. -/
structure Tagged (m : Mem) (b : Block) : Prop where
  footer : read64 m (b.addr + 16 + b.size) = b.size
  header : b.free = true → Headed m b
  even : b.free = false → read64 m b.addr % 2 = 0

/-- An arena with its carved blocks in address order. -/
structure Carved where
  arena : Arena
  blocks : List Block

/-- The blocks tile the carved part of an arena inside the address space. -/
structure Carved.WF (t : Carved) : Prop where
  base_pos : 0 < t.arena.base
  base_aligned : t.arena.base % 16 = 0
  used_aligned : t.arena.used % 16 = 0
  used_le : t.arena.used ≤ t.arena.size
  stop_le : t.arena.base + t.arena.size + 4096 ≤ 2 ^ 64
  tiling : Tiling Block.addr Block.stop t.arena.base (t.arena.base + t.arena.used) t.blocks
  blocks_wf : ∀ b ∈ t.blocks, b.WF

/-- All carved blocks. -/
def blocksOf (ts : List Carved) : List Block := ts.flatMap Carved.blocks

/-- Memory and list head realise the carved arenas `ts` with the free list `order`. -/
structure Represents (m : Mem) (head : Nat) (ts : List Carved) (order : List Nat) : Prop where
  wf : ∀ t ∈ ts, t.WF
  apart : (ts.map Carved.arena).Pairwise fun a b ↦ a.region.Apart b.region
  tagged : ∀ b ∈ blocksOf ts, Tagged m b
  links : Dll (nextOf m) (prevOf m) 0 head 0 order
  listed : ∀ x ∈ order, ∃ b ∈ blocksOf ts, b.addr = x ∧ b.free = true

/-! ### Reading a block -/

theorem Headed.tagged {m : Mem} {b : Block} (h : Headed m b) (hs : b.size % 2 = 0)
    (hf : read64 m (b.addr + 16 + b.size) = b.size) : Tagged m b where
  footer := hf
  header _ := h
  even hb := by
    rw [h, headerWord, hb]
    simpa using hs

theorem Headed.getSize {m : Mem} {b : Block} (h : Headed m b) (hs : b.WF) :
    getSize m b.addr = b.size :=
  getSize_of_header (by have := hs.size_aligned; omega) h

theorem Headed.isFree {m : Mem} {b : Block} (h : Headed m b) (hs : b.WF) :
    isFree m b.addr = b.free :=
  isFree_of_header (by have := hs.size_aligned; omega) h

/-- The flag read from a header is the block's flag, whatever an allocated header holds. -/
theorem Tagged.isFree {m : Mem} {b : Block} (h : Tagged m b) (hs : b.WF) :
    isFree m b.addr = b.free := by
  cases hb : b.free with
  | false => exact isFree_of_even (h.even hb)
  | true => exact hb ▸ (h.header hb).isFree hs

/-- A block is determined by its own bytes. -/
theorem Tagged.congr {m m' : Mem} {b : Block} (h : Tagged m b)
    (hm : ∀ x, b.Covers x → m' x = m x) : Tagged m' b := by
  have hh : read64 m' b.addr = read64 m b.addr :=
    read64_congr fun k hk ↦ hm _ ⟨by omega, by unfold Block.stop; omega⟩
  have hf : read64 m' (b.addr + 16 + b.size) = read64 m (b.addr + 16 + b.size) :=
    read64_congr fun k hk ↦ hm _ ⟨by omega, by unfold Block.stop; omega⟩
  exact ⟨hf.trans h.footer, fun hb ↦ hh.trans (h.header hb), fun hb ↦ hh ▸ h.even hb⟩

/-! ### Geometry -/

theorem mem_blocksOf {ts : List Carved} {b : Block} :
    b ∈ blocksOf ts ↔ ∃ t ∈ ts, b ∈ t.blocks := List.mem_flatMap

/-- A block of a well-formed arena lies in the carved part of the arena. -/
theorem Carved.WF.bounds {t : Carved} (h : t.WF) {b : Block} (hb : b ∈ t.blocks) :
    t.arena.base ≤ b.addr ∧ b.addr + b.size + 32 ≤ t.arena.base + t.arena.used :=
  have hbb := h.tiling.bounds hb
  ⟨hbb.1, hbb.2.2⟩

/-- The layout part of a representation: well-formed arenas in separate regions. -/
structure Placed (ts : List Carved) : Prop where
  wf : ∀ t ∈ ts, t.WF
  apart : (ts.map Carved.arena).Pairwise fun a b ↦ a.region.Apart b.region

theorem Represents.placed {m : Mem} {head : Nat} {ts : List Carved} {order : List Nat}
    (R : Represents m head ts order) : Placed ts := ⟨R.wf, R.apart⟩

section geometry

variable {ts : List Carved} (P : Placed ts)

include P

theorem Placed.block_wf {b : Block} (hb : b ∈ blocksOf ts) : b.WF := by
  obtain ⟨t, ht, hbt⟩ := mem_blocksOf.mp hb
  exact (P.wf t ht).blocks_wf b hbt

/-- Every block lies inside the address space, away from the null page. -/
theorem Placed.block_bounds {b : Block} (hb : b ∈ blocksOf ts) :
    0 < b.addr ∧ b.addr + b.size + 4096 ≤ 2 ^ 64 := by
  obtain ⟨t, ht, hbt⟩ := mem_blocksOf.mp hb
  have hw := P.wf t ht
  have := hw.bounds hbt
  have := hw.base_pos
  have := hw.used_le
  have := hw.stop_le
  omega

/-- Arenas that share an address are the same arena. -/
theorem Placed.arena_eq {t u : Carved} (ht : t ∈ ts) (hu : u ∈ ts) {x : Nat}
    (hxt : t.arena.base ≤ x ∧ x < t.arena.base + t.arena.size)
    (hxu : u.arena.base ≤ x ∧ x < u.arena.base + u.arena.size) : t = u := by
  have hp := List.pairwise_map.mp P.apart
  have : Std.Symm fun t u : Carved ↦ t.arena.region.Apart u.arena.region :=
    ⟨fun _ _ h ↦ h.symm⟩
  by_contra hne
  have h := hp.forall ht hu hne
  simp only [OsRegion.Apart, OsRegion.stop, Arena.region] at h
  omega

/-- Blocks that share an address are the same block. -/
theorem Placed.block_eq {b c : Block} (hb : b ∈ blocksOf ts) (hc : c ∈ blocksOf ts) {x : Nat}
    (hxb : b.Covers x) (hxc : c.Covers x) : b = c := by
  obtain ⟨t, ht, hbt⟩ := mem_blocksOf.mp hb
  obtain ⟨u, hu, hcu⟩ := mem_blocksOf.mp hc
  have hwt := P.wf t ht
  have hwu := P.wf u hu
  have hbb := hwt.bounds hbt
  have hcb := hwu.bounds hcu
  have := hwt.used_le
  have := hwu.used_le
  simp only [Block.Covers, Block.stop] at hxb hxc
  have htu : t = u := P.arena_eq ht hu (x := x) (by omega) (by omega)
  subst htu
  exact hwt.tiling.eq_of_overlap hbt hcu (by unfold Block.stop; omega)
    (by unfold Block.stop; omega)

/-- A block is named by its address. -/
theorem Placed.block_eq_of_addr {b c : Block} (hb : b ∈ blocksOf ts) (hc : c ∈ blocksOf ts)
    (h : b.addr = c.addr) : b = c :=
  P.block_eq hb hc (x := b.addr) ⟨by omega, by unfold Block.stop; omega⟩
    ⟨by omega, by unfold Block.stop; omega⟩

/-- Distinct blocks lie one after the other. -/
theorem Placed.block_apart {b c : Block} (hb : b ∈ blocksOf ts) (hc : c ∈ blocksOf ts)
    (h : b ≠ c) : b.stop ≤ c.addr ∨ c.stop ≤ b.addr := by
  by_contra hn
  refine h (P.block_eq hb hc (x := max b.addr c.addr) ?_ ?_) <;>
    simp only [Block.Covers, Block.stop] at hn ⊢ <;> omega

end geometry

/-! ### The free list over carved blocks -/

section freeList

variable {m m' : Mem} {head : Nat} {ts : List Carved} {order : List Nat}

/-- Addresses of free blocks are free nodes far enough apart for list operations. -/
theorem Represents.freeNodes (R : Represents m head ts order) {l : List Nat}
    (hl : ∀ x ∈ l, ∃ b ∈ blocksOf ts, b.addr = x ∧ b.free = true) : FreeNodes m l where
  addr x hx := by
    obtain ⟨b, hb, rfl, -⟩ := hl x hx
    have hw := R.placed.block_wf hb
    have := R.placed.block_bounds hb
    exact ⟨this.1, hw.addr_aligned, by omega⟩
  free x hx := by
    obtain ⟨b, hb, rfl, hf⟩ := hl x hx
    rw [(R.tagged b hb).isFree (R.placed.block_wf hb), hf]
  apart x hx y hy hne := by
    obtain ⟨b, hb, rfl, -⟩ := hl x hx
    obtain ⟨d, hd, rfl, -⟩ := hl y hy
    have hbd : b ≠ d := fun h ↦ hne (h ▸ rfl)
    have := R.placed.block_apart hb hd hbd
    unfold Block.stop at this
    omega

/-- Changing links of free blocks disturbs no header and no footer. -/
theorem Represents.tagged_of_links (R : Represents m head ts order) {l : List Nat}
    (hl : ∀ x ∈ l, ∃ b ∈ blocksOf ts, b.addr = x ∧ b.free = true) (h : LinksChanged l m m') :
    ∀ b ∈ blocksOf ts, Tagged m' b := by
  intro b hb
  have hw := R.placed.block_wf hb
  have hsz := hw.size_min
  have hal := hw.size_aligned
  have hkeep : ∀ a, b.addr ≤ a → a + 8 ≤ b.stop → (a + 8 ≤ b.addr + 16 ∨ b.addr + 32 ≤ a) →
      read64 m' a = read64 m a := by
    intro a hlo hhi hout
    refine h.read64 fun x hx hxa ↦ ?_
    obtain ⟨d, hd, rfl, -⟩ := hl x hx
    have hdw := (R.placed.block_wf hd).size_min
    by_cases hbd : d = b
    · subst hbd
      omega
    · have := R.placed.block_apart hd hb hbd
      unfold Block.stop at this hhi
      omega
  have hh := hkeep b.addr (by omega) (by unfold Block.stop; omega) (by omega)
  have hf := hkeep (b.addr + 16 + b.size) (by omega) (by unfold Block.stop; omega) (by omega)
  have ht := R.tagged b hb
  exact ⟨hf.trans ht.footer, fun hb ↦ hh.trans (ht.header hb), fun hb ↦ hh ▸ ht.even hb⟩

/-- Inserting an unlisted free block. -/
theorem Represents.insert (c : Config) (R : Represents m head ts order) {b : Block}
    (hb : b ∈ blocksOf ts) (hf : b.free = true) (hn : b.addr ∉ order) :
    ∃ m', FreeList.insert c m head b.addr = .ok (m', b.addr) ∧
      Represents m' b.addr ts (b.addr :: order) ∧ LinksChanged (b.addr :: order) m m' := by
  have hl : ∀ x ∈ b.addr :: order, ∃ d ∈ blocksOf ts, d.addr = x ∧ d.free = true := by
    intro x hx
    rcases List.mem_cons.mp hx with rfl | hx
    · exact ⟨b, hb, rfl, hf⟩
    · exact R.listed x hx
  obtain ⟨m', hrun, hd, hch⟩ := FreeList.insert_spec c R.links (R.freeNodes hl) hn
  have hch' : LinksChanged (b.addr :: order) m m' := hch.mono fun z hz ↦ by
    rcases List.mem_cons.mp hz with rfl | hz
    · simp
    · exact List.mem_cons_of_mem _ (List.mem_of_mem_take hz)
  exact ⟨m', hrun, ⟨R.wf, R.apart, R.tagged_of_links hl hch', hd, hl⟩, hch'⟩

/-- Removing a listed block. -/
theorem Represents.remove (c : Config) {x : Nat} {xs ys : List Nat}
    (R : Represents m head ts (xs ++ x :: ys)) :
    ∃ m' head', FreeList.remove c m head x = .ok (m', head') ∧
      Represents m' head' ts (xs ++ ys) ∧ LinksChanged (xs ++ x :: ys) m m' := by
  obtain ⟨m', head', hrun, hd, hch⟩ := FreeList.remove_spec c R.links (R.freeNodes R.listed)
  have hch' : LinksChanged (xs ++ x :: ys) m m' := hch.mono fun z hz ↦ by
    rcases List.mem_cons.mp hz with rfl | hz
    · simp
    · rcases List.mem_append.mp hz with hz | hz
      · exact List.mem_append_left _ (List.mem_of_getLast? (Option.mem_toList.mp hz))
      · exact List.mem_append_right _ (List.mem_cons_of_mem _ (List.mem_of_mem_take hz))
  refine ⟨m', head', hrun, ⟨R.wf, R.apart, R.tagged_of_links R.listed hch', hd, ?_⟩, hch'⟩
  intro y hy
  refine R.listed y ?_
  rcases List.mem_append.mp hy with h | h <;> simp [h]

/-- The search visits the listed blocks in order and returns the first that is large enough. -/
theorem Represents.findFirstFit (c : Config) (R : Represents m head ts order) (size : Nat) :
    FreeList.findFirstFit c m head size =
      .ok ((order.find? fun x ↦ decide (size ≤ getSize m x)).getD 0) := by
  have hn := R.freeNodes R.listed
  exact FreeList.findFrom_spec c size R.links.chain hn.free (hn.length_lt R.links.chain.nodup)

end freeList

/-! ### Editing a run of blocks -/

/-- A position in the carved arenas where a run of blocks can be put. -/
structure Site where
  left : List Carved
  arena : Arena
  before : List Block
  after : List Block
  right : List Carved

namespace Site

/-- The carved arenas with the given run at the site. -/
def fill (z : Site) (run : List Block) : List Carved :=
  z.left ++ ⟨z.arena, z.before ++ run ++ z.after⟩ :: z.right

/-- The blocks away from the site. -/
def others (z : Site) : List Block := blocksOf z.left ++ z.before ++ z.after ++ blocksOf z.right

theorem mem_fill {z : Site} {run : List Block} {b : Block} :
    b ∈ blocksOf (z.fill run) ↔ b ∈ z.others ∨ b ∈ run := by
  simp only [fill, others, blocksOf, List.flatMap_append, List.flatMap_cons, List.mem_append]
  tauto

theorem map_arena_fill (z : Site) (run run' : List Block) :
    (z.fill run).map Carved.arena = (z.fill run').map Carved.arena := by
  simp [fill]

theorem mem_arenas_fill (z : Site) (run : List Block) :
    ⟨z.arena, z.before ++ run ++ z.after⟩ ∈ z.fill run := by
  simp [fill]

/-- Every carved block stands at some site. -/
theorem exists_of_mem {ts : List Carved} {b : Block} (hb : b ∈ blocksOf ts) :
    ∃ z : Site, ts = z.fill [b] := by
  obtain ⟨t, ht, hbt⟩ := mem_blocksOf.mp hb
  obtain ⟨left, right, rfl⟩ := List.append_of_mem ht
  obtain ⟨before, after, he⟩ := List.append_of_mem hbt
  refine ⟨⟨left, t.arena, before, after, right⟩, ?_⟩
  rw [fill]
  simp [← he]

/-- Widening the site to take in the next block. -/
theorem fill_after (z : Site) (run : List Block) (r : Block) (after : List Block)
    (h : z.after = r :: after) : z.fill run = { z with after := after }.fill (run ++ [r]) := by
  simp [fill, h]

/-- Widening the site to take in the previous block. -/
theorem fill_before (z : Site) (run : List Block) (l : Block) (before : List Block)
    (h : z.before = before ++ [l]) : z.fill run = { z with before := before }.fill (l :: run) := by
  simp [fill, h]

end Site

/-- The blocks away from a site are not in its run. -/
theorem Placed.not_mem_run {z : Site} {run : List Block} (P : Placed (z.fill run)) {b : Block}
    (hb : b ∈ z.others) : b ∉ run := by
  intro hr
  have hw := P.wf _ (z.mem_arenas_fill run)
  have hnd := hw.tiling.nodup
  have hp := List.pairwise_map.mp P.apart
  rw [Site.fill, List.pairwise_append] at hp
  have hin : b ∈ z.before ++ run ++ z.after := by simp [hr]
  have hbb : z.arena.base ≤ b.addr ∧ b.addr + b.size + 32 ≤ z.arena.base + z.arena.used :=
    hw.bounds hin
  have hused : z.arena.used ≤ z.arena.size := hw.used_le
  -- A block of another arena lies in another region.
  have hfar : ∀ t ∈ z.fill run,
      t.arena.region.Apart z.arena.region ∨ z.arena.region.Apart t.arena.region →
        b ∉ t.blocks := by
    intro t ht hap hbt
    have := (P.wf t ht).bounds hbt
    have := (P.wf t ht).used_le
    simp only [OsRegion.Apart, OsRegion.stop, Arena.region] at hap
    omega
  simp only [Site.others, List.mem_append, mem_blocksOf] at hb
  rcases hb with ((⟨t, ht, hbt⟩ | hb) | hb) | ⟨t, ht, hbt⟩
  · exact hfar t (by simp [Site.fill, ht]) (.inl (hp.2.2 t ht _ List.mem_cons_self)) hbt
  · exact (List.nodup_append.mp (List.nodup_append.mp hnd).1).2.2 b hb b hr rfl
  · exact (List.nodup_append.mp hnd).2.2 b (by simp [hr]) b hb rfl
  · exact hfar t (by simp [Site.fill, ht])
      (.inr ((List.pairwise_cons.mp hp.2.1).1 t ht)) hbt

/-- Replacing a run by blocks of the same span keeps the arenas well formed and apart. -/
theorem Placed.edit {z : Site} {run run' : List Block} (P : Placed (z.fill run))
    (hspan : ∀ l r, Tiling Block.addr Block.stop l r run → Tiling Block.addr Block.stop l r run')
    (hwf : ∀ b ∈ run', b.WF) : Placed (z.fill run') where
  wf t ht := by
    have hold := P.wf _ (z.mem_arenas_fill run)
    simp only [Site.fill, List.mem_append, List.mem_cons] at ht
    rcases ht with ht | rfl | ht
    · exact P.wf t (by simp [Site.fill, ht])
    · refine ⟨hold.base_pos, hold.base_aligned, hold.used_aligned, hold.used_le, hold.stop_le,
        hold.tiling.replace hspan, fun b hb ↦ ?_⟩
      simp only [List.mem_append] at hb
      rcases hb with (hb | hb) | hb
      · exact hold.blocks_wf b (by simp [hb])
      · exact hwf b hb
      · exact hold.blocks_wf b (by simp [hb])
    · exact P.wf t (by simp [Site.fill, ht])
  apart := by
    rw [z.map_arena_fill run' run]
    exact P.apart

/-- Replacing a run of unlisted blocks by blocks of the same span, with writes confined to the
old run, keeps the representation once the new blocks are tagged. -/
theorem Represents.edit {m m' : Mem} {head : Nat} {z : Site} {run run' : List Block}
    {order : List Nat} (R : Represents m head (z.fill run) order)
    (hspan : ∀ l r, Tiling Block.addr Block.stop l r run → Tiling Block.addr Block.stop l r run')
    (hwf : ∀ b ∈ run', b.WF) (hlisted : ∀ b ∈ run, b.addr ∉ order)
    (hm : ∀ x, (∀ b ∈ run, ¬ b.Covers x) → m' x = m x) (htag : ∀ b ∈ run', Tagged m' b) :
    Represents m' head (z.fill run') order := by
  have P' := R.placed.edit hspan hwf
  -- A block away from the site shares no byte with the run, so none of its bytes changes.
  have hkeep : ∀ b ∈ z.others, ∀ x, b.Covers x → m' x = m x := by
    intro b hb x hx
    refine hm x fun d hd hxd ↦ R.placed.not_mem_run hb ?_
    have := R.placed.block_eq (Site.mem_fill.mpr (.inl hb)) (Site.mem_fill.mpr (.inr hd)) hx hxd
    exact this ▸ hd
  have hlist : ∀ x ∈ order, ∃ b ∈ z.others, b.addr = x ∧ b.free = true := by
    intro x hx
    obtain ⟨b, hb, rfl, hf⟩ := R.listed x hx
    rcases Site.mem_fill.mp hb with hb | hb
    · exact ⟨b, hb, rfl, hf⟩
    · exact absurd hx (hlisted b hb)
  have hnode := (R.freeNodes R.listed).addr
  have hlinks : ∀ x ∈ order, nextOf m' x = nextOf m x ∧ prevOf m' x = prevOf m x := by
    intro x hx
    obtain ⟨b, hb, rfl, -⟩ := hlist x hx
    have hw := (R.placed.block_wf (Site.mem_fill.mpr (.inl hb))).size_min
    rw [nextOf_eq _ (hnode _ hx), nextOf_eq _ (hnode _ hx), prevOf_eq _ (hnode _ hx),
      prevOf_eq _ (hnode _ hx)]
    exact ⟨read64_congr fun k hk ↦ hkeep b hb _ ⟨by omega, by unfold Block.stop; omega⟩,
      read64_congr fun k hk ↦ hkeep b hb _ ⟨by omega, by unfold Block.stop; omega⟩⟩
  refine ⟨P'.wf, P'.apart, fun b hb ↦ ?_, ?_, fun x hx ↦ ?_⟩
  · rcases Site.mem_fill.mp hb with hb | hb
    · exact (R.tagged b (Site.mem_fill.mpr (.inl hb))).congr (hkeep b hb)
    · exact htag b hb
  · exact R.links.congr (fun x hx ↦ (hlinks x hx).1) fun x hx ↦ (hlinks x hx).2
  · obtain ⟨b, hb, hx⟩ := hlist x hx
    exact ⟨b, Site.mem_fill.mpr (.inl hb), hx⟩

end CustomAllocator
