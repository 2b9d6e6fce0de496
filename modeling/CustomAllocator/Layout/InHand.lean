import Mathlib.Data.List.Chain
import Mathlib.Data.List.Nodup
import CustomAllocator.Layout.Growth
import CustomAllocator.Layout.Neighbors

/-!
# One block in hand

Every operation of the general path takes one block out of the heap's account, reshapes it
and hands it back: to the client as an allocated block, or to the free list. While it is in
hand, every other free block is listed and no two of those are adjacent. The steps below
keep the block in hand: setting its flag, absorbing a free neighbour on either side, and
cutting off a remainder.
-/

namespace CustomAllocator
open CustomAllocator.Base

/-- No two blocks in a row are both free. -/
def Separated (bs : List Block) : Prop :=
  bs.IsChain fun a b ↦ ¬ (a.free = true ∧ b.free = true)

/-- The heap around a block `b` that the current operation has in hand at site `z`. -/
structure InHand (m : Mem) (head : Nat) (arenas : List Arena) (z : Site) (b : Block)
    (order : List Nat) : Prop where
  rep : Represents m head (z.fill [b]) order
  arenas_eq : arenas = (z.fill [b]).map Carved.arena
  headed : Headed m b
  unlisted : b.addr ∉ order
  complete : ∀ d ∈ z.others, d.free = true → d.addr ∈ order
  separated : ∀ t ∈ z.left ++ z.right, Separated t.blocks
  before : Separated z.before
  after : Separated z.after
  large : ∀ d ∈ z.others, d.free = false → 4096 < d.size

/-- What a step with a block in hand leaves alone: the other allocated blocks, the set of loose
bytes, and every byte outside it. -/
structure HandStep (m : Mem) (z : Site) (b : Block) (m' : Mem) (z' : Site) (b' : Block) :
    Prop where
  allocated : ∀ d, d.free = false → (d ∈ z'.others ↔ d ∈ z.others)
  loose : ∀ x, z'.Loose [b'] x ↔ z.Loose [b] x
  frame : ∀ x, ¬ z.Loose [b] x → m' x = m x

/-- Steps with a block in hand compose. -/
theorem HandStep.trans {m m' m'' : Mem} {z z' z'' : Site} {b b' b'' : Block}
    (h : HandStep m z b m' z' b') (h' : HandStep m' z' b' m'' z'' b'') :
    HandStep m z b m'' z'' b'' where
  allocated d hd := (h'.allocated d hd).trans (h.allocated d hd)
  loose x := (h'.loose x).trans (h.loose x)
  frame x hx := (h'.frame x fun hl ↦ hx ((h.loose x).mp hl)).trans (h.frame x hx)

/-- The block after the site, if any, is not free. -/
def Site.ClosedRight (z : Site) : Prop := ∀ r ∈ z.after.head?, r.free = false

/-- The block before the site, if any, is not free. -/
def Site.ClosedLeft (z : Site) : Prop := ∀ l ∈ z.before.getLast?, l.free = false

/-- The block of a one-block run is carved. -/
theorem Site.mem_self (z : Site) {b : Block} : b ∈ blocksOf (z.fill [b]) :=
  Site.mem_fill.mpr (.inr (by simp))

section steps

variable {m : Mem} {head : Nat} {arenas : List Arena} {z : Site} {b : Block} {order : List Nat}

theorem InHand.wf (I : InHand m head arenas z b order) : b.WF := I.rep.placed.block_wf z.mem_self

/-- A listed block is a free block away from the site. -/
theorem InHand.listed (I : InHand m head arenas z b order) {x : Nat} (hx : x ∈ order) :
    ∃ d ∈ z.others, d.addr = x ∧ d.free = true := by
  obtain ⟨d, hd, rfl, hf⟩ := I.rep.listed x hx
  rcases Site.mem_fill.mp hd with hd | hd
  · exact ⟨d, hd, rfl, hf⟩
  · rw [List.mem_singleton.mp hd] at hx
    exact absurd hx I.unlisted

/-- No listed address lies in the block in hand. -/
theorem InHand.outside (I : InHand m head arenas z b order) {x : Nat} (hx : x ∈ order) :
    x < b.addr ∨ b.stop ≤ x := by
  obtain ⟨d, hd, rfl, -⟩ := I.listed hx
  have hne : d ≠ b := fun h ↦ I.rep.placed.not_mem_run hd (by simp [h])
  have := I.rep.placed.block_apart (Site.mem_fill.mpr (.inl hd)) z.mem_self hne
  unfold Block.stop at this ⊢
  omega

theorem InHand.outside_eq (I : InHand m head arenas z b order) : b.outside order = order :=
  List.filter_eq_self.mpr fun _ hx ↦ decide_eq_true (I.outside hx)

/-- List operations on listed blocks change loose bytes only, and spare the block in hand. -/
theorem InHand.links_frame (I : InHand m head arenas z b order) {l : List Nat} {m' : Mem}
    (h : LinksChanged l m m') (hl : ∀ x ∈ l, x ∈ order) :
    (∀ x, ¬ z.Loose [b] x → m' x = m x) ∧ ∀ x, b.Covers x → m' x = m x := by
  constructor
  · intro x hx
    refine h.loose (z := z) (r := [b]) (fun y hy ↦ ?_) x hx
    obtain ⟨d, hd, hda, hdf⟩ := I.rep.listed y (hl y hy)
    exact ⟨d, hd, hda, hdf, I.rep.placed.block_wf hd⟩
  · intro x hx
    refine h x fun y hy hyx ↦ ?_
    obtain ⟨d, hd, rfl, hdf⟩ := I.listed (hl y hy)
    have hdm : d ∈ blocksOf (z.fill [b]) := Site.mem_fill.mpr (.inl hd)
    have hdw := (I.rep.placed.block_wf hdm).size_min
    by_contra hlt
    have hdx : d.Covers x := ⟨by omega, by unfold Block.stop; omega⟩
    rw [I.rep.placed.block_eq hdm z.mem_self hdx hx] at hd
    exact I.rep.placed.not_mem_run hd (by simp)

/-- Setting the flag of the block in hand. -/
theorem InHand.setFree (I : InHand m head arenas z b order) (free : Bool) :
    InHand (setFree m b.addr free) head arenas z { b with free := free } order ∧
      HandStep m z b (setFree m b.addr free) z { b with free := free } ∧
      ∀ x, (b.addr ≤ x → b.addr + 8 ≤ x) → setFree m b.addr free x = m x := by
  obtain ⟨hrep, hhead, hout⟩ := I.rep.setFree I.headed I.unlisted free
  refine ⟨⟨hrep, ?_, hhead, I.unlisted, I.complete, I.separated, I.before, I.after, I.large⟩,
    ⟨fun d _ ↦ Iff.rfl, fun x ↦ ?_, fun x hx ↦ hout x fun hbx ↦ ?_⟩, hout⟩
  · rw [I.arenas_eq]
    exact z.map_arena_fill _ _
  · simp [Site.Loose, RunCovers, Block.Covers, Block.stop]
  · by_contra hlt
    exact hx (.inl ⟨b, by simp, hbx, by unfold Block.stop; omega⟩)

/-- Taking a listed block out of the list puts it in hand. -/
theorem Represents.take (c : Config) {ts : List Carved} {xs ys : List Nat}
    (R : Represents m head ts (xs ++ b.addr :: ys)) (hb : b ∈ blocksOf ts) (hf : b.free = true) :
    ∃ m' head', FreeList.remove c m head b.addr = .ok (m', head') ∧
      Represents m' head' ts (xs ++ ys) ∧ Headed m' b ∧ b.addr ∉ xs ++ ys ∧
      LinksChanged (xs ++ b.addr :: ys) m m' := by
  obtain ⟨m', head', hrun, R', hch⟩ := R.remove c
  refine ⟨m', head', hrun, R', (R'.tagged b hb).header hf, ?_, hch⟩
  have hnd := R.links.chain.nodup
  rw [List.nodup_middle] at hnd
  exact (List.nodup_cons.mp hnd).1

/-- Joining the block in hand with a listed neighbour `n`, in the order `x`, `y` of their
addresses: the neighbour leaves the list and the joined block is in hand. -/
theorem InHand.absorb (c : Config) (I : InHand m head arenas z b order) {w : Site}
    {x y n : Block} (hfill : z.fill [b] = w.fill [x, y])
    (hpair : x = b ∧ y = n ∨ x = n ∧ y = b) (hn : n.free = true)
    (hothers : ∀ d, d ∈ z.others ↔ d = n ∨ d ∈ w.others)
    (hsep : ∀ t ∈ w.left ++ w.right, Separated t.blocks) (hbefore : Separated w.before)
    (hafter : Separated w.after) :
    ∃ m₁ head', FreeList.remove c m head n.addr = .ok (m₁, head') ∧
      combinedPayloadSize m₁ x.addr y.addr = x.size + 32 + y.size ∧
      InHand (resize m₁ x.addr (x.size + 32 + y.size)) head' arenas w (x.join y)
        ((x.join y).outside order) ∧
      HandStep m z b (resize m₁ x.addr (x.size + 32 + y.size)) w (x.join y) ∧
      (∀ a, b.Covers a → m₁ a = m a) ∧
      ∀ a, (x.addr ≤ a → x.addr + 8 ≤ a) →
        (x.addr + 48 + x.size + y.size ≤ a → x.addr + 56 + x.size + y.size ≤ a) →
        resize m₁ x.addr (x.size + 32 + y.size) a = m₁ a := by
  have hno : n ∈ z.others := (hothers n).mpr (.inl rfl)
  obtain ⟨xs, ys, rfl⟩ := List.append_of_mem (I.complete n hno hn)
  obtain ⟨m₁, head', hrun, R₁, hn₁, hnn, hch⟩ :=
    I.rep.take c (Site.mem_fill.mpr (.inl hno)) hn
  have hframe := I.links_frame hch fun x hx ↦ hx
  have hb₁ : Headed m₁ b :=
    (read64_congr fun k hk ↦ hframe.2 _ ⟨by omega, by unfold Block.stop; omega⟩).trans I.headed
  have hnb : b.addr ∉ xs ++ ys := fun h ↦ I.unlisted (by
    rcases List.mem_append.mp h with h | h <;> simp [h])
  have hx₁ : Headed m₁ x ∧ x.addr ∉ xs ++ ys := by
    rcases hpair with ⟨rfl, rfl⟩ | ⟨rfl, rfl⟩ <;> tauto
  have hy₁ : Headed m₁ y ∧ y.addr ∉ xs ++ ys := by
    rcases hpair with ⟨rfl, rfl⟩ | ⟨rfl, rfl⟩ <;> tauto
  rw [hfill] at R₁
  obtain ⟨hcomb, hrep, hhead, hout⟩ := R₁.join hx₁.1 hy₁.1 hx₁.2 hy₁.2
  obtain ⟨lo, hi, hspan⟩ := R₁.placed.span
  obtain ⟨hlo, hadj, hhi⟩ := tiling_pair.mp hspan
  have hrun' : Tiling Block.addr Block.stop lo hi [x.join y] := by
    simp only [Tiling.cons_iff, Tiling.nil_iff, Block.join, Block.stop] at hadj hhi ⊢
    omega
  have hnrun : n ∈ [x, y] := by rcases hpair with ⟨rfl, rfl⟩ | ⟨rfl, rfl⟩ <;> simp
  have hloose : ∀ a, w.Loose [x, y] a ↔ z.Loose [b] a := by
    intro a
    simp only [Site.Loose, RunCovers, hothers, List.mem_cons, List.not_mem_nil, or_false,
      or_and_right, exists_or, exists_eq_left, hn, true_and]
    rcases hpair with ⟨rfl, rfl⟩ | ⟨rfl, rfl⟩ <;> tauto
  have harenas : arenas = (w.fill [x.join y]).map Carved.arena := by
    rw [I.arenas_eq, hfill]
    exact w.map_arena_fill _ _
  have hdrop : InHand (resize m₁ x.addr (x.size + 32 + y.size)) head' arenas w (x.join y)
      (xs ++ ys) := by
    refine ⟨hrep, harenas, hhead, hx₁.2, fun d hd hf ↦ ?_, hsep, hbefore, hafter,
      fun d hd hf ↦ I.large d ((hothers d).mpr (.inr hd)) hf⟩
    rcases List.mem_append.mp (I.complete d ((hothers d).mpr (.inr hd)) hf) with h | h
    · exact List.mem_append_left _ h
    · rcases List.mem_cons.mp h with h | h
      · have hdn := R₁.placed.block_eq_of_addr (Site.mem_fill.mpr (.inl hd))
          (Site.mem_fill.mpr (.inr hnrun)) h
        exact absurd (hdn ▸ hnrun) (R₁.placed.not_mem_run hd)
      · exact List.mem_append_right _ h
  have hin : (x.join y).addr ≤ n.addr ∧ n.addr < (x.join y).stop := by
    simp only [Block.join, Block.stop] at hadj ⊢
    rcases hpair with ⟨rfl, rfl⟩ | ⟨rfl, rfl⟩ <;> omega
  rw [Block.outside_drop hin fun x hx ↦ hdrop.outside hx]
  refine ⟨m₁, head', hrun, hcomb, hdrop,
    ⟨fun d hd ↦ ?_, fun a ↦ ?_, fun a ha ↦ ?_⟩, hframe.2, hout⟩
  · rw [hothers]
    exact ⟨.inr, fun h ↦ h.resolve_left fun h ↦ by simp [h, hn] at hd⟩
  · rw [← hloose]
    exact Site.loose_congr hspan hrun' a
  · have hcov : ∀ d ∈ [x, y], ¬ d.Covers a := fun d hd hda ↦
      ha ((hloose a).mp (.inl ⟨d, hd, hda⟩))
    have hxa := hcov x (by simp)
    have hya := hcov y (by simp)
    simp only [Block.Covers, Block.stop] at hxa hya hadj
    rw [hout a (by omega) (by omega)]
    exact hframe.1 a ha

/-- The block in hand absorbs the free block after it; its payload is untouched. -/
theorem InHand.absorbRight (c : Config) (I : InHand m head arenas z b order) {r : Block}
    {after : List Block} (hz : z.after = r :: after) (hr : r.free = true) :
    combinedPayloadSize m b.addr r.addr = b.size + 32 + r.size ∧
      ∃ m' head', absorbRightNeighbor c m head b.addr r.addr = .ok (m', head') ∧
        InHand m' head' arenas { z with after := after } (b.join r)
          ((b.join r).outside order) ∧
        Site.ClosedRight { z with after := after } ∧
        HandStep m z b m' { z with after := after } (b.join r) ∧
        ∀ a, b.addr + 16 ≤ a → a < b.addr + 16 + b.size → m' a = m a := by
  have hsep := I.after
  rw [hz, Separated, List.isChain_cons] at hsep
  obtain ⟨m₁, head', hrun, hcomb, I', hstep, hsame, hout⟩ :=
    I.absorb c (w := { z with after := after }) (x := b) (y := r) (n := r)
      (z.fill_after [b] r after hz) (.inl ⟨rfl, rfl⟩) hr
      (fun d ↦ by simp only [Site.others, hz, List.mem_append, List.mem_cons]; tauto)
      I.separated I.before hsep.2
  have hrm : r ∈ blocksOf (z.fill [b]) := Site.mem_fill.mpr (.inl (by simp [Site.others, hz]))
  have hrw := I.rep.placed.block_wf hrm
  have hbd := I.rep.placed.block_bounds hrm
  have hadj : b.stop = r.addr := by
    obtain ⟨lo, hi, hspan⟩ := (z.fill_after [b] r after hz ▸ I.rep.placed).span
    exact (tiling_pair.mp hspan).2.1
  unfold Block.stop at hadj
  refine ⟨?_, _, head', ?_, I', fun d hd ↦ ?_, hstep, fun a hlo hhi ↦ ?_⟩
  · unfold combinedPayloadSize sizeofBlockFooter sizeofBlockHeader
    rw [I.headed.getSize I.wf, ((I.rep.tagged r hrm).header hr).getSize hrw,
      add64_of_lt (a := b.size) (by omega), add64_of_lt (a := b.size + 16) (by omega),
      add64_of_lt (by omega)]
  · simp only [absorbRightNeighbor, hrun, ok_bind, hcomb]
  · simpa [hr] using hsep.1 d hd
  · rw [hout a (by omega) (by omega)]
    exact hsame a ⟨by omega, by unfold Block.stop; omega⟩

/-- The free block before the block in hand absorbs it. -/
theorem InHand.absorbLeft (c : Config) (I : InHand m head arenas z b order) {l : Block}
    {before : List Block} (hz : z.before = before ++ [l]) (hl : l.free = true) :
    ∃ m₁ head', FreeList.remove c m head l.addr = .ok (m₁, head') ∧
      InHand (resize m₁ l.addr (combinedPayloadSize m₁ l.addr b.addr)) head' arenas
        { z with before := before } (l.join b) ((l.join b).outside order) ∧
      Site.ClosedLeft { z with before := before } ∧
      HandStep m z b (resize m₁ l.addr (combinedPayloadSize m₁ l.addr b.addr))
        { z with before := before } (l.join b) := by
  have hsep := I.before
  rw [hz, Separated, List.isChain_append] at hsep
  obtain ⟨m₁, head', hrun, hcomb, I', hstep, -, -⟩ :=
    I.absorb c (w := { z with before := before }) (x := l) (y := b) (n := l)
      (z.fill_before [b] l before hz) (.inr ⟨rfl, rfl⟩) hl
      (fun d ↦ by simp only [Site.others, hz, List.mem_append, List.mem_singleton]; tauto)
      I.separated hsep.1 I.after
  refine ⟨m₁, head', hrun, hcomb ▸ I', fun d hd ↦ ?_, hcomb ▸ hstep⟩
  simpa [hl] using hsep.2.2 d hd l (by simp)

/-- Cutting a remainder off the block in hand and listing it. -/
theorem InHand.split (c : Config) (I : InHand m head arenas z b order) (hright : z.ClosedRight)
    {n : Nat} (hn16 : n % 16 = 0) (hn : 16 ≤ n) (hle : n ≤ b.size) :
    ∃ m' head' z', maybeSplit c m head b.addr n = .ok (m', head') ∧
      (∀ d, z'.fill [d] = z.fill (d :: b.leftover n)) ∧
      InHand m' head' arenas z' (b.fit n) ((b.leftover n).map Block.addr ++ order) ∧
      HandStep m z b m' z' (b.fit n) ∧
      ∀ a, b.addr + 16 ≤ a → a < b.addr + 16 + n → m' a = m a := by
  have hw := I.wf
  have hbd := I.rep.placed.block_bounds z.mem_self
  have hrem : sub64 b.size n = b.size - n := sub64_of_le hle (by omega)
  have hrun : maybeSplit c m head b.addr n =
      if b.size - n < minBlockSize then .ok (m, head)
      else FreeList.insert c (cutBlock m b.addr n) head
        (nextPhysicalHeader (resize m b.addr n) b.addr) := by
    unfold maybeSplit cutBlock
    simp only [I.headed.getSize hw, hle, decide_true, assert_true, ok_bind, hrem]
  rw [hrun]
  unfold Block.fit Block.leftover
  by_cases hsmall : b.size - n < minBlockSize
  · rw [if_pos hsmall, if_pos (by omega), if_pos (by omega)]
    exact ⟨m, head, z, rfl, fun d ↦ rfl, I, ⟨fun d _ ↦ Iff.rfl, fun a ↦ Iff.rfl, fun a _ ↦ rfl⟩,
      fun a _ _ ↦ rfl⟩
  rw [if_neg hsmall, if_neg (by omega), if_neg (by omega)]
  have hroom : n + 48 ≤ b.size := by
    simp only [minBlockSize, sizeofBlockHeader, sizeofFreeListLinks, sizeofBlockFooter] at hsmall
    omega
  obtain ⟨hnext, R₁, hh₁, hout⟩ := I.rep.cut I.headed I.unlisted hn16 hn hroom
  rw [hnext]
  have hrest : b.rest n ∈ blocksOf (z.fill [b.front n, b.rest n]) :=
    Site.mem_fill.mpr (.inr (by simp))
  have hfront : b.front n ∈ blocksOf (z.fill [b.front n, b.rest n]) :=
    Site.mem_fill.mpr (.inr (by simp))
  obtain ⟨lo, hi, hspan⟩ := R₁.placed.span
  obtain ⟨hlo, hadj, hhi⟩ := tiling_pair.mp hspan
  have hnr : (b.rest n).addr ∉ order := by
    intro ho
    obtain ⟨d, hd, hda, hdf⟩ := I.listed ho
    have := R₁.placed.block_eq_of_addr (Site.mem_fill.mpr (.inl hd)) hrest hda
    exact R₁.placed.not_mem_run (b := d) hd (by simp [this])
  obtain ⟨m', hins, R₂, hch⟩ := R₁.insert c hrest rfl hnr
  -- The remainder becomes the block after the site, so the front part stays in hand.
  let z' : Site := { z with after := b.rest n :: z.after }
  have hfill : z.fill [b.front n, b.rest n] = z'.fill [b.front n] := by simp [Site.fill, z']
  have hothers : ∀ d, d ∈ z'.others ↔ d = b.rest n ∨ d ∈ z.others := by
    intro d
    simp only [Site.others, z', List.mem_append, List.mem_cons]
    tauto
  have hrun' : Tiling Block.addr Block.stop lo hi [b] := by
    simp only [Tiling.cons_iff, Tiling.nil_iff, Block.front, Block.rest, Block.stop]
      at hlo hhi ⊢
    omega
  have hlinks : ∀ x ∈ (b.rest n).addr :: order,
      ∃ d ∈ blocksOf (z.fill [b.front n, b.rest n]), d.addr = x ∧ d.free = true ∧ d.WF := by
    intro x hx
    obtain ⟨d, hd, hda, hdf⟩ := R₂.listed x hx
    exact ⟨d, hd, hda, hdf, R₂.placed.block_wf hd⟩
  have hkeep : ∀ a, a < (b.front n).stop → b.addr ≤ a → m' a = cutBlock m b.addr n a := by
    intro a ha hba
    refine hch a fun y hy hya ↦ ?_
    obtain ⟨d, hd, rfl, hdf⟩ := R₂.listed y hy
    have hne : b.front n ≠ d := by
      rintro rfl
      rcases List.mem_cons.mp hy with h | h
      · simp only [Block.front, Block.rest] at h
        omega
      · exact I.unlisted h
    have hap := R₂.placed.block_apart hfront hd hne
    have hdw := (R₂.placed.block_wf hd).size_min
    simp only [Block.front, Block.stop] at hap ha
    omega
  have hunl : (b.front n).addr ∉ (b.rest n).addr :: order := by
    simp only [List.mem_cons, not_or]
    exact ⟨by simp only [Block.front, Block.rest]; omega, I.unlisted⟩
  refine ⟨m', _, z', hins, fun d ↦ by simp [Site.fill, z'],
    ⟨hfill ▸ R₂, ?_, ?_, hunl, fun d hd hf ↦ ?_, I.separated, I.before, ?_, fun d hd hf ↦ ?_⟩,
    ⟨fun d hd ↦ ?_, fun a ↦ ?_, fun a ha ↦ ?_⟩, fun a hlo hhi ↦ ?_⟩
  · rw [I.arenas_eq, ← hfill]
    exact z.map_arena_fill _ _
  · refine (read64_congr fun k hk ↦ hkeep _ ?_ ?_).trans hh₁ <;>
      simp only [Block.front, Block.stop] <;> omega
  · rcases (hothers d).mp hd with rfl | hd
    · simp
    · exact List.mem_cons_of_mem _ (I.complete d hd hf)
  · rw [Separated, List.isChain_cons]
    exact ⟨fun r hr h ↦ absurd (hright r hr) (by simp [h.2]), I.after⟩
  · rcases (hothers d).mp hd with rfl | hd
    · exact absurd hf (by simp [Block.rest])
    · exact I.large d hd hf
  · rw [hothers]
    exact ⟨fun h ↦ h.resolve_left fun h ↦ by simp [h, Block.rest] at hd, .inr⟩
  · rw [← Site.loose_congr hrun' hspan]
    simp only [Site.Loose, RunCovers, hothers, List.mem_cons, List.not_mem_nil, or_false,
      or_and_right, exists_or, exists_eq_left, Block.rest, true_and]
    tauto
  · have hrunc : ¬ RunCovers [b] a := fun h ↦ ha (.inl h)
    rw [runCovers_iff hrun'] at hrunc
    have hcut : cutBlock m b.addr n a = m a := by
      simp only [Block.front, Block.rest, Block.stop] at hlo hhi
      exact hout a (by omega) (by unfold Block.stop; omega)
    rw [← hcut]
    exact hch.loose hlinks a fun h ↦ ha ((Site.loose_congr hrun' hspan a).mp h)
  · rw [hkeep a (by simp only [Block.front, Block.stop]; omega) (by omega)]
    exact hout a (by omega) (.inl hhi)

end steps

end CustomAllocator
