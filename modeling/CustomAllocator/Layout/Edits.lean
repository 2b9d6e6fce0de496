import CustomAllocator.Layout.Carving

/-!
# Flag, join and split edits

The three ways the general path rewrites headers and footers in place: setting the free
flag, letting a block swallow the block after it, and cutting a block in two. Each edit is
stated at a site: the run it takes, the run it leaves and the words it writes.
-/

namespace CustomAllocator
open CustomAllocator.Base

variable {m m' : Mem} {head : Nat} {ts : List Carved} {order : List Nat} {z : Site}

/-! ### The span of a run -/

/-- Some block of the run covers `x`. -/
def RunCovers (run : List Block) (x : Nat) : Prop := ∃ b ∈ run, b.Covers x

/-- The bytes of a site an operation may change: those of its run and of free blocks elsewhere. -/
def Site.Loose (z : Site) (run : List Block) (x : Nat) : Prop :=
  RunCovers run x ∨ ∃ b ∈ z.others, b.free = true ∧ b.Covers x

/-- A tiled run covers exactly its span. -/
theorem runCovers_iff {run : List Block} {l r x : Nat}
    (h : Tiling Block.addr Block.stop l r run) : RunCovers run x ↔ l ≤ x ∧ x < r := by
  constructor
  · rintro ⟨b, hb, hx⟩
    have := h.bounds hb
    simp only [Block.Covers] at hx
    omega
  · rintro ⟨hl, hr⟩
    obtain ⟨b, hb, hx⟩ := h.cover hl hr
    exact ⟨b, hb, hx⟩

/-- Runs of one span leave the same bytes loose. -/
theorem Site.loose_congr {run run' : List Block} {l r : Nat}
    (h : Tiling Block.addr Block.stop l r run) (h' : Tiling Block.addr Block.stop l r run')
    (x : Nat) : z.Loose run' x ↔ z.Loose run x := by
  unfold Site.Loose
  rw [runCovers_iff h, runCovers_iff h']

/-- The run of a well-placed site tiles some span. -/
theorem Placed.span {run : List Block} (P : Placed (z.fill run)) :
    ∃ l r, Tiling Block.addr Block.stop l r run := by
  obtain ⟨r, hbr, -⟩ := Tiling.append_iff.mp (P.wf _ (z.mem_arenas_fill run)).tiling
  obtain ⟨l, -, hr⟩ := Tiling.append_iff.mp hbr
  exact ⟨l, r, hr⟩

/-- List operations change loose bytes only. -/
theorem LinksChanged.loose {r : List Block} {l : List Nat} (h : LinksChanged l m m')
    (hl : ∀ x ∈ l, ∃ b ∈ blocksOf (z.fill r), b.addr = x ∧ b.free = true ∧ b.WF) (x : Nat)
    (hx : ¬ z.Loose r x) : m' x = m x := by
  refine h x fun y hy hyx ↦ ?_
  obtain ⟨b, hb, rfl, hf, hw⟩ := hl y hy
  by_contra hlt
  have hcov : b.Covers x := ⟨by omega, by have := hw.size_min; unfold Block.stop; omega⟩
  rcases Site.mem_fill.mp hb with hb | hb
  · exact hx (.inr ⟨b, hb, hf, hcov⟩)
  · exact hx (.inl ⟨b, hb, hcov⟩)

/-! ### The list around a block -/

/-- The listed addresses outside a block. -/
def Block.outside (b : Block) (order : List Nat) : List Nat :=
  order.filter fun x ↦ decide (x < b.addr ∨ b.stop ≤ x)

theorem Block.mem_outside {b : Block} {x : Nat} :
    x ∈ b.outside order ↔ x ∈ order ∧ (x < b.addr ∨ b.stop ≤ x) := by
  simp [Block.outside]

/-- Only one listed address lies in the block. -/
theorem Block.outside_drop {b : Block} {xs ys : List Nat} {n : Nat}
    (hn : b.addr ≤ n ∧ n < b.stop) (h : ∀ x ∈ xs ++ ys, x < b.addr ∨ b.stop ≤ x) :
    b.outside (xs ++ n :: ys) = xs ++ ys := by
  have hfilter : b.outside (xs ++ ys) = xs ++ ys :=
    List.filter_eq_self.mpr fun x hx ↦ decide_eq_true (h x hx)
  simp only [Block.outside, List.filter_append] at hfilter ⊢
  rw [List.filter_cons_of_neg (by simp only [decide_eq_true_eq]; omega), hfilter]

/-- The block `k` spans all of `d`. -/
def Block.Includes (k d : Block) : Prop := k.addr ≤ d.addr ∧ d.stop ≤ k.stop

theorem Block.Includes.refl (b : Block) : b.Includes b := ⟨Nat.le_refl _, Nat.le_refl _⟩

theorem Block.Includes.trans {b d k : Block} (h : k.Includes d) (h' : d.Includes b) :
    k.Includes b := ⟨Nat.le_trans h.1 h'.1, Nat.le_trans h'.2 h.2⟩

/-- Of two nested blocks the larger decides. -/
theorem Block.outside_outside {b d : Block} (h : d.Includes b) :
    d.outside (b.outside order) = d.outside order := by
  unfold Block.Includes at h
  unfold Block.outside
  rw [List.filter_filter]
  refine List.filter_congr fun x _ ↦ ?_
  simp only [← Bool.decide_and, decide_eq_decide]
  omega

/-! ### Setting the flag -/

/-- An allocated block is not listed. -/
theorem Represents.not_listed (R : Represents m head ts order) {b : Block} (hb : b ∈ blocksOf ts)
    (hf : b.free = false) : b.addr ∉ order := by
  intro ho
  obtain ⟨d, hd, hda, hdf⟩ := R.listed _ ho
  rw [R.placed.block_eq_of_addr hd hb hda, hf] at hdf
  exact absurd hdf (by decide)

/-- Setting the flag of an unlisted block rewrites its header word only. -/
theorem Represents.setFree {b : Block} (R : Represents m head (z.fill [b]) order)
    (hb : Headed m b) (hn : b.addr ∉ order) (free : Bool) :
    Represents (setFree m b.addr free) head (z.fill [{ b with free := free }]) order ∧
      Headed (setFree m b.addr free) { b with free := free } ∧
      ∀ x, (b.addr ≤ x → b.addr + 8 ≤ x) → setFree m b.addr free x = m x := by
  have hmem : b ∈ blocksOf (z.fill [b]) := Site.mem_fill.mpr (.inr (by simp))
  have hw := R.placed.block_wf hmem
  have hbd := R.placed.block_bounds hmem
  have hs2 : b.size % 2 = 0 := by have := hw.size_aligned; omega
  rw [setFree_of_header free hs2 hb]
  have hh : Headed (write64 m b.addr (headerWord b.size free)) { b with free := free } :=
    read64_write64_same _ _ (headerWord_lt _ hs2 (by omega))
  have hfoot : read64 (write64 m b.addr (headerWord b.size free)) (b.addr + 16 + b.size) =
      b.size := by
    rw [read64_write64_of_disjoint _ _ (by omega)]
    exact (R.tagged b hmem).footer
  have hout : ∀ x, (b.addr ≤ x → b.addr + 8 ≤ x) →
      write64 m b.addr (headerWord b.size free) x = m x :=
    fun x hx ↦ write64_of_out _ _ (by omega)
  refine ⟨R.edit (fun l r h ↦ h) ?_ ?_ ?_ ?_, hh, hout⟩
  · simpa using ⟨hw.addr_aligned, hw.size_aligned, hw.size_min⟩
  · simpa using hn
  · intro x hx
    have := hx b (by simp)
    simp only [Block.Covers, Block.stop] at this
    exact hout x (by omega)
  · simpa using hh.tagged hs2 hfoot

/-! ### Joining two blocks -/

/-- Two adjacent blocks as one, under the header of the first. -/
def Block.join (x y : Block) : Block := ⟨x.addr, x.size + 32 + y.size, x.free⟩

/-- Two blocks in a row. -/
theorem tiling_pair {x y : Block} {l r : Nat} :
    Tiling Block.addr Block.stop l r [x, y] ↔ x.addr = l ∧ x.stop = y.addr ∧ y.stop = r := by
  simp only [Tiling.cons_iff, Tiling.nil_iff, Block.stop]
  omega

/-- Adjacent blocks are included in the joined block. -/
theorem Block.join_includes {x y : Block} (h : x.stop = y.addr) :
    (x.join y).Includes x ∧ (x.join y).Includes y := by
  simp only [Block.Includes, Block.join, Block.stop] at h ⊢
  omega

/-- `resize` stores the header word and the footer of the new size. -/
theorem resize_eq {b : Block} {n : Nat} (hb : Headed m b) (hs : b.size % 2 = 0)
    (hn : n % 2 = 0) (hlt : b.addr + n + 32 < 2 ^ 64) :
    resize m b.addr n =
      write64 (write64 m b.addr (headerWord n b.free)) (b.addr + 16 + n) n := by
  have hg : getSize (write64 m b.addr (headerWord n b.free)) b.addr = n :=
    getSize_of_header hn (read64_write64_same _ _ (headerWord_lt _ hn (by omega)))
  unfold resize
  rw [setSize_of_header hs hn hb, syncFooter_eq hg hlt]

/-- After resizing, header and footer describe the block of the new size. -/
theorem resize_headed {b : Block} {n : Nat} (hb : Headed m b) (hs : b.size % 2 = 0)
    (hn : n % 2 = 0) (hlt : b.addr + n + 32 < 2 ^ 64) :
    Headed (resize m b.addr n) ⟨b.addr, n, b.free⟩ ∧
      read64 (resize m b.addr n) (b.addr + 16 + n) = n := by
  rw [resize_eq hb hs hn hlt]
  constructor
  · exact (read64_write64_of_disjoint _ _ (.inl (by simp only []; omega))).trans
      (read64_write64_same _ _ (headerWord_lt _ hn (by omega)))
  · exact read64_write64_same _ _ (by omega)

/-- Resizing writes one word at the header and one at the new footer. -/
theorem resize_of_out {b : Block} {n : Nat} (hb : Headed m b) (hs : b.size % 2 = 0)
    (hn : n % 2 = 0) (hlt : b.addr + n + 32 < 2 ^ 64) {x : Nat}
    (hh : b.addr ≤ x → b.addr + 8 ≤ x) (hf : b.addr + 16 + n ≤ x → b.addr + 24 + n ≤ x) :
    resize m b.addr n x = m x := by
  rw [resize_eq hb hs hn hlt, write64_of_out _ _ (by omega), write64_of_out _ _ (by omega)]

/-- A block that takes in the unlisted block after it. -/
theorem Represents.join {x y : Block} (R : Represents m head (z.fill [x, y]) order)
    (hx : Headed m x) (hy : Headed m y) (hnx : x.addr ∉ order) (hny : y.addr ∉ order) :
    combinedPayloadSize m x.addr y.addr = x.size + 32 + y.size ∧
      Represents (resize m x.addr (x.size + 32 + y.size)) head (z.fill [x.join y]) order ∧
      Headed (resize m x.addr (x.size + 32 + y.size)) (x.join y) ∧
      ∀ a, (x.addr ≤ a → x.addr + 8 ≤ a) →
        (x.addr + 48 + x.size + y.size ≤ a → x.addr + 56 + x.size + y.size ≤ a) →
        resize m x.addr (x.size + 32 + y.size) a = m a := by
  have hmx : x ∈ blocksOf (z.fill [x, y]) := Site.mem_fill.mpr (.inr (by simp))
  have hmy : y ∈ blocksOf (z.fill [x, y]) := Site.mem_fill.mpr (.inr (by simp))
  have hwx := R.placed.block_wf hmx
  have hwy := R.placed.block_wf hmy
  have hbx := R.placed.block_bounds hmx
  have hby := R.placed.block_bounds hmy
  obtain ⟨l, r, ht⟩ := R.placed.span
  obtain ⟨hl, hadj, hr⟩ := tiling_pair.mp ht
  have hax := hwx.size_aligned
  have hay := hwy.size_aligned
  have hmin := hwx.size_min
  unfold Block.stop at hadj
  have hlt : x.addr + (x.size + 32 + y.size) + 32 < 2 ^ 64 := by omega
  have hh := resize_headed hx (by omega) (n := x.size + 32 + y.size) (by omega) hlt
  have hout : ∀ a, (x.addr ≤ a → x.addr + 8 ≤ a) →
      (x.addr + 48 + x.size + y.size ≤ a → x.addr + 56 + x.size + y.size ≤ a) →
      resize m x.addr (x.size + 32 + y.size) a = m a :=
    fun a h1 h2 ↦ resize_of_out hx (by omega) (by omega) hlt h1 (by omega)
  refine ⟨?_, R.edit ?_ ?_ ?_ ?_ ?_, hh.1, hout⟩
  · unfold combinedPayloadSize sizeofBlockFooter sizeofBlockHeader
    rw [hx.getSize hwx, hy.getSize hwy, add64_of_lt (a := x.size) (by omega),
      add64_of_lt (a := x.size + 16) (by omega), add64_of_lt (by omega)]
  · intro l r h
    obtain ⟨hl, h1, h2⟩ := tiling_pair.mp h
    simp only [Tiling.cons_iff, Tiling.nil_iff, Block.join, Block.stop] at h1 h2 ⊢
    omega
  · simp only [List.mem_singleton, forall_eq]
    exact ⟨hwx.addr_aligned, by simp only [Block.join]; omega, by simp only [Block.join]; omega⟩
  · simpa using ⟨hnx, hny⟩
  · intro a ha
    have h1 := ha x (by simp)
    have h2 := ha y (by simp)
    simp only [Block.Covers, Block.stop] at h1 h2
    exact hout a (by omega) (by omega)
  · simp only [List.mem_singleton, forall_eq]
    exact hh.1.tagged (by dsimp only; omega) hh.2

/-! ### Splitting a block -/

/-- The front part of a block cut after `n` payload bytes. -/
def Block.front (b : Block) (n : Nat) : Block := ⟨b.addr, n, b.free⟩

/-- The free remainder of a block cut after `n` payload bytes. -/
def Block.rest (b : Block) (n : Nat) : Block := ⟨b.addr + n + 32, b.size - n - 32, true⟩

/-- What a block gives to a request of `n` bytes: its front part, or all of it when the
remainder could not stand as a block. -/
def Block.fit (b : Block) (n : Nat) : Block := if b.size < n + minBlockSize then b else b.front n

/-- What a block keeps after giving `n` bytes: the remainder, if it can stand as a block. -/
def Block.leftover (b : Block) (n : Nat) : List Block :=
  if b.size < n + minBlockSize then [] else [b.rest n]

@[simp] theorem Block.fit_addr (b : Block) (n : Nat) : (b.fit n).addr = b.addr := by
  unfold Block.fit
  split <;> rfl

@[simp] theorem Block.fit_free (b : Block) (n : Nat) : (b.fit n).free = b.free := by
  unfold Block.fit
  split <;> rfl

/-- A request is served in full, and with less than a block to spare. -/
theorem Block.fit_size {b : Block} {n : Nat} (h : n ≤ b.size) :
    n ≤ (b.fit n).size ∧ (b.fit n).size < n + minBlockSize := by
  unfold Block.fit
  split
  · exact ⟨h, by assumption⟩
  · exact ⟨Nat.le_refl _, by
      simp only [Block.front, minBlockSize, sizeofBlockHeader, sizeofFreeListLinks,
        sizeofBlockFooter]
      omega⟩

/-- The memory after `maybe_split` has written both parts and before the remainder is listed. -/
def cutBlock (m : Mem) (header payloadSize : Nat) : Mem :=
  let remainder := sub64 (getSize m header) payloadSize
  let restSize := sub64 (sub64 remainder sizeofBlockHeader) sizeofBlockFooter
  let m := resize m header payloadSize
  let rest := nextPhysicalHeader m header
  syncFooter (constructHeader m rest restSize true) rest

/-- Cutting an unlisted block in two well-formed parts. -/
theorem Represents.cut {b : Block} {n : Nat} (R : Represents m head (z.fill [b]) order)
    (hb : Headed m b) (hnb : b.addr ∉ order) (hn16 : n % 16 = 0) (hn : 16 ≤ n)
    (hroom : n + 48 ≤ b.size) :
    nextPhysicalHeader (resize m b.addr n) b.addr = (b.rest n).addr ∧
      Represents (cutBlock m b.addr n) head (z.fill [b.front n, b.rest n]) order ∧
      Headed (cutBlock m b.addr n) (b.front n) ∧
      ∀ a, (b.addr ≤ a → b.addr + 8 ≤ a) → (a < b.addr + 16 + n ∨ b.stop ≤ a) →
        cutBlock m b.addr n a = m a := by
  have hmem : b ∈ blocksOf (z.fill [b]) := Site.mem_fill.mpr (.inr (by simp))
  have hw := R.placed.block_wf hmem
  have hbd := R.placed.block_bounds hmem
  have hal := hw.size_aligned
  have haa := hw.addr_aligned
  have hlt : b.addr + n + 32 < 2 ^ 64 := by omega
  obtain ⟨hh, hf⟩ := resize_headed hb (by omega) (by omega : n % 2 = 0) hlt
  have hnext : nextPhysicalHeader (resize m b.addr n) b.addr = b.addr + n + 32 :=
    nextPhysicalHeader_eq (getSize_of_header (by omega) hh) hlt
  have hrs : sub64 (sub64 (sub64 (getSize m b.addr) n) sizeofBlockHeader) sizeofBlockFooter =
      b.size - n - 32 := by
    unfold sizeofBlockHeader sizeofBlockFooter
    rw [hb.getSize hw, sub64_of_le (a := b.size) (by omega) (by omega),
      sub64_of_le (a := b.size - n) (by omega) (by omega), sub64_of_le (by omega) (by omega)]
    omega
  let m₁ := resize m b.addr n
  let m₂ := write64 m₁ (b.addr + n + 32) (headerWord (b.size - n - 32) true)
  have hword : headerWord (b.size - n - 32) true < 2 ^ 64 :=
    headerWord_lt true (by omega) (by omega)
  have hread₂ : read64 m₂ (b.addr + n + 32) = headerWord (b.size - n - 32) true :=
    read64_write64_same _ _ hword
  have hcut : cutBlock m b.addr n = write64 m₂ (b.addr + n + 32 + 16 + (b.size - n - 32))
      (b.size - n - 32) := by
    unfold cutBlock
    simp only [hnext, hrs]
    rw [constructHeader_eq _ _ true (by omega) (by omega),
      syncFooter_eq (getSize_of_header (by omega) hread₂) (by omega)]
  have hout : ∀ a, (b.addr ≤ a → b.addr + 8 ≤ a) → (a < b.addr + 16 + n ∨ b.stop ≤ a) →
      cutBlock m b.addr n a = m a := by
    intro a h1 h2
    unfold Block.stop at h2
    have h₂ : m₂ a = m₁ a := write64_of_out _ _ (by omega)
    rw [hcut, write64_of_out _ _ (by omega), h₂]
    exact resize_of_out hb (by omega) (by omega) hlt h1 (by omega)
  -- Header and footer of the front part lie below the words of the remainder.
  have hkeep : ∀ a, a + 8 ≤ b.addr + n + 32 → read64 (cutBlock m b.addr n) a = read64 m₁ a := by
    intro a ha
    rw [hcut, read64_write64_of_disjoint _ _ (by omega),
      read64_write64_of_disjoint _ _ (by omega)]
  have hfh : Headed (cutBlock m b.addr n) (b.front n) := (hkeep b.addr (by omega)).trans hh
  have hff : read64 (cutBlock m b.addr n) (b.addr + 16 + n) = n :=
    (hkeep _ (by omega)).trans hf
  have hrh : Headed (cutBlock m b.addr n) (b.rest n) := by
    unfold Headed
    rw [hcut, read64_write64_of_disjoint _ _ (by simp only [Block.rest]; omega)]
    exact hread₂
  have hrf : read64 (cutBlock m b.addr n) (b.addr + n + 32 + 16 + (b.size - n - 32)) =
      b.size - n - 32 := by
    rw [hcut]
    exact read64_write64_same _ _ (by omega)
  refine ⟨hnext, R.edit ?_ ?_ ?_ ?_ ?_, hfh, hout⟩
  · intro l r h
    rw [tiling_pair]
    simp only [Tiling.cons_iff, Tiling.nil_iff, Block.front, Block.rest, Block.stop] at h ⊢
    exact ⟨h.1, trivial, by omega⟩
  · simp only [List.mem_cons, List.not_mem_nil, or_false, forall_eq_or_imp, forall_eq]
    exact ⟨⟨haa, hn16, hn⟩, ⟨by simp only [Block.rest]; omega, by simp only [Block.rest]; omega,
      by simp only [Block.rest]; omega⟩⟩
  · simpa using hnb
  · intro a ha
    have := ha b (by simp)
    simp only [Block.Covers, Block.stop] at this
    exact hout a (by omega) (by unfold Block.stop; omega)
  · simp only [List.mem_cons, List.not_mem_nil, or_false, forall_eq_or_imp, forall_eq]
    exact ⟨hfh.tagged (by simp only [Block.front]; omega) hff,
      hrh.tagged (by simp only [Block.rest]; omega) hrf⟩

end CustomAllocator
