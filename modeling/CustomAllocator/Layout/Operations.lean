import CustomAllocator.Layout.General

/-!
# The in-place operations of the general path

Specifications of the body of a general free, of the first locked section of a general
reallocation and of the reuse of a free block. Each is a short sequence of steps with one
block in hand.
-/

namespace CustomAllocator
open CustomAllocator.Base

variable {m : Mem} {head : Nat} {arenas : List Arena} {ts : List Carved} {order : List Nat}
  {z : Site} {b : Block}

/-! ### Coalescing -/

/-- The block in hand grew from `b` to `b'`, and took in every block that left the site's
surroundings. -/
structure Merged (z : Site) (b : Block) (z' : Site) (b' : Block) : Prop where
  includes : b'.Includes b
  kept : ∀ d ∈ z.others, d ∈ z'.others ∨ b'.Includes d

theorem Merged.refl (z : Site) (b : Block) : Merged z b z b :=
  ⟨.refl b, fun _ hd ↦ .inl hd⟩

theorem Merged.trans {z' z'' : Site} {b' b'' : Block} (h : Merged z b z' b')
    (h' : Merged z' b' z'' b'') : Merged z b z'' b'' where
  includes := h'.includes.trans h.includes
  kept d hd := by
    rcases h.kept d hd with h₁ | h₁
    · exact h'.kept d h₁
    · exact .inr (h'.includes.trans h₁)

/-- After coalescing to the right, no free block follows the block in hand. -/
theorem InHand.coalesceRight (c : Config) (I : InHand m head arenas z b order) :
    ∃ m' head' z' b', coalesceRight c arenas m head b.addr = .ok (m', head') ∧
      InHand m' head' arenas z' b' (b'.outside order) ∧ z'.ClosedRight ∧ HandStep m z b m' z' b' ∧
      b'.addr = b.addr ∧ b'.free = b.free ∧ Merged z b z' b' := by
  have hright := I.rep.rightNeighbor c I.headed
  rw [← I.arenas_eq] at hright
  -- The neighbour is the next block of the tiling, and only when that block is free.
  cases hz : z.after with
  | nil =>
    rw [hz] at hright
    refine ⟨m, head, z, b, by simp [CustomAllocator.coalesceRight, hright, freeAddr],
      I.outside_eq.symm ▸ I, fun r hr ↦ by simp [hz] at hr,
      ⟨fun d _ ↦ Iff.rfl, fun x ↦ Iff.rfl, fun x _ ↦ rfl⟩, rfl, rfl, .refl z b⟩
  | cons r after =>
    rw [hz] at hright
    have hrm : r ∈ blocksOf (z.fill [b]) := Site.mem_fill.mpr (.inl (by simp [Site.others, hz]))
    have hr0 : r.addr ≠ 0 := by have := I.rep.placed.block_bounds hrm; omega
    cases hf : r.free with
    | false =>
      refine ⟨m, head, z, b, by simp [CustomAllocator.coalesceRight, hright, freeAddr, hf],
        I.outside_eq.symm ▸ I, fun d hd ↦ ?_,
        ⟨fun d _ ↦ Iff.rfl, fun x ↦ Iff.rfl, fun x _ ↦ rfl⟩, rfl, rfl, .refl z b⟩
      rw [hz, List.head?_cons, Option.mem_some_iff] at hd
      exact hd ▸ hf
    | true =>
      obtain ⟨-, m', head', hrun, I', hclosed, hstep, -⟩ := I.absorbRight c hz hf
      have hadj : b.stop = r.addr := by
        obtain ⟨lo, hi, hspan⟩ := (z.fill_after [b] r after hz ▸ I.rep.placed).span
        exact (tiling_pair.mp hspan).2.1
      obtain ⟨hb, hr⟩ := Block.join_includes hadj
      refine ⟨m', head', _, _, ?_, I', hclosed, hstep, rfl, rfl, hb, fun d hd ↦ ?_⟩
      · simp [CustomAllocator.coalesceRight, hright, freeAddr, hf, hr0, hrun]
      · by_cases hdr : d = r
        · exact .inr (hdr ▸ hr)
        · left
          simp only [Site.others, hz, List.mem_append, List.mem_cons] at hd ⊢
          tauto

/-- After coalescing to the left, no free block precedes the block in hand. -/
theorem InHand.coalesceLeft (c : Config) (I : InHand m head arenas z b order)
    (hb : b.free = true) (hc : z.ClosedRight) :
    ∃ m' head' z' b', coalesceLeft c arenas m head b.addr = .ok ((m', head'), b'.addr) ∧
      InHand m' head' arenas z' b' (b'.outside order) ∧ z'.ClosedRight ∧ z'.ClosedLeft ∧
      HandStep m z b m' z' b' ∧ b'.free = true ∧ Merged z b z' b' := by
  have hleft := I.rep.leftNeighbor c I.headed
  rw [← I.arenas_eq] at hleft
  rcases List.eq_nil_or_concat z.before with hz | ⟨before, l, hz⟩
  · rw [hz] at hleft
    exact ⟨m, head, z, b, by simp [CustomAllocator.coalesceLeft, hleft, freeAddr],
      I.outside_eq.symm ▸ I, hc, fun l hl ↦ by simp [hz] at hl,
      ⟨fun d _ ↦ Iff.rfl, fun x ↦ Iff.rfl, fun x _ ↦ rfl⟩, hb, .refl z b⟩
  rw [List.concat_eq_append] at hz
  rw [hz, List.getLast?_concat] at hleft
  have hlm : l ∈ blocksOf (z.fill [b]) := Site.mem_fill.mpr (.inl (by simp [Site.others, hz]))
  have hl0 : l.addr ≠ 0 := by have := I.rep.placed.block_bounds hlm; omega
  cases hf : l.free with
  | false =>
    refine ⟨m, head, z, b, by simp [CustomAllocator.coalesceLeft, hleft, freeAddr, hf],
      I.outside_eq.symm ▸ I, hc, fun d hd ↦ ?_,
      ⟨fun d _ ↦ Iff.rfl, fun x ↦ Iff.rfl, fun x _ ↦ rfl⟩, hb, .refl z b⟩
    rw [hz, List.getLast?_concat, Option.mem_some_iff] at hd
    exact hd ▸ hf
  | true =>
    obtain ⟨m₁, head', hrun, I', hclosed, hstep⟩ := I.absorbLeft c hz hf
    have hadj : l.stop = b.addr := by
      obtain ⟨lo, hi, hspan⟩ := (z.fill_before [b] l before hz ▸ I.rep.placed).span
      exact (tiling_pair.mp hspan).2.1
    obtain ⟨hl, hb⟩ := Block.join_includes hadj
    refine ⟨_, head', _, l.join b, ?_, I', hc, hclosed, hstep, hf, hb, fun d hd ↦ ?_⟩
    · simp only [CustomAllocator.coalesceLeft, hleft, freeAddr, hf, if_true, ok_bind, hl0,
        if_false, hrun]
      rfl
    · by_cases hdl : d = l
      · exact .inr (hdl ▸ hl)
      · left
        simp only [Site.others, hz, List.mem_append, List.mem_cons, List.not_mem_nil, or_false]
          at hd ⊢
        tauto

/-! ### Freeing -/

/-- What freeing the allocated block `b` leaves: one free block `k` that includes it and heads
the list; every other block is as it was or has merged into `k`. -/
structure Freed (ts : List Carved) (order : List Nat) (b : Block) (ts' : List Carved)
    (order' : List Nat) (k : Block) : Prop where
  allocated : ∀ d, Allocated ts' d ↔ Allocated ts d ∧ d ≠ b
  mem : k ∈ blocksOf ts'
  free : k.free = true
  includes : k.Includes b
  kept : ∀ d ∈ blocksOf ts, d ∈ blocksOf ts' ∨ k.Includes d
  listed : order' = k.addr :: k.outside order

/-- Freeing an allocated block merges it with its free neighbours into one listed block. -/
theorem GeneralHeap.freeGeneral (c : Config) (H : GeneralHeap m head arenas ts order)
    (hb : Allocated ts b) (hh : Headed m b) :
    ∃ m' head' ts' order' k, freeGeneral c arenas m head (b.addr + 16) = .ok (m', head') ∧
      GeneralHeap m' head' arenas ts' order' ∧ HeapFrame ts ts' b.addr m m' ∧
      Freed ts order b ts' order' k := by
  obtain ⟨z, rfl, I⟩ := H.hold hb hh
  have hbd := H.rep.placed.block_bounds hb.1
  have hheader : headerOf (b.addr + 16) = b.addr := headerOf_add (by omega)
  have howner := H.rep.placed.arenaOwning_eq (b := b) (by simp)
  rw [← H.arenas_eq] at howner
  obtain ⟨I₁, hstep₁, -⟩ := I.setFree true
  obtain ⟨m₂, head₂, z₂, b₂, hrun₂, I₂, hright₂, hstep₂, haddr₂, hfree₂, hmerged₂⟩ :=
    I₁.coalesceRight c
  obtain ⟨m₃, head₃, z₃, b₃, hrun₃, I₃, hright₃, hleft₃, hstep₃, hfree₃, hmerged₃⟩ :=
    I₂.coalesceLeft c hfree₂ hright₂
  rw [Block.outside_outside hmerged₃.includes] at I₃
  obtain ⟨m₄, hrun₄, H₄, hframe₄⟩ := I₃.release c hfree₃ hleft₃ hright₃
  have hstep := (hstep₁.trans hstep₂).trans hstep₃
  have hmerged := hmerged₂.trans hmerged₃
  refine ⟨m₄, b₃.addr, z₃.fill [b₃], _, b₃, ?_, H₄, ?_, fun d ↦ ?_, z₃.mem_self, hfree₃,
    hmerged.includes, fun d hd ↦ ?_, rfl⟩
  · rw [haddr₂] at hrun₃
    simp only [CustomAllocator.freeGeneral, hheader, howner, Option.isSome_some, assert_true,
      ok_bind, hrun₂, hrun₃, hrun₄]
  · refine heapFrame_of_loose H.rep.placed (by rw [← I₃.arenas_eq, ← I.arenas_eq])
      fun x hx ↦ ?_
    rw [hframe₄ x fun h ↦ hx ((hstep.loose x).mp h)]
    exact hstep.frame x hx
  · rw [hstep.allocated_iff H.rep.placed]
    simp [hfree₃]
  · rcases Site.mem_fill.mp hd with hd | hd
    · exact (hmerged.kept d hd).imp_left fun h ↦ Site.mem_fill.mpr (.inl h)
    · rw [List.mem_singleton.mp hd]
      exact .inr hmerged.includes

/-! ### Growing in place -/

/-- How an allocated block `b` came to hold `n` bytes in place as `k`. -/
inductive Widened (ts : List Carved) (order : List Nat) (b : Block) (n : Nat) (ts' : List Carved)
    (order' : List Nat) (k : Block) : Prop where
  /-- It was large enough already. -/
  | fits (size : n ≤ b.size) (heap : ts' = ts) (listed : order' = order) (block : k = b)
  /-- It took in the free block after it, and gave back what it did not need. -/
  | grown (r : Block) (size : b.size < n) (follows : Follows ts b r) (free : r.free = true)
      (room : n ≤ (b.join r).size) (block : k = (b.join r).fit n)
      (rest : ∀ d ∈ (b.join r).leftover n, d ∈ blocksOf ts')
      (listed : order' = ((b.join r).leftover n).map Block.addr ++ (b.join r).outside order)

/-- No block of `n` bytes can be had at `b` by growing over its right neighbour. -/
def Hemmed (ts : List Carved) (b : Block) (n : Nat) : Prop :=
  b.size < n ∧ ∀ r, Follows ts b r → r.free = true → (b.join r).size < n

/-- The first locked section of a reallocation keeps the block, or grows it over its right
neighbour, or leaves everything unchanged and reports the size the block has. -/
theorem GeneralHeap.reallocInPlace (c : Config) (H : GeneralHeap m head arenas ts order)
    (hb : Allocated ts b) (hh : Headed m b) (newSize : Nat) :
    (reallocInPlace c arenas m head b.addr newSize = .ok ((m, head), .move b.size) ∧
      Hemmed ts b (alignUp newSize)) ∨
    ∃ m' head' ts' order' b',
      reallocInPlace c arenas m head b.addr newSize = .ok ((m', head'), .done) ∧
      GeneralHeap m' head' arenas ts' order' ∧ b'.addr = b.addr ∧ Headed m' b' ∧
      alignUp newSize ≤ b'.size ∧ b.size ≤ b'.size ∧
      (∀ d, Allocated ts' d ↔ d = b' ∨ Allocated ts d ∧ d ≠ b) ∧
      HeapFrame ts ts' b.addr m m' ∧
      (∀ x, b.addr + 16 ≤ x → x < b.addr + 16 + b.size → m' x = m x) ∧
      Widened ts order b (alignUp newSize) ts' order' b' := by
  obtain ⟨z, rfl, I⟩ := H.hold hb hh
  have howner := H.rep.placed.arenaOwning_eq (b := b) (by simp)
  rw [← H.arenas_eq] at howner
  have hright := I.rep.rightNeighbor c I.headed
  rw [← I.arenas_eq] at hright
  have hlarge := H.large b hb.1 hb.2
  have hmod := alignUp_mod newSize
  simp only [CustomAllocator.reallocInPlace, howner, Option.isSome_some, assert_true, ok_bind,
    I.headed.getSize I.wf, hright]
  generalize alignUp newSize = n at hmod
  by_cases hfit : n ≤ b.size
  · right
    rw [if_pos hfit]
    refine ⟨m, head, _, order, b, rfl, H, rfl, hh, hfit, Nat.le_refl _, fun d ↦ ?_,
      ⟨fun d _ _ x _ ↦ rfl, fun x _ ↦ rfl⟩, fun x _ _ ↦ rfl, .fits hfit rfl rfl rfl⟩
    by_cases hd : d = b <;> simp [hd, hb]
  rw [if_neg hfit]
  cases hz : z.after with
  | nil =>
    exact .inl ⟨by simp [freeAddr], by omega, fun r hr ↦ absurd hr (H.rep.placed.not_follows hz)⟩
  | cons r after =>
    have hrm : r ∈ blocksOf (z.fill [b]) := Site.mem_fill.mpr (.inl (by simp [Site.others, hz]))
    have hr0 : r.addr ≠ 0 := by have := I.rep.placed.block_bounds hrm; omega
    have hfol := H.rep.placed.follows_right hz
    have honly : ∀ q, Follows (z.fill [b]) b q → q = r :=
      fun q hq ↦ hq.right_unique hfol H.rep.placed
    cases hf : r.free with
    | false =>
      refine .inl ⟨by simp [freeAddr, hf], by omega, fun q hq hqf ↦ ?_⟩
      rw [honly q hq, hf] at hqf
      exact absurd hqf (by decide)
    | true =>
      obtain ⟨hcomb, m₁, head₁, hrun₁, I₁, hclosed, hstep₁, hpay₁⟩ := I.absorbRight c hz hf
      simp only [List.head?_cons, freeAddr, hf, if_true, hr0, if_false, hcomb]
      by_cases hroom : n ≤ b.size + 32 + r.size
      · right
        have hroom' : n ≤ (b.join r).size := hroom
        obtain ⟨m₂, head₂, z₂, hrun₂, hfill₂, I₂, hstep₂, hpay₂⟩ :=
          I₁.split c hclosed hmod (by omega) hroom'
        have hstep := hstep₁.trans hstep₂
        have hsize₂ := (Block.fit_size hroom').1
        have hbf : ((b.join r).fit n).free = false := (Block.fit_free _ n).trans hb.2
        have hrun₂' : maybeSplit c m₁ head₁ b.addr n = .ok (m₂, head₂) := hrun₂
        refine ⟨m₂, head₂, _, _, (b.join r).fit n,
          by simp only [hroom, if_true, hrun₁, ok_bind, hrun₂'],
          I₂.close hbf (by omega), Block.fit_addr _ n, I₂.headed, hsize₂, by omega, fun d ↦ ?_,
          heapFrame_of_loose H.rep.placed (by rw [← I₂.arenas_eq, ← I.arenas_eq]) hstep.frame,
          fun x hlo hhi ↦ ?_, .grown r (by omega) hfol hf hroom' rfl (fun d hd ↦ ?_) rfl⟩
        · rw [hstep.allocated_iff H.rep.placed]
          simp only [hbf, and_true, ne_eq]
        · rw [hpay₂ x (by simpa [Block.join] using hlo) (by dsimp only [Block.join]; omega)]
          exact hpay₁ x hlo hhi
        · rw [hfill₂]
          exact Site.mem_fill.mpr (.inr (List.mem_cons_of_mem _ hd))
      · refine .inl ⟨by rw [if_neg hroom], by omega, fun q hq _ ↦ ?_⟩
        rw [honly q hq]
        simp only [Block.join]
        omega

/-! ### Reusing a free block -/

/-- What the client is given of a reused block. -/
def Block.taken (b : Block) (n : Nat) : Block := { b.fit n with free := false }

@[simp] theorem Block.taken_addr (b : Block) (n : Nat) : (b.taken n).addr = b.addr :=
  Block.fit_addr b n

@[simp] theorem Block.taken_size (b : Block) (n : Nat) : (b.taken n).size = (b.fit n).size := rfl

/-- A reused free block becomes an allocated block of at least the requested size. -/
theorem GeneralHeap.reuseBlock (c : Config) (H : GeneralHeap m head arenas ts order)
    (hb : b ∈ blocksOf ts) (hf : b.free = true) {n : Nat} (hn16 : n % 16 = 0) (hn : 4096 < n)
    (hle : n ≤ b.size) :
    ∃ m' head' ts', reuseBlock c m head b.addr n = .ok ((m', head'), b.addr + 16) ∧
      GeneralHeap m' head' arenas ts' ((b.leftover n).map Block.addr ++ b.outside order) ∧
      Headed m' (b.taken n) ∧ (∀ d ∈ b.leftover n, d ∈ blocksOf ts') ∧
      (∀ d, Allocated ts' d ↔ d = b.taken n ∨ Allocated ts d) ∧ b.taken n ∉ blocksOf ts ∧
      HeapFrame ts ts' b.addr m m' := by
  obtain ⟨z, m₁, head₁, rfl, hrun₁, I₁, hclosed, hframe₁⟩ := H.take c hb hf
  have hbd := H.rep.placed.block_bounds hb
  obtain ⟨m₂, head₂, z₂, hrun₂, hfill₂, I₂, hstep₂, -⟩ := I₁.split c hclosed hn16 (by omega) hle
  have hsize₂ := (Block.fit_size hle).1
  have haddr₂ : (b.fit n).addr = b.addr := Block.fit_addr b n
  obtain ⟨I₃, hstep₃, -⟩ := I₂.setFree false
  have hstep := hstep₂.trans hstep₃
  have hpay : payload c (setFree m₂ b.addr false) b.addr = .ok (b.addr + 16) := by
    have hfr : isFree (setFree m₂ b.addr false) b.addr = false := by
      have := I₃.headed.isFree I₃.wf
      rwa [haddr₂] at this
    unfold payload
    simp only [hfr, Bool.not_false, assert_true, ok_bind,
      dataAddress_eq (show b.addr + 16 < 2 ^ 64 by omega)]
  refine ⟨_, head₂, _, ?_, I₃.close rfl (by dsimp only; omega), I₃.headed, fun d hd ↦ ?_,
    fun d ↦ ?_, fun hk ↦ ?_, heapFrame_of_loose H.rep.placed
      (by rw [← I₃.arenas_eq, ← I₁.arenas_eq]) fun x hx ↦ ?_⟩
  · simp only [CustomAllocator.reuseBlock, hrun₁, ok_bind, hrun₂, haddr₂, hpay]
  · rw [hfill₂]
    exact Site.mem_fill.mpr (.inr (List.mem_cons_of_mem _ hd))
  · rw [hstep.allocated_iff I₁.rep.placed]
    simp only [and_true]
    refine or_congr_right ⟨fun h ↦ h.1, fun h ↦ ⟨h, fun he ↦ ?_⟩⟩
    rw [he, Allocated, hf] at h
    exact absurd h.2 (by decide)
  · have := H.rep.placed.block_eq_of_addr hk hb haddr₂
    exact absurd ((congrArg Block.free this).trans hf) (by simp [Block.taken])
  · rw [hstep.frame x hx]
    exact hframe₁ x hx

end CustomAllocator
