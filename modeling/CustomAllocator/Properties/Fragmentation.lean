import CustomAllocator.Properties.BoundaryTags

/-!
# Bounded fragmentation

How much a served request of the general path keeps beyond what was asked for: at most 32
bytes, and whatever more was available comes back as one listed free block right after it.
When a reallocation moves, the old block is freed last and may merge with that remainder.
-/

namespace CustomAllocator
open CustomAllocator.Base

/-- `n` is `size` rounded up to a multiple of sixteen. -/
structure RoundedUp (size n : Nat) : Prop where
  aligned : n % 16 = 0
  le : size ≤ n
  lt : n < size + 16

/-- The block at `p` was given `n` of `available` payload bytes: it keeps at most 32 more, and
anything beyond is one new listed free block after its footer. The list was `l` and is `l'`. -/
structure Snug (m : Mem) (l l' : List Nat) (p n available : Nat) : Prop where
  size_ge : n ≤ getSize m (headerOf p)
  size_le : getSize m (headerOf p) ≤ n + 32
  rest : n + 32 < available →
    getSize m (headerOf p) = n ∧ nextPhysicalHeader m (headerOf p) ∉ l ∧
    (∀ x ∈ l', x = nextPhysicalHeader m (headerOf p) ∨ x ∈ l) ∧
    nextPhysicalHeader m (headerOf p) ∈ l' ∧
    getSize m (nextPhysicalHeader m (headerOf p)) = available - n - 32 ∧
    16 ≤ available - n - 32
  no_rest : available ≤ n + 32 → ∀ x ∈ l', x ∈ l

/-- An allocation from `s` to `s'` gave `n` bytes at `p`, from a listed block or freshly
carved. -/
def AllocatedSnugly (s s' : State) (p n : Nat) : Prop :=
  ∃ l l', FreeListExact s l ∧ FreeListExact s' l' ∧
    (headerOf p ∈ l ∧ Snug s'.mem l l' p n (getSize s.mem (headerOf p)) ∨
      headerOf p ∉ l ∧ Snug s'.mem l l' p n n)

/-- A block at `p` grew to `n` bytes over the free block after it. -/
def GrownSnugly (s s' : State) (p n : Nat) : Prop :=
  ∃ l l', FreeListExact s l ∧ FreeListExact s' l' ∧
    nextPhysicalHeader s.mem (headerOf p) ∈ l ∧
    Snug s'.mem l l' p n (getSize s.mem (headerOf p) + 32 +
      getSize s.mem (nextPhysicalHeader s.mem (headerOf p)))

/-- A reallocation moved the contents of `p` to `q`: `q` was allocated snugly and keeps its
size, and a remainder cut off for it is still free and listed, and has the same size or covers all
of the old block, which has merged with it. -/
def MovedSnugly (c : Config) (t : Tid) (s s' : State) (p q newSize n : Nat) : Prop :=
  ∃ s₁, myMalloc c s t newSize = .ok (s₁, q) ∧ AllocatedSnugly s s₁ q n ∧
    getSize s'.mem (headerOf q) = getSize s₁.mem (headerOf q) ∧
    ∀ l₁, FreeListExact s₁ l₁ → ∀ d ∈ l₁, d = nextPhysicalHeader s₁.mem (headerOf q) →
      (∃ l', FreeListExact s' l' ∧ d ∈ l') ∧
      (getSize s'.mem d = getSize s₁.mem d ∨
        getSize s₁.mem d < getSize s'.mem d ∧ d ≤ headerOf p ∧
          headerOf p + getSize s.mem (headerOf p) ≤ d + getSize s'.mem d)

variable {c : Config} {t : Tid} {w : Session} {s s' : State} {live : List Grant}
  {ts ts' : List Carved} {order order' : List Nat} {sh : Shelves} {g : Grant}
  {b k : Block} {n p q size newSize : Nat}

/-- A list is determined by the state it is exact for. -/
theorem FreeListExact.mem_iff {l l' : List Nat} (h : FreeListExact s l)
    (h' : FreeListExact s l') (x : Nat) : x ∈ l ↔ x ∈ l' := by
  constructor
  · intro hx
    obtain ⟨hf, a, ha, bs, hbs, hb⟩ := h.sound x hx
    exact h'.complete a ha bs hbs x hb hf
  · intro hx
    obtain ⟨hf, a, ha, bs, hbs, hb⟩ := h'.sound x hx
    exact h.complete a ha bs hbs x hb hf

/-- A nonempty list begins at its head. -/
theorem FreeListExact.head_mem {l : List Nat} (h : FreeListExact s l) (hne : s.freeHead ≠ 0) :
    s.freeHead ∈ l := by
  cases l with
  | nil => exact absurd h.walk hne
  | cons x xs => exact h.walk.1 ▸ List.mem_cons_self

/-- The next physical header after a carved block is its end. -/
theorem Tiled.next_eq (T : Tiled s ts order) (hb : b ∈ blocksOf ts) :
    nextPhysicalHeader s.mem b.addr = b.stop := by
  have := T.heap.rep.placed.block_bounds hb
  exact nextPhysicalHeader_eq (T.size_eq hb) (by omega)

/-- A block that was fitted to a request from a source `b` is snug. -/
theorem Tiled.snug (T : Tiled s ts order') (hk : k ∈ blocksOf ts) (haddr : k.addr = b.addr)
    (hsize : k.size = (b.fit n).size) (hle : n ≤ b.size) (hn : n % 16 = 0)
    (hb : b.size % 16 = 0) (hrest : ∀ d ∈ b.leftover n, d ∈ blocksOf ts)
    (hlisted : order' = (b.leftover n).map Block.addr ++ b.outside order)
    (hnew : n + 48 ≤ b.size → b.addr + n + 32 ∉ order) :
    Snug s.mem order order' (k.addr + 16) n b.size := by
  have hbd := T.heap.rep.placed.block_bounds hk
  have hfit := Block.fit_size hle
  have hout : ∀ x ∈ b.outside order, x ∈ order := fun x hx ↦ (Block.mem_outside.mp hx).1
  simp only [minBlockSize, sizeofBlockHeader, sizeofFreeListLinks, sizeofBlockFooter] at hfit
  refine ⟨?_, ?_, fun hmore ↦ ?_, fun hless ↦ ?_⟩
  · rw [headerOf_add (by omega), T.size_eq hk]
    omega
  · have hmod := (T.heap.rep.placed.block_wf hk).size_aligned
    rw [headerOf_add (by omega), T.size_eq hk]
    omega
  · have hcut : ¬ b.size < n + minBlockSize := by
      simp only [minBlockSize, sizeofBlockHeader, sizeofFreeListLinks, sizeofBlockFooter]
      omega
    have hks : k.size = n := by rw [hsize, Block.fit, if_neg hcut, Block.front]
    have hleft : b.leftover n = [b.rest n] := if_neg hcut
    rw [hleft] at hrest hlisted
    have hrm := hrest (b.rest n) (by simp)
    have hnext : nextPhysicalHeader s.mem k.addr = (b.rest n).addr := by
      rw [T.next_eq hk, Block.stop, hks, haddr]
      rfl
    rw [headerOf_add (by omega), hnext, T.size_eq hk, T.size_eq hrm, hlisted]
    refine ⟨hks, hnew (by omega), fun x hx ↦ ?_, by simp, rfl, by omega⟩
    rcases List.mem_cons.mp hx with rfl | hx
    · exact .inl rfl
    · exact .inr (hout x hx)
  · have hcut : b.leftover n = [] := by
      refine if_pos ?_
      simp only [minBlockSize, sizeofBlockHeader, sizeofFreeListLinks, sizeofBlockFooter]
      omega
    rw [hlisted, hcut]
    exact hout

/-- No listed block starts inside another carved block. -/
theorem Tiled.not_listed_inside (T : Tiled s ts order) (hb : b ∈ blocksOf ts) {x : Nat}
    (hlo : b.addr < x) (hhi : x < b.stop) : x ∉ order := by
  intro hx
  obtain ⟨e, he, rfl, -⟩ := T.heap.rep.listed x hx
  have := T.heap.rep.placed.block_eq he hb (x := e.addr) ⟨Nat.le_refl _, by
    unfold Block.stop
    omega⟩ ⟨by omega, hhi⟩
  subst this
  omega

/-- A served allocation is snug. -/
theorem Tiled.allocatedSnugly (T : Tiled s ts order) (T' : Tiled s' ts' order')
    (hadd : Added c s s' ts size ts' order' k) (hserved : Served c s ts order n s' ts' order' k)
    (hn : n % 16 = 0) : AllocatedSnugly s s' (k.addr + 16) n := by
  have hk : Allocated ts' k := (hadd.allocated k).mpr (.inl rfl)
  have hbd := T'.heap.rep.placed.block_bounds hk.1
  have hhead : headerOf (k.addr + 16) = k.addr := headerOf_add (by omega)
  refine ⟨order, order', T.freeListExact, T'.freeListExact, ?_⟩
  rw [hhead]
  have hcarved : k.size = n → order' = order →
      k.addr ∉ order ∧ Snug s'.mem order order' (k.addr + 16) n n := by
    rintro hsize rfl
    refine ⟨T'.heap.rep.not_listed hk.1 hk.2, ?_, ?_, fun h ↦ by omega, fun _ x hx ↦ hx⟩ <;>
      rw [hhead, T'.size_eq hk.1] <;> omega
  cases hserved with
  | reused b hb hf first hfit block rest listed os arenas =>
    left
    have haddr : k.addr = b.addr := by rw [block, Block.taken_addr]
    have hbw := T.heap.rep.placed.block_wf hb
    rw [haddr, T.size_eq hb, ← haddr]
    refine ⟨haddr ▸ T.heap.complete b hb hf, T'.snug hk.1 haddr ?_ hfit hn hbw.size_aligned rest
      listed fun hroom ↦ T.not_listed_inside hb (by omega) (by unfold Block.stop; omega)⟩
    rw [block, Block.taken_size]
  | bumped init a unlisted newest room block listed os arenas =>
    exact .inr (hcarved (by rw [block]) listed)
  | grown r unlisted full answer room block listed os arenas =>
    exact .inr (hcarved (by rw [block]) listed)

/-- A block that grew over its right neighbour is snug. -/
theorem Tiled.grownSnugly (T : Tiled s ts order) (T' : Tiled s' ts' order')
    (hb : b ∈ blocksOf ts) (hk : k ∈ blocksOf ts') (hn : n % 16 = 0) (hlt : b.size < n)
    (hwide : Widened ts order b n ts' order' k) : GrownSnugly s s' (b.addr + 16) n := by
  have hbd := T.heap.rep.placed.block_bounds hb
  have hbw := T.heap.rep.placed.block_wf hb
  have hhead : headerOf (b.addr + 16) = b.addr := headerOf_add (by omega)
  refine ⟨order, order', T.freeListExact, T'.freeListExact, ?_⟩
  cases hwide with
  | fits size heap listed block => omega
  | grown r _ follows free room block rest listed =>
    obtain ⟨u, hu, -, hr, hadj⟩ := follows
    have hrm := mem_blocksOf.mpr ⟨u, hu, hr⟩
    have hrw := T.heap.rep.placed.block_wf hrm
    have haddr : k.addr = (b.join r).addr := by rw [block, Block.fit_addr]
    rw [hhead, T.next_eq hb, hadj, T.size_eq hb, T.size_eq hrm]
    refine ⟨T.heap.complete r hrm free, ?_⟩
    have hsnug := T'.snug hk haddr (by rw [block]) room hn (b := b.join r)
      (by have := hbw.size_aligned; have := hrw.size_aligned; simp only [Block.join]; omega)
      rest listed fun hroom ↦ T.not_listed_inside hrm
        (by simp only [Block.join, Block.stop] at *; omega)
        (by simp only [Block.join, Block.stop] at *; omega)
    rwa [haddr] at hsnug

/-- A moving reallocation is snug, up to the merge of the old block with the remainder. -/
theorem Accounted.movedSnugly (A : Accounted c s live ts order sh) (hun : Uncaptured ts sh)
    (hg : g ∈ live) (ho : g.origin = none) (hr : Routed c s g) {copySize : Nat}
    (hlo : 4096 < newSize) (hsize : newSize + 47 < 2 ^ 64) (hnew : copySize ≤ newSize)
    (hrun : CustomAllocator.moveTo c s t g.ptr newSize copySize = .ok (s', q)) (hq : q ≠ 0) :
    q ≠ g.ptr ∧ MovedSnugly c t s s' g.ptr q newSize (alignUp newSize) := by
  rcases A.mallocBlock t hlo hsize with
    ⟨os, hnull, -⟩ | ⟨s₁, ts₁, order₁, k, hmalloc, G, hadd, hserved⟩
  · simp only [CustomAllocator.moveTo, hnull, ok_bind, if_true] at hrun
    exact absurd (Prod.mk.inj (Except.ok.inj hrun)).2.symm hq
  have T := A.tiled hun
  have T₁ := G.accounted.tiled (G.uncaptured hun)
  obtain ⟨hp, hfresh⟩ := G.ptr_new
  -- The copy changes bytes of the new grant only, so the tiling and the old grant stand.
  have G₂ := G.write (copy s₁.mem (k.addr + 16) g.ptr copySize) fun x hx ↦
    copy_of_out _ (by omega)
  have hg₂ : g ∈ (⟨k.addr + 16, newSize, originOf newSize⟩ :: live : List Grant) :=
    List.mem_cons_of_mem _ hg
  obtain ⟨d, hd, hdn⟩ := G₂.accounted.general g hg₂ ho
  have hk : ¬ isKnownPool c d.size = true := by
    have hr₂ : Routed c { s₁ with mem := copy s₁.mem (k.addr + 16) g.ptr copySize } g := by
      rw [G₂.accounted.routed_iff hg₂, (G₂.spared g hg).1]
      exact (A.routed_iff hg).mp hr
    unfold Routed at hr₂
    rw [G₂.accounted.tag_general hd, ho] at hr₂
    simp [hr₂]
  obtain ⟨heap, ts₃, order₃, f, hfree, hret, F⟩ := G₂.accounted.freeBlock t hg₂ hd hdn hk
  simp only [CustomAllocator.moveTo, hmalloc, ok_bind, hp, if_false, hfree] at hrun
  obtain ⟨rfl, rfl⟩ := Prod.mk.inj (Except.ok.inj hrun)
  have T₃ := hret.accounted.tiled fun e he j ↦
    G₂.uncaptured hun e ((F.allocated e).mp he).1 j
  have hk₁ : Allocated ts₁ k := (hadd.allocated k).mpr (.inl rfl)
  have hkd : k ≠ d := fun he ↦ hfresh g hg (by rw [hd.ptr_eq, he])
  have hk₃ : Allocated ts₃ k := (F.allocated k).mpr ⟨hk₁, hkd⟩
  have P₁ := T₁.heap.rep.placed
  have P₃ := T₃.heap.rep.placed
  have hkb := P₁.block_bounds hk₁.1
  have hdb := P₁.block_bounds hd.allocated.1
  have hhead : headerOf (k.addr + 16) = k.addr := headerOf_add (by omega)
  have hold : headerOf g.ptr = d.addr := by rw [hd.ptr_eq, headerOf_add (by omega)]
  have hsame : getSize s.mem d.addr = d.size := by
    obtain ⟨b, hb, -⟩ := A.general g hg ho
    have haddr : b.addr = d.addr := Nat.add_right_cancel (hb.ptr_eq.symm.trans hd.ptr_eq)
    rw [← haddr, T.size_eq hb.allocated.1, ← A.usable_general ho hb,
      ← G₂.accounted.usable_general ho hd, (G₂.spared g hg).1]
  refine ⟨(hfresh g hg).symm, s₁, hmalloc,
    T.allocatedSnugly T₁ hadd hserved (alignUp_mod newSize), ?_, fun l₁ hl₁ x hx hnext ↦ ?_⟩
  · rw [hhead, T₃.size_eq hk₃.1, T₁.size_eq hk₁.1]
  rw [hhead, T₁.next_eq hk₁.1] at hnext
  obtain ⟨e, he, rfl, hef⟩ := T₁.heap.rep.listed x ((hl₁.mem_iff T₁.freeListExact x).mp hx)
  rw [T₁.size_eq he]
  have hlarge := T₁.heap.large d hd.allocated.1 hd.allocated.2
  rcases F.kept e he with he₃ | hinc
  · exact ⟨⟨order₃, T₃.freeListExact, T₃.heap.complete e he₃ hef⟩, .inl (T₃.size_eq he₃)⟩
  · -- The merged block starts at the remainder: the new block in front of it is allocated.
    have hfk : f ≠ k := fun h ↦ absurd F.free (by simp [h, hk₃.2])
    have hfapart := P₃.block_apart F.mem hk₃.1 hfk
    have hde : d ≠ e := fun h ↦ absurd hef (by simp [← h, hd.allocated.2])
    have hdapart := P₁.block_apart hd.allocated.1 he hde
    have hdinc := F.includes
    simp only [Block.Includes, Block.stop] at hinc hdinc hfapart hdapart hnext
    obtain hfe : f.addr = e.addr := by omega
    have hfsize : getSize (State.setHeap _ heap).mem e.addr = f.size :=
      hfe ▸ T₃.size_eq F.mem
    rw [hfsize, hold, hsame]
    refine ⟨⟨order₃, T₃.freeListExact, hfe ▸ T₃.heap.complete f F.mem F.free⟩, .inr ?_⟩
    omega

/-- In every routed session, a served allocation and a served growth keep at most 32 bytes more
than the rounded request, and give the rest back as one listed block. -/
theorem fragmentation_bounded (h : Reachable c t (routedCall c) w) :
    (∀ size n s' p, 4096 < size → size ≤ sizeMax - 47 → RoundedUp size n →
      myMalloc c w.state t size = .ok (s', p) → p ≠ 0 → AllocatedSnugly w.state s' p n) ∧
    ∀ g ∈ w.live, ∀ newSize n s' q, g.origin = none → Routed c w.state g →
      newSize ≤ sizeMax - 47 → RoundedUp newSize n → usable w.state g < n →
      myRealloc c w.state t g.ptr newSize = .ok (s', q) → q ≠ 0 →
        q = g.ptr ∧ GrownSnugly w.state s' q n ∨
          q ≠ g.ptr ∧ MovedSnugly c t w.state s' g.ptr q newSize n := by
  obtain ⟨ts, order, sh, A, hun⟩ := h.routed
  have T := A.tiled hun
  constructor
  · intro size n s' p hlo hhi hn hrun hp
    unfold sizeMax at hhi
    obtain rfl := alignUp_eq (by have := hn.le; omega) hn.aligned hn.le hn.lt
    rcases A.mallocBlock t hlo (by omega) with
      ⟨os, hnull, -⟩ | ⟨s₁, ts₁, order₁, k, hmalloc, G, hadd, hserved⟩
    · obtain ⟨-, rfl⟩ := Prod.mk.inj (Except.ok.inj (hnull.symm.trans hrun))
      exact absurd rfl hp
    · obtain ⟨rfl, rfl⟩ := Prod.mk.inj (Except.ok.inj (hmalloc.symm.trans hrun))
      exact T.allocatedSnugly (G.accounted.tiled (G.uncaptured hun)) hadd hserved hn.aligned
  · intro g hg newSize n s' q ho hr hhi hn hgrow hrun hq
    unfold sizeMax at hhi
    obtain rfl := alignUp_eq (by have := hn.le; omega) hn.aligned hn.le hn.lt
    obtain ⟨b, hb, hbn⟩ := A.general g hg ho
    have hu := A.usable_general ho hb
    have hlarge := A.coherent.heap.large b hb.allocated.1 hb.allocated.2
    have hlo : 4096 < newSize := by
      have := hn.lt
      have := hn.aligned
      have := (A.coherent.heap.rep.placed.block_wf hb.allocated.1).size_aligned
      omega
    have hk : ¬ isKnownPool c (tagOf w.state.mem g.ptr) = true := by
      unfold Routed at hr
      rw [hr, ho]
      simp
    rcases A.reallocBlock t hg ho hb hbn hk (show newSize + 47 < 2 ^ 64 by omega) with
      ⟨-, hmove⟩ | ⟨heap, ts', order', b', hgrown, A', -, -, -, haddr, halloc, hwide⟩
    · rw [hmove] at hrun
      exact .inr (A.movedSnugly hun hg ho hr hlo (by omega) (Nat.min_le_right _ _) hrun hq)
    · obtain ⟨rfl, rfl⟩ := Prod.mk.inj (Except.ok.inj (hgrown.symm.trans hrun))
      have T' := A'.tiled fun d hd j ↦ by
        rcases (halloc d).mp hd with rfl | ⟨hd, -⟩
        · exact haddr ▸ hbn j
        · exact hun d hd j
      rw [hb.ptr_eq]
      exact .inl ⟨rfl, T.grownSnugly T' hb.allocated.1 ((halloc b').mpr (.inl rfl)).1
        hn.aligned (by omega) hwide⟩

/-- A smaller request is served from the gap, and the block before the gap grows over it. -/
theorem fragmentation_bounded_gap :
    (∃ s' p, myMalloc .fixedBase Session.gap.state 0 5000 = .ok (s', p) ∧
      AllocatedSnugly Session.gap.state s' p 5008) ∧
    ∃ s', myRealloc .fixedBase Session.gap.state 0 Grant.low.ptr 7000 = .ok (s', Grant.low.ptr) ∧
      GrownSnugly Session.gap.state s' Grant.low.ptr 7008 := by
  have hbounded := fragmentation_bounded Session.gap_routed
  constructor
  · have hsome : (myMalloc .fixedBase Session.gap.state 0 5000).toOption.map Prod.snd =
        some 0x113c0 := by
      decide +kernel
    obtain ⟨⟨s', p⟩, hrun, rfl⟩ := toOption_map_snd hsome
    exact ⟨s', _, hrun, hbounded.1 5000 5008 s' _ (by decide) (by decide)
      ⟨by decide, by decide, by decide⟩ hrun (by simp)⟩
  · have hsome : (myRealloc .fixedBase Session.gap.state 0 Grant.low.ptr 7000).toOption.map
        Prod.snd = some Grant.low.ptr := by
      decide +kernel
    obtain ⟨⟨s', p⟩, hrun, rfl⟩ := toOption_map_snd hsome
    refine ⟨s', hrun, ((hbounded.2 .low (by rw [Session.gap_live]; simp) 7000 7008 s' _ rfl
      (by decide +kernel) (by decide) ⟨by decide, by decide, by decide⟩ (by decide +kernel) hrun
      (by decide)).resolve_right fun hmoved ↦ hmoved.1 rfl).2⟩

/-- A large free block lies right before an allocated one, which is itself fenced in. -/
def Session.wedge : Session :=
  Session.fresh.run .fixedBase 0
    [.malloc 5000, .malloc 20000, .malloc 5000, .malloc 5000, .free 0x113c0]

theorem Session.wedge_routed : Reachable .fixedBase 0 (routedCall .fixedBase) .wedge :=
  (Session.fresh_reachable _).run (by decide +kernel)

/-- Moving the allocated block into the free one leaves no remainder of the size that was left
over: the old block, freed last, has merged with it. -/
theorem realloc_rest_merged :
    Reachable .fixedBase 0 (routedCall .fixedBase) .wedge ∧
      (⟨0x16200, 5000, none⟩ : Grant) ∈ Session.wedge.live ∧
      Routed .fixedBase Session.wedge.state ⟨0x16200, 5000, none⟩ ∧
      ∃ s' q, myRealloc .fixedBase Session.wedge.state 0 0x16200 6000 = .ok (s', q) ∧ q ≠ 0 ∧
        q ≠ 0x16200 ∧ ¬ AllocatedSnugly Session.wedge.state s' q 6000 := by
  have hptr : (myRealloc .fixedBase Session.wedge.state 0 0x16200 6000).toOption.map Prod.snd =
      some 0x113c0 := by
    decide +kernel
  have hsize : (myRealloc .fixedBase Session.wedge.state 0 0x16200 6000).toOption.map
      (fun out ↦ getSize out.1.mem (nextPhysicalHeader out.1.mem (headerOf out.2))) =
      some 19008 := by
    decide +kernel
  obtain ⟨⟨s', q⟩, hrun, rfl⟩ := toOption_map_snd hptr
  rw [hrun] at hsize
  simp only [Except.toOption, Option.map_some, Option.some.injEq] at hsize
  refine ⟨Session.wedge_routed, by decide +kernel, by decide +kernel, s', _, hrun, by simp,
    by simp, ?_⟩
  have hhead : Session.wedge.state.freeHead = headerOf 0x113c0 := by decide +kernel
  have havail : getSize Session.wedge.state.mem (headerOf 0x113c0) = 20000 := by decide +kernel
  rintro ⟨l, l', hl, -, ⟨-, hsnug⟩ | ⟨hnot, -⟩⟩
  · rw [havail] at hsnug
    have := (hsnug.rest (by decide)).2.2.2.2.1
    omega
  · refine hnot (hhead ▸ hl.head_mem ?_)
    rw [hhead]
    decide

end CustomAllocator
