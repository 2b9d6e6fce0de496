import CustomAllocator.Client.Returns

/-!
# Zeroed allocation and reallocation

`my_calloc` and `my_realloc` against the ledger. A reallocation refuses and changes nothing,
keeps the pointer, or moves the contents to a fresh grant and takes the old one back.
-/

namespace CustomAllocator
open CustomAllocator.Base

/-- The ledger after the entry of `p` was given a new requested size. -/
def renewed (live : List Grant) (p newSize : Nat) : List Grant :=
  live.map fun g ↦ if g.ptr = p then { g with requested := newSize } else g

variable {c : Config} {s s' : State} {tr : Transit} {live : List Grant} {ts ts' : List Carved}
  {order order' : List Nat} {sh sh' : Shelves} {g : Grant} {i : Fin numSizeClasses}

theorem mem_renewed {p newSize : Nat} {h : Grant} :
    h ∈ renewed live p newSize ↔ ∃ g ∈ live,
      (g.ptr = p ∧ h = { g with requested := newSize }) ∨ g.ptr ≠ p ∧ h = g := by
  unfold renewed
  rw [List.mem_map]
  constructor
  · rintro ⟨g, hg, rfl⟩
    by_cases hp : g.ptr = p
    · exact ⟨g, hg, .inl ⟨hp, if_pos hp⟩⟩
    · exact ⟨g, hg, .inr ⟨hp, if_neg hp⟩⟩
  · rintro ⟨g, hg, ⟨hp, rfl⟩ | ⟨hp, rfl⟩⟩
    · exact ⟨g, hg, if_pos hp⟩
    · exact ⟨h, hg, if_neg hp⟩

theorem map_ptr_renewed (live : List Grant) (p newSize : Nat) :
    (renewed live p newSize).map Grant.ptr = live.map Grant.ptr := by
  unfold renewed
  rw [List.map_map]
  refine List.map_congr_left fun g _ ↦ ?_
  simp only [Function.comp]
  split <;> rfl

/-- A granted pointer is new and not null. -/
theorem Granted.ptr_new {size p : Nat} (G : Granted c s live ts sh size s' p ts' order' sh') :
    p ≠ 0 ∧ ∀ g ∈ live, g.ptr ≠ p := by
  have hal := G.accounted.ptr_aligned List.mem_cons_self
  refine ⟨by dsimp only at hal; omega, fun g hg he ↦ ?_⟩
  have hn := (List.nodup_cons.mp G.accounted.nodup).1
  exact hn (List.mem_map.mpr ⟨g, hg, he⟩)

/-- Writing the granted bytes keeps the grant and everything else. -/
theorem Granted.write {size p : Nat} (G : Granted c s live ts sh size s' p ts' order' sh')
    (m' : Mem) (hm : ∀ x, (p ≤ x → p + size ≤ x) → m' x = s'.mem x) :
    Granted c s live ts sh size { s' with mem := m' } p ts' order' sh' := by
  have hmem : (⟨p, size, originOf size⟩ : Grant) ∈
      (⟨p, size, originOf size⟩ :: live : List Grant) :=
    List.mem_cons_self
  have hle := G.accounted.requested_le hmem
  obtain ⟨A', hu⟩ := G.accounted.write m' fun x hx ↦ ⟨_, hmem, by
    by_contra hout
    refine hx (hm x fun hlo ↦ ?_)
    simp only [InPayload] at hout hle
    omega⟩
  refine ⟨A', G.spared.trans (fun g hg ↦ ?_) fun g hg ↦ hg, G.uncaptured⟩
  have hg' : g ∈ (⟨p, size, originOf size⟩ :: live : List Grant) := List.mem_cons_of_mem _ hg
  refine ⟨hu g hg', fun x hx ↦ hm x fun hlo ↦ ?_⟩
  by_contra hlt
  refine G.accounted.payload_apart hg' hmem (fun he ↦ G.ptr_new.2 g hg (by rw [he])) hx ?_
  simp only [InPayload] at hle ⊢
  omega

namespace Booked

/-- Writing into one grant leaves the others as they were. -/
theorem writeGrant (A : Booked c s tr live ts order sh) (hg : g ∈ live) {m' : Mem}
    (hm : ∀ x, ¬ InPayload s g x → m' x = s.mem x) :
    Booked c { s with mem := m' } tr live ts order sh ∧
      Spared s { s with mem := m' } (without live g.ptr) ∧
      usable { s with mem := m' } g = usable s g := by
  obtain ⟨A', hu⟩ := A.write m' fun x hx ↦ ⟨g, hg, by_contra fun h ↦ hx (hm x h)⟩
  refine ⟨A', fun h hh ↦ ⟨hu h (mem_without.mp hh).1, fun x hx ↦ ?_⟩, hu g hg⟩
  obtain ⟨hh, hne⟩ := mem_without.mp hh
  exact hm x (A.payload_apart hh hg (fun he ↦ hne (he ▸ rfl)) hx)

/-- A grant may ask for any size its usable bytes cover. -/
theorem renew (A : Booked c s tr live ts order sh) {p newSize : Nat}
    (hfit : ∀ g ∈ live, g.ptr = p → newSize ≤ usable s g) :
    Booked c s tr (renewed live p newSize) ts order sh where
  coherent := A.coherent
  occupied := A.occupied
  general h hh ho := by
    obtain ⟨g, hg, ⟨hp, rfl⟩ | ⟨hp, rfl⟩⟩ := mem_renewed.mp hh
    · obtain ⟨b, hb, hn⟩ := A.general g hg ho
      have hle := hfit g hg hp
      rw [A.usable_general (g := g) ho hb] at hle
      exact ⟨b, ⟨hb.allocated, hb.ptr_eq, hb.headed, hle⟩, hn⟩
    · exact A.general h hg ho
  pooled h hh i hi := by
    obtain ⟨g, hg, ⟨hp, rfl⟩ | ⟨hp, rfl⟩⟩ := mem_renewed.mp hh
    · obtain ⟨x, hx, hptr, -⟩ := A.pooled g hg i hi
      have hle := hfit g hg hp
      rw [A.usable_pooled (g := g) hi] at hle
      exact ⟨x, hx, hptr, hle⟩
    · exact A.pooled h hg i hi
  blocks b hb := by
    rcases A.blocks b hb with ⟨g, hg, ho, hgp⟩ | hs
    · by_cases hp : g.ptr = p
      · exact .inl ⟨_, mem_renewed.mpr ⟨g, hg, .inl ⟨hp, rfl⟩⟩, ho, hgp⟩
      · exact .inl ⟨g, mem_renewed.mpr ⟨g, hg, .inr ⟨hp, rfl⟩⟩, ho, hgp⟩
    · exact .inr hs
  slots i x hx := by
    obtain ⟨g, hg, ho, hgp⟩ := A.slots i x hx
    by_cases hp : g.ptr = p
    · exact ⟨_, mem_renewed.mpr ⟨g, hg, .inl ⟨hp, rfl⟩⟩, ho, hgp⟩
    · exact ⟨g, mem_renewed.mpr ⟨g, hg, .inr ⟨hp, rfl⟩⟩, ho, hgp⟩
  nodup := by
    rw [map_ptr_renewed]
    exact A.nodup

end Booked

/-! ### `my_calloc` -/

/-- The overflow test of `my_calloc` is exact. -/
theorem calloc_guard (count size : Nat) :
    (size ≠ 0 ∧ sizeMax / size < count) ↔ sizeMax < count * size := by
  constructor
  · rintro ⟨h0, h⟩
    exact (Nat.div_lt_iff_lt_mul (Nat.pos_of_ne_zero h0)).mp h
  · intro h
    have h0 : size ≠ 0 := fun h0 ↦ by simp [h0] at h
    exact ⟨h0, (Nat.div_lt_iff_lt_mul (Nat.pos_of_ne_zero h0)).mpr h⟩

/-- A product that does not fit is refused at once. -/
theorem calloc_overflow (c : Config) (s : State) (t : Tid) {count size : Nat}
    (h : sizeMax < count * size) : myCalloc c s t count size = .ok (s, 0) := by
  unfold myCalloc
  rw [if_pos ((calloc_guard count size).mpr h)]

namespace Accounted

/-- `my_calloc` of at most `SIZE_MAX - 47` bytes either returns null and changes only what the
kernel will answer next, or grants the product, zeroed. -/
theorem calloc (A : Accounted c s live ts order sh) (t : Tid) {count size : Nat}
    (hsize : count * size + 47 < 2 ^ 64) :
    (∃ os, myCalloc c s t count size = .ok ({ s with os := os }, 0) ∧
      os.mapped = s.os.mapped) ∨
    ∃ s' p ts' order' sh', myCalloc c s t count size = .ok (s', p) ∧
      Granted c s live ts sh (count * size) s' p ts' order' sh' ∧
      ∀ k, k < count * size → s'.mem (p + k) = 0 := by
  have hguard : ¬ (size ≠ 0 ∧ sizeMax / size < count) := fun h ↦ by
    have := (calloc_guard count size).mp h
    unfold sizeMax at this
    omega
  have htotal : mul64 count size = count * size := mul64_of_lt (by omega)
  unfold myCalloc
  simp only [if_neg hguard, htotal]
  rcases A.malloc t hsize with ⟨os, hrun, hos⟩ | ⟨s₁, p, ts', order', sh', hrun, G⟩
  · exact .inl ⟨os, by simp only [hrun, ok_bind, if_true], hos⟩
  right
  refine ⟨{ s₁ with mem := fill s₁.mem p 0 (count * size) }, p, ts', order', sh',
    by simp only [hrun, ok_bind, G.ptr_new.1, if_false],
    G.write _ fun x hx ↦ fill_of_out _ _ (by omega), fun k hk ↦ ?_⟩
  simp [fill, hk]

end Accounted

/-! ### `my_realloc` -/

/-- What a reallocation of the grant `g` that returns `q` achieves: the grant stays and asks for
more, or a new one replaces it. -/
structure Reallocated (c : Config) (s : State) (live : List Grant) (g : Grant) (newSize : Nat)
    (s' : State) (q : Nat) (live' : List Grant) (ts' : List Carved) (order' : List Nat)
    (sh' : Shelves) : Prop where
  accounted : Accounted c s' live' ts' order' sh'
  spared : Spared s s' (without live g.ptr)
  ledger : (q = g.ptr ∧ live' = renewed live g.ptr newSize ∧ usable s g ≤ usable s' g) ∨
    (∀ h ∈ live, h.ptr ≠ q) ∧ live' = ⟨q, newSize, originOf newSize⟩ :: without live g.ptr

/-- What holds besides when the pointer was routed to where it came from: the contents are kept,
no block is taken for a slot, and the storage of a replaced grant is at rest. -/
structure Preserved (s : State) (g : Grant) (newSize : Nat) (ts : List Carved) (sh : Shelves)
    (s' : State) (q : Nat) (ts' : List Carved) (sh' : Shelves) : Prop where
  bytes : ∀ k, k < usable s g → k < newSize → s'.mem (q + k) = s.mem (g.ptr + k)
  uncaptured : Uncaptured ts sh → Uncaptured ts' sh'
  recovered : q ≠ g.ptr → Recovered ts' sh' g (usable s g)

/-- Growing a block in place keeps every entry of the ledger. -/
theorem Booked.growBlock (A : Booked c s tr live ts order sh) {b b' : Block} (heap : Mem × Nat)
    (hg : g ∈ live) (ho : g.origin = none) (hb : OwnsBlock s.mem ts g b)
    (hn : ∀ i, ¬ Stands sh i b.addr)
    (H' : GeneralHeap heap.1 heap.2 s.arenas ts' order') (haddr : b'.addr = b.addr)
    (hh : Headed heap.1 b') (hle : b.size ≤ b'.size)
    (halloc : ∀ d, Allocated ts' d ↔ d = b' ∨ Allocated ts d ∧ d ≠ b)
    (hframe : HeapFrame ts ts' b.addr s.mem heap.1) :
    Booked c (s.setHeap heap) tr live ts' order' sh ∧
      Spared s (s.setHeap heap) (without live g.ptr) ∧ usable (s.setHeap heap) g = b'.size := by
  have P := A.coherent.heap.rep.placed
  have hptr := hb.ptr_eq
  have hname : ∀ d, Allocated ts d → d.addr ≠ b.addr → d ≠ b := fun d _ hne h ↦ hne (h ▸ rfl)
  have C' : Coherent c (s.setHeap heap) tr ts' order' sh :=
    A.coherent.general hn H' hframe (fun d hd hne ↦ (halloc d).mpr (.inr ⟨hd, hname d hd hne⟩))
      (.inl ⟨rfl, rfl⟩) rfl rfl rfl
  have hown : ∀ h d, OwnsBlock s.mem ts h d → d ≠ b → OwnsBlock heap.1 ts' h d := by
    refine fun h d hd hdb ↦ ⟨(halloc d).mpr (.inr ⟨hd.allocated, hdb⟩), hd.ptr_eq, ?_,
      hd.requested_le⟩
    exact (read64_congr fun k hk ↦ hframe.allocated d hd.allocated
      (fun he ↦ hdb (P.block_eq_of_addr hd.allocated.1 hb.allocated.1 he)) _
      ⟨by omega, by unfold Block.stop; omega⟩).trans hd.headed
  have hgrown : OwnsBlock heap.1 ts' g b' := ⟨(halloc b').mpr (.inl rfl), by rw [haddr, hptr], hh,
    Nat.le_trans hb.requested_le hle⟩
  have A' : Booked c (s.setHeap heap) tr live ts' order' sh := by
    refine ⟨C', fun h hhl hho ↦ ?_, A.pooled, fun d hd ↦ ?_, A.slots, A.nodup, A.occupied⟩
    · obtain ⟨d, hd, hdn⟩ := A.general h hhl hho
      by_cases hdb : d = b
      · obtain rfl : h = g := A.grant_eq hhl hg (by rw [hd.ptr_eq, hdb, hptr])
        exact ⟨b', hgrown, fun i ↦ haddr ▸ hn i⟩
      · exact ⟨d, hown h d hd hdb, hdn⟩
    · rcases (halloc d).mp hd with rfl | ⟨hd, -⟩
      · exact .inl ⟨g, hg, ho, by rw [haddr, hptr]⟩
      · exact A.blocks d hd
  refine ⟨A', ?_, A'.usable_general ho hgrown⟩
  exact A.spared_general A' hframe rfl hn fun h hh ↦
    ⟨(mem_without.mp hh).1, (mem_without.mp hh).1, fun _ he ↦
      (mem_without.mp hh).2 (he.trans hptr.symm)⟩

namespace Accounted

/-- Allocating, copying and freeing moves a grant, or changes nothing when the allocation is
refused. -/
theorem moveTo (A : Accounted c s live ts order sh) (t : Tid) (hg : g ∈ live)
    {newSize copySize : Nat} (hsize : newSize + 47 < 2 ^ 64) (hold : copySize ≤ usable s g)
    (hnew : copySize ≤ newSize) :
    (∃ os, moveTo c s t g.ptr newSize copySize = .ok ({ s with os := os }, 0) ∧
      os.mapped = s.os.mapped) ∨
    ∃ s' q ts' order' sh', moveTo c s t g.ptr newSize copySize = .ok (s', q) ∧ q ≠ 0 ∧
      (∀ h ∈ live, h.ptr ≠ q) ∧
      Accounted c s' (⟨q, newSize, originOf newSize⟩ :: without live g.ptr) ts' order' sh' ∧
      Spared s s' (without live g.ptr) ∧
      (∀ k, k < copySize → s'.mem (q + k) = s.mem (g.ptr + k)) ∧
      (Routed c s g → (Uncaptured ts sh → Uncaptured ts' sh') ∧
        Recovered ts' sh' g (usable s g)) := by
  unfold CustomAllocator.moveTo
  rcases A.malloc t hsize with ⟨os, hrun, hos⟩ | ⟨s₁, q, ts₁, order₁, sh₁, hrun, G₁⟩
  · exact .inl ⟨os, by simp only [hrun, ok_bind, if_true], hos⟩
  right
  obtain ⟨hq, hfresh⟩ := G₁.ptr_new
  have G₂ := G₁.write (copy s₁.mem q g.ptr copySize) fun x hx ↦
    copy_of_out _ (by omega)
  have hg₂ : g ∈ (⟨q, newSize, originOf newSize⟩ :: live : List Grant) :=
    List.mem_cons_of_mem _ hg
  obtain ⟨s₃, ts₃, order₃, sh₃, hfree, hret, hrouted⟩ := G₂.accounted.free t hg₂
  have hledger : without (⟨q, newSize, originOf newSize⟩ :: live) g.ptr =
      ⟨q, newSize, originOf newSize⟩ :: without live g.ptr :=
    List.filter_cons_of_pos (by simpa using (hfresh g hg).symm)
  have hA₃ := hledger ▸ hret.accounted
  have hsp₃ := hledger ▸ hret.spared
  obtain ⟨hu, hbytes⟩ := G₂.spared g hg
  refine ⟨s₃, q, ts₃, order₃, sh₃, by simp only [hrun, ok_bind, hq, if_false, hfree], hq, hfresh,
    hA₃, (G₂.spared.mono fun h hh ↦ (mem_without.mp hh).1).trans
      (hsp₃.mono fun h hh ↦ List.mem_cons_of_mem _ hh) fun h hh ↦ hh, fun k hk ↦ ?_, fun hr ↦ ?_⟩
  · have hin : InPayload { s₁ with mem := copy s₁.mem q g.ptr copySize }
        ⟨q, newSize, originOf newSize⟩ (q + k) := by
      have := G₂.accounted.requested_le (List.mem_cons_self)
      simp only [InPayload] at this ⊢
      omega
    calc s₃.mem (q + k) = copy s₁.mem q g.ptr copySize (q + k) :=
          (hsp₃ _ List.mem_cons_self).2 _ hin
      _ = s₁.mem (g.ptr + k) := copy_apply _ _ _ hk
      _ = s.mem (g.ptr + k) := (G₁.spared g hg).2 _ ⟨Nat.le_add_right _ _, by omega⟩
  · have hr₂ : Routed c { s₁ with mem := copy s₁.mem q g.ptr copySize } g := by
      rw [G₂.accounted.routed_iff hg₂, hu]
      exact (A.routed_iff hg).mp hr
    obtain ⟨hun, hrec⟩ := hrouted hr₂
    exact ⟨fun hu ↦ hun (G₂.uncaptured hu), hu ▸ hrec⟩

/-- `my_realloc` of a correctly routed general pointer answers in place, or moves what both
sizes share. -/
theorem reallocBlock (A : Accounted c s live ts order sh) (t : Tid) (hg : g ∈ live)
    (ho : g.origin = none) {b : Block} (hb : OwnsBlock s.mem ts g b)
    (hn : ∀ i, ¬ Stands sh i b.addr) (hk : ¬ isKnownPool c (tagOf s.mem g.ptr) = true)
    {newSize : Nat} (hsize : newSize + 47 < 2 ^ 64) :
    (Hemmed ts b (alignUp newSize) ∧ myRealloc c s t g.ptr newSize =
      CustomAllocator.moveTo c s t g.ptr newSize (min b.size newSize)) ∨
    ∃ heap ts' order' b', myRealloc c s t g.ptr newSize = .ok (s.setHeap heap, g.ptr) ∧
      Accounted c (s.setHeap heap) (renewed live g.ptr newSize) ts' order' sh ∧
      Spared s (s.setHeap heap) (without live g.ptr) ∧
      usable s g ≤ usable (s.setHeap heap) g ∧
      (∀ k, k < b.size → heap.1 (g.ptr + k) = s.mem (g.ptr + k)) ∧
      b'.addr = b.addr ∧ (∀ d, Allocated ts' d ↔ d = b' ∨ Allocated ts d ∧ d ≠ b) ∧
      Widened ts order b (alignUp newSize) ts' order' b' := by
  have hptr0 : g.ptr ≠ 0 := by have := (A.ptr_aligned hg).2.1; omega
  have hu := A.usable_general ho hb
  obtain ⟨hlo, -⟩ := alignUp_spec (show newSize + 16 ≤ 2 ^ 64 by omega)
  unfold myRealloc
  rw [if_neg hptr0, if_neg hk, hb.headerOf_eq A.coherent.heap.rep.placed]
  rcases A.coherent.heap.reallocInPlace c hb.allocated hb.headed newSize with
    ⟨hrun, hhem⟩ | ⟨m', head', ts', order', b', hrun, H', haddr, hh, hnew, hgrow, halloc, hframe,
      hpay, hwide⟩
  · left
    have hmin : (if b.size < newSize then b.size else newSize) = min b.size newSize := by
      split <;> omega
    rw [hrun, ok_bind]
    simp only [hmin]
    exact ⟨hhem, rfl⟩
  · right
    obtain ⟨A', hsp, hu'⟩ :=
      A.toBooked.growBlock (m', head') hg ho hb hn H' haddr hh hgrow halloc hframe
    rw [hrun, ok_bind]
    refine ⟨(m', head'), ts', order', b', rfl, ⟨A'.renew fun h hhl he ↦ ?_,
      A'.coherent.shelved, A.settled.idle, A.settled.cap⟩, hsp, by rw [hu, hu']; exact hgrow,
      fun k hk ↦ ?_, haddr, halloc, hwide⟩
    · rw [A'.grant_eq hhl hg he, hu']
      omega
    · have := hb.ptr_eq
      exact hpay _ (by omega) (by omega)

/-- `my_realloc` of a live pointer to at most `SIZE_MAX - 47` bytes either returns null and
changes only what the kernel will answer next, or provides the new size. -/
theorem realloc (A : Accounted c s live ts order sh) (t : Tid) (hg : g ∈ live) {newSize : Nat}
    (hsize : newSize + 47 < 2 ^ 64) :
    (∃ os, myRealloc c s t g.ptr newSize = .ok ({ s with os := os }, 0) ∧
      os.mapped = s.os.mapped) ∨
    ∃ s' q live' ts' order' sh', myRealloc c s t g.ptr newSize = .ok (s', q) ∧ q ≠ 0 ∧
      Reallocated c s live g newSize s' q live' ts' order' sh' ∧
      (Routed c s g → Preserved s g newSize ts sh s' q ts' sh') := by
  have hptr0 : g.ptr ≠ 0 := by have := (A.ptr_aligned hg).2.1; omega
  have hmoved : ∀ {copySize : Nat}, copySize ≤ usable s g → copySize ≤ newSize →
      (Routed c s g → min (usable s g) newSize ≤ copySize) →
      (∃ os, CustomAllocator.moveTo c s t g.ptr newSize copySize = .ok ({ s with os := os }, 0) ∧
        os.mapped = s.os.mapped) ∨
      ∃ s' q live' ts' order' sh',
        CustomAllocator.moveTo c s t g.ptr newSize copySize = .ok (s', q) ∧ q ≠ 0 ∧
        Reallocated c s live g newSize s' q live' ts' order' sh' ∧
        (Routed c s g → Preserved s g newSize ts sh s' q ts' sh') := by
    intro copySize hold hnew hall
    rcases A.moveTo t hg hsize hold hnew with
      h | ⟨s', q, ts', order', sh', hrun, hq, hfresh, A', hsp, hbytes, hrouted⟩
    · exact .inl h
    · refine .inr ⟨s', q, _, ts', order', sh', hrun, hq, ⟨A', hsp, .inr ⟨hfresh, rfl⟩⟩,
        fun hr ↦ ⟨fun k hk hkn ↦ hbytes k ?_, (hrouted hr).1, fun _ ↦ (hrouted hr).2⟩⟩
      have := hall hr
      omega
  by_cases hk : isKnownPool c (tagOf s.mem g.ptr) = true
  · obtain ⟨i, hi⟩ := isKnownPool_iff.mp hk
    have hpay := (A.coherent.shelved.shape i).payload_eq
    have hcls := classSize_bounds i
    have hsome : ∀ j, g.origin = some j → j = i := fun j hj ↦
      c.poolAddr_inj ((A.tag_pooled hg hj).symm.trans hi.symm)
    have hle : classSize i ≤ usable s g := by
      cases ho : g.origin with
      | some j => rw [A.usable_pooled ho, hsome j ho]
      | none =>
        obtain ⟨b, hb, -⟩ := A.general g hg ho
        have := A.coherent.heap.large b hb.allocated.1 hb.allocated.2
        rw [A.usable_general ho hb]
        omega
    unfold myRealloc
    rw [if_neg hptr0, if_pos hk, ← hi, poolAt_poolAddr, ok_bind]
    simp only [hpay]
    by_cases hfit : newSize ≤ classSize i
    · right
      rw [if_pos hfit]
      exact ⟨s, g.ptr, _, ts, order, sh, rfl, hptr0, ⟨⟨A.toBooked.renew fun h hh he ↦ by
          rw [A.grant_eq hh hg he]
          omega, A.settled⟩, Spared.refl s _, .inl ⟨rfl, rfl, Nat.le_refl _⟩⟩,
        fun _ ↦ ⟨fun _ _ _ ↦ rfl, id, fun h ↦ absurd rfl h⟩⟩
    · rw [if_neg hfit]
      refine hmoved hle (by omega) fun hr ↦ ?_
      cases ho : g.origin with
      | some j => rw [A.usable_pooled ho, hsome j ho]; omega
      | none => simp [Routed, hk, ho] at hr
  · obtain ⟨b, hb, hn, ho⟩ : ∃ b, OwnsBlock s.mem ts g b ∧ (∀ i, ¬ Stands sh i b.addr) ∧
        g.origin = none := by
      cases ho : g.origin with
      | some j => exact absurd (isKnownPool_iff.mpr ⟨j, (A.tag_pooled hg ho).symm⟩) hk
      | none =>
        obtain ⟨b, hb, hn⟩ := A.general g hg ho
        exact ⟨b, hb, hn, rfl⟩
    have hu := A.usable_general ho hb
    rcases A.reallocBlock t hg ho hb hn hk hsize with
      ⟨-, hmove⟩ | ⟨heap, ts', order', b', hrun, A', hsp, hle, hbytes, haddr, halloc, -⟩
    · rw [hmove]
      rw [hu] at hmoved
      exact hmoved (Nat.min_le_left _ _) (Nat.min_le_right _ _) fun _ ↦ Nat.le_refl _
    · right
      refine ⟨s.setHeap heap, g.ptr, _, ts', order', sh, hrun, hptr0,
        ⟨A', hsp, .inl ⟨rfl, rfl, hle⟩⟩, fun _ ↦ ⟨fun k hk hkn ↦ hbytes k (by omega),
          fun hun d hd j ↦ ?_, fun h ↦ absurd rfl h⟩⟩
      rcases (halloc d).mp hd with rfl | ⟨hd, -⟩
      · exact haddr ▸ hn j
      · exact hun d hd j

end Accounted

end CustomAllocator
