import CustomAllocator.Client.Grants

/-!
# Taking memory back

`my_free` against the ledger. The word before a pointer decides between the pools and the
general path. When it sends a general block to a pool, the block joins the slots of that pool
and stays allocated; the ledger is accounted for all the same.
-/

namespace CustomAllocator
open CustomAllocator.Base

/-- The ledger without the entry of pointer `p`. -/
def without (live : List Grant) (p : Nat) : List Grant := live.filter fun g ↦ decide (g.ptr ≠ p)

@[simp] theorem mem_without {live : List Grant} {p : Nat} {g : Grant} :
    g ∈ without live p ↔ g ∈ live ∧ g.ptr ≠ p := by simp [without]

/-- The word before the pointer names a pool exactly when a pool handed the pointer out. -/
def Routed (c : Config) (s : State) (g : Grant) : Prop :=
  isKnownPool c (tagOf s.mem g.ptr) = g.origin.isSome

instance (c : Config) (s : State) (g : Grant) : Decidable (Routed c s g) :=
  inferInstanceAs (Decidable (_ = _))

/-- The storage of a returned grant of `u` usable bytes is at rest: its slot is in its pool or
in a cache of its class, its block is part of a free block. -/
def Recovered (ts : List Carved) (sh : Shelves) (g : Grant) (u : Nat) : Prop :=
  match g.origin with
  | some i => g.ptr - 16 ∈ sh (.pool i) ∨ ∃ t, g.ptr - 16 ∈ sh (.cache t i)
  | none => ∃ d ∈ blocksOf ts, d.free = true ∧ d.addr + 16 ≤ g.ptr ∧ g.ptr + u + 16 ≤ d.stop

/-- What taking back the pointer `p` achieves. -/
structure Returned (c : Config) (s : State) (live : List Grant) (p : Nat) (s' : State)
    (ts' : List Carved) (order' : List Nat) (sh' : Shelves) : Prop where
  accounted : Accounted c s' (without live p) ts' order' sh'
  spared : Spared s s' (without live p)
  os_eq : s'.os.mapped = s.os.mapped

/-! ### Reading the tag -/

/-- `is_known_pool` accepts exactly the addresses of the nine pools. -/
theorem isKnownPool_iff {c : Config} {v : Nat} :
    isKnownPool c v = true ↔ ∃ i, c.poolAddr i = v := by
  simp [isKnownPool]

/-- The pool found at a pool's address is that pool. -/
theorem poolAt_poolAddr (c : Config) (i : Fin numSizeClasses) :
    poolAt c (c.poolAddr i) = .ok i := by
  have hi : poolIndexOf c (c.poolAddr i) = i := by
    unfold poolIndexOf Config.poolAddr
    rw [Nat.add_sub_cancel_left, Nat.mul_div_cancel _ c.poolSize_pos]
  unfold poolAt
  rw [dif_pos (by rw [hi]; exact i.isLt)]
  simp only [hi]

theorem tagOf_eq {m : Mem} {x : Nat} (h : x + 16 < 2 ^ 64) : tagOf m (x + 16) = read64 m x := by
  unfold tagOf
  rw [sub64_of_le (by unfold sizeofPoolSlotHeader; omega) h]
  simp

namespace Booked

variable {c : Config} {s s' : State} {tr tr' : Transit} {live : List Grant} {ts ts' : List Carved}
  {order order' : List Nat} {sh sh' : Shelves} {g : Grant} {i : Fin numSizeClasses}

/-- The word before a pooled pointer is its pool's address. -/
theorem tag_pooled (A : Booked c s tr live ts order sh) (hg : g ∈ live) (ho : g.origin = some i) :
    tagOf s.mem g.ptr = c.poolAddr i := by
  obtain ⟨x, hx, hptr, -⟩ := A.pooled g hg i ho
  rw [hptr, tagOf_eq (A.coherent.slotAddr (stands_of_live hx)).2.2]
  exact (A.coherent.shelved.linked (.live i)).2 x hx

/-- The word before a general pointer is the payload size of its block. -/
theorem tag_general (A : Booked c s tr live ts order sh) {b : Block}
    (hb : OwnsBlock s.mem ts g b) : tagOf s.mem g.ptr = b.size := by
  have := A.coherent.heap.rep.placed.block_bounds hb.allocated.1
  rw [hb.ptr_eq, tagOf_eq (by omega), hb.headed, headerWord, hb.allocated.2]
  simp

/-- A pooled pointer is freed into its pool. -/
theorem myFree_pooled (A : Booked c s tr live ts order sh) (t : Tid) (hg : g ∈ live)
    (ho : g.origin = some i) : myFree c s t g.ptr = freePooled c s t i g.ptr := by
  obtain ⟨x, -, hptr, -⟩ := A.pooled g hg i ho
  unfold myFree
  rw [if_neg (by omega), A.tag_pooled hg ho, if_pos (isKnownPool_iff.mpr ⟨i, rfl⟩), poolAt_poolAddr,
    ok_bind]

/-- A pooled pointer is always routed to its pool. -/
theorem routed_pooled (A : Booked c s tr live ts order sh) (hg : g ∈ live)
    (ho : g.origin = some i) : Routed c s g := by
  unfold Routed
  rw [A.tag_pooled hg ho, ho, isKnownPool_iff.mpr ⟨i, rfl⟩]
  rfl

/-- Routing depends on the usable size alone. -/
theorem routed_iff (A : Booked c s tr live ts order sh) (hg : g ∈ live) :
    Routed c s g ↔ (g.origin = none → isKnownPool c (usable s g) = false) := by
  cases ho : g.origin with
  | some i => simpa using A.routed_pooled hg ho
  | none =>
    obtain ⟨b, hb, -⟩ := A.general g hg ho
    rw [Routed, A.tag_general hb, A.usable_general ho hb, ho]
    simp

theorem nodup_without (A : Booked c s tr live ts order sh) (p : Nat) :
    ((without live p).map Grant.ptr).Nodup :=
  A.nodup.sublist (List.filter_sublist.map _)

/-! ### Back to the general path -/

/-- Freeing a block through the general path. -/
theorem returnBlock (A : Booked c s tr live ts order sh) {b : Block}
    (hb : OwnsBlock s.mem ts g b) (hn : ∀ i, ¬ Stands sh i b.addr) :
    ∃ heap ts' order' k, freeGeneral c s.arenas s.mem s.freeHead g.ptr = .ok heap ∧
      Booked c (s.setHeap heap) tr (without live g.ptr) ts' order' sh ∧
      Spared s (s.setHeap heap) (without live g.ptr) ∧ Freed ts order b ts' order' k := by
  obtain ⟨m', head', ts', order', k, hrun, H', hframe, F⟩ :=
    A.coherent.heap.freeGeneral c hb.allocated hb.headed
  have halloc := F.allocated
  have P := A.coherent.heap.rep.placed
  have hname : ∀ d, Allocated ts d → d ≠ b → d.addr ≠ b.addr := fun d hd hne h ↦
    hne (P.block_eq_of_addr hd.1 hb.allocated.1 h)
  have C' : Coherent c (s.setHeap (m', head')) tr ts' order' sh :=
    A.coherent.general hn H' hframe
      (fun d hd hne ↦ (halloc d).mpr ⟨hd, fun h ↦ hne (h ▸ rfl)⟩) (.inl ⟨rfl, rfl⟩) rfl rfl rfl
  have hptr := hb.ptr_eq
  have A' : Booked c (s.setHeap (m', head')) tr (without live g.ptr) ts' order' sh := by
    refine ⟨C', fun h hh ho ↦ ?_, fun h hh j hj ↦ ?_, fun d hd ↦ ?_, fun j x hx ↦ ?_,
      A.nodup_without _, A.occupied⟩
    · obtain ⟨hh, hne⟩ := mem_without.mp hh
      obtain ⟨d, hd, hdn⟩ := A.general h hh ho
      have hdb : d ≠ b := fun he ↦ hne (by rw [hd.ptr_eq, he, hptr])
      refine ⟨d, ⟨(halloc d).mpr ⟨hd.allocated, hdb⟩, hd.ptr_eq, ?_, hd.requested_le⟩, hdn⟩
      exact (read64_congr fun k hk ↦ hframe.allocated d hd.allocated (hname d hd.allocated hdb) _
        ⟨by omega, by unfold Block.stop; omega⟩).trans hd.headed
    · exact A.pooled h (mem_without.mp hh).1 j hj
    · obtain ⟨hd, hdb⟩ := (halloc d).mp hd
      rcases A.blocks d hd with ⟨h, hh, ho, hp⟩ | hs
      · refine .inl ⟨h, mem_without.mpr ⟨hh, fun he ↦ hname d hd hdb ?_⟩, ho, hp⟩
        omega
      · exact .inr hs
    · obtain ⟨h, hh, ho, hp⟩ := A.slots j x hx
      refine ⟨h, mem_without.mpr ⟨hh, fun he ↦ hn j ?_⟩, ho, hp⟩
      exact (show x = b.addr by omega) ▸ stands_of_live hx
  refine ⟨(m', head'), ts', order', k, hptr ▸ hrun, A', ?_, F⟩
  exact A.spared_general A' hframe rfl hn fun h hh ↦
    ⟨(mem_without.mp hh).1, hh, fun _ he ↦ (mem_without.mp hh).2 (he.trans hptr.symm)⟩

/-! ### Back to a pool -/

/-- Taking a pointer back as a slot of class `i`: a live slot, or a block taken for one. -/
theorem returnSlot (A : Booked c s tr live ts order sh) {x : Nat}
    (hptr : g.ptr = x + 16) (hcap : (∃ d, Allocated ts d ∧ d.addr = x) ∨ Stands sh i x)
    (step : SlotStep i [] [x] s sh s' sh') (shelved : Shelved c s' tr' sh')
    (herase : sh' (.live i) = (sh (.live i)).erase x)
    (hothers : ∀ j, j ≠ i → sh' (.live j) = sh (.live j)) (hspot : ∀ S, x ∈ sh S → S = .live i) :
    Booked c s' tr' (without live g.ptr) ts order sh' ∧ Spared s s' (without live g.ptr) := by
  have hextra : ∀ y ∈ [x], Stands sh i y ∨ ∃ d, Allocated ts d ∧ d.addr = y := by
    intro y hy
    rw [List.mem_singleton.mp hy]
    exact hcap.symm
  have C' := A.coherent.slot step shelved hextra
  have hst : ∀ b ∈ blocksOf ts, b.addr ≠ x → ∀ j, Stands sh' j b.addr → Stands sh j b.addr :=
    fun b hb hbx j ↦ A.stands_block step hb (by simpa using hbx) j
  have hx' : Stands sh' i x := (step.stands i x).mpr (.inr ⟨rfl, .inr (by simp)⟩)
  have hlive : ∀ j y, y ∈ sh' (.live j) ↔ y ∈ sh (.live j) ∧ y ≠ x := by
    intro j y
    by_cases hj : j = i
    · subst hj
      rw [herase, (A.coherent.shelved.linked (.live j)).1.mem_erase_iff]
      exact and_comm
    · rw [hothers j hj]
      refine ⟨fun hy ↦ ⟨hy, fun he ↦ hj ?_⟩, And.left⟩
      have := hspot _ (he ▸ hy)
      simpa using this
  have hown : ∀ d g', OwnsBlock s.mem ts g' d → g'.ptr ≠ g.ptr → (∀ j, ¬ Stands sh j d.addr) →
      OwnsBlock s'.mem ts g' d ∧ ∀ j, ¬ Stands sh' j d.addr := by
    intro d g' hd hne hdn
    have hdx : d.addr ≠ x := fun he ↦ hne (by rw [hd.ptr_eq, hptr, he])
    have hdn' : ∀ j, ¬ Stands sh' j d.addr := fun j hs ↦ hdn j (hst d hd.allocated.1 hdx j hs)
    exact ⟨⟨hd.allocated, hd.ptr_eq, A.headed_slot step hextra hd.allocated hd.headed (hdn' i),
      hd.requested_le⟩, hdn'⟩
  have A' : Booked c s' tr' (without live g.ptr) ts order sh' := by
    refine ⟨C', fun g' hg' ho ↦ ?_, fun g' hg' j hj ↦ ?_, fun d hd ↦ ?_, fun j y hy ↦ ?_,
      A.nodup_without _, step.general.1 ▸ A.occupied⟩
    · obtain ⟨hg', hne⟩ := mem_without.mp hg'
      obtain ⟨d, hd, hdn⟩ := A.general g' hg' ho
      exact ⟨d, hown d g' hd hne hdn⟩
    · obtain ⟨hg', hne⟩ := mem_without.mp hg'
      obtain ⟨y, hy, hyp, hle⟩ := A.pooled g' hg' j hj
      exact ⟨y, (hlive j y).mpr ⟨hy, by omega⟩, hyp, hle⟩
    · by_cases hdx : d.addr = x
      · exact .inr ⟨i, hdx ▸ hx'⟩
      rcases A.blocks d hd with ⟨g', hg', ho, hp⟩ | ⟨j, hs⟩
      · exact .inl ⟨g', mem_without.mpr ⟨hg', by omega⟩, ho, hp⟩
      · exact .inr ⟨j, (step.stands j _).mpr (.inl hs)⟩
    · obtain ⟨hy, hyx⟩ := (hlive j y).mp hy
      obtain ⟨g', hg', ho, hp⟩ := A.slots j y hy
      exact ⟨g', mem_without.mpr ⟨hg', by omega⟩, ho, hp⟩
  refine ⟨A', fun g' hg' ↦ ⟨?_, fun z hz ↦ ?_⟩⟩
  · obtain ⟨hgl, hne⟩ := mem_without.mp hg'
    cases ho : g'.origin with
    | none =>
      obtain ⟨d, hd, hdn⟩ := A.general g' hgl ho
      rw [A.usable_general ho hd, A'.usable_general ho (hown d g' hd hne hdn).1]
    | some j => rw [A.usable_pooled ho, A'.usable_pooled ho]
  · obtain ⟨hgl, hne⟩ := mem_without.mp hg'
    refine A.slot_spares step hgl hz fun y hy ↦ ?_
    rw [List.mem_singleton.mp hy]
    rcases hcap with ⟨d, hd, rfl⟩ | hs
    · by_cases hzd : d.Covers z
      · have := A.payload_block hgl hz hd.1 hzd
        omega
      · have := A.coherent.heap.large d hd.1 hd.2
        unfold Block.Covers Block.stop at hzd
        omega
    · exact A.payload_slot hgl hz hs

end Booked

namespace Accounted

variable {c : Config} {s : State} {live : List Grant} {ts : List Carved} {order : List Nat}
  {sh : Shelves} {g : Grant}

/-! ### `my_free` -/

/-- `my_free` of a correctly routed general pointer merges its block into one free block. -/
theorem freeBlock (A : Accounted c s live ts order sh) (t : Tid) (hg : g ∈ live)
    {b : Block} (hb : OwnsBlock s.mem ts g b) (hn : ∀ i, ¬ Stands sh i b.addr)
    (hk : ¬ isKnownPool c b.size = true) :
    ∃ heap ts' order' k, myFree c s t g.ptr = .ok (s.setHeap heap) ∧
      Returned c s live g.ptr (s.setHeap heap) ts' order' sh ∧ Freed ts order b ts' order' k := by
  obtain ⟨heap, ts', order', k, hrun, B, hsp, F⟩ := A.returnBlock hb hn
  refine ⟨heap, ts', order', k, ?_,
    ⟨⟨B, B.coherent.shelved, A.settled.idle, A.settled.cap⟩, hsp, rfl⟩, F⟩
  have hal := A.ptr_aligned hg
  unfold myFree
  rw [if_neg (by omega), A.tag_general hb, if_neg hk, hrun, ok_bind]

/-- `my_free` of a live pointer completes and takes the entry off the ledger. When the pointer
is routed to where it came from, its storage is at rest there and no block is taken for a
slot. -/
theorem free (A : Accounted c s live ts order sh) (t : Tid) (hg : g ∈ live) :
    ∃ s' ts' order' sh', myFree c s t g.ptr = .ok s' ∧
      Returned c s live g.ptr s' ts' order' sh' ∧
      (Routed c s g → (Uncaptured ts sh → Uncaptured ts' sh') ∧
        Recovered ts' sh' g (usable s g)) := by
  have hal := A.ptr_aligned hg
  have hreturned : ∀ {i x s' sh'}, g.ptr = x + 16 →
      ((∃ d, Allocated ts d ∧ d.addr = x) ∨ Stands sh i x) → TakenBack c s sh i x s' sh' →
      (∀ S, x ∈ sh S → S = .live i) → Returned c s live g.ptr s' ts order sh' := by
    intro i x s' sh' hptr hcap h hspot
    obtain ⟨B, hsp⟩ := A.returnSlot hptr hcap h.step h.settled.shelved h.live h.others hspot
    exact ⟨⟨B, h.settled⟩, hsp, by simpa using h.step.regions.mapped_eq⟩
  cases ho : g.origin with
  | some i =>
    obtain ⟨x, hx, hptr, -⟩ := A.pooled g hg i ho
    have hspot : ∀ S, x ∈ sh S → S = .live i := fun S hS ↦ A.coherent.shelved.apart _ _ x hS hx
    obtain ⟨s', sh', hrun, hback⟩ := A.settled.freePooled t (A.coherent.shelved.addr _ x hx)
      (A.coherent.shelved.mapped _ x hx) hspot
    rw [A.myFree_pooled t hg ho]
    refine ⟨s', ts, order, sh', hptr ▸ hrun, hreturned hptr (.inr (stands_of_live hx)) hback hspot,
      fun _ ↦ ⟨fun hu b hb j hs ↦ ?_, ?_⟩⟩
    · rcases (hback.step.stands j _).mp hs with h | ⟨rfl, h | h⟩
      · exact hu b hb j h
      · exact absurd h (by simp [CarvedFrom])
      · exact hu b hb j (List.mem_singleton.mp h ▸ stands_of_live hx)
    · obtain ⟨S, hS, hxS⟩ := (hback.step.stands i x).mpr (.inl (stands_of_live hx))
      have hlive : x ∉ sh' (.live i) := by
        rw [hback.live, (A.coherent.shelved.linked (.live i)).1.mem_erase_iff]
        exact fun h ↦ h.1 rfl
      simp only [Recovered, ho, hptr, Nat.add_sub_cancel]
      cases S with
      | pool j => exact .inl (hS ▸ hxS)
      | cache u j => exact .inr ⟨u, hS ▸ hxS⟩
      | transit u j => simp [hback.settled.idle] at hxS
      | live j => exact absurd (hS ▸ hxS) hlive
  | none =>
    obtain ⟨b, hb, hn⟩ := A.general g hg ho
    have hbd := A.coherent.heap.rep.placed.block_bounds hb.allocated.1
    have hbw := A.coherent.heap.rep.placed.block_wf hb.allocated.1
    unfold myFree
    rw [if_neg (by omega), A.tag_general hb]
    by_cases hk : isKnownPool c b.size = true
    · -- The block's size is a pool's address, so the block is pushed as one of its slots.
      obtain ⟨i, hi⟩ := isKnownPool_iff.mp hk
      have hspot : ∀ S, b.addr ∈ sh S → S = .live i := fun S hS ↦ absurd ⟨S, rfl, hS⟩ (hn S.cls)
      have hin : InMapped s.os.mapped b.addr := by
        obtain ⟨a, ha, hlo, hhi⟩ := A.coherent.block_region hb.allocated.1
        refine ⟨a.region, A.coherent.regions.arena_mapped ha, hlo, ?_⟩
        simp only [Block.stop, OsRegion.stop, Arena.region] at hhi ⊢
        omega
      obtain ⟨s', sh', hrun, hback⟩ := A.settled.freePooled t
        ⟨hbd.1, hbw.addr_aligned, by omega⟩ hin hspot
      rw [if_pos hk, ← hi, poolAt_poolAddr, ok_bind]
      refine ⟨s', ts, order, sh', hb.ptr_eq ▸ hrun,
        hreturned hb.ptr_eq (.inl ⟨b, hb.allocated, rfl⟩) hback hspot, fun hr ↦ ?_⟩
      unfold Routed at hr
      rw [A.tag_general hb, hk, ho] at hr
      exact absurd hr (by decide)
    · obtain ⟨heap, ts', order', k, hrun, hret, F⟩ := A.freeBlock t hg hb hn hk
      refine ⟨s.setHeap heap, ts', order', sh, ?_, hret,
        fun _ ↦ ⟨fun hu d hd j ↦ hu d ((F.allocated d).mp hd).1 j, ?_⟩⟩
      · rwa [myFree, if_neg (by omega), A.tag_general hb] at hrun
      · obtain ⟨hlo, hhi⟩ := F.includes
        simp only [Recovered, ho, A.usable_general ho hb, hb.ptr_eq]
        exact ⟨k, F.mem, F.free, by omega, by unfold Block.stop at hhi ⊢; omega⟩

end Accounted

end CustomAllocator
