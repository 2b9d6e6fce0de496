import CustomAllocator.Client.Ledger

/-!
# Granting memory and taking it back

`my_malloc` and `my_free` against the ledger. A successful allocation adds one entry and a
free removes one, whichever path serves it; every other entry keeps its usable bytes.
-/

namespace CustomAllocator
open CustomAllocator.Base

/-- The grants `kept` have the same usable bytes in both states. -/
def Spared (s s' : State) (kept : List Grant) : Prop :=
  ∀ g ∈ kept, usable s' g = usable s g ∧ ∀ x, InPayload s g x → s'.mem x = s.mem x

/-- No allocated block has been taken for a slot. -/
def Uncaptured (ts : List Carved) (sh : Shelves) : Prop :=
  ∀ b, Allocated ts b → ∀ i, ¬ Stands sh i b.addr

/-- What a successful allocation of `size` bytes at `p` achieves. -/
structure Granted (c : Config) (s : State) (live : List Grant) (ts : List Carved) (sh : Shelves)
    (size : Nat) (s' : State) (p : Nat) (ts' : List Carved) (order' : List Nat)
    (sh' : Shelves) : Prop where
  accounted : Accounted c s' (⟨p, size, originOf size⟩ :: live) ts' order' sh'
  spared : Spared s s' live
  uncaptured : Uncaptured ts sh → Uncaptured ts' sh'

variable {c : Config} {s s' s'' : State} {tr tr' : Transit} {live live' kept kept' : List Grant}
  {ts ts' : List Carved} {order order' : List Nat} {sh sh' : Shelves} {g : Grant}
  {i : Fin numSizeClasses}

theorem Spared.refl (s : State) (kept : List Grant) : Spared s s kept :=
  fun _ _ ↦ ⟨rfl, fun _ _ ↦ rfl⟩

theorem Spared.trans (h : Spared s s' kept) (h' : Spared s' s'' kept')
    (hsub : ∀ g ∈ kept', g ∈ kept) : Spared s s'' kept' := by
  intro g hg
  obtain ⟨hu, hm⟩ := h g (hsub g hg)
  obtain ⟨hu', hm'⟩ := h' g hg
  exact ⟨hu'.trans hu, fun x hx ↦ (hm' x (by rwa [InPayload, hu])).trans (hm x hx)⟩

theorem Spared.mono (h : Spared s s' kept) (hsub : ∀ g ∈ kept', g ∈ kept) : Spared s s' kept' :=
  fun g hg ↦ h g (hsub g hg)

namespace Booked

/-! ### The general path -/

/-- A step of the general path spares the payloads of slots and of blocks other than the one
at `a`. -/
theorem spared_general (A : Booked c s tr live ts order sh) {a : Nat}
    (A' : Booked c s' tr live' ts' order' sh) (frame : HeapFrame ts ts' a s.mem s'.mem)
    (hpools : s'.pools = s.pools) (ha : ∀ i, ¬ Stands sh i a)
    (hsub : ∀ g ∈ kept, g ∈ live ∧ g ∈ live' ∧ (g.origin = none → g.ptr ≠ a + 16)) :
    Spared s s' kept := by
  intro g hg
  obtain ⟨hg, hg', hne⟩ := hsub g hg
  cases ho : g.origin with
  | none =>
    obtain ⟨b, hb, hn⟩ := A.general g hg ho
    obtain ⟨d, hd, hn'⟩ := A'.general g hg' ho
    have hba : b.addr ≠ a := fun h ↦ hne ho (by rw [hb.ptr_eq, h])
    have hptr := hb.ptr_eq
    have hdb : d.addr = b.addr := by have := hd.ptr_eq; omega
    have hsize : d.size = b.size := by
      have h₁ := hd.headed.getSize (A'.coherent.heap.rep.placed.block_wf hd.allocated.1)
      have h₂ := hb.headed.getSize (A.coherent.heap.rep.placed.block_wf hb.allocated.1)
      rw [← h₁, ← h₂, hdb, getSize, getSize, read64_congr fun k hk ↦ frame.allocated b
        hb.allocated hba _ ⟨by omega, by unfold Block.stop; omega⟩]
    refine ⟨by rw [A'.usable_general ho hd, A.usable_general ho hb, hsize], fun x hx ↦ ?_⟩
    simp only [InPayload, A.usable_general ho hb] at hx
    exact frame.allocated b hb.allocated hba x ⟨by omega, by unfold Block.stop; omega⟩
  | some i =>
    obtain ⟨z, hz, hptr, -⟩ := A.pooled g hg i ho
    refine ⟨by rw [A'.usable_pooled ho, A.usable_pooled ho], fun x hx ↦ ?_⟩
    simp only [InPayload, A.usable_pooled ho] at hx
    exact A.coherent.slot_kept A'.coherent.heap.arenas_eq frame A'.coherent.regions hpools
      (stands_of_live hz) (fun h ↦ ha i (h ▸ stands_of_live hz)) (by omega) (by omega)

/-- No slot has the address zero. -/
theorem not_stands_zero (A : Booked c s tr live ts order sh) (i : Fin numSizeClasses) :
    ¬ Stands sh i 0 := fun h ↦ Nat.lt_irrefl 0 (A.coherent.slotAddr h).1

/-- A block added by the general path is no slot. -/
theorem added_not_stands (A : Booked c s tr live ts order sh) {size : Nat} {k : Block}
    (h : Added c s s' ts size ts' order' k) (i : Fin numSizeClasses) : ¬ Stands sh i k.addr := by
  intro hst
  have hk : Allocated ts' k := (h.allocated k).mpr (.inl rfl)
  have C' := A.coherent.general A.not_stands_zero h.heap h.frame
    (fun d hd _ ↦ (h.allocated d).mpr (.inr hd)) h.growth h.pools_eq h.caches_eq h.arenaSize_eq
  rcases A.coherent.slots i _ hst with hc | ⟨d, hd, hda⟩
  · rw [← h.pools_eq] at hc
    have := C'.carved_block hc hk.1
    unfold Block.stop at this
    omega
  · have := h.heap.rep.placed.block_eq_of_addr ((h.allocated d).mpr (.inr hd)).1 hk.1 hda
    exact h.fresh (this ▸ hd.1)

/-- A block added by the general path becomes a grant. -/
theorem grantBlock (A : Booked c s tr live ts order sh) {size : Nat} {k : Block}
    (h : Added c s s' ts size ts' order' k) (hsize : 4096 < size) :
    Booked c s' tr (⟨k.addr + 16, size, originOf size⟩ :: live) ts' order' sh ∧
      Spared s s' live ∧ (Uncaptured ts sh → Uncaptured ts' sh) := by
  have ho : originOf size = none := originOf_eq_none.mpr hsize
  have C' := A.coherent.general A.not_stands_zero h.heap h.frame
    (fun d hd _ ↦ (h.allocated d).mpr (.inr hd)) h.growth h.pools_eq h.caches_eq h.arenaSize_eq
  have hnot := A.added_not_stands h
  have hk : Allocated ts' k := (h.allocated k).mpr (.inl rfl)
  have hown : ∀ g b, OwnsBlock s.mem ts g b → OwnsBlock s'.mem ts' g b := fun g b hb ↦
    ⟨(h.allocated b).mpr (.inr hb.allocated), hb.ptr_eq, by
      have := A.coherent.heap.rep.placed.block_bounds hb.allocated.1
      exact (read64_congr fun j hj ↦ h.frame.allocated b hb.allocated (by omega) _
        ⟨by omega, by unfold Block.stop; omega⟩).trans hb.headed, hb.requested_le⟩
  have hnew : ∀ g ∈ live, g.ptr ≠ k.addr + 16 := by
    intro g hg hptr
    cases hgo : g.origin with
    | none =>
      obtain ⟨b, hb, -⟩ := A.general g hg hgo
      have hbk := h.heap.rep.placed.block_eq_of_addr (hown g b hb).allocated.1 hk.1
        (by have := hb.ptr_eq; omega)
      exact h.fresh (hbk ▸ hb.allocated.1)
    | some i =>
      obtain ⟨x, hx, hxp, -⟩ := A.pooled g hg i hgo
      exact hnot i ((show x = k.addr by omega) ▸ stands_of_live hx)
  have A' : Booked c s' tr (⟨k.addr + 16, size, originOf size⟩ :: live) ts' order' sh := by
    refine ⟨C', fun g hg hgo ↦ ?_, fun g hg i hgi ↦ ?_, fun b hb ↦ ?_, fun i x hx ↦ ?_,
      List.nodup_cons.mpr ⟨fun hm ↦ ?_, A.nodup⟩,
      fun a ha ↦ (h.occupied a ha).elim (A.occupied a) id⟩
    · rcases List.mem_cons.mp hg with rfl | hg
      · exact ⟨k, ⟨hk, rfl, h.headed, h.size_le⟩, hnot⟩
      · obtain ⟨b, hb, hn⟩ := A.general g hg hgo
        exact ⟨b, hown g b hb, hn⟩
    · rcases List.mem_cons.mp hg with rfl | hg
      · exact absurd (ho.symm.trans hgi) (by simp)
      · exact A.pooled g hg i hgi
    · rcases (h.allocated b).mp hb with rfl | hb
      · exact .inl ⟨_, List.mem_cons_self, ho, rfl⟩
      · rcases A.blocks b hb with ⟨g, hg, hgb⟩ | hst
        · exact .inl ⟨g, List.mem_cons_of_mem _ hg, hgb⟩
        · exact .inr hst
    · obtain ⟨g, hg, hgx⟩ := A.slots i x hx
      exact ⟨g, List.mem_cons_of_mem _ hg, hgx⟩
    · obtain ⟨g, hg, hgp⟩ := List.mem_map.mp hm
      exact hnew g hg hgp
  refine ⟨A', ?_, fun hu b hb j ↦ ?_⟩
  · refine A.spared_general A' h.frame h.pools_eq A.not_stands_zero fun g hg ↦
      ⟨hg, List.mem_cons_of_mem _ hg, fun _ ↦ ?_⟩
    have := (A.ptr_aligned hg).2.1
    omega
  · rcases (h.allocated b).mp hb with rfl | hb
    · exact hnot j
    · exact hu b hb j

/-! ### The pools -/

/-- A pooled step spares every payload away from the slots it newly takes in. -/
theorem slot_spares (A : Booked c s tr live ts order sh) {rs : List OsRegion} {extra : List Nat}
    (step : SlotStep i rs extra s sh s' sh') (hg : g ∈ live) {x : Nat} (hx : InPayload s g x)
    (hextra : ∀ y ∈ extra, x < y ∨ y + 16 ≤ x) : s'.mem x = s.mem x := by
  obtain ⟨r₀, hr₀, hlo, hhi⟩ := A.payload_region hg
  have hx' := hx
  simp only [InPayload] at hx'
  have hfar : ∀ r ∈ rs, x + 1 ≤ r.base ∨ r.stop ≤ x := by
    intro r hr
    have := step.regions.apart r hr r₀ hr₀
    unfold OsRegion.Apart at this
    omega
  refine step.words x (fun y hy hyx ↦ ?_) fun r hr hrx ↦ ?_
  · rcases (step.stands i y).mp hy with h | ⟨-, h | h⟩
    · have := A.payload_slot hg hx h
      omega
    · obtain ⟨r, hr, hrlo, hrhi⟩ := h.bounds
      have := hfar r hr
      omega
    · have := hextra y h
      omega
  · have := hfar r hr
    omega

/-- The header of a block that is no slot survives a pooled step. -/
theorem headed_slot (A : Booked c s tr live ts order sh) {rs : List OsRegion} {extra : List Nat}
    (step : SlotStep i rs extra s sh s' sh')
    (hextra : ∀ x ∈ extra, Stands sh i x ∨ ∃ d, Allocated ts d ∧ d.addr = x) {b : Block}
    (hb : Allocated ts b) (hh : Headed s.mem b) (hn : ¬ Stands sh' i b.addr) :
    Headed s'.mem b :=
  (read64_congr fun k hk ↦ A.coherent.spares step hextra hb.1
    ⟨by omega, by unfold Block.stop; omega⟩ fun _ h ↦ hn h.1).trans hh

/-- A pooled allocation makes no block a slot. -/
theorem stands_block (A : Booked c s tr live ts order sh) {rs : List OsRegion} {extra : List Nat}
    (step : SlotStep i rs extra s sh s' sh') {b : Block} (hb : b ∈ blocksOf ts)
    (hextra : b.addr ∉ extra) (j : Fin numSizeClasses) (h : Stands sh' j b.addr) :
    Stands sh j b.addr := by
  rcases (step.stands j b.addr).mp h with h | ⟨rfl, h | h⟩
  · exact h
  · obtain ⟨r, hr, hlo, hhi⟩ := h.bounds
    obtain ⟨a, ha, hba, hbs⟩ := A.coherent.block_region hb
    have := step.regions.apart r hr _ (A.coherent.regions.arena_mapped ha)
    simp only [OsRegion.Apart, Arena.region, OsRegion.stop] at this hhi
    unfold Block.stop at hbs
    omega
  · exact absurd h hextra

/-- A pooled step of slots that stand already keeps the ledger of blocks, and any ledger of
slots that matches the live ones. -/
theorem slotted (A : Booked c s tr live ts order sh) {rs : List OsRegion}
    (step : SlotStep i rs [] s sh s' sh') (shelved : Shelved c s' tr' sh')
    (hgen : ∀ g : Grant, g.origin = none → (g ∈ live' ↔ g ∈ live))
    (hpool : ∀ g ∈ live', ∀ j, g.origin = some j →
      ∃ x ∈ sh' (.live j), g.ptr = x + 16 ∧ g.requested ≤ classSize j)
    (hslots : ∀ j, ∀ x ∈ sh' (.live j), ∃ g ∈ live', g.origin = some j ∧ g.ptr = x + 16)
    (hnodup : (live'.map Grant.ptr).Nodup) :
    Booked c s' tr' live' ts order sh' ∧
      (∀ g ∈ live, g ∈ live' → usable s' g = usable s g ∧
        ∀ x, InPayload s g x → s'.mem x = s.mem x) ∧
      (Uncaptured ts sh → Uncaptured ts sh') := by
  have C' := A.coherent.slot step shelved (by simp)
  have hst : ∀ b ∈ blocksOf ts, ∀ j, Stands sh' j b.addr → Stands sh j b.addr := fun b hb j ↦
    A.stands_block step hb (by simp) j
  have hown : ∀ g b, OwnsBlock s.mem ts g b → (∀ j, ¬ Stands sh j b.addr) →
      OwnsBlock s'.mem ts g b := fun g b hb hn ↦ ⟨hb.allocated, hb.ptr_eq,
    A.headed_slot step (by simp) hb.allocated hb.headed fun hs ↦
      hn i (hst b hb.allocated.1 i hs), hb.requested_le⟩
  have A' : Booked c s' tr' live' ts order sh' := by
    refine ⟨C', fun g hg hgo ↦ ?_, hpool, fun b hb ↦ ?_, hslots, hnodup,
      step.general.1 ▸ A.occupied⟩
    · obtain ⟨b, hb, hn⟩ := A.general g ((hgen g hgo).mp hg) hgo
      exact ⟨b, hown g b hb hn, fun j hs ↦ hn j (hst b hb.allocated.1 j hs)⟩
    · rcases A.blocks b hb with ⟨g, hg, hgo, hgb⟩ | ⟨j, hs⟩
      · exact .inl ⟨g, (hgen g hgo).mpr hg, hgo, hgb⟩
      · exact .inr ⟨j, (step.stands j _).mpr (.inl hs)⟩
  refine ⟨A', fun g hg hg' ↦ ⟨?_, fun y hy ↦ A.slot_spares step hg hy (by simp)⟩,
    fun hu b hb j hs ↦ hu b hb j (hst b hb.1 j hs)⟩
  cases hgo : g.origin with
  | none =>
    obtain ⟨b, hb, hn⟩ := A.general g hg hgo
    rw [A.usable_general hgo hb, A'.usable_general hgo (hown g b hb hn)]
  | some j => rw [A.usable_pooled hgo, A'.usable_pooled hgo]

/-- A slot handed out becomes a grant. -/
theorem grantSlot (A : Booked c s tr live ts order sh) {size x : Nat} {rs : List OsRegion}
    (step : SlotStep i rs [] s sh s' sh') (shelved : Shelved c s' tr' sh')
    (hlive : sh' (.live i) = x :: sh (.live i))
    (hothers : ∀ j, j ≠ i → sh' (.live j) = sh (.live j)) (ho : originOf size = some i) :
    Booked c s' tr' (⟨x + 16, size, originOf size⟩ :: live) ts order sh' ∧
      Spared s s' live ∧ (Uncaptured ts sh → Uncaptured ts sh') := by
  have hmem : ∀ j y, y ∈ sh' (.live j) ↔ (j = i ∧ y = x) ∨ y ∈ sh (.live j) := by
    intro j y
    by_cases hj : j = i
    · subst hj
      simp [hlive]
    · simp [hothers j hj, hj]
  have hst : ∀ b ∈ blocksOf ts, ∀ j, Stands sh' j b.addr → Stands sh j b.addr := fun b hb j ↦
    A.stands_block step hb (by simp) j
  have hnew : ∀ g ∈ live, g.ptr ≠ x + 16 := by
    intro g hg hptr
    cases hgo : g.origin with
    | none =>
      obtain ⟨b, hb, hn⟩ := A.general g hg hgo
      have hbx : b.addr = x := by have := hb.ptr_eq; omega
      exact hn i (hst b hb.allocated.1 i
        (hbx ▸ stands_of_live ((hmem i x).mpr (.inl ⟨rfl, rfl⟩))))
    | some j =>
      obtain ⟨y, hy, hyp, -⟩ := A.pooled g hg j hgo
      obtain rfl : y = x := by omega
      have hij := shelved.apart _ _ y ((hmem i y).mpr (.inl ⟨rfl, rfl⟩)) ((hmem j y).mpr (.inr hy))
      have hnd := (shelved.linked (.live i)).1
      rw [hlive] at hnd
      exact (List.nodup_cons.mp hnd).1 (by simpa [hij] using hy)
  have hgen : ∀ g : Grant, g.origin = none →
      (g ∈ (⟨x + 16, size, originOf size⟩ :: live : List Grant) ↔ g ∈ live) := by
    intro g hgo
    rw [List.mem_cons]
    refine ⟨fun h ↦ h.resolve_left ?_, .inr⟩
    rintro rfl
    exact absurd (ho.symm.trans hgo) (by simp)
  have hpool : ∀ g ∈ (⟨x + 16, size, originOf size⟩ :: live : List Grant), ∀ j,
      g.origin = some j → ∃ y ∈ sh' (.live j), g.ptr = y + 16 ∧ g.requested ≤ classSize j := by
    intro g hg j hgj
    rcases List.mem_cons.mp hg with rfl | hg
    · obtain rfl : i = j := Option.some.inj (ho.symm.trans hgj)
      exact ⟨x, (hmem i x).mpr (.inl ⟨rfl, rfl⟩), rfl, originOf_eq_some ho⟩
    · obtain ⟨y, hy, hyp⟩ := A.pooled g hg j hgj
      exact ⟨y, (hmem j y).mpr (.inr hy), hyp⟩
  obtain ⟨A', hsp, hu⟩ := A.slotted step shelved hgen hpool
    (fun j y hy ↦ by
      rcases (hmem j y).mp hy with ⟨rfl, rfl⟩ | hy
      · exact ⟨_, List.mem_cons_self, ho, rfl⟩
      · obtain ⟨g, hg, hgy⟩ := A.slots j y hy
        exact ⟨g, List.mem_cons_of_mem _ hg, hgy⟩)
    (List.nodup_cons.mpr ⟨fun hm ↦ by
      obtain ⟨g, hg, hgp⟩ := List.mem_map.mp hm
      exact hnew g hg hgp, A.nodup⟩)
  exact ⟨A', fun g hg ↦ hsp g hg (List.mem_cons_of_mem _ hg), hu⟩

/-- Slots that move between the pool, caches and batches leave the ledger as it is. -/
theorem shuffle (A : Booked c s tr live ts order sh) {rs : List OsRegion}
    (step : SlotStep i rs [] s sh s' sh') (shelved : Shelved c s' tr' sh')
    (hlive : ∀ j, sh' (.live j) = sh (.live j)) :
    Booked c s' tr' live ts order sh' ∧ Spared s s' live ∧
      (Uncaptured ts sh → Uncaptured ts sh') := by
  obtain ⟨A', hsp, hu⟩ := A.slotted step shelved (fun _ _ ↦ Iff.rfl)
    (fun g hg j hgj ↦ by rw [hlive]; exact A.pooled g hg j hgj)
    (fun j x hx ↦ A.slots j x (hlive j ▸ hx)) A.nodup
  exact ⟨A', fun g hg ↦ hsp g hg hg, hu⟩

end Booked

namespace Accounted

/-! ### `my_malloc` -/

/-- `my_malloc` of more than the largest size class is served by the general path. -/
theorem mallocBlock (A : Accounted c s live ts order sh) (t : Tid) {size : Nat}
    (hlo : 4096 < size) (hsize : size + 47 < 2 ^ 64) :
    (∃ os, myMalloc c s t size = .ok ({ s with os := os }, 0) ∧ os.mapped = s.os.mapped ∧
      Unserved c s order (alignUp size) os) ∨
    ∃ s' ts' order' k, myMalloc c s t size = .ok (s', k.addr + 16) ∧
      Granted c s live ts sh size s' (k.addr + 16) ts' order' sh ∧
      Added c s s' ts size ts' order' k ∧
      Served c s ts order (alignUp size) s' ts' order' k := by
  rw [myMalloc_eq, originOf_eq_none.mpr hlo]
  rcases A.coherent.heap.mallocGeneral c (fun a ha ↦ A.coherent.regions.arena_mapped ha)
    A.coherent.arenaSize_lt hlo hsize with
    h | ⟨s', ts', order', k, hrun, hadd, hserved⟩
  · exact .inl h
  · obtain ⟨B, hsp, hu⟩ := A.toBooked.grantBlock hadd hlo
    have hset : Settled c s' sh := ⟨B.coherent.shelved, A.settled.idle, A.settled.cap⟩
    exact .inr ⟨s', ts', order', k, hrun, ⟨⟨B, hset⟩, hsp, hu⟩, hadd, hserved⟩

/-- `my_malloc` of at most `SIZE_MAX - 47` bytes either returns null and changes only what the
kernel will answer next, or grants the request. -/
theorem malloc (A : Accounted c s live ts order sh) (t : Tid) {size : Nat}
    (hsize : size + 47 < 2 ^ 64) :
    (∃ os, myMalloc c s t size = .ok ({ s with os := os }, 0) ∧ os.mapped = s.os.mapped) ∨
    ∃ s' p ts' order' sh', myMalloc c s t size = .ok (s', p) ∧
      Granted c s live ts sh size s' p ts' order' sh' := by
  cases ho : originOf size with
  | none =>
    rcases A.mallocBlock t (originOf_eq_none.mp ho) hsize with
      ⟨os, hrun, hos, -⟩ | ⟨s', ts', order', k, hrun, hgrant, -⟩
    · exact .inl ⟨os, hrun, hos⟩
    · exact .inr ⟨s', k.addr + 16, ts', order', sh, hrun, hgrant⟩
  | some i =>
    rw [myMalloc_eq, ho]
    rcases A.settled.mallocPooled t i with h | ⟨s', sh', rs, x, hrun, hout⟩
    · exact .inl h
    · obtain ⟨B, hsp, hu⟩ := A.toBooked.grantSlot hout.step hout.settled.shelved hout.live
        hout.others ho
      exact .inr ⟨s', x + 16, ts, order, sh', hrun, ⟨B, hout.settled⟩, hsp, hu⟩

end Accounted

end CustomAllocator
