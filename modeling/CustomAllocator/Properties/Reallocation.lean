import CustomAllocator.Properties.Sizes

/-!
# The reallocation contract

What `my_realloc` promises: on success the new size is provided, the contents are kept and
the old storage is returned once; on failure nothing changes. The contract holds for sizes up
to `SIZE_MAX - 47`. Near the top of the range `my_realloc` rounds the size on its own, and the
last fifteen sizes round to zero, which every block already fits.
-/

namespace CustomAllocator
open CustomAllocator.Base

/-- The storage of a returned grant of `u` usable bytes is at rest exactly once: its slot in one
spot of its class and once there, its block inside one free block that is listed once. -/
def RecoveredOnce (ts : List Carved) (order : List Nat) (sh : Shelves) (g : Grant) (u : Nat) :
    Prop :=
  match g.origin with
  | some i => ∃ S, (S = .pool i ∨ ∃ t, S = .cache t i) ∧ (sh S).count (g.ptr - 16) = 1 ∧
      ∀ S', S' ≠ S → g.ptr - 16 ∉ sh S'
  | none => ∃ d ∈ blocksOf ts, d.free = true ∧ d.addr + 16 ≤ g.ptr ∧ g.ptr + u + 16 ≤ d.stop ∧
      order.count d.addr = 1 ∧ ∀ e ∈ blocksOf ts, e.Covers g.ptr → e = d

/-- The grant `g` has the same usable bytes in both states. -/
def Untouched (s s' : State) (g : Grant) : Prop :=
  usable s' g = usable s g ∧ ∀ x, InPayload s g x → s'.mem x = s.mem x

/-- The contract of a reallocation of `g` to `newSize` that returns `q`. -/
structure ReallocContract (c : Config) (t : Tid) (w : Session) (g : Grant) (newSize : Nat)
    (s' : State) (q : Nat) : Prop where
  reachable : Reachable c t anyCall ⟨s', ledgerAfter w.live (.realloc g.ptr newSize) q⟩
  failed : q = 0 → g ∈ ledgerAfter w.live (.realloc g.ptr newSize) q ∧ Untouched w.state s' g
  provided : q ≠ 0 → ∃ g' ∈ ledgerAfter w.live (.realloc g.ptr newSize) q,
    g'.ptr = q ∧ newSize ≤ usable s' g'
  kept : q ≠ 0 → ∀ k, k < min (usable w.state g) newSize → s'.mem (q + k) = w.state.mem (g.ptr + k)
  returned : q ≠ 0 → q ≠ g.ptr →
    (∀ g' ∈ ledgerAfter w.live (.realloc g.ptr newSize) q, g'.ptr ≠ g.ptr) ∧
    ∃ ts order sh, Accounted c s' (ledgerAfter w.live (.realloc g.ptr newSize) q) ts order sh ∧
      RecoveredOnce ts order sh g (usable w.state g)
  others : ∀ h ∈ w.live, h ≠ g → h ∈ ledgerAfter w.live (.realloc g.ptr newSize) q ∧
    Untouched w.state s' h

variable {c : Config} {s s' : State} {live : List Grant} {ts : List Carved} {order : List Nat}
  {sh : Shelves} {g : Grant} {t : Tid} {w : Session} {newSize : Nat}

namespace Accounted

/-- Storage at rest is at rest once. -/
theorem recovered_once (A : Accounted c s live ts order sh) {u : Nat} (h : Recovered ts sh g u) :
    RecoveredOnce ts order sh g u := by
  have C := A.coherent
  unfold Recovered at h
  unfold RecoveredOnce
  cases ho : g.origin with
  | some i =>
    rw [ho] at h
    have hone : ∀ S : Spot, (sh S).Nodup := by
      intro S
      have hl := C.shelved.linked S
      cases S with
      | pool j => exact Chain.nodup hl
      | cache u j => exact Chain.nodup hl.1
      | transit u j => exact Chain.nodup hl
      | live j => exact hl.1
    obtain ⟨S, hS, hx⟩ : ∃ S, (S = .pool i ∨ ∃ t, S = .cache t i) ∧ g.ptr - 16 ∈ sh S := by
      rcases h with h | ⟨t, h⟩
      · exact ⟨_, .inl rfl, h⟩
      · exact ⟨_, .inr ⟨t, rfl⟩, h⟩
    exact ⟨S, hS, List.count_eq_one_of_mem (hone S) hx, fun S' hne hx' ↦
      hne (C.shelved.apart _ _ _ hx' hx)⟩
  | none =>
    rw [ho] at h
    obtain ⟨d, hd, hf, hlo, hhi⟩ := h
    refine ⟨d, hd, hf, hlo, hhi, List.count_eq_one_of_mem C.heap.rep.links.chain.nodup
      (C.heap.complete d hd hf), fun e he hcov ↦ ?_⟩
    refine C.heap.rep.placed.block_eq he hd hcov ⟨by omega, by omega⟩

end Accounted

/-- Reallocation of a correctly routed live pointer keeps its contract. -/
theorem realloc_contract (h : Reachable c t anyCall w) (hg : g ∈ w.live)
    (hr : Routed c w.state g) (hn : newSize ≤ sizeMax - 47) :
    ∃ s' q, myRealloc c w.state t g.ptr newSize = .ok (s', q) ∧
      ReallocContract c t w g newSize s' q := by
  obtain ⟨ts, order, sh, A, -⟩ := h.accounted
  have hal := A.ptr_aligned hg
  have hptr : g.ptr ≠ 0 := by omega
  have hreach : ∀ s' q, myRealloc c w.state t g.ptr newSize = .ok (s', q) →
      Reachable c t anyCall ⟨s', ledgerAfter w.live (.realloc g.ptr newSize) q⟩ := by
    intro s' q hrun
    obtain ⟨mem, offers, arenaSize, hsize, hsteps⟩ := h
    exact ⟨mem, offers, arenaSize, hsize, hsteps.tail
      (.call (.realloc g.ptr newSize) (.inr ⟨g, hg, rfl⟩) hn trivial hrun)⟩
  rcases A.realloc t hg (show newSize + 47 < 2 ^ 64 by unfold sizeMax at hn; omega) with
    ⟨os, hrun, hos⟩ | ⟨s', q, live', ts', order', sh', hrun, hq, R, hpres⟩
  · refine ⟨{ w.state with os := os }, 0, hrun, hreach _ _ hrun, fun _ ↦ ⟨by simpa [ledgerAfter],
      rfl, fun _ _ ↦ rfl⟩, fun h ↦ absurd rfl h, fun h ↦ absurd rfl h, fun h ↦ absurd rfl h,
      fun h hh _ ↦ ⟨by simpa [ledgerAfter], rfl, fun _ _ ↦ rfl⟩⟩
  · have P := hpres hr
    have hledger : ledgerAfter w.live (.realloc g.ptr newSize) q = live' := by
      simp only [ledgerAfter, if_neg hq, if_neg hptr]
      rcases R.ledger with ⟨rfl, hl, -⟩ | ⟨hfresh, hl⟩
      · rw [if_pos rfl, hl]
      · rw [if_neg fun h ↦ hfresh g hg h.symm, hl]
    have hothers : ∀ h ∈ w.live, h ≠ g → h ∈ live' ∧ h.ptr ≠ g.ptr := by
      intro h hh hne
      have hp : h.ptr ≠ g.ptr := fun he ↦ hne (A.grant_eq hh hg he)
      refine ⟨?_, hp⟩
      rcases R.ledger with ⟨-, rfl, -⟩ | ⟨-, rfl⟩
      · exact mem_renewed.mpr ⟨h, hh, .inr ⟨hp, rfl⟩⟩
      · exact List.mem_cons_of_mem _ (mem_without.mpr ⟨hh, hp⟩)
    refine ⟨s', q, hrun, hreach s' q hrun, fun h0 ↦ absurd h0 hq, fun _ ↦ ?_,
      fun _ k hk ↦ P.bytes k (by omega) (by omega), fun _ hqp ↦ ?_, fun h hh hne ↦ ?_⟩
    · rw [hledger]
      rcases R.ledger with ⟨rfl, rfl, -⟩ | ⟨-, rfl⟩
      · have hmem : ({ g with requested := newSize } : Grant) ∈ renewed w.live g.ptr newSize :=
          mem_renewed.mpr ⟨g, hg, .inl ⟨rfl, rfl⟩⟩
        exact ⟨_, hmem, rfl, R.accounted.requested_le hmem⟩
      · exact ⟨_, List.mem_cons_self, rfl, R.accounted.requested_le List.mem_cons_self⟩
    · rw [hledger]
      refine ⟨fun g' hg' ↦ ?_, ts', order', sh', R.accounted,
        R.accounted.recovered_once (P.recovered hqp)⟩
      rcases R.ledger with ⟨rfl, -, -⟩ | ⟨-, rfl⟩
      · exact absurd rfl hqp
      · rcases List.mem_cons.mp hg' with rfl | hg'
        · exact hqp
        · exact (mem_without.mp hg').2
    · rw [hledger]
      obtain ⟨hm, hp⟩ := hothers h hh hne
      exact ⟨hm, R.spared h (mem_without.mpr ⟨hh, hp⟩)⟩

theorem realloc_contract_twoBlocks :
    ∃ s' q, myRealloc .fixedBase Session.twoBlocks.state 0 Grant.big.ptr 9000 = .ok (s', q) ∧
      ReallocContract .fixedBase 0 .twoBlocks .big 9000 s' q :=
  realloc_contract (Session.twoBlocks_reachable fun _ _ _ ↦ trivial)
    (by rw [Session.twoBlocks_live]; simp) (by decide +kernel) (by decide)

/-! ### Every size -/

theorem freePooled_os {i : Fin numSizeClasses} {ptr : Nat}
    (h : freePooled c s t i ptr = .ok s') : s'.os = s.os := by
  have hslow : ∀ {s' : State}, ((s.pools i).deallocate s.mem ptr >>= fun r ↦
      Except.ok ({ s with mem := r.1 }.setPool i r.2)) = .ok s' → s'.os = s.os := by
    intro s' h
    obtain ⟨⟨m, p⟩, -, h⟩ := bind_eq_ok.mp h
    exact (Except.ok.inj h) ▸ rfl
  unfold freePooled at h
  cases hs : c.stage with
  | globalLock => exact hslow (by simpa only [hs] using h)
  | poolLocks => exact hslow (by simpa only [hs] using h)
  | threadCaches =>
    simp only [hs, freePooledStage3] at h
    obtain ⟨s₁, h₁, h⟩ := bind_eq_ok.mp h
    rw [← pushToCache_os h₁]
    by_cases hover : overCap s₁ t i
    · rw [if_pos hover] at h
      exact flushBatchToPool_os h
    · rw [if_neg hover] at h
      exact (Except.ok.inj h) ▸ rfl

/-- Freeing never asks the kernel for anything. -/
theorem myFree_os {ptr : Nat} (h : myFree c s t ptr = .ok s') : s'.os = s.os := by
  unfold myFree at h
  by_cases h0 : ptr = 0
  · rw [if_pos h0] at h
    exact (Except.ok.inj h) ▸ rfl
  by_cases hk : isKnownPool c (tagOf s.mem ptr)
  · rw [if_neg h0, if_pos hk] at h
    obtain ⟨i, -, h⟩ := bind_eq_ok.mp h
    exact freePooled_os h
  · rw [if_neg h0, if_neg hk] at h
    obtain ⟨heap, -, h⟩ := bind_eq_ok.mp h
    exact (Except.ok.inj h) ▸ rfl

/-- The bytes a moving reallocation copies: all of a slot, or what both sizes share. -/
def copySize (c : Config) (s : State) (g : Grant) (newSize : Nat) : Nat :=
  if isKnownPool c (tagOf s.mem g.ptr) then
    match poolAt c (tagOf s.mem g.ptr) with
    | .ok i => (s.pools i).slotPayloadSize
    | .error _ => 0
  else min (getSize s.mem (headerOf g.ptr)) newSize

/-- The path that provides the pointer a reallocation returned. -/
def provider (g : Grant) (q newSize : Nat) : Option (Fin numSizeClasses) :=
  if q = g.ptr then g.origin else originOf newSize

/-- A reallocation reports success only for a size it provides, copying inside what it provides
and sparing everything else, and reports failure only with the grant untouched. -/
def Honest (c : Config) (s : State) (live : List Grant) (t : Tid) (g : Grant) (newSize : Nat) :
    Prop :=
  ∃ s' q, myRealloc c s t g.ptr newSize = .ok (s', q) ∧
    ((q = 0 ∧ Untouched s s' g) ∨ q ≠ 0 ∧ Provided s' ⟨q, newSize, provider g q newSize⟩ ∧
      Spared s s' (without live g.ptr) ∧
      (q ≠ g.ptr → copySize c s g newSize ≤ usable s' ⟨q, newSize, provider g q newSize⟩))

namespace Accounted

/-- A pointer taken for a slot stays when the slot's payload covers the new size, and moves
otherwise. -/
theorem realloc_known (A : Accounted c s live ts order sh) (t : Tid) (newSize : Nat)
    (hg : g ∈ live) (hk : isKnownPool c (tagOf s.mem g.ptr) = true) :
    copySize c s g newSize ≤ 4096 ∧
      ((newSize ≤ copySize c s g newSize ∧ myRealloc c s t g.ptr newSize = .ok (s, g.ptr)) ∨
      copySize c s g newSize < newSize ∧ myRealloc c s t g.ptr newSize =
        CustomAllocator.moveTo c s t g.ptr newSize (copySize c s g newSize)) := by
  have hptr0 : g.ptr ≠ 0 := by have := (A.ptr_aligned hg).2.1; omega
  obtain ⟨i, hi⟩ := isKnownPool_iff.mp hk
  have hpay := (A.coherent.shelved.shape i).payload_eq
  have hcls := classSize_bounds i
  have hcopy : copySize c s g newSize = classSize i := by
    rw [copySize, if_pos hk, ← hi, poolAt_poolAddr]
    exact hpay
  rw [hcopy, myRealloc, if_neg hptr0, if_pos hk, ← hi, poolAt_poolAddr, ok_bind]
  simp only [hpay]
  refine ⟨by omega, ?_⟩
  by_cases hfit : newSize ≤ classSize i
  · exact .inl ⟨hfit, if_pos hfit⟩
  · exact .inr ⟨by omega, if_neg hfit⟩

/-- A general pointer is answered in place, or moved when its block is too small. -/
theorem realloc_unknown (A : Accounted c s live ts order sh) (t : Tid) (newSize : Nat)
    (hg : g ∈ live) (hk : ¬ isKnownPool c (tagOf s.mem g.ptr) = true) :
    (usable s g < alignUp newSize ∧ copySize c s g newSize = min (usable s g) newSize ∧
      myRealloc c s t g.ptr newSize =
        CustomAllocator.moveTo c s t g.ptr newSize (copySize c s g newSize)) ∨
    alignUp newSize + 4096 ≤ 2 ^ 64 ∧
      ∃ s', myRealloc c s t g.ptr newSize = .ok (s', g.ptr) ∧ s'.os = s.os := by
  have hptr0 : g.ptr ≠ 0 := by have := (A.ptr_aligned hg).2.1; omega
  cases ho : g.origin with
  | some j => exact absurd (isKnownPool_iff.mpr ⟨j, (A.tag_pooled hg ho).symm⟩) hk
  | none =>
    obtain ⟨b, hb, hn⟩ := A.general g hg ho
    have hu := A.usable_general ho hb
    have hcopy : copySize c s g newSize = min (usable s g) newSize := by
      simp only [copySize, if_neg hk, usable, ho]
    rw [hcopy, hu]
    simp only [myRealloc, if_neg hptr0, if_neg hk, hb.headerOf_eq A.coherent.heap.rep.placed]
    rcases A.coherent.heap.reallocInPlace c hb.allocated hb.headed newSize with
      ⟨hrun, hlt, -⟩ | ⟨m', head', ts', order', b', hrun, H', -, -, hnew, -, halloc, -⟩
    · refine .inl ⟨hlt, trivial, ?_⟩
      have hmin : (if b.size < newSize then b.size else newSize) = min b.size newSize := by
        split <;> omega
      rw [hrun, ok_bind]
      simp only [hmin]
      rfl
    · right
      have := H'.rep.placed.block_bounds ((halloc b').mpr (.inl rfl)).1
      rw [hrun, ok_bind]
      exact ⟨by omega, s.setHeap (m', head'), rfl, rfl⟩

/-- Moving to a size that wraps is refused by an exhausted heap, and by no other. -/
theorem moveTo_wrapped (A : Accounted c s live ts order sh) {ptr size q : Nat}
    (hwrap : ¬ newSize ≤ sizeMax - 47)
    (hrun : CustomAllocator.moveTo c s t ptr newSize size = .ok (s', q)) :
    (q = 0 ∧ Exhausted c s (alignUp newSize) (neededBytes (alignUp newSize))) ∨
      q ≠ 0 ∧ ∀ r ∈ s'.os.mapped, r.WF := by
  obtain ⟨⟨s₁, p⟩, hrun₁, hrun⟩ := bind_eq_ok.mp hrun
  dsimp only at hrun
  rcases A.malloc_wrapped hwrap hrun₁ with ⟨rfl, hex⟩ | ⟨hne, hw⟩
  · rw [if_pos rfl] at hrun
    exact .inl ⟨(Prod.mk.inj (Except.ok.inj hrun)).2.symm, hex⟩
  · rw [if_neg hne] at hrun
    obtain ⟨s₂, hfree, hrun⟩ := bind_eq_ok.mp hrun
    obtain ⟨rfl, rfl⟩ := Prod.mk.inj (Except.ok.inj hrun)
    exact .inr ⟨hne, by rw [myFree_os hfree]; exact hw⟩

theorem moveTo_exhausted (A : Accounted c s live ts order sh) (t : Tid) (ptr size : Nat)
    (hwrap : ¬ newSize ≤ sizeMax - 47)
    (hex : Exhausted c s (alignUp newSize) (neededBytes (alignUp newSize))) :
    ∃ os, CustomAllocator.moveTo c s t ptr newSize size = .ok ({ s with os := os }, 0) := by
  obtain ⟨os, hrun, -⟩ := hex.refuses A.coherent.heap.rep A.coherent.arenaSize_lt
  refine ⟨os, ?_⟩
  simp only [CustomAllocator.moveTo, myMalloc_wrapped c s t hwrap, hrun, ok_bind, if_true]

/-- Up to `SIZE_MAX - 47`, every reallocation is honest. -/
theorem honest_of_fits (A : Accounted c s live ts order sh) (hg : g ∈ live)
    (hn : newSize ≤ sizeMax - 47) : Honest c s live t g newSize := by
  have hfit : newSize + 47 < 2 ^ 64 := by unfold sizeMax at hn; omega
  rcases A.realloc t hg hfit with
    ⟨os, hrun, -⟩ | ⟨s', q, live', ts', order', sh', hrun, hq, R, -⟩
  · exact ⟨_, 0, hrun, .inl ⟨rfl, rfl, fun _ _ ↦ rfl⟩⟩
  refine ⟨s', q, hrun, .inr ⟨hq, ?_⟩⟩
  have hmem : ∃ h ∈ live', h = ⟨q, newSize, provider g q newSize⟩ := by
    rcases R.ledger with ⟨rfl, rfl, -⟩ | ⟨hfresh, rfl⟩
    · exact ⟨_, mem_renewed.mpr ⟨g, hg, .inl ⟨rfl, rfl⟩⟩, by simp [provider]⟩
    · refine ⟨_, List.mem_cons_self, ?_⟩
      rw [provider, if_neg fun h ↦ hfresh g hg h.symm]
  obtain ⟨h, hh, rfl⟩ := hmem
  have hprov := R.accounted.provided hh
  refine ⟨hprov, R.spared, fun hqp ↦ Nat.le_trans ?_ hprov.1⟩
  dsimp only
  by_cases hk : isKnownPool c (tagOf s.mem g.ptr) = true
  · rcases (A.realloc_known t newSize hg hk).2 with ⟨-, hrun₂⟩ | ⟨hlt, -⟩
    · rw [hrun₂] at hrun
      exact absurd (Prod.mk.inj (Except.ok.inj hrun)).2.symm hqp
    · omega
  · rcases A.realloc_unknown t newSize hg hk with ⟨-, hc, -⟩ | ⟨-, s₂, hrun₂, -⟩
    · rw [hc]
      exact Nat.min_le_right _ _
    · rw [hrun₂] at hrun
      exact absurd (Prod.mk.inj (Except.ok.inj hrun)).2.symm hqp

/-- Above, a reallocation is honest exactly when an exhausted heap refuses it before the rounded
size can wrap to zero. -/
theorem honest_iff (A : Accounted c s live ts order sh) (hg : g ∈ live)
    (hsize : newSize ≤ sizeMax) :
    Honest c s live t g newSize ↔ newSize ≤ sizeMax - 47 ∨
      Exhausted c s (alignUp newSize) (neededBytes (alignUp newSize)) ∧
        (isKnownPool c (tagOf s.mem g.ptr) = true ∨ newSize ≤ sizeMax - 15) := by
  by_cases hwrap : newSize ≤ sizeMax - 47
  · exact ⟨fun _ ↦ .inl hwrap, fun _ ↦ A.honest_of_fits hg hwrap⟩
  have hptr0 : g.ptr ≠ 0 := by have := (A.ptr_aligned hg).2.1; omega
  have hmove : ∀ {size}, myRealloc c s t g.ptr newSize =
      CustomAllocator.moveTo c s t g.ptr newSize size →
      (Honest c s live t g newSize ↔
        Exhausted c s (alignUp newSize) (neededBytes (alignUp newSize))) := by
    intro size heq
    constructor
    · rintro ⟨s', q, hrun, hcase⟩
      rcases A.moveTo_wrapped hwrap (heq ▸ hrun) with ⟨-, hex⟩ | ⟨hq, hw⟩
      · exact hex
      · rcases hcase with ⟨rfl, -⟩ | ⟨-, hp, -⟩
        · exact absurd rfl hq
        · exact absurd hp (not_provided hw hwrap)
    · intro hex
      obtain ⟨os, hrun⟩ := A.moveTo_exhausted t g.ptr size hwrap hex
      exact ⟨_, 0, heq.trans hrun, .inl ⟨rfl, rfl, fun _ _ ↦ rfl⟩⟩
  rw [or_iff_right hwrap]
  by_cases hk : isKnownPool c (tagOf s.mem g.ptr) = true
  · rw [and_iff_left (.inl hk)]
    obtain ⟨hle, hcase⟩ := A.realloc_known t newSize hg hk
    rcases hcase with ⟨hn, -⟩ | ⟨-, heq⟩
    · unfold sizeMax at hwrap
      omega
    · exact hmove heq
  · rw [or_iff_right hk]
    have hround : newSize ≤ sizeMax - 15 ↔ ¬ alignUp newSize + 4096 ≤ 2 ^ 64 := by
      unfold alignUp sub64 add64
      unfold sizeMax at *
      omega
    rcases A.realloc_unknown t newSize hg hk with ⟨hlt, -, heq⟩ | ⟨hfits, s₁, hrun₁, hos⟩
    · rw [hmove heq, and_iff_left]
      rw [hround]
      intro h
      have : alignUp newSize = 0 := by
        unfold alignUp sub64 add64 at h ⊢
        unfold sizeMax at hwrap hsize
        omega
      omega
    · refine ⟨?_, fun h ↦ absurd hfits (hround.mp h.2)⟩
      rintro ⟨s', q, hrun, hcase⟩
      rw [hrun₁] at hrun
      obtain ⟨rfl, rfl⟩ := Prod.mk.inj (Except.ok.inj hrun)
      rcases hcase with ⟨h0, -⟩ | ⟨-, hp, -⟩
      · exact absurd h0 hptr0
      · exact absurd hp (not_provided (by rw [hos]; exact A.coherent.regions.wf) hwrap)

end Accounted

/-- In every reachable session and for every 64-bit size, a reallocation of a live pointer is
honest exactly when the size is at most `SIZE_MAX - 47`, or the heap is exhausted even for the
wrapped sizes and the rounded size of a general pointer does not wrap. -/
theorem realloc_honest_iff (h : Reachable c t anyCall w) (hg : g ∈ w.live)
    (hsize : newSize ≤ sizeMax) :
    Honest c w.state w.live t g newSize ↔ newSize ≤ sizeMax - 47 ∨
      Exhausted c w.state (alignUp newSize) (neededBytes (alignUp newSize)) ∧
        (isKnownPool c (tagOf w.state.mem g.ptr) = true ∨ newSize ≤ sizeMax - 15) := by
  obtain ⟨ts, order, sh, A, -⟩ := h.accounted
  exact A.honest_iff hg hsize

theorem realloc_honest_iff_twoBlocks :
    Honest .fixedBase Session.twoBlocks.state Session.twoBlocks.live 0 .small 9000 :=
  (realloc_honest_iff (Session.twoBlocks_reachable fun _ _ _ ↦ trivial)
    (by rw [Session.twoBlocks_live]; simp) (by decide)).mpr (.inl (by decide))

/-- Growing a block of 5000 bytes to `SIZE_MAX` succeeds in place and grows nothing. -/
theorem realloc_sizeMax_dishonest :
    Reachable .fixedBase 0 anyCall .twoBlocks ∧ Grant.big ∈ Session.twoBlocks.live ∧
      (myRealloc .fixedBase Session.twoBlocks.state 0 Grant.big.ptr sizeMax).toOption.map
        (fun out ↦ (out.2, getSize out.1.mem (headerOf out.2))) = some (Grant.big.ptr, 5008) ∧
      ¬ Honest .fixedBase Session.twoBlocks.state Session.twoBlocks.live 0 .big sizeMax := by
  have hrun : (myRealloc .fixedBase Session.twoBlocks.state 0 Grant.big.ptr sizeMax).toOption.map
      (fun out ↦ (out.2, getSize out.1.mem (headerOf out.2))) = some (Grant.big.ptr, 5008) := by
    decide +kernel
  refine ⟨Session.twoBlocks_reachable fun _ _ _ ↦ trivial, by rw [Session.twoBlocks_live]; simp,
    hrun, ?_⟩
  rintro ⟨s', q, hok, hr⟩
  rw [hok] at hrun
  simp only [Except.toOption, Option.map_some, Option.some.injEq, Prod.mk.injEq] at hrun
  obtain ⟨rfl, hsize⟩ := hrun
  rcases hr with ⟨h0, -⟩ | ⟨-, ⟨hle, -⟩, -⟩
  · exact absurd h0 (by decide)
  · have ho : provider .big Grant.big.ptr sizeMax = none := rfl
    rw [usable, ho] at hle
    simp only [hsize] at hle
    exact absurd hle (by decide)

end CustomAllocator
