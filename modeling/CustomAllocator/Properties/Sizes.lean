import CustomAllocator.Layout.Refusal
import CustomAllocator.Client.Runs

/-!
# Requests near the top of the address range

`align_up` and the sum of header, payload and footer are computed modulo `2 ^ 64`. Up to
`SIZE_MAX - 47` neither wraps and a request is provided for or refused. Above, the wrapped
sizes are small or zero: the request is answered rightly only when even they find no room.
-/

namespace CustomAllocator
open CustomAllocator.Base

/-- The grant has its usable bytes, and they lie with their header, and for a block their footer,
inside one mapped region. -/
def Provided (s : State) (g : Grant) : Prop :=
  g.requested ≤ usable s g ∧ ∃ r ∈ s.os.mapped, r.base + 16 ≤ g.ptr ∧
    g.ptr + usable s g + (if g.origin = none then 16 else 0) ≤ r.stop

/-- An allocation of `size` bytes returns null or a pointer with that many usable bytes. -/
def Answered (run : Except Fault (State × Nat)) (size : Nat) : Prop :=
  ∃ s' r, run = .ok (s', r) ∧ (r = 0 ∨ Provided s' ⟨r, size, originOf size⟩)

variable {c : Config} {s s' : State} {live : List Grant} {ts : List Carved} {order : List Nat}
  {sh : Shelves} {g : Grant} {t : Tid} {w : Session}

/-- Every entry of an accounted ledger is provided for. -/
theorem Accounted.provided (A : Accounted c s live ts order sh) (hg : g ∈ live) :
    Provided s g := by
  refine ⟨A.requested_le hg, ?_⟩
  have hblock : ∀ d ∈ blocksOf ts, ∃ r ∈ s.os.mapped, r.base ≤ d.addr ∧ d.stop ≤ r.stop := by
    intro d hd
    obtain ⟨a, ha, hlo, hhi⟩ := A.coherent.block_region hd
    exact ⟨a.region, A.coherent.regions.arena_mapped ha, hlo, hhi⟩
  cases ho : g.origin with
  | none =>
    obtain ⟨b, hb, -⟩ := A.general g hg ho
    obtain ⟨r, hr, hlo, hhi⟩ := hblock b hb.allocated.1
    rw [A.usable_general ho hb, hb.ptr_eq]
    exact ⟨r, hr, by omega, by simp only [if_true]; unfold Block.stop at hhi; omega⟩
  | some i =>
    obtain ⟨x, hx, hptr, -⟩ := A.pooled g hg i ho
    rw [A.usable_pooled ho, hptr]
    simp only [reduceCtorEq, if_false, Nat.add_zero]
    rcases A.coherent.slots i x (stands_of_live hx) with h | ⟨d, hd, rfl⟩
    · obtain ⟨r, hr, hlo, hhi⟩ := h.bounds
      exact ⟨r, A.coherent.regions.pool_mapped hr, by omega, by omega⟩
    · obtain ⟨r, hr, hlo, hhi⟩ := hblock d hd.1
      have := A.coherent.heap.large d hd.1 hd.2
      have := classSize_bounds i
      exact ⟨r, hr, by omega, by unfold Block.stop at hhi; omega⟩

/-- No region can hold a request that wraps. -/
theorem not_provided {p size : Nat} {o : Option (Fin numSizeClasses)}
    (hw : ∀ q ∈ s.os.mapped, q.WF) (h : ¬ size ≤ sizeMax - 47) : ¬ Provided s ⟨p, size, o⟩ := by
  rintro ⟨hle, r, hr, hlo, hhi⟩
  have hb := (hw r hr).base_ge
  have hs := (hw r hr).stop_le
  unfold sizeMax at h
  unfold OsRegion.stop at hhi
  dsimp only at hle hlo hhi
  omega

namespace Accounted

/-- A request that wraps is served by the general path. -/
theorem myMalloc_wrapped (c : Config) (s : State) (t : Tid) {size : Nat}
    (h : ¬ size ≤ sizeMax - 47) :
    myMalloc c s t size = CustomAllocator.allocatePayload c s (alignUp size) := by
  have ho : originOf size = none := originOf_eq_none.mpr (by unfold sizeMax at h; omega)
  rw [myMalloc_eq, ho]
  rfl

/-- An answer of `my_malloc` to a request that wraps: null from an exhausted heap, or a pointer
with too few bytes. -/
theorem malloc_wrapped (A : Accounted c s live ts order sh) {size p : Nat}
    (h : ¬ size ≤ sizeMax - 47) (hrun : myMalloc c s t size = .ok (s', p)) :
    (p = 0 ∧ Exhausted c s (alignUp size) (neededBytes (alignUp size))) ∨
      p ≠ 0 ∧ ∀ q ∈ s'.os.mapped, q.WF := by
  rw [myMalloc_wrapped c s t h] at hrun
  rcases A.coherent.heap.allocatePayload_ok A.coherent.arenaSize_lt hrun with hn | ⟨hp, hw⟩
  · exact .inl hn
  · exact .inr ⟨hp, fun q hq ↦ (hw q hq).elim (A.coherent.regions.wf q) id⟩

/-- `my_malloc` answers a request exactly when the request does not wrap or even its wrapped
sizes find no room. -/
theorem malloc_answered (A : Accounted c s live ts order sh) (t : Tid) (size : Nat) :
    Answered (myMalloc c s t size) size ↔
      size ≤ sizeMax - 47 ∨ Exhausted c s (alignUp size) (neededBytes (alignUp size)) := by
  constructor
  · rintro ⟨s', r, hrun, hr⟩
    refine Classical.or_iff_not_imp_left.mpr fun hwrap ↦ ?_
    rcases A.malloc_wrapped hwrap hrun with ⟨-, hex⟩ | ⟨hne, hw⟩
    · exact hex
    · exact absurd (hr.resolve_left hne) (not_provided hw hwrap)
  · intro h
    by_cases hsize : size ≤ sizeMax - 47
    · rcases A.malloc t (show size + 47 < 2 ^ 64 by unfold sizeMax at hsize; omega) with
        ⟨os, hrun, -⟩ | ⟨s', p, ts', order', sh', hrun, G⟩
      · exact ⟨_, 0, hrun, .inl rfl⟩
      · exact ⟨s', p, hrun, .inr (G.accounted.provided List.mem_cons_self)⟩
    · obtain ⟨os, hrun, -⟩ := (h.resolve_left hsize).refuses A.coherent.heap.rep
        A.coherent.arenaSize_lt
      exact ⟨_, 0, (myMalloc_wrapped c s t hsize).trans hrun, .inl rfl⟩

/-- A product that fits is requested from `my_malloc` as it is. -/
theorem calloc_eq (c : Config) (s : State) (t : Tid) {count size : Nat}
    (h : count * size ≤ sizeMax) :
    myCalloc c s t count size = (do
      let (s, ptr) ← myMalloc c s t (count * size)
      if ptr = 0 then .ok (s, 0)
      else .ok ({ s with mem := fill s.mem ptr 0 (count * size) }, ptr)) := by
  have hguard : ¬ (size ≠ 0 ∧ sizeMax / size < count) := fun hg ↦ by
    have := (calloc_guard count size).mp hg
    omega
  have htotal : mul64 count size = count * size := mul64_of_lt (by unfold sizeMax at h; omega)
  unfold myCalloc
  simp only [if_neg hguard, htotal]

/-- `my_calloc` answers a product exactly when `my_malloc` does. -/
theorem calloc_answered (A : Accounted c s live ts order sh) (t : Tid) {count size : Nat}
    (h : count * size ≤ sizeMax) :
    Answered (myCalloc c s t count size) (count * size) ↔
      count * size ≤ sizeMax - 47 ∨
        Exhausted c s (alignUp (count * size)) (neededBytes (alignUp (count * size))) := by
  rw [calloc_eq c s t h]
  generalize count * size = total
  constructor
  · rintro ⟨s', r, hrun, hr⟩
    refine Classical.or_iff_not_imp_left.mpr fun hwrap ↦ ?_
    obtain ⟨⟨s₁, p⟩, hrun₁, hrun⟩ := bind_eq_ok.mp hrun
    dsimp only at hrun
    rcases A.malloc_wrapped hwrap hrun₁ with ⟨-, hex⟩ | ⟨hne, hw⟩
    · exact hex
    · rw [if_neg hne] at hrun
      obtain ⟨rfl, rfl⟩ := Prod.mk.inj (Except.ok.inj hrun)
      exact absurd (hr.resolve_left hne) (not_provided hw hwrap)
  · intro hcond
    by_cases hsize : total ≤ sizeMax - 47
    · rcases A.malloc t (show total + 47 < 2 ^ 64 by unfold sizeMax at hsize; omega) with
        ⟨os, hrun, -⟩ | ⟨s', p, ts', order', sh', hrun, G⟩
      · exact ⟨{ s with os := os }, 0, by simp only [hrun, ok_bind, if_true], .inl rfl⟩
      · have G' := G.write (fill s'.mem p 0 total) fun x hx ↦ fill_of_out _ _ (by omega)
        refine ⟨{ s' with mem := fill s'.mem p 0 total }, p,
          by simp only [hrun, ok_bind, G.ptr_new.1, if_false], .inr ?_⟩
        exact G'.accounted.provided List.mem_cons_self
    · obtain ⟨s', p, hrun, hr⟩ := (A.malloc_answered t total).mpr hcond
      rcases A.malloc_wrapped hsize hrun with ⟨rfl, -⟩ | ⟨hne, hw⟩
      · exact ⟨s', 0, by simp only [hrun, ok_bind, if_true], .inl rfl⟩
      · exact absurd (hr.resolve_left hne) (not_provided hw hsize)

end Accounted

/-- In every reachable session, `my_malloc` of any 64-bit size and `my_calloc` of any product up
to `SIZE_MAX` are answered exactly when the size is at most `SIZE_MAX - 47` or the heap is
exhausted even for the wrapped sizes. -/
theorem answered_iff (h : Reachable c t anyCall w) :
    (∀ size, size ≤ sizeMax → (Answered (myMalloc c w.state t size) size ↔
      size ≤ sizeMax - 47 ∨
        Exhausted c w.state (alignUp size) (neededBytes (alignUp size)))) ∧
    ∀ count size, count ≤ sizeMax → size ≤ sizeMax → count * size ≤ sizeMax →
      (Answered (myCalloc c w.state t count size) (count * size) ↔
        count * size ≤ sizeMax - 47 ∨
          Exhausted c w.state (alignUp (count * size)) (neededBytes (alignUp (count * size)))) := by
  obtain ⟨ts, order, sh, A, -⟩ := h.accounted
  exact ⟨fun size _ ↦ A.malloc_answered t size,
    fun count size _ _ hprod ↦ A.calloc_answered t hprod⟩

/-- One block fills the only arena the kernel grants. -/
def Session.full : Session :=
  (Session.start (fun _ ↦ 0xab) [some 0x10000] 65536).after .fixedBase 0 (.malloc 65504)

theorem Session.full_reachable : Reachable .fixedBase 0 anyCall .full :=
  (Reachable.start _ _ _ _ _ (by decide)).after (.inl rfl) (by decide) trivial

/-- That heap serves nothing, not even a payload of no bytes. -/
theorem Session.full_exhausted (n : Nat) :
    Exhausted .fixedBase Session.full.state n 32 where
  listed ts order R x hx := by
    have hhead : Session.full.state.freeHead = 0 := by decide +kernel
    have hlinks := hhead ▸ R.links
    cases order with
    | nil => cases hx
    | cons y order => exact absurd hlinks.1.symm hlinks.2.1
  newest := by decide +kernel
  refused := by decide +kernel

/-- With a free block listed a small request is answered and one that wraps is not; with no room
left, the one that wraps is refused as it should be. -/
theorem answered_iff_full :
    Answered (myMalloc .fixedBase Session.gap.state 0 5000) 5000 ∧
      ¬ Answered (myMalloc .fixedBase Session.gap.state 0 sizeMax) sizeMax ∧
      Answered (myMalloc .fixedBase Session.full.state 0 sizeMax) sizeMax ∧
      Answered (myCalloc .fixedBase Session.full.state 0 1 sizeMax) (1 * sizeMax) := by
  have hgap := answered_iff (show Reachable .fixedBase 0 anyCall .gap from
    Session.gap_routed.mono fun _ _ _ ↦ trivial)
  have hfull := answered_iff Session.full_reachable
  refine ⟨(hgap.1 5000 (by decide)).mpr (.inl (by decide)), fun h ↦ ?_,
    (hfull.1 sizeMax (Nat.le_refl _)).mpr (.inr (Session.full_exhausted _)),
    (hfull.2 1 sizeMax (by decide) (Nat.le_refl _) (by decide)).mpr (.inr ?_)⟩
  · have hex := ((hgap.1 sizeMax (Nat.le_refl _)).mp h).resolve_left (by decide)
    have hgranted : (osAcquire .fixedBase Session.gap.state.toMachine
        (arenaRequest Session.gap.state.arenaSize (neededBytes (alignUp sizeMax)))).2 ≠ none := by
      decide +kernel
    exact hgranted hex.refused
  · exact Session.full_exhausted _

/-- The first call of a program, for `SIZE_MAX` bytes, succeeds with a block of none. -/
theorem malloc_sizeMax_unanswered :
    Reachable .fixedBase 0 anyCall .fresh ∧
      (myMalloc .fixedBase Session.fresh.state 0 sizeMax).toOption.map
        (fun out ↦ (out.2, getSize out.1.mem (headerOf out.2))) = some (0x10010, 0) ∧
      ¬ Answered (myMalloc .fixedBase Session.fresh.state 0 sizeMax) sizeMax := by
  have hrun : (myMalloc .fixedBase Session.fresh.state 0 sizeMax).toOption.map
      (fun out ↦ (out.2, getSize out.1.mem (headerOf out.2))) = some (0x10010, 0) := by
    decide +kernel
  refine ⟨Session.fresh_reachable anyCall, hrun, ?_⟩
  rintro ⟨s', r, hok, hr⟩
  rw [hok] at hrun
  simp only [Except.toOption, Option.map_some, Option.some.injEq, Prod.mk.injEq] at hrun
  obtain ⟨rfl, hsize⟩ := hrun
  have ho : originOf sizeMax = none := originOf_eq_none.mpr (by decide)
  rcases hr with hr | ⟨hle, -⟩
  · exact absurd hr (by decide)
  · rw [usable, ho] at hle
    simp only [hsize] at hle
    exact absurd hle (by decide)

end CustomAllocator
