import CustomAllocator.Properties.Safety
import CustomAllocator.Properties.Sizes

/-!
# The calloc contract

`my_calloc` refuses exactly the products that do not fit in 64 bits, before it touches
anything. A product it serves is a fresh grant whose requested bytes are zero, and the bytes
it clears belong to nothing but that grant.
-/

namespace CustomAllocator
open CustomAllocator.Base

/-- What a call of `my_calloc` for `total` bytes that returns `p` achieves. -/
structure ZeroedGrant (c : Config) (t : Tid) (w : Session) (total : Nat) (s' : State)
    (p : Nat) : Prop where
  reachable : Reachable c t anyCall ⟨s', ⟨p, total, originOf total⟩ :: w.live⟩
  fresh : ∀ g ∈ w.live, g.ptr ≠ p ∧
    ∀ x, InPayload s' ⟨p, total, originOf total⟩ x → ¬ InPayload w.state g x
  enough : total ≤ usable s' ⟨p, total, originOf total⟩
  zeroed : ∀ k, k < total → s'.mem (p + k) = 0
  others : Spared w.state s' w.live
  /-- Between the allocation and the return only bytes of the grant itself change. -/
  zeroing : ∃ s₁ ts, myMalloc c w.state t total = .ok (s₁, p) ∧
    s' = { s₁ with mem := s'.mem } ∧ Carves s₁ ts ∧ Carves s' ts ∧
    ∀ x, s'.mem x ≠ s₁.mem x →
      ¬ Metadata s₁ ts x ∧ ∀ g ∈ w.live, ¬ InPayload s₁ g x

variable {c : Config} {s s₁ : State} {live : List Grant} {ts : List Carved} {order : List Nat}
  {sh : Shelves} {t : Tid} {w : Session} {count size total p : Nat}

/-- The bytes that zeroing changes lie in the new grant. -/
private theorem fill_changed {ts' : List Carved} {order' : List Nat} {sh' : Shelves}
    (G : Granted c s live ts sh total s₁ p ts' order' sh') {x : Nat}
    (hx : fill s₁.mem p 0 total x ≠ s₁.mem x) :
    InPayload s₁ ⟨p, total, originOf total⟩ x := by
  have hle := G.accounted.requested_le List.mem_cons_self
  have hin : p ≤ x ∧ x < p + total := by
    by_contra hout
    exact hx (fill_of_out _ _ (by omega))
  constructor
  · exact hin.1
  · simp only at hle ⊢
    omega

/-- In every reachable session and for all 64-bit counts and sizes, `my_calloc` refuses an
overflowing product at once, and answers any product up to `SIZE_MAX - 47` with null or a
zeroed grant. -/
theorem calloc_contract (h : Reachable c t anyCall w) (count size : Nat) :
    (sizeMax < count * size → myCalloc c w.state t count size = .ok (w.state, 0)) ∧
    (count * size ≤ sizeMax - 47 → ∃ s' p, myCalloc c w.state t count size = .ok (s', p) ∧
      (p ≠ 0 → ZeroedGrant c t w (count * size) s' p)) := by
  constructor
  · exact calloc_overflow c w.state t
  intro hsize
  obtain ⟨ts, order, sh, A, -⟩ := h.accounted
  rcases A.malloc t (show count * size + 47 < 2 ^ 64 by unfold sizeMax at hsize; omega) with
    ⟨os, hrun, -⟩ | ⟨s₁, p, ts', order', sh', hrun, G⟩
  · refine ⟨{ w.state with os := os }, 0, ?_, fun h0 ↦ absurd rfl h0⟩
    rw [Accounted.calloc_eq c w.state t (by omega), hrun]
    simp only [ok_bind, if_true]
  have hcalloc : myCalloc c w.state t count size =
      .ok ({ s₁ with mem := fill s₁.mem p 0 (count * size) }, p) := by
    rw [Accounted.calloc_eq c w.state t (by omega), hrun]
    simp only [ok_bind, G.ptr_new.1, if_false]
  have G' := G.write (fill s₁.mem p 0 (count * size)) fun x hx ↦ fill_of_out _ _ (by omega)
  have hnew : (⟨p, count * size, originOf (count * size)⟩ : Grant) ∈
      (⟨p, count * size, originOf (count * size)⟩ :: w.live : List Grant) := List.mem_cons_self
  have hold : ∀ g ∈ w.live, g ∈
      (⟨p, count * size, originOf (count * size)⟩ :: w.live : List Grant) := fun g hg ↦
    List.mem_cons_of_mem _ hg
  have hne : ∀ g ∈ w.live, (⟨p, count * size, originOf (count * size)⟩ : Grant) ≠ g :=
    fun g hg he ↦ G.ptr_new.2 g hg (by rw [← he])
  refine ⟨_, p, hcalloc, fun _ ↦ ⟨?_, fun g hg ↦ ⟨G.ptr_new.2 g hg, fun x hx hxg ↦ ?_⟩,
    G'.accounted.requested_le hnew, fun k hk ↦ ?_, G'.spared, s₁, ts', hrun, rfl, ?_, ?_,
    fun x hx ↦ ⟨?_, fun g hg ↦ ?_⟩⟩⟩
  · obtain ⟨mem, offers, arenaSize, harena, hsteps⟩ := h
    refine ⟨mem, offers, arenaSize, harena, hsteps.tail ?_⟩
    have hstep : Step c t anyCall w _ :=
      .call (.calloc count size) (.inl rfl) (.inl hsize) trivial hcalloc
    simpa only [ledgerAfter, if_neg G.ptr_new.1] using hstep
  · refine G'.accounted.payload_apart hnew (hold g hg) (hne g hg) hx ?_
    rwa [InPayload, (G'.spared g hg).1]
  · simp [fill, hk]
  · exact ⟨G.accounted.coherent.heap.arenas_eq, order', G.accounted.coherent.heap.rep⟩
  · exact ⟨G'.accounted.coherent.heap.arenas_eq, order', G'.accounted.coherent.heap.rep⟩
  · exact G.accounted.payload_metadata hnew (fill_changed G hx)
  · exact G.accounted.payload_apart hnew (hold g hg) (hne g hg) (fill_changed G hx)

theorem calloc_contract_twoBlocks : ∃ s' p, p ≠ 0 ∧
    myCalloc .fixedBase Session.twoBlocks.state 0 3 40 = .ok (s', p) ∧
      ZeroedGrant .fixedBase 0 .twoBlocks (3 * 40) s' p := by
  have hsome : (myCalloc .fixedBase Session.twoBlocks.state 0 3 40).toOption.map Prod.snd ≠
      some 0 := by
    decide +kernel
  obtain ⟨s', p, hrun, hgrant⟩ :=
    (calloc_contract (Session.twoBlocks_reachable fun _ _ _ ↦ trivial) 3 40).2 (by decide)
  rw [hrun] at hsome
  have hp : p ≠ 0 := fun hp ↦ hsome (by rw [hp]; rfl)
  exact ⟨s', p, hp, hrun, hgrant hp⟩

end CustomAllocator
