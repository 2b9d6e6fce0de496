import CustomAllocator.Pool.Pooled

/-!
# The stock of a pool

A pool of which only the number of slots at rest and the regions are seen. One slot is taken or
put back at a time, and a region is acquired only when nothing is at rest. `Pool::allocate` and
`Pool::allocate_batch` both take from it, the second in whole batches as long as every region
is carved into whole batches.
-/

namespace CustomAllocator
open CustomAllocator.Base

/-- The number of slots at rest, and the regions they were carved from. -/
structure Stock where
  idle : Nat
  arenas : List OsRegion
  deriving DecidableEq, Repr

/-- What the kernel makes of a request; memory has no part in it. -/
def osAnswer (c : Config) (os : Os) (size : Nat) : Os × Option OsRegion :=
  let r := osAcquire c ⟨fun _ ↦ 0, os⟩ size
  (r.1.os, r.2)

/-- Take one slot of `total` bytes, from a fresh region when none is at rest; null when that is
refused. -/
def Stock.take (c : Config) (total : Nat) (os : Os) (k : Stock) : Os × Stock × Bool :=
  if 0 < k.idle then (os, ⟨k.idle - 1, k.arenas⟩, true)
  else
    match osAnswer c os (total * slotsPerArena) with
    | (os, none) => (os, k, false)
    | (os, some r) => (os, ⟨arenaSlots c total - 1, k.arenas ++ [r]⟩, true)

/-- Put one slot back. -/
def Stock.put (k : Stock) : Stock := ⟨k.idle + 1, k.arenas⟩

/-- Every region of every pool is carved into whole batches. -/
def WholeBatches (c : Config) : Prop :=
  ∀ i, arenaSlots c (classSize i + 16) % threadLocalCacheBatchSize = 0

/-- On 4 KiB pages a region of any pool is exactly 256 slots. -/
theorem wholeBatches_of_page {c : Config} (h : c.page = 4096) : WholeBatches c := by
  have hall : ∀ i : Fin numSizeClasses,
      mul64 (sub64 (add64 ((classSize i + 16) * slotsPerArena) 4096) 1 / 4096) 4096 /
        (classSize i + 16) % threadLocalCacheBatchSize = 0 := by
    decide
  intro i
  unfold arenaSlots arenaBytes roundUpToPage
  rw [h]
  exact hall i

variable {c : Config} {k : Machine} {p : Pool} {l : List Nat} {total : Nat} {os : Os}

theorem osAcquire_answer (c : Config) (k : Machine) (size : Nat) :
    (osAcquire c k size).1.os = (osAnswer c k.os size).1 ∧
      (osAcquire c k size).2 = (osAnswer c k.os size).2 :=
  @osAcquire_os c ⟨fun _ ↦ 0, k.os⟩ k rfl size

/-- An answer uses up an offer at most. -/
theorem osAnswer_offers (c : Config) (os : Os) (size : Nat) :
    (osAnswer c os size).1.offers ⊆ os.offers :=
  osAcquire_offers c ⟨fun _ ↦ 0, os⟩ size

namespace Stock

theorem take_idle {n : Nat} {rs : List OsRegion} :
    (⟨n + 1, rs⟩ : Stock).take c total os = (os, ⟨n, rs⟩, true) := rfl

theorem take_refused {rs : List OsRegion}
    (h : (osAnswer c os (total * slotsPerArena)).2 = none) :
    (⟨0, rs⟩ : Stock).take c total os =
      ((osAnswer c os (total * slotsPerArena)).1, ⟨0, rs⟩, false) := by
  unfold take
  rw [if_neg (Nat.lt_irrefl 0)]
  generalize osAnswer c os (total * slotsPerArena) = a at h
  rcases a with ⟨os', answer⟩
  cases h
  rfl

theorem take_fresh {rs : List OsRegion} {r : OsRegion}
    (h : (osAnswer c os (total * slotsPerArena)).2 = some r) :
    (⟨0, rs⟩ : Stock).take c total os = ((osAnswer c os (total * slotsPerArena)).1,
      ⟨arenaSlots c total - 1, rs ++ [r]⟩, true) := by
  unfold take
  rw [if_neg (Nat.lt_irrefl 0)]
  generalize osAnswer c os (total * slotsPerArena) = a at h
  rcases a with ⟨os', answer⟩
  cases h
  rfl

/-- A null answer leaves the stock as it was. -/
theorem take_null {k : Stock} (h : (k.take c total os).2.2 = false) :
    (k.take c total os).2.1 = k := by
  unfold take at h ⊢
  split
  · next hpos =>
    rw [if_pos hpos] at h
    cases h
  · next hpos =>
    rw [if_neg hpos] at h
    generalize osAnswer c os (total * slotsPerArena) = a at h
    rcases a with ⟨os', _ | r⟩
    · rfl
    · cases h

theorem take_offers (c : Config) (total : Nat) (os : Os) (k : Stock) :
    (k.take c total os).1.offers ⊆ os.offers := by
  rcases k with ⟨_ | n, rs⟩
  · have hsub := osAnswer_offers c os (total * slotsPerArena)
    cases hanswer : (osAnswer c os (total * slotsPerArena)).2 with
    | none => rwa [take_refused hanswer]
    | some region => rwa [take_fresh hanswer]
  · rw [take_idle]
    exact List.Subset.refl _

end Stock

/-! ### Single slots -/

/-- An empty chain is made ready by one request to the kernel. -/
theorem Pool.ready_dry (h : p.freeHead = 0) (hfits : p.slotTotalSize * slotsPerArena < 2 ^ 64) :
    let a := osAnswer c k.os (p.slotTotalSize * slotsPerArena)
    (p.ready c k).1.os = a.1 ∧ (p.ready c k).2.1.arenas = p.arenas ++ a.2.toList ∧
      (p.ready c k).2.2 = a.2.isSome := by
  have hsize : mul64 p.slotTotalSize slotsPerArena = p.slotTotalSize * slotsPerArena :=
    mul64_of_lt hfits
  obtain ⟨hos, hans⟩ := osAcquire_answer c k (p.slotTotalSize * slotsPerArena)
  intro a
  change (osAcquire c k _).1.os = a.1 at hos
  change (osAcquire c k _).2 = a.2 at hans
  rw [← hos, ← hans]
  unfold Pool.ready Pool.expand
  rw [if_pos h, hsize]
  generalize osAcquire c k (p.slotTotalSize * slotsPerArena) = answer
  rcases answer with ⟨k', _ | r⟩
  · exact ⟨rfl, (List.append_nil _).symm, rfl⟩
  · exact ⟨rfl, rfl, rfl⟩

/-- A chain with a slot on it is ready. -/
theorem Pool.ready_of_ne (h : p.freeHead ≠ 0) : p.ready c k = (k, p, true) := if_neg h

/-- The slots of one region. -/
theorem length_freshSlots_eq {r : OsRegion} (h : r.size = arenaBytes c total) :
    (freshSlots total r).length = arenaSlots c total := by
  simp [freshSlots, slotAddrs, h, arenaSlots]

namespace FreeSlots

/-- `allocate` takes one slot from the stock. -/
theorem takeOne (H : FreeSlots k p l) {self : Nat} (hself : self < 2 ^ 64) :
    let d := (⟨l.length, p.arenas⟩ : Stock).take c p.slotTotalSize k.os
    (d.2.2 = false ∧ p.allocate c self k = .ok (⟨k.mem, d.1⟩, p, 0)) ∨
    ∃ k' p' x l', d.2.2 = true ∧ p.allocate c self k = .ok (k', p', x + 16) ∧ k'.os = d.1 ∧
      d.2.1 = ⟨l'.length, p'.arenas⟩ ∧ FreeSlots k' p' l' := by
  have hzero := H.chain.head_eq_nil_iff
  rcases H.allocate (c := c) hself with
    ⟨os, hready, hrun, rfl, -⟩ |
    ⟨k', p', rs, x, l', hready, hos, harenas, hrun, hg, hh, -, -, -, -, hsup, -⟩
  · left
    obtain ⟨hos, -, hsome⟩ := Pool.ready_dry (c := c) (k := k) (hzero.mpr rfl) H.sized.fits
    rw [hready] at hos hsome
    have hnone := Option.isSome_eq_false_iff.mp hsome.symm
    rw [List.length_nil, Stock.take_refused (Option.isNone_iff_eq_none.mp hnone)]
    exact ⟨rfl, hrun.trans (by rw [← hos])⟩
  right
  refine ⟨k', p', x, l', ?_⟩
  cases l with
  | nil =>
    obtain ⟨hos', harenas', hsome⟩ := Pool.ready_dry (c := c) (k := k) (hzero.mpr rfl) H.sized.fits
    rw [hready] at hsome
    obtain ⟨r, hr⟩ := Option.isSome_iff_exists.mp hsome.symm
    rw [← harenas, hg.arenas_eq, hr, Option.toList_some] at harenas'
    obtain rfl := List.append_cancel_left harenas'
    have hlen := congrArg List.length hsup
    simp only [supply, List.nil_append, List.flatMap_singleton, List.length_cons,
      length_freshSlots_eq (hg.sizes r (by simp))] at hlen
    rw [List.length_nil, Stock.take_fresh hr]
    refine ⟨rfl, hrun, hos.trans hos', ?_, hh⟩
    simp only [Stock.mk.injEq, hg.arenas_eq, and_true]
    omega
  | cons y l =>
    have hne : p.freeHead ≠ 0 := fun h ↦ by simpa using hzero.mp h
    rw [Pool.ready_of_ne hne] at hos harenas
    have hrs : rs = [] := List.append_cancel_left
      ((hg.arenas_eq.symm.trans harenas).trans (List.append_nil _).symm)
    subst hrs
    have hlen := congrArg List.length hsup
    simp only [supply, List.flatMap_nil, List.append_nil, List.length_cons] at hlen
    rw [List.length_cons, Stock.take_idle]
    refine ⟨rfl, hrun, hos, ?_, hh⟩
    simp only [Stock.mk.injEq, harenas, and_true]
    omega

/-! ### Batches -/

/-- The first slot of a batch asks the kernel when the chain is empty, and the region granted
covers the rest of the batch. -/
theorem takeBatch_dry (H : FreeSlots k p []) {n : Nat}
    (hn : 0 < arenaSlots c p.slotTotalSize → n < arenaSlots c p.slotTotalSize) :
    let a := osAnswer c k.os (p.slotTotalSize * slotsPerArena)
    (a.2 = none ∧ p.allocateBatch c k (n + 1) = .ok (⟨k.mem, a.1⟩, p, ⟨0, 0, 0⟩)) ∨
    ∃ r k' p' b taken l', a.2 = some r ∧ p.allocateBatch c k (n + 1) = .ok (k', p', b) ∧
      k'.os = a.1 ∧ p'.arenas = p.arenas ++ [r] ∧ FreeSlots k' p' l' ∧
      SlotList k'.mem b.head b.tail b.count taken ∧ taken.length = n + 1 ∧
      taken.length + l'.length = arenaSlots c p.slotTotalSize := by
  have hzero := H.chain.head_eq_nil_iff.mpr rfl
  obtain ⟨hos, harenas, hsome⟩ := Pool.ready_dry (c := c) (k := k) hzero H.sized.fits
  intro a
  rcases H.gathering.step (c := c) with
    ⟨os, hready, -, -, hrun⟩ | ⟨k₁, p₁, b₁, rs, x, l₁, hready, hos₁, ha₁, hrun, hg, G₁, hsup, -, -⟩
  · left
    rw [hready] at hos hsome
    have hnone := Option.isSome_eq_false_iff.mp hsome.symm
    refine ⟨Option.isNone_iff_eq_none.mp hnone, (hrun n).trans ?_⟩
    rw [show os = a.1 from hos]
  right
  rw [hready] at hsome
  obtain ⟨r, hr⟩ := Option.isSome_iff_exists.mp hsome.symm
  have hregion : p₁.arenas = p.arenas ++ [r] := by
    rw [ha₁, harenas, hr]
    rfl
  rw [hg.arenas_eq] at hregion
  obtain rfl := List.append_cancel_left hregion
  have hlen := congrArg List.length hsup
  simp only [supply, List.nil_append, List.flatMap_singleton, List.length_cons,
    length_freshSlots_eq (hg.sizes r (by simp))] at hlen
  have hn := hn (by omega)
  -- The rest of the batch is on the chain already.
  obtain ⟨k', p', b', qs, taken, l', hrun', hg', G', hsup', hle, hneed, hstop, -, hos'⟩ :=
    G₁.run (c := c) n
  have hqs : qs = [] := by
    rcases List.eq_nil_or_concat qs with rfl | ⟨zs, z, rfl⟩
    · rfl
    · have := hneed zs z List.concat_eq_append
      rw [supply, List.length_append] at this
      omega
  subst hqs
  have hlen' := congrArg List.length hsup'
  simp only [supply, List.flatMap_nil, List.append_nil, List.length_append] at hlen'
  have htaken : taken.length = n := by
    by_contra hne
    rw [hstop (by omega), List.length_nil] at hlen'
    omega
  refine ⟨r, k', p', b', [x] ++ taken, l', hr, (hrun n).trans hrun', ?_, ?_, G'.free, G'.batch, ?_,
    ?_⟩
  · rw [hos' (by omega), hos₁]
    exact hos
  · rw [hg'.arenas_eq, hg.arenas_eq, List.append_nil]
  · rw [List.length_append, List.length_singleton, htaken]
    omega
  · rw [List.length_append, List.length_singleton]
    omega

/-- A batch is on the chain already. -/
theorem takeBatch_stocked (H : FreeSlots k p l) {n : Nat} (hn : n ≤ l.length) :
    ∃ k' p' b taken l', p.allocateBatch c k n = .ok (k', p', b) ∧ k'.os = k.os ∧
      p'.arenas = p.arenas ∧ FreeSlots k' p' l' ∧
      SlotList k'.mem b.head b.tail b.count taken ∧ taken.length = n ∧
      taken.length + l'.length = l.length := by
  obtain ⟨k', p', b, rs, taken, l', hrun, hg, hf, hb, -, -, hsup, hle, hneed, hstop, -, hos⟩ :=
    H.allocateBatch (c := c) n
  have hrs : rs = [] := by
    rcases List.eq_nil_or_concat rs with rfl | ⟨zs, z, rfl⟩
    · rfl
    · have := hneed zs z List.concat_eq_append
      rw [supply, List.length_append] at this
      omega
  subst hrs
  have hlen := congrArg List.length hsup
  simp only [supply, List.flatMap_nil, List.append_nil, List.length_append] at hlen
  refine ⟨k', p', b, taken, l', hrun, hos hn, ?_, hf, hb, ?_, hlen⟩
  · rw [hg.arenas_eq, List.append_nil]
  · by_contra hne
    rw [hstop (by omega), List.length_nil] at hlen
    omega

/-- While a chain is made of whole batches, `allocate_batch` takes a batch when one slot can be
taken from the stock, and what remains is whole batches again. -/
theorem takeBatch (H : FreeSlots k p l) (hl : l.length % threadLocalCacheBatchSize = 0)
    (hwhole : arenaSlots c p.slotTotalSize % threadLocalCacheBatchSize = 0) :
    let d := (⟨l.length, p.arenas⟩ : Stock).take c p.slotTotalSize k.os
    (d.2.2 = false ∧
      p.allocateBatch c k threadLocalCacheBatchSize = .ok (⟨k.mem, d.1⟩, p, ⟨0, 0, 0⟩)) ∨
    ∃ k' p' b taken l', d.2.2 = true ∧
      p.allocateBatch c k threadLocalCacheBatchSize = .ok (k', p', b) ∧ k'.os = d.1 ∧
      FreeSlots k' p' l' ∧ SlotList k'.mem b.head b.tail b.count taken ∧
      taken.length = threadLocalCacheBatchSize ∧
      d.2.1 = ⟨taken.length - 1 + l'.length, p'.arenas⟩ ∧
      l'.length % threadLocalCacheBatchSize = 0 := by
  unfold threadLocalCacheBatchSize at *
  cases l with
  | nil =>
    rcases H.takeBatch_dry (c := c) (n := 31) (by omega) with
      ⟨hnone, hrun⟩ | ⟨r, k', p', b, taken, l', hr, hrun, hos, harenas, hf, hb, ht, hsum⟩
    · rw [List.length_nil, Stock.take_refused hnone]
      exact .inl ⟨rfl, hrun⟩
    · rw [List.length_nil, Stock.take_fresh hr]
      refine .inr ⟨k', p', b, taken, l', rfl, hrun, hos, hf, hb, ht, ?_, by omega⟩
      simp only [Stock.mk.injEq, harenas, and_true]
      omega
  | cons y l =>
    obtain ⟨k', p', b, taken, l', hrun, hos, harenas, hf, hb, ht, hsum⟩ :=
      H.takeBatch_stocked (c := c) (n := 32) (by rw [List.length_cons] at *; omega)
    rw [List.length_cons] at *
    rw [Stock.take_idle]
    refine .inr ⟨k', p', b, taken, l', rfl, hrun, hos, hf, hb, ht, ?_, by omega⟩
    simp only [Stock.mk.injEq, harenas, and_true]
    omega

end FreeSlots

end CustomAllocator
