import CustomAllocator.Client.Runs
import CustomAllocator.Lifetime.Runs
import CustomAllocator.Pool.Stages

/-!
# The outline of a session

What a single-threaded session has in every build: the kernel, the arenas and their blocks in
address order, the free list, and for each size class how many slots are at rest. Which slot of a
pool is handed out, and what memory holds, is not part of it.
-/

namespace CustomAllocator
open CustomAllocator.Base

/-- What does not depend on the build. -/
structure Outline where
  os : Os
  arenaSize : Nat
  ts : List Carved
  order : List Nat
  stock : Fin numSizeClasses → Stock

/-- Replace the kernel and one stock. -/
def Outline.setStock (v : Outline) (i : Fin numSizeClasses) (os : Os) (k : Stock) : Outline :=
  { v with os := os, stock := fun j ↦ if j = i then k else v.stock j }

/-- Build `c` has reached the session `w` of thread `t`, which has the outline `v`. -/
structure Outlined (c : Config) (t : Tid) (w : Session) (v : Outline) (sh : Shelves) : Prop where
  accounted : Accounted c w.state w.live v.ts v.order sh
  uncaptured : Uncaptured v.ts sh
  os : w.state.os = v.os
  arenaSize : w.state.arenaSize = v.arenaSize
  stock : ∀ i, Stocks c t w.state sh i (v.stock i)
  others : ∀ u i, u ≠ t → sh (.cache u i) = []

variable {c : Config} {t : Tid} {w : Session} {v : Outline} {sh sh' : Shelves}
  {i : Fin numSizeClasses} {g : Grant} {s' : State} {live' : List Grant} {k : Stock} {os : Os}

@[simp] theorem Outline.setStock_same : (v.setStock i os k).stock i = k := if_pos rfl

theorem Outline.setStock_ne {j : Fin numSizeClasses} (h : j ≠ i) :
    (v.setStock i os k).stock j = v.stock j := if_neg h

namespace Outlined

/-- The arenas are part of the outline. -/
theorem arenas_eq (O : Outlined c t w v sh) : w.state.arenas = v.ts.map Carved.arena :=
  O.accounted.coherent.heap.arenas_eq

/-- A step of the pooled path changes the kernel and the stock of one class. -/
theorem pooled (O : Outlined c t w v sh) (A : Accounted c s' live' v.ts v.order sh')
    (hun : Uncaptured v.ts sh') (hsize : s'.arenaSize = w.state.arenaSize) (hos : s'.os = os)
    (K : Stocks c t s' sh' i k) (D : Aside t i w.state sh s' sh') :
    Outlined c t ⟨s', live'⟩ (v.setStock i os k) sh' where
  accounted := A
  uncaptured := hun
  os := hos
  arenaSize := hsize.trans O.arenaSize
  stock j := by
    by_cases hj : j = i
    · subst hj
      rw [Outline.setStock_same]
      exact K
    · rw [Outline.setStock_ne hj]
      exact D.stocks (O.stock j) hj
  others u j hu := by
    rw [D.cache u j fun h ↦ hu h.1]
    exact O.others u j hu

/-- A pooled allocation takes a slot from the stock of its class. -/
theorem mallocPooled (O : Outlined c t w v sh) (hwhole : WholeBatches c) {size : Nat}
    (ho : originOf size = some i) :
    let d := (v.stock i).draw c i v.os
    ∃ s' r sh', myMalloc c w.state t size = .ok (s', r) ∧ (r = 0 ↔ d.2.2 = false) ∧
      Outlined c t ⟨s', ledgerAfter w.live (.malloc size) r⟩ (v.setStock i d.1 d.2.1) sh' := by
  intro d
  have hdraw := O.accounted.settled.draw hwhole (O.stock i)
  unfold Drawn at hdraw
  rw [O.os] at hdraw
  change (d.2.2 = false ∧ _) ∨ _ at hdraw
  rw [myMalloc_eq, ho]
  dsimp only
  rcases O.accounted.settled.mallocPooled t i with
    ⟨os, hrun, hmapped⟩ | ⟨s', sh', rs, x, hrun, hout⟩
  · rcases hdraw with ⟨hd, hrun'⟩ | ⟨s'', x, _, -, hrun', -⟩
    · cases hrun.symm.trans hrun'
      refine ⟨_, 0, sh, hrun, iff_of_true rfl hd, ?_⟩
      have hstock : d.2.1 = v.stock i := Stock.take_null hd
      rw [hstock]
      exact O.pooled (O.accounted.os hmapped) O.uncaptured rfl rfl ((O.stock i).keep rfl rfl rfl)
        ⟨fun _ _ ↦ rfl, fun _ _ ↦ rfl, fun _ _ _ ↦ rfl⟩
    · have := congrArg Prod.snd (Except.ok.inj (hrun.symm.trans hrun'))
      dsimp only at this
      omega
  · rcases hdraw with ⟨-, hrun'⟩ | ⟨s'', y, sh'', hd, hrun', H'', hos, K, D⟩
    · have := congrArg Prod.snd (Except.ok.inj (hrun.symm.trans hrun'))
      dsimp only at this
      omega
    · cases hrun.symm.trans hrun'
      obtain ⟨B, -, hun⟩ := O.accounted.toBooked.grantSlot hout.step hout.settled.shelved hout.live
        hout.others ho
      have hne : x + 16 ≠ 0 := by omega
      have htrue : d.2.2 = true := hd
      refine ⟨s', x + 16, sh', hrun, iff_of_false hne (by simp [htrue]), ?_⟩
      simp only [ledgerAfter, if_neg hne]
      exact O.pooled ⟨B, hout.settled⟩ (hun O.uncaptured) hout.step.general.2.2 hos
        (K.congr H'' hout.settled.shelved) (D.congr H'' hout.settled.shelved)

/-- A pooled free puts the slot back. -/
theorem freePooled (O : Outlined c t w v sh) (hg : g ∈ w.live) (ho : g.origin = some i) :
    ∃ s' sh', myFree c w.state t g.ptr = .ok s' ∧
      Outlined c t ⟨s', without w.live g.ptr⟩ (v.setStock i v.os (v.stock i).put) sh' := by
  have A := O.accounted
  obtain ⟨x, hx, hptr, -⟩ := A.pooled g hg i ho
  have hst := stands_of_live hx
  have hxa := A.coherent.shelved.addr _ x hx
  have hxm := A.coherent.shelved.mapped _ x hx
  have hspot : ∀ S, x ∈ sh S → S = .live i := fun S hS ↦ A.coherent.shelved.apart _ _ x hS hx
  obtain ⟨s', sh', hrun, hback⟩ := A.settled.freePooled t hxa hxm hspot
  obtain ⟨s'', sh'', hrun', H'', hos, K, D⟩ := A.settled.putBack (O.stock i) hxa hxm hspot
  cases hrun.symm.trans hrun'
  obtain ⟨B, -⟩ := A.toBooked.returnSlot hptr (.inr hst) hback.step hback.settled.shelved hback.live
    hback.others hspot
  have hun : Uncaptured v.ts sh' := by
    intro b hb j hs
    rcases (hback.step.stands j _).mp hs with h | ⟨rfl, h | h⟩
    · exact O.uncaptured b hb j h
    · exact absurd h (by simp [CarvedFrom])
    · exact O.uncaptured b hb j (List.mem_singleton.mp h ▸ hst)
  refine ⟨s', sh', ?_, O.pooled ⟨B, hback.settled⟩ hun hback.step.general.2.2 (hos.trans O.os)
    (K.congr H'' hback.settled.shelved) (D.congr H'' hback.settled.shelved)⟩
  rw [A.myFree_pooled t hg ho, hptr]
  exact hrun

/-- What is written into payloads is not part of the outline. -/
theorem write (O : Outlined c t w v sh) (m' : Mem)
    (hm : ∀ x, m' x ≠ w.state.mem x → ∃ g ∈ w.live, InPayload w.state g x) :
    Outlined c t ⟨{ w.state with mem := m' }, w.live⟩ v sh where
  accounted := (O.accounted.write m' hm).1
  uncaptured := O.uncaptured
  os := O.os
  arenaSize := O.arenaSize
  stock i := (O.stock i).keep rfl rfl rfl
  others := O.others

/-- A refusal changes the kernel alone. -/
theorem refused (O : Outlined c t w v sh) (hmapped : os.mapped = w.state.os.mapped) :
    Outlined c t ⟨{ w.state with os := os }, w.live⟩ { v with os := os } sh where
  accounted := O.accounted.os hmapped
  uncaptured := O.uncaptured
  os := rfl
  arenaSize := O.arenaSize
  stock i := (O.stock i).keep rfl rfl rfl
  others := O.others

/-- A step of the general path changes the arenas and the free list. -/
theorem general (O : Outlined c t w v sh) {ts' : List Carved} {order' : List Nat}
    (A : Accounted c s' live' ts' order' sh) (hun : Uncaptured ts' sh) (hos : s'.os = os)
    (hpools : s'.pools = w.state.pools) (hsize : s'.arenaSize = w.state.arenaSize) :
    Outlined c t ⟨s', live'⟩ { v with os := os, ts := ts', order := order' } sh where
  accounted := A
  uncaptured := hun
  os := hos
  arenaSize := hsize.trans O.arenaSize
  stock i := (O.stock i).keep (by rw [hpools]) rfl rfl
  others := O.others

/-- A pointer that is renamed on the ledger stands for the same block. -/
theorem relabel (O : Outlined c t w v sh) (A : Accounted c w.state live' v.ts v.order sh) :
    Outlined c t ⟨w.state, live'⟩ v sh :=
  ⟨A, O.uncaptured, O.os, O.arenaSize, O.stock, O.others⟩

/-- The arena size is bounded and otherwise free. -/
theorem setArenaSize (O : Outlined c t w v sh) {size : Nat} (h : size < 2 ^ 64) :
    Outlined c t ⟨setArenaSizeForTesting w.state size, w.live⟩ { v with arenaSize := size } sh where
  accounted := ⟨O.accounted.withArenaSize h, (O.accounted.withArenaSize h).coherent.shelved,
    O.accounted.settled.idle, O.accounted.settled.cap⟩
  uncaptured := O.uncaptured
  os := O.os
  arenaSize := rfl
  stock i := (O.stock i).keep rfl rfl rfl
  others := O.others

end Outlined

/-- At program start. -/
def Outline.initial (os : Os) (arenaSize : Nat) : Outline :=
  ⟨os, arenaSize, [], [], fun _ ↦ ⟨0, []⟩⟩

/-- A state as at program start has nothing in stock. -/
theorem Outlined.initial (c : Config) (t : Tid) (mem : Mem) {os : Os} {arenaSize : Nat}
    (hos : os.mapped = []) (hsize : arenaSize < 2 ^ 64) :
    Outlined c t ⟨{ State.initial mem os.offers arenaSize with os := os }, []⟩
      (.initial os arenaSize) fun _ ↦ [] where
  accounted := (Accounted.initial c mem os.offers hsize).os hos
  uncaptured b hb := by
    simp [Outline.initial, Allocated, blocksOf] at hb
  os := rfl
  arenaSize := rfl
  stock i := ⟨rfl, rfl, fun _ ↦ rfl, fun _ ↦ rfl⟩
  others _ _ _ := rfl

/-- What `allocator_shutdown` leaves of an outline. -/
def Outline.shutdown (v : Outline) : Outline :=
  let regions := v.ts.map (fun t ↦ t.arena.region) ++
    (List.finRange numSizeClasses).flatMap fun i ↦ (v.stock i).arenas
  .initial (releaseAll ⟨fun _ ↦ 0, v.os⟩ regions).os v.arenaSize

/-- A shutdown uses up no offer. -/
theorem Outline.shutdown_offers (v : Outline) : v.shutdown.os.offers = v.os.offers := by
  simp only [Outline.shutdown, releaseAll_eq]
  rfl

/-- `allocator_shutdown` leaves the outline of a program start with the same arena size. -/
theorem Outlined.shutdown (O : Outlined c t w v sh) :
    Outlined c t ⟨allocatorShutdown w.state t, []⟩ v.shutdown fun _ ↦ [] := by
  have hregions : regionsOf w.state = v.ts.map (fun t ↦ t.arena.region) ++
      (List.finRange numSizeClasses).flatMap fun i ↦ (v.stock i).arenas := by
    rw [regionsOf, O.arenas_eq, List.map_map]
    simp only [(O.stock _).arenas]
    rfl
  have hos : (releaseAll w.state.toMachine (regionsOf w.state)).os = v.shutdown.os := by
    rw [releaseAll_eq, hregions, O.os, Outline.shutdown, releaseAll_eq]
    rfl
  have hmapped : v.shutdown.os.mapped = [] := by
    rw [← hos, releaseAll_eq]
    exact foldl_erase_perm O.accounted.coherent.regions.held
  have hcaches : ∀ u i, (if u = t then ⟨0, 0, 0⟩ else w.state.caches u i) =
      (⟨0, 0, 0⟩ : ThreadLocalCache) := by
    intro u i
    split
    · rfl
    · next hu =>
      have H := O.accounted.coherent.shelved.cacheHolds u i
      rw [O.others u i hu] at H
      have hhead : (w.state.caches u i).head = 0 := H.chain
      have htail : (w.state.caches u i).tail = 0 := H.tail_eq
      have hcount : (w.state.caches u i).count = 0 := H.count_eq
      rw [ThreadLocalCache.mk.injEq]
      exact ⟨hhead, htail, hcount⟩
  have hstate : allocatorShutdown w.state t = { State.initial w.state.mem v.shutdown.os.offers
      v.arenaSize with os := v.shutdown.os } := by
    rw [allocatorShutdown_eq w.state t fun i ↦ O.accounted.coherent.shelved.shape i, ← hos]
    simp only [State.initial, hcaches, releaseAll_eq, O.arenaSize]
  rw [hstate]
  exact Outlined.initial c t w.state.mem hmapped (O.arenaSize ▸ O.accounted.coherent.arenaSize_lt)

end CustomAllocator
