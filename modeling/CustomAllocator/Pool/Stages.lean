import CustomAllocator.Pool.Stock

/-!
# One stock in every stage

The slots at rest in a pool and in one thread's cache are one stock. Stages 1 and 2 take from it
one slot at a time; Stage 3 moves batches between cache and pool and takes single slots from the
cache. In all stages a pooled call takes one slot or puts one back, and asks the kernel for a
region at the same moments.
-/

namespace CustomAllocator
open CustomAllocator.Base

/-- Class `i` has the stock `k` when only thread `t` uses its cache. With caches the pool holds
whole batches; without them the cache is empty. -/
structure Stocks (c : Config) (t : Tid) (s : State) (sh : Shelves) (i : Fin numSizeClasses)
    (k : Stock) : Prop where
  arenas : (s.pools i).arenas = k.arenas
  idle : (sh (.pool i)).length + (sh (.cache t i)).length = k.idle
  batches : c.stage = .threadCaches → (sh (.pool i)).length % threadLocalCacheBatchSize = 0
  uncached : c.stage ≠ .threadCaches → sh (.cache t i) = []

variable {c : Config} {s s' : State} {tr tr' : Transit} {sh sh' : Shelves} {t u : Tid}
  {i j : Fin numSizeClasses} {k : Stock}

/-- Memory determines what is on the chains of pools and caches. -/
theorem Shelved.pool_eq (H : Shelved c s tr sh) (H' : Shelved c s tr' sh')
    (i : Fin numSizeClasses) : sh (.pool i) = sh' (.pool i) :=
  (H.poolHolds i).chain.unique (H'.poolHolds i).chain

theorem Shelved.cache_eq (H : Shelved c s tr sh) (H' : Shelved c s tr' sh') (t : Tid)
    (i : Fin numSizeClasses) : sh (.cache t i) = sh' (.cache t i) :=
  (H.cacheHolds t i).chain.unique (H'.cacheHolds t i).chain

/-- The stock does not depend on how the shelves were found. -/
theorem Stocks.congr (K : Stocks c t s sh i k) (H : Shelved c s tr sh) (H' : Shelved c s tr' sh') :
    Stocks c t s sh' i k := by
  obtain ⟨harenas, hidle, hbatches, huncached⟩ := K
  rw [H.pool_eq H'] at hidle hbatches
  rw [H.cache_eq H'] at hidle huncached
  exact ⟨harenas, hidle, hbatches, huncached⟩

/-- A class whose chains and regions are kept keeps its stock. -/
theorem Stocks.keep (K : Stocks c t s sh j k) (ha : (s'.pools j).arenas = (s.pools j).arenas)
    (hp : sh' (.pool j) = sh (.pool j)) (hc : sh' (.cache t j) = sh (.cache t j)) :
    Stocks c t s' sh' j k := by
  obtain ⟨harenas, hidle, hbatches, huncached⟩ := K
  rw [← hp] at hidle hbatches
  rw [← hc] at hidle huncached
  exact ⟨ha.trans harenas, hidle, hbatches, huncached⟩

/-- Nothing but class `i` of thread `t` has changed. -/
structure Aside (t : Tid) (i : Fin numSizeClasses) (s : State) (sh : Shelves) (s' : State)
    (sh' : Shelves) : Prop where
  arenas : ∀ j, j ≠ i → (s'.pools j).arenas = (s.pools j).arenas
  pool : ∀ j, j ≠ i → sh' (.pool j) = sh (.pool j)
  cache : ∀ u j, ¬ (u = t ∧ j = i) → sh' (.cache u j) = sh (.cache u j)

/-- The stocks of other classes stay. -/
theorem Aside.stocks (D : Aside t i s sh s' sh') (K : Stocks c t s sh j k) (hj : j ≠ i) :
    Stocks c t s' sh' j k :=
  K.keep (D.arenas j hj) (D.pool j hj) (D.cache t j fun h ↦ hj h.2)

theorem Aside.congr (D : Aside t i s sh s' sh') (H : Shelved c s' tr sh')
    {sh'' : Shelves} (H' : Shelved c s' tr' sh'') : Aside t i s sh s' sh'' := by
  refine ⟨D.arenas, fun j hj ↦ ?_, fun u j hu ↦ ?_⟩
  · rw [← H.pool_eq H' j]
    exact D.pool j hj
  · rw [← H.cache_eq H' u j]
    exact D.cache u j hu

/-! ### Taking a slot -/

/-- What the pool of class `i` is asked to take is a slot of the stock. -/
def Stock.draw (c : Config) (i : Fin numSizeClasses) (os : Os) (k : Stock) : Os × Stock × Bool :=
  k.take c (classSize i + 16) os

/-- A slot of the stock has been handed out, or null was returned. -/
def Drawn (c : Config) (t : Tid) (i : Fin numSizeClasses) (s : State) (sh : Shelves) (k : Stock)
    (run : Except Fault (State × Nat)) : Prop :=
  ((k.draw c i s.os).2.2 = false ∧ run = .ok ({ s with os := (k.draw c i s.os).1 }, 0)) ∨
  ∃ s' x sh', (k.draw c i s.os).2.2 = true ∧ run = .ok (s', x + 16) ∧
    Shelved c s' noTransit sh' ∧ s'.os = (k.draw c i s.os).1 ∧
    Stocks c t s' sh' i (k.draw c i s.os).2.1 ∧ Aside t i s sh s' sh'

/-- `Pool::allocate` takes from the stock when the cache is not used. -/
theorem Settled.drawShared (H : Settled c s sh) (hstage : c.stage ≠ .threadCaches)
    (K : Stocks c t s sh i k) :
    Drawn c t i s sh k ((s.pools i).allocate c (c.poolAddr i) s.toMachine >>= fun r ↦
      Except.ok ((s.setMachine r.1).setPool i r.2.1, r.2.2)) := by
  have hcache := K.uncached hstage
  have hk : (⟨(sh (.pool i)).length, (s.pools i).arenas⟩ : Stock) = k := by
    have := K.idle
    rw [hcache, List.length_nil, Nat.add_zero] at this
    rw [this, K.arenas]
  have htotal := (H.shelved.shape i).total_eq
  rcases (H.shelved.poolHolds i).free.takeOne (c := c) (c.poolAddr_word i).2.2 with
    ⟨hd, hrun⟩ | ⟨m, p, x, l, hd, hrun, hos, hstock, hf⟩
  · rw [hk, htotal] at hd hrun
    left
    refine ⟨hd, ?_⟩
    have hpools : (fun j ↦ if j = i then s.pools i else s.pools j) = s.pools := by
      funext j
      split
      · next h => rw [h]
      · rfl
    simp only [hrun, ok_bind, State.setPool, State.setMachine, hpools]
    rfl
  · rw [hk, htotal] at hd hos hstock
    rcases H.shelved.allocate i with ⟨os, hrun', -⟩ | ⟨m', p', rs, x', l', hrun', H', hstep, -⟩
    · cases hrun.symm.trans hrun'
    · cases hrun.symm.trans hrun'
      have hl : l' = l := by
        have := (H'.poolHolds i).chain
        rw [Shelves.move_fst, setPool_pools_same] at this
        exact this.unique hf.chain
      subst hl
      right
      refine ⟨_, x, _, hd, by simp only [hrun, ok_bind], H', hos, ?_, ?_⟩
      · rw [show (k.draw c i s.os).2.1 = _ from hstock]
        refine ⟨?_, ?_, fun h ↦ absurd h hstage, fun _ ↦ ?_⟩
        · rw [setPool_pools_same]
        · rw [Shelves.move_fst, Shelves.move_other (by simp) (by simp), hcache]
          rfl
        · rw [Shelves.move_other (by simp) (by simp), hcache]
      · refine ⟨fun j hj ↦ hstep.other_arenas j hj, fun j hj ↦ ?_, fun u j _ ↦ ?_⟩
        · exact Shelves.move_other (by simpa using hj) (by simp)
        · exact Shelves.move_other (by simp) (by simp)

/-- A nonempty cache serves a slot without the pool. -/
theorem Settled.drawHit (H : Settled c s sh) (K : Stocks c t s sh i k)
    (hstage : c.stage = .threadCaches) (hne : sh (.cache t i) ≠ []) :
    Drawn c t i s sh k (popFromCache c s t i) := by
  obtain ⟨x, l, hl⟩ := List.exists_cons_of_ne_nil hne
  have hcap := H.cap t i
  rw [hl, List.length_cons] at hcap
  unfold threadLocalCacheCap threadLocalCacheBatchSize at hcap
  have hidle := K.idle
  rw [hl, List.length_cons] at hidle
  obtain ⟨n, rs⟩ := k
  cases n with
  | zero =>
    dsimp only at hidle
    omega
  | succ n =>
  obtain ⟨s', hrun, H', hstep⟩ := H.shelved.popFromCache hl (by omega)
  have hregions := hstep.pool_arenas
  rw [List.append_nil] at hregions
  right
  have hpop : popFromCache c s t i = .ok (s', x + 16) := hrun
  refine ⟨s', x, _, rfl, hrun, H', ?_, ⟨hregions.trans K.arenas, ?_, fun h ↦ ?_, fun h ↦ ?_⟩,
    fun j hj ↦ hstep.other_arenas j hj, fun j hj ↦ ?_, fun u j hu ↦ ?_⟩
  · exact popFromCache_os hpop
  · rw [Shelves.move_other (by simp) (by simp), Shelves.move_fst]
    dsimp only [Stock.draw, Stock.take_idle] at hidle ⊢
    omega
  · rw [Shelves.move_other (by simp) (by simp)]
    exact K.batches h
  · exact absurd hstage h
  · exact Shelves.move_other (by simp) (by simp)
  · exact Shelves.move_other (by simpa using hu) (by simp)

/-- What a refill of an empty cache does to the stock: nothing, or one batch moves to the cache. -/
def Refilled (c : Config) (t : Tid) (i : Fin numSizeClasses) (s : State) (sh : Shelves)
    (k : Stock) : Prop :=
  ((k.draw c i s.os).2.2 = false ∧
    refillBatch c s i = .ok ({ s with os := (k.draw c i s.os).1 }, ⟨0, 0, 0⟩)) ∨
  ∃ s' b sh', (k.draw c i s.os).2.2 = true ∧ refillBatch c s i = .ok (s', b) ∧ b.head ≠ 0 ∧
    Settled c (installBatch s' t i b) sh' ∧ sh' (.cache t i) ≠ [] ∧
    s'.os = (k.draw c i s.os).1 ∧
    Stocks c t (installBatch s' t i b) sh' i (k.draw c i s.os).2.1.put ∧
    Aside t i s sh (installBatch s' t i b) sh'

/-- Refilling takes a batch from the pool when a slot can be taken from the stock. -/
theorem Settled.drawRefill (H : Settled c s sh) (hwhole : WholeBatches c) (K : Stocks c t s sh i k)
    (hstage : c.stage = .threadCaches) (hempty : sh (.cache t i) = []) :
    Refilled c t i s sh k := by
  have hk : (⟨(sh (.pool i)).length, (s.pools i).arenas⟩ : Stock) = k := by
    have := K.idle
    rw [hempty, List.length_nil, Nat.add_zero] at this
    rw [this, K.arenas]
  have htotal := (H.shelved.shape i).total_eq
  rcases (H.shelved.poolHolds i).free.takeBatch (c := c) (K.batches hstage)
    (by rw [htotal]; exact hwhole i) with
    ⟨hd, hrun⟩ | ⟨m, p, b, taken, l, hd, hrun, hos, hf, hb, hlen, hstock, hmod⟩
  · rw [hk, htotal] at hd hrun
    left
    refine ⟨hd, ?_⟩
    have hpools : (fun j ↦ if j = i then s.pools i else s.pools j) = s.pools := by
      funext j
      split
      · next h => rw [h]
      · rfl
    simp only [refillBatch, hrun, ok_bind, State.setPool, State.setMachine, hpools]
    rfl
  right
  rw [hk, htotal] at hd hos hstock
  have hrefill : refillBatch c s i = .ok ((s.setMachine m).setPool i p, b) := by
    simp only [refillBatch, hrun, ok_bind]
  have hne : taken ≠ [] := by
    rintro rfl
    exact absurd hlen (by decide)
  -- The batch and what is left of the chain, as they stand on the shelves.
  obtain ⟨s₁, b₁, taken₁, l₁, rs, hrun₁, H₁, hstep₁, hb₁, -⟩ :=
    H.shelved.refillBatch (i := i) t (H.idle t i)
  cases hrefill.symm.trans hrun₁
  have hl : l₁ = l := by
    have := (H₁.poolHolds i).chain
    rw [Shelves.move_fst, setPool_pools_same] at this
    exact this.unique hf.chain
  have ht : taken₁ = taken := hb₁.chain.unique hb.chain
  subst hl ht
  have htransit : (sh.move (.pool i) l₁ (.transit t i) taken₁) (.transit t i) = taken₁ :=
    Shelves.move_snd (by simp)
  have hcache : (sh.move (.pool i) l₁ (.transit t i) taken₁) (.cache t i) = [] := by
    rw [Shelves.move_other (by simp) (by simp), hempty]
  obtain ⟨H₂, -⟩ := H₁.installBatch (htransit ▸ hb₁) hcache
  rw [htransit] at H₂
  rcases H.refill (c := c) (i := i) t hempty with
    ⟨os, b', hrun', hb', -⟩ | ⟨s', sh', rs', b', hrun', hb', H', hcache', -, -⟩
  · have hbb : b = b' := congrArg Prod.snd (Except.ok.inj (hrefill.symm.trans hrun'))
    exact absurd (hb.chain.head_eq_nil_iff.mp (hbb ▸ hb')) hne
  cases hrefill.symm.trans hrun'
  refine ⟨_, b, sh', hd, hrefill, hb', H', hcache', hos, ?_, ?_⟩
  · refine Stocks.congr ?_ H₂ H'.shelved
    rw [show (k.draw c i s.os).2.1 = _ from hstock]
    refine ⟨?_, ?_, fun _ ↦ ?_, fun h ↦ absurd hstage h⟩
    · simp [installBatch, State.setCache, Stock.put]
    · rw [Shelves.move_other (by simp) (by simp), Shelves.move_fst, Shelves.move_snd (by simp)]
      simp only [Stock.put]
      unfold threadLocalCacheBatchSize at hlen
      omega
    · rw [Shelves.move_other (by simp) (by simp), Shelves.move_fst]
      exact hmod
  · have harenas : ∀ j, j ≠ i →
        ((installBatch ((s.setMachine m).setPool i p) t i b).pools j).arenas = (s.pools j).arenas :=
      fun j hj ↦ hstep₁.other_arenas j hj
    refine Aside.congr ⟨harenas, fun j hj ↦ ?_, fun u j hu ↦ ?_⟩ H₂ H'.shelved
    · rw [Shelves.move_other (by simp) (by simp), Shelves.move_other (by simpa using hj) (by simp)]
    · rw [Shelves.move_other (by simp) (by simpa using hu), Shelves.move_other (by simp) (by simp)]

/-- Changes beside one class compose. -/
theorem Aside.trans {s'' : State} {sh'' : Shelves} (D : Aside t i s sh s' sh')
    (D' : Aside t i s' sh' s'' sh'') : Aside t i s sh s'' sh'' :=
  ⟨fun j hj ↦ (D'.arenas j hj).trans (D.arenas j hj),
    fun j hj ↦ (D'.pool j hj).trans (D.pool j hj),
    fun u j hu ↦ (D'.cache u j hu).trans (D.cache u j hu)⟩

/-- In every stage a pooled allocation takes one slot from the stock of its class. -/
theorem Settled.draw (H : Settled c s sh) (hwhole : WholeBatches c) (K : Stocks c t s sh i k) :
    Drawn c t i s sh k (CustomAllocator.mallocPooled c s t i) := by
  have hshared := fun hstage ↦ H.drawShared hstage K
  have hcached : c.stage = .threadCaches → Drawn c t i s sh k (mallocPooledStage3 c s t i) := by
    intro hstage
    have hhead := (H.shelved.cacheHolds t i).chain.head_eq_nil_iff
    unfold mallocPooledStage3
    by_cases h0 : (s.caches t i).head = 0
    · rw [if_pos h0]
      rcases H.drawRefill hwhole K hstage (hhead.mp h0) with
        ⟨hd, hrun⟩ | ⟨s', b, sh', hd, hrun, hb, H', hne, hos, K', D⟩
      · left
        refine ⟨hd, ?_⟩
        simp only [hrun, ok_bind, if_true]
      · simp only [hrun, ok_bind, hb, if_false]
        right
        rcases H'.drawHit K' hstage hne with ⟨hd', -⟩ | ⟨s'', x, sh'', -, hrun', H'', hos', K'', D'⟩
        · cases hd'
        · exact ⟨s'', x, sh'', hd, hrun', H'', hos'.trans hos, K'', D.trans D'⟩
    · rw [if_neg h0]
      exact H.drawHit K hstage fun h ↦ h0 (hhead.mpr h)
  unfold CustomAllocator.mallocPooled
  cases hstage : c.stage with
  | globalLock => exact hshared (by rw [hstage]; decide)
  | poolLocks => exact hshared (by rw [hstage]; decide)
  | threadCaches => exact hcached hstage

/-! ### Putting a slot back -/

/-- A slot has been put back into the stock. -/
def PutBack (c : Config) (t : Tid) (i : Fin numSizeClasses) (s : State) (sh : Shelves) (k : Stock)
    (run : Except Fault State) : Prop :=
  ∃ s' sh', run = .ok s' ∧ Shelved c s' noTransit sh' ∧ s'.os = s.os ∧
    Stocks c t s' sh' i k.put ∧ Aside t i s sh s' sh'

/-- `Pool::deallocate` puts a slot back when the cache is not used. -/
theorem Settled.putShared (H : Settled c s sh) (hstage : c.stage ≠ .threadCaches)
    (K : Stocks c t s sh i k) {x : Nat} (hx : SlotAddr x) (hxm : InMapped s.os.mapped x)
    (hspot : ∀ S, x ∈ sh S → S = .live i) :
    PutBack c t i s sh k ((s.pools i).deallocate s.mem (x + 16) >>= fun r ↦
      Except.ok ({ s with mem := r.1 }.setPool i r.2)) := by
  obtain ⟨m, p, hrun, H', hstep⟩ := H.shelved.deallocate hx hxm hspot
  have hregions := hstep.pool_arenas
  rw [List.append_nil] at hregions
  refine ⟨_, _, by simp only [hrun, ok_bind], H', rfl, ⟨hregions.trans K.arenas, ?_,
    fun h ↦ absurd h hstage, fun _ ↦ ?_⟩, fun j hj ↦ hstep.other_arenas j hj, fun j hj ↦ ?_,
    fun u j _ ↦ ?_⟩
  · have := K.idle
    rw [Shelves.move_snd (by simp), Shelves.move_other (by simp) (by simp), List.length_cons]
    simp only [Stock.put]
    omega
  · rw [Shelves.move_other (by simp) (by simp)]
    exact K.uncached hstage
  · exact Shelves.move_other (by simp) (by simpa using hj)
  · exact Shelves.move_other (by simp) (by simp)

/-- Flushing an overfull cache moves one batch to the pool. -/
theorem Shelved.flushStock (H : Shelved c s noTransit sh) (hidle : sh (.transit t i) = [])
    (hlen : (sh (.cache t i)).length = threadLocalCacheCap + 1) (hstage : c.stage = .threadCaches)
    (K : Stocks c t s sh i k) :
    ∃ s' sh', flushBatchToPool s t i = .ok s' ∧ Shelved c s' noTransit sh' ∧ s'.os = s.os ∧
      Stocks c t s' sh' i k ∧ Aside t i s sh s' sh' := by
  unfold threadLocalCacheCap threadLocalCacheBatchSize at hlen
  have hne : sh (.cache t i) ≠ [] := fun h ↦ by simp [h] at hlen
  obtain ⟨s₁, xs, d, ys, hrun₁, hl, hbatch, H₁, hstep₁⟩ := H.detachBatch t hidle hne (by omega)
  have htransit : (sh.move (.cache t i) ys (.transit t i) (xs ++ [d])) (.transit t i) =
      xs ++ [d] := Shelves.move_snd (by simp)
  obtain ⟨s₂, hrun₂, -, H₂, hstep₂⟩ := H₁.spliceBatch htransit
  rw [setTransit_same] at hrun₂
  rw [setTransit_clear] at H₂
  have hflush : flushBatchToPool s t i = .ok s₂ := by
    simp only [flushBatchToPool, hrun₁, ok_bind, hrun₂]
  have hcount := congrArg List.length hl
  simp only [List.length_append, List.length_cons, List.length_nil] at hcount
  have hregions := (hstep₁.trans hstep₂).pool_arenas
  rw [List.append_nil, List.append_nil] at hregions
  have hxs : xs.length + 1 = 32 := by
    rcases hbatch with h | ⟨h, rfl⟩
    · exact h
    · unfold threadLocalCacheBatchSize at h
      rw [List.length_nil] at hcount
      omega
  refine ⟨s₂, _, hflush, H₂, flushBatchToPool_os hflush, ⟨hregions.trans K.arenas, ?_,
    fun h ↦ ?_, fun h ↦ absurd hstage h⟩, fun j hj ↦ (hstep₁.trans hstep₂).other_arenas j hj,
    fun j hj ↦ ?_, fun u j hu ↦ ?_⟩
  · have := K.idle
    have hpool : (sh.move (.cache t i) ys (.transit t i) (xs ++ [d])) (.pool i) = sh (.pool i) :=
      Shelves.move_other (by simp) (by simp)
    rw [hpool, Shelves.move_snd (by simp), Shelves.move_other (by simp) (by simp),
      Shelves.move_fst]
    simp only [List.length_append, List.length_cons, List.length_nil]
    omega
  · have := K.batches h
    rw [Shelves.move_snd (by simp), Shelves.move_other (by simp) (by simp)]
    unfold threadLocalCacheBatchSize at this ⊢
    simp only [List.length_append, List.length_cons, List.length_nil]
    omega
  · rw [Shelves.move_other (by simp) (by simpa using hj), Shelves.move_other (by simp) (by simp)]
  · rw [Shelves.move_other (by simp) (by simp), Shelves.move_other (by simpa using hu) (by simp)]

/-- A freed slot goes to the cache, and a batch to the pool when the cache overflows. -/
theorem Settled.putCached (H : Settled c s sh) (hstage : c.stage = .threadCaches)
    (K : Stocks c t s sh i k) {x : Nat} (hx : SlotAddr x) (hxm : InMapped s.os.mapped x)
    (hspot : ∀ S, x ∈ sh S → S = .live i) :
    PutBack c t i s sh k (freePooledStage3 s t i x) := by
  have hcap := H.cap t i
  unfold threadLocalCacheCap threadLocalCacheBatchSize at hcap
  obtain ⟨s₁, hrun₁, H₁, hstep₁⟩ := H.shelved.pushToCache t hx hxm hspot (by omega)
  have hcache : (sh.move (.live i) ((sh (.live i)).erase x) (.cache t i)
      (x :: sh (.cache t i))) (.cache t i) = x :: sh (.cache t i) :=
    Shelves.move_snd (by simp)
  have htransit : (sh.move (.live i) ((sh (.live i)).erase x) (.cache t i)
      (x :: sh (.cache t i))) (.transit t i) = [] := by
    rw [Shelves.move_other (by simp) (by simp)]
    exact H.idle t i
  have hcount := (H₁.linked (.cache t i)).2.2
  rw [hcache, List.length_cons] at hcount
  have hregions := hstep₁.pool_arenas
  rw [List.append_nil] at hregions
  have hos := pushToCache_os hrun₁
  have K₁ : Stocks c t s₁ (sh.move (.live i) ((sh (.live i)).erase x) (.cache t i)
      (x :: sh (.cache t i))) i k.put := by
    refine ⟨hregions.trans K.arenas, ?_, fun h ↦ ?_, fun h ↦ absurd hstage h⟩
    · have := K.idle
      rw [hcache, Shelves.move_other (by simp) (by simp), List.length_cons]
      simp only [Stock.put]
      omega
    · rw [Shelves.move_other (by simp) (by simp)]
      exact K.batches h
  have D₁ : Aside t i s sh s₁ (sh.move (.live i) ((sh (.live i)).erase x) (.cache t i)
      (x :: sh (.cache t i))) := by
    refine ⟨fun j hj ↦ hstep₁.other_arenas j hj, fun j hj ↦ ?_, fun u j hu ↦ ?_⟩
    · exact Shelves.move_other (by simp) (by simp)
    · exact Shelves.move_other (by simp) (by simpa using hu)
  simp only [freePooledStage3, hrun₁, ok_bind, overCap, hcount, decide_eq_true_eq]
  by_cases hover : threadLocalCacheCap < (sh (.cache t i)).length + 1
  · rw [if_pos hover]
    unfold threadLocalCacheCap threadLocalCacheBatchSize at hover
    obtain ⟨s₂, sh₂, hrun₂, H₂, hos₂, K₂, D₂⟩ := H₁.flushStock htransit
      (by
        rw [hcache, List.length_cons]
        unfold threadLocalCacheCap threadLocalCacheBatchSize
        omega) hstage K₁
    exact ⟨s₂, sh₂, hrun₂, H₂, hos₂.trans hos, K₂, D₁.trans D₂⟩
  · rw [if_neg hover]
    exact ⟨s₁, _, rfl, H₁, hos, K₁, D₁⟩

/-- In every stage a pooled free puts one slot back into the stock of its class. -/
theorem Settled.putBack (H : Settled c s sh) (K : Stocks c t s sh i k) {x : Nat} (hx : SlotAddr x)
    (hxm : InMapped s.os.mapped x) (hspot : ∀ S, x ∈ sh S → S = .live i) :
    PutBack c t i s sh k (CustomAllocator.freePooled c s t i (x + 16)) := by
  have hsub : sub64 (x + 16) sizeofPoolSlotHeader = x := by
    rw [sub64_of_le (by unfold sizeofPoolSlotHeader; omega) hx.2.2]
    simp
  have hshared := fun hstage ↦ H.putShared hstage K hx hxm hspot
  have hcached := fun hstage ↦ H.putCached hstage K hx hxm hspot
  unfold CustomAllocator.freePooled
  rw [hsub]
  cases hstage : c.stage with
  | globalLock => exact hshared (by rw [hstage]; decide)
  | poolLocks => exact hshared (by rw [hstage]; decide)
  | threadCaches => exact hcached hstage

end CustomAllocator
