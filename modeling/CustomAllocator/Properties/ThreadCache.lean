import CustomAllocator.Concurrent.Runs

/-!
# The thread-local caches

Head, tail, count and chain of a cache agree in every interleaving, and the cache is a stack:
frees push, allocations pop, a refill happens only when it is empty, and a flush moves one batch
from its top to the front of the pool's chain.
-/

namespace CustomAllocator
open CustomAllocator.Base

/-- Thread `t`'s class `i` cache holds the slots `l`, and the batch it carries the slots `b`. -/
structure CacheView (y : System) (t : Tid) (i : Fin numSizeClasses) (l b : List Nat) : Prop where
  chain : Chain (read64 y.state.mem) 0 (y.state.caches t i).head l
  count : (y.state.caches t i).count = l.length
  tail : (y.state.caches t i).tail = l.getLastD 0
  head_null : (y.state.caches t i).head = 0 ↔ (y.state.caches t i).count = 0
  tail_null : (y.state.caches t i).tail = 0 ↔ (y.state.caches t i).count = 0
  batch : Chain (read64 y.state.mem) 0 ((y.phase t).batch i) b

/-- What an action that leads from `y` to `y'` does to a cache and the batch of its thread. -/
inductive CacheMove (y y' : System) (t : Tid) (i : Fin numSizeClasses) :
    List Nat → List Nat → List Nat → List Nat → Prop
  | keep {l b : List Nat} : CacheMove y y' t i l b l b
  /-- `my_malloc` returns the top of the stack. -/
  | pop {x size : Nat} {l b : List Nat} {use : Purpose}
      (returned : y'.phase t = .got size (x + 16) use) : CacheMove y y' t i (x :: l) b l b
  /-- `my_free` puts its slot on top. -/
  | push {x tag : Nat} {l b : List Nat} {sequel : Sequel}
      (freed : y.phase t = .tagged (x + 16) tag sequel) : CacheMove y y' t i l b (x :: l) b
  /-- The empty stack asks the pool for a batch, which may be partial or empty. -/
  | take {b : List Nat} (length_le : b.length ≤ threadLocalCacheBatchSize) :
      CacheMove y y' t i [] [] [] b
  /-- The batch becomes the stack. -/
  | install {b : List Nat} : CacheMove y y' t i [] b b []
  /-- A stack over its cap gives up a batch from its top. -/
  | detach {xs l : List Nat} (full : xs.length = threadLocalCacheBatchSize)
      (large : threadLocalCacheCap < (xs ++ l).length) : CacheMove y y' t i (xs ++ l) [] l xs
  /-- The batch goes to the front of the pool's chain, in its order. -/
  | splice {xs l rest : List Nat} (full : xs.length = threadLocalCacheBatchSize)
      (before : Chain (read64 y.state.mem) 0 (y.state.pools i).freeHead rest)
      (after : Chain (read64 y'.state.mem) 0 (y'.state.pools i).freeHead (xs ++ rest)) :
      CacheMove y y' t i l xs l []

variable {c : Config} {y y' : System} {t u : Tid} {ts ts' : List Carved}
  {order order' : List Nat} {sh sh' : Shelves}

/-- The shelves are what the caches and batches hold. -/
theorem Consistent.cacheView (C : Consistent c y ts order sh) (t : Tid)
    (i : Fin numSizeClasses) :
    CacheView y t i (sh (.cache t i)) (sh (.transit t i)) := by
  have H := C.booked.coherent.shelved
  obtain ⟨hchain, htail, hcount⟩ := H.linked (.cache t i)
  have hnil := hchain.head_eq_nil_iff
  constructor
  · exact hchain
  · exact hcount
  · exact htail
  · rw [hcount, hnil, List.length_eq_zero_iff]
  · rw [hcount, htail, List.length_eq_zero_iff]
    rcases List.eq_nil_or_concat (sh (.cache t i)) with h | ⟨xs, x, h⟩
    · simp [h]
    · have hx := (H.addr (.cache t i) x (by simp [h])).1
      simp only [h, List.concat_eq_append, List.getLastD_concat, List.append_eq_nil_iff,
        List.cons_ne_self, and_false, iff_false]
      omega
  · exact H.linked (.transit t i)

/-- Every action moves the slots of a cache and a batch as a stack does. -/
theorem Acted.cacheMove (A : Acted c y sh u y' ts' order' sh') (C : Consistent c y ts order sh)
    (t : Tid) (i : Fin numSizeClasses) :
    CacheMove y y' t i (sh (.cache t i)) (sh (.transit t i)) (sh' (.cache t i))
      (sh' (.transit t i)) := by
  by_cases hu : t = u
  swap
  · rw [A.undisturbed.cache t hu, A.undisturbed.transit t hu]
    exact .keep
  subst hu
  have hok := C.phases t
  have hnil := C.transit_nil (t := t) (i := i)
  have hpool := A.consistent.booked.coherent.shelved.linked (.pool i)
  have M := A.motion
  have hcap := C.cap t i
  generalize hph : y.phase t = ph at M hok hnil hcap
  generalize hph' : y'.phase t = ph' at M
  cases M with
  | still cap => exact .keep
  | @pop _ j size x use l clear cache =>
    rw [Shelves.move_other (S := .transit t i) (by simp) (by simp)]
    by_cases hj : i = j
    · subst hj
      rw [Shelves.move_fst, cache]
      exact .pop hph'
    · rw [Shelves.move_other (by simp [hj]) (by simp)]
      exact .keep
  | @push j x tag sequel live =>
    rw [Shelves.move_other (S := .transit t i) (by simp) (by simp)]
    by_cases hj : i = j
    · subst hj
      rw [Shelves.move_snd (by simp)]
      exact .push hph
    · rw [Shelves.move_other (by simp) (by simp [hj])]
      exact .keep
  | @refill j size b use l taken empty length_le =>
    rw [Shelves.move_other (S := .cache t i) (by simp) (by simp)]
    by_cases hj : i = j
    · subst hj
      rw [Shelves.move_snd (by simp), hnil rfl, empty]
      exact .take length_le
    · rw [Shelves.move_other (by simp) (by simp [hj])]
      exact .keep
  | @install j size b use empty length_le =>
    by_cases hj : i = j
    · subst hj
      rw [Shelves.move_fst, Shelves.move_snd (by simp), empty]
      exact .install
    · rw [Shelves.move_other (S := .cache t i) (by simp) (by simp [hj]),
        Shelves.move_other (by simp [hj]) (by simp)]
      exact .keep
  | @detach j xs ys hd d sequel cache full large =>
    by_cases hj : i = j
    · subst hj
      rw [Shelves.move_fst, Shelves.move_snd (by simp), hnil rfl, cache]
      rw [cache] at large
      exact .detach (by simpa using full) large
    · rw [Shelves.move_other (S := .cache t i) (by simp [hj]) (by simp),
        Shelves.move_other (by simp) (by simp [hj])]
      exact .keep
  | @splice j hd d sequel =>
    rw [Shelves.move_other (S := .cache t i) (by simp) (by simp)]
    by_cases hj : i = j
    · subst hj
      rw [Shelves.move_fst]
      obtain ⟨-, xs, hxs, hfull⟩ := hok
      refine .splice ?_ (C.booked.coherent.shelved.linked (.pool i)) ?_
      · rw [hxs, List.length_append]
        exact hfull
      · simpa only [Linked, Shelves.move_snd (show Spot.transit t i ≠ .pool i by simp)] using hpool
    · rw [Shelves.move_other (by simp [hj]) (by simp)]
      exact .keep
  | take =>
    rw [Shelves.move_other (S := .cache t i) (by simp) (by simp),
      Shelves.move_other (by simp) (by simp)]
    exact .keep
  | put live =>
    rw [Shelves.move_other (S := .cache t i) (by simp) (by simp),
      Shelves.move_other (by simp) (by simp)]
    exact .keep

/-- In every reachable system the parts of every cache agree, the cap holds between the
operations of its thread, and every action of any thread completes and treats the cache as a
stack. -/
theorem thread_cache (h : System.Reachable c y) (t : Tid) (i : Fin numSizeClasses) :
    ∃ l b, CacheView y t i l b ∧
      ((y.phase t).AtRest → (y.state.caches t i).count ≤ threadLocalCacheCap ∧ b = []) ∧
      ∀ a : Action, a.Legal c y → ∃ y' l' b', y.act c a = .ok y' ∧ CacheView y' t i l' b' ∧
        CacheMove y y' t i l b l' b' := by
  obtain ⟨ts, order, sh, C⟩ := h.consistent
  have V := C.cacheView t i
  refine ⟨_, _, V, fun hrest ↦ ⟨?_, C.transit_nil (hrest.clear i).1⟩, fun a legal ↦ ?_⟩
  · have hcap := C.cap t i
    rwa [(hrest.clear i).2, ← V.count] at hcap
  · obtain ⟨y', ts', order', sh', hact, A⟩ := C.act legal
    exact ⟨y', _, _, hact, A.consistent.cacheView t i, A.cacheMove C t i⟩

theorem thread_cache_handover : (System.handover.state.caches 0 3).count = 31 ∧
    ∃ l b, CacheView .handover 0 3 l b ∧ (System.handover.state.caches 0 3).count ≤ 64 := by
  obtain ⟨l, b, hview, hrest, -⟩ := thread_cache System.handover_reachable 0 3
  exact ⟨by decide +kernel, l, b, hview, (hrest (by decide +kernel)).1⟩

end CustomAllocator
