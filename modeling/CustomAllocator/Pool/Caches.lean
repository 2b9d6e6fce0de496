import CustomAllocator.Alloc.Cache
import CustomAllocator.Pool.Supply

/-!
# Thread-local cache operations

Specifications of the unlocked steps on a thread's own cache: popping a slot, pushing a
freed one, and detaching a batch from the front. Each names the word it writes; the cache
and the detached batch are chains before and after.
-/

namespace CustomAllocator
open CustomAllocator.Base

/-- A cache object describes the list of slots `l`. -/
abbrev CacheHolds (m : Mem) (cache : ThreadLocalCache) (l : List Nat) : Prop :=
  SlotList m cache.head cache.tail cache.count l

variable {c : Config} {s : State} {t : Tid} {i : Fin numSizeClasses} {l : List Nat}

/-- Popping hands out the first slot, tagged with its pool. -/
theorem popFromCache_spec {x : Nat} (H : CacheHolds s.mem (s.caches t i) (x :: l))
    (hlen : l.length + 1 < 2 ^ 64) :
    SlotAddr x ∧ x ∉ l ∧ ∃ cache, popFromCache c s t i =
        .ok ({ s with mem := write64 s.mem x (c.poolAddr i) }.setCache t i cache, x + 16) ∧
      CacheHolds (write64 s.mem x (c.poolAddr i)) cache l := by
  have hx := H.addr x (by simp)
  have hl : ∀ y ∈ l, SlotAddr y := fun y hy ↦ H.addr y (by simp [hy])
  have hnd := List.nodup_cons.mp H.chain.nodup
  obtain ⟨hhead, -, htail⟩ := H.chain
  have hcount : sub64 (s.caches t i).count 1 = l.length := by
    rw [H.count_eq, List.length_cons, sub64_of_le (by omega) hlen]
    omega
  refine ⟨hx, hnd.1, ⟨read64 s.mem x, if read64 s.mem x = 0 then 0 else (s.caches t i).tail,
    l.length⟩, ?_, ⟨chain_write htail hl hx hnd.1, ?_, rfl, hl⟩⟩
  · simp only [popFromCache, hhead, loadNext_ok hx, storeWord_ok hx, ok_bind, hcount]
    rw [add64_of_lt (show x + sizeofPoolSlotHeader < 2 ^ 64 from hx.2.2)]
  · cases l with
    | nil => exact if_pos htail
    | cons y ys =>
      have hy0 : read64 s.mem x ≠ 0 := fun h ↦ htail.2.1 (htail.1.symm.trans h)
      simp only [if_neg hy0]
      rw [H.tail_eq, List.getLastD_cons, List.getLastD_cons, List.getLastD_cons]

/-- Pushing puts a freed slot first. -/
theorem pushToCache_spec {x : Nat} (H : CacheHolds s.mem (s.caches t i) l) (hx : SlotAddr x)
    (hn : x ∉ l) (hlen : l.length + 1 < 2 ^ 64) :
    ∃ cache, pushToCache s t i x =
        .ok ({ s with mem := write64 s.mem x (s.caches t i).head }.setCache t i cache) ∧
      CacheHolds (write64 s.mem x (s.caches t i).head) cache (x :: l) := by
  have hhead := chain_head_lt H.chain H.addr
  have hcount : add64 (s.caches t i).count 1 = l.length + 1 := by
    rw [H.count_eq, add64_of_lt hlen]
  refine ⟨⟨x, if (s.caches t i).head = 0 then x else (s.caches t i).tail, l.length + 1⟩, ?_,
    ⟨(chain_write H.chain H.addr hx hn).push (Nat.ne_of_gt hx.1)
      (read64_write64_same _ _ hhead) fun _ _ ↦ rfl, ?_, by simp, fun y hy ↦ ?_⟩⟩
  · simp only [pushToCache, storeWord_ok hx, ok_bind, hcount]
  · cases l with
    | nil =>
      have h0 : (s.caches t i).head = 0 := H.chain
      simp [h0]
    | cons y ys =>
      have hy0 : (s.caches t i).head ≠ 0 := fun h ↦ by
        simpa using H.chain.head_eq_nil_iff.mp h
      simp only [if_neg hy0]
      rw [H.tail_eq, List.getLastD_cons, List.getLastD_cons, List.getLastD_cons]
  · rcases List.mem_cons.mp hy with rfl | hy
    · exact hx
    · exact H.addr y hy

/-- The loop of a flush walks at most `n` slots further and counts them. -/
theorem detachLoop_spec {m : Mem} (n count : Nat) {d : Nat} (hc : Chain (read64 m) 0 d (d :: l))
    (hl : ∀ y ∈ d :: l, SlotAddr y) :
    ∃ xs e ys, d :: l = xs ++ e :: ys ∧ (xs.length = n ∨ xs.length < n ∧ ys = []) ∧
      detachLoop m n d count = .ok (e, count + xs.length) := by
  induction n generalizing d count l with
  | zero => exact ⟨[], d, l, rfl, .inl rfl, rfl⟩
  | succ n ih =>
    have hd := hl d (by simp)
    obtain ⟨-, -, htail⟩ := hc
    unfold detachLoop
    rw [loadNext_ok hd, ok_bind]
    cases l with
    | nil =>
      rw [if_pos (show read64 m d = 0 from htail)]
      exact ⟨[], d, [], rfl, .inr ⟨by simp, rfl⟩, rfl⟩
    | cons y ys =>
      have hy0 : read64 m d ≠ 0 := fun h ↦ htail.2.1 (htail.1.symm.trans h)
      have hy : read64 m d = y := htail.1
      rw [if_neg hy0, hy]
      obtain ⟨xs, e, zs, heq, hlen, hrun⟩ := ih (count + 1) (hy ▸ htail)
        fun z hz ↦ hl z (by simp [List.mem_cons.mp hz])
      refine ⟨d :: xs, e, zs, by simp [heq], ?_, ?_⟩
      · rcases hlen with hlen | ⟨hlen, hzs⟩
        · exact .inl (by simp [hlen])
        · exact .inr ⟨by simpa using hlen, hzs⟩
      · rw [hrun, List.length_cons]
        congr 2
        omega

/-- Detaching cuts up to a batch of slots off the front of a nonempty cache. -/
theorem detachBatch_spec (H : CacheHolds s.mem (s.caches t i) l) (hne : l ≠ [])
    (hlen : l.length < 2 ^ 64) :
    ∃ xs d ys cache, l = xs ++ [d] ++ ys ∧
      detachBatch s t i = .ok ({ s with mem := write64 s.mem d 0 }.setCache t i cache,
        (s.caches t i).head, d) ∧
      CacheHolds (write64 s.mem d 0) cache ys ∧
      Chain (read64 (write64 s.mem d 0)) 0 (s.caches t i).head (xs ++ [d]) ∧
      (xs.length + 1 = threadLocalCacheBatchSize ∨
        xs.length + 1 < threadLocalCacheBatchSize ∧ ys = []) := by
  obtain ⟨h, l, rfl⟩ := List.exists_cons_of_ne_nil hne
  have hh : (s.caches t i).head = h := H.chain.1
  have hc := H.chain
  rw [hh] at hc
  obtain ⟨xs, d, ys, heq, hxs, hrun⟩ :=
    detachLoop_spec (threadLocalCacheBatchSize - 1) 1 hc H.addr
  have heq' : h :: l = xs ++ [d] ++ ys := by simpa using heq
  have haddr : ∀ y ∈ xs ++ [d] ++ ys, SlotAddr y := heq' ▸ H.addr
  have hd := haddr d (by simp)
  have hnd := heq' ▸ H.chain.nodup
  rw [List.nodup_append] at hnd
  have hdx : ∀ y ∈ xs, y ≠ d := fun y hy ↦
    (List.nodup_append.mp hnd.1).2.2 y hy d (by simp)
  have hdy : ∀ y ∈ ys, y ≠ d := fun y hy he ↦ hnd.2.2 d (by simp) y hy he.symm
  have hread : ∀ y, y ∈ xs ++ [d] ++ ys → y ≠ d →
      read64 (write64 s.mem d 0) y = read64 s.mem y := by
    intro y hy hne
    have := (haddr y hy).2.1
    have := hd.2.1
    exact read64_write64_of_ne _ _ (by omega) (by omega) hne
  obtain ⟨hfront, hback⟩ := (heq' ▸ hc).cut (read64_write64_same _ _ (by decide))
    (fun y hy ↦ hread y (by simp [hy]) (hdx y hy))
    fun y hy ↦ hread y (by simp [hy]) (hdy y hy)
  have hlens : l.length + 1 = xs.length + 1 + ys.length := by
    have := congrArg List.length heq'
    simp only [List.length_cons, List.length_append, List.length_nil] at this
    omega
  have hcount : sub64 (s.caches t i).count (1 + xs.length) = ys.length := by
    rw [H.count_eq, List.length_cons]
    rw [List.length_cons] at hlen
    rw [sub64_of_le (by omega) hlen]
    omega
  refine ⟨xs, d, ys, ⟨read64 s.mem d, if read64 s.mem d = 0 then 0 else (s.caches t i).tail,
    ys.length⟩, heq', ?_, ⟨hback, ?_, rfl, fun y hy ↦ haddr y (by simp [hy])⟩, hh ▸ hfront, ?_⟩
  · simp only [detachBatch, hh, hrun, ok_bind, loadNext_ok hd, storeWord_ok hd, hcount]
  · cases ys with
    | nil => exact if_pos hback
    | cons y ys =>
      have hy0 : read64 s.mem d ≠ 0 := fun h ↦ by simpa using hback.head_eq_nil_iff.mp h
      simp only [if_neg hy0]
      rw [H.tail_eq, heq']
      simp [List.getLast?_append, List.getLast?_cons]
  · rcases hxs with hxs | hxs
    · exact .inl (by rw [hxs]; rfl)
    · obtain ⟨hlt, hys⟩ := hxs
      exact .inr ⟨by omega, hys⟩

end CustomAllocator
