import CustomAllocator.Alloc.Api
import CustomAllocator.Pool.Steps

/-!
# Whole pooled calls

The pooled parts of `my_malloc` and `my_free` in every stage, from a state in which no batch
is in transit and no cache is over its cap to another such state. A call hands out or takes
back exactly one slot.
-/

namespace CustomAllocator
open CustomAllocator.Base

/-- Between calls: no batch is in transit, and no cache holds more than its cap. -/
structure Settled (c : Config) (s : State) (sh : Shelves) : Prop where
  shelved : Shelved c s noTransit sh
  idle : ∀ t i, sh (.transit t i) = []
  cap : ∀ t i, (sh (.cache t i)).length ≤ threadLocalCacheCap

variable {c : Config} {s : State} {sh : Shelves} {t : Tid} {i : Fin numSizeClasses}

/-- A batch that has come and gone leaves no record. -/
theorem setTransit_clear (t : Tid) (i : Fin numSizeClasses) (h : Nat) :
    setTransit (setTransit noTransit t i h) t i 0 = noTransit := by
  funext u j
  by_cases hu : u = t ∧ j = i <;> simp [setTransit, hu, noTransit]

/-- What a call that hands out slot `x` of class `i` achieves. -/
structure HandedOut (c : Config) (s : State) (sh : Shelves) (i : Fin numSizeClasses) (x : Nat)
    (s' : State) (sh' : Shelves) (rs : List OsRegion) : Prop where
  settled : Settled c s' sh'
  live : sh' (.live i) = x :: sh (.live i)
  others : ∀ j, j ≠ i → sh' (.live j) = sh (.live j)
  step : SlotStep i rs [] s sh s' sh'

/-- Popping from a nonempty cache hands out its first slot. -/
theorem Settled.pop (H : Settled c s sh) (hne : sh (.cache t i) ≠ []) :
    ∃ s' sh' x, popFromCache c s t i = .ok (s', x + 16) ∧ HandedOut c s sh i x s' sh' [] := by
  obtain ⟨x, l, hl⟩ := List.exists_cons_of_ne_nil hne
  have hcap := H.cap t i
  rw [hl, List.length_cons] at hcap
  unfold threadLocalCacheCap threadLocalCacheBatchSize at hcap
  obtain ⟨s', hrun, H', hstep⟩ := H.shelved.popFromCache hl (by omega)
  refine ⟨s', _, x, hrun, ⟨H', fun u j ↦ ?_, fun u j ↦ ?_⟩, ?_, fun j hj ↦ ?_, hstep⟩
  · rw [Shelves.move_other (by simp) (by simp)]
    exact H.idle u j
  · by_cases hu : Spot.cache u j = .cache t i
    · rw [hu, Shelves.move_fst]
      unfold threadLocalCacheCap threadLocalCacheBatchSize
      omega
    · rw [Shelves.move_other hu (by simp)]
      exact H.cap u j
  · exact Shelves.move_snd (by simp)
  · exact Shelves.move_other (by simp) (by simpa using hj)

/-- Refilling an empty cache either fails without a trace, or leaves a nonempty cache. -/
theorem Settled.refill (H : Settled c s sh) (t : Tid) (hempty : sh (.cache t i) = []) :
    (∃ os b, refillBatch c s i = .ok ({ s with os := os }, b) ∧ b.head = 0 ∧
      os.mapped = s.os.mapped) ∨
    ∃ s' sh' rs b, refillBatch c s i = .ok (s', b) ∧ b.head ≠ 0 ∧
      Settled c (installBatch s' t i b) sh' ∧ sh' (.cache t i) ≠ [] ∧
      (∀ j, sh' (.live j) = sh (.live j)) ∧
      SlotStep i rs [] s sh (installBatch s' t i b) sh' := by
  obtain ⟨s', b, taken, l, rs, hrun, H₁, hstep₁, hb, hcaches, hlen, -, hnone⟩ :=
    H.shelved.refillBatch (i := i) t (H.idle t i)
  have hhead := hb.chain.head_eq_nil_iff
  by_cases ht : taken = []
  · left
    obtain ⟨hs, hos⟩ := hnone ht
    exact ⟨s'.os, b, by rw [hrun, ← hs], hhead.mpr ht, hos⟩
  right
  have htaken : (sh.move (.pool i) l (.transit t i) taken) (.transit t i) = taken :=
    Shelves.move_snd (by simp)
  have hcache : (sh.move (.pool i) l (.transit t i) taken) (.cache t i) = [] := by
    rw [Shelves.move_other (by simp) (by simp), hempty]
  obtain ⟨H₂, hstep₂⟩ := H₁.installBatch (htaken ▸ hb) hcache
  rw [htaken] at H₂ hstep₂
  refine ⟨s', _, rs ++ [], b, hrun, fun h ↦ ht (hhead.mp h),
    ⟨setTransit_clear t i _ ▸ H₂, fun u j ↦ ?_, fun u j ↦ ?_⟩, ?_, fun j ↦ ?_,
    hstep₁.trans hstep₂⟩
  · by_cases hu : Spot.transit u j = .transit t i
    · rw [hu, Shelves.move_fst]
    · rw [Shelves.move_other hu (by simp), Shelves.move_other (by simp) hu]
      exact H.idle u j
  · by_cases hu : Spot.cache u j = .cache t i
    · rw [hu, Shelves.move_snd (by simp)]
      exact Nat.le_trans hlen (by decide)
    · rw [Shelves.move_other (by simp) hu, Shelves.move_other (by simp) (by simp)]
      exact H.cap u j
  · rw [Shelves.move_snd (by simp)]
    exact ht
  · rw [Shelves.move_other (by simp) (by simp), Shelves.move_other (by simp) (by simp)]

/-- A pooled allocation either fails and changes only the kernel's log, or hands out one slot. -/
theorem Settled.mallocPooled (H : Settled c s sh) (t : Tid) (i : Fin numSizeClasses) :
    (∃ os, mallocPooled c s t i = .ok ({ s with os := os }, 0) ∧ os.mapped = s.os.mapped) ∨
    ∃ s' sh' rs x, mallocPooled c s t i = .ok (s', x + 16) ∧
      HandedOut c s sh i x s' sh' rs := by
  unfold CustomAllocator.mallocPooled
  -- Stages 1 and 2 share one path; Stage 3 has a cache hit and a refill.
  have hshared : (∃ os, ((s.pools i).allocate c (c.poolAddr i) s.toMachine >>= fun r ↦
        Except.ok ((s.setMachine r.1).setPool i r.2.1, r.2.2)) = .ok ({ s with os := os }, 0) ∧
          os.mapped = s.os.mapped) ∨
      ∃ s' sh' rs x, ((s.pools i).allocate c (c.poolAddr i) s.toMachine >>= fun r ↦
        Except.ok ((s.setMachine r.1).setPool i r.2.1, r.2.2)) = .ok (s', x + 16) ∧
          HandedOut c s sh i x s' sh' rs := by
    rcases H.shelved.allocate i with ⟨os, hrun, hos⟩ | ⟨k, p, rs, x, l, hrun, H', hstep, -⟩
    · refine .inl ⟨os, ?_, hos⟩
      have hpools : (fun j ↦ if j = i then s.pools i else s.pools j) = s.pools := by
        funext j
        split
        · next h => rw [h]
        · rfl
      simp only [hrun, ok_bind, State.setPool, State.setMachine, hpools]
    · refine .inr ⟨_, _, rs, x, by simp only [hrun, ok_bind], ⟨H', fun u j ↦ ?_, fun u j ↦ ?_⟩,
        Shelves.move_snd (by simp), fun j hj ↦ ?_, hstep⟩
      · rw [Shelves.move_other (by simp) (by simp)]
        exact H.idle u j
      · rw [Shelves.move_other (by simp) (by simp)]
        exact H.cap u j
      · exact Shelves.move_other (by simp) (by simpa using hj)
  cases c.stage with
  | globalLock => exact hshared
  | poolLocks => exact hshared
  | threadCaches =>
    simp only [mallocPooledStage3]
    have hhead := (H.shelved.cacheHolds t i).chain.head_eq_nil_iff
    by_cases h0 : (s.caches t i).head = 0
    · rw [if_pos h0]
      rcases H.refill (c := c) (i := i) t (hhead.mp h0) with
        ⟨os, b, hrun, hb, hos⟩ | ⟨s₁, sh₁, rs, b, hrun, hb, H₁, hne, hlive, hstep₁⟩
      · exact .inl ⟨os, by simp only [hrun, ok_bind, hb, if_true], hos⟩
      · right
        obtain ⟨s', sh', x, hpop, hout⟩ := H₁.pop hne
        exact ⟨s', sh', rs ++ [], x, by simp only [hrun, ok_bind, hb, if_false, hpop],
          hout.settled, by rw [hout.live, hlive], fun j hj ↦ by rw [hout.others j hj, hlive],
          hstep₁.trans hout.step⟩
    · right
      rw [if_neg h0]
      obtain ⟨s', sh', x, hpop, hout⟩ := H.pop (t := t) (i := i) fun h ↦ h0 (hhead.mpr h)
      exact ⟨s', sh', [], x, hpop, hout⟩

/-- What a call that takes back slot `x` of class `i` achieves. -/
structure TakenBack (c : Config) (s : State) (sh : Shelves) (i : Fin numSizeClasses) (x : Nat)
    (s' : State) (sh' : Shelves) : Prop where
  settled : Settled c s' sh'
  live : sh' (.live i) = (sh (.live i)).erase x
  others : ∀ j, j ≠ i → sh' (.live j) = sh (.live j)
  step : SlotStep i [] [x] s sh s' sh'

/-- Flushing a cache that has just outgrown its cap restores the cap. -/
theorem Shelved.flush (H : Shelved c s noTransit sh) (hidle : ∀ u j, sh (.transit u j) = [])
    (hcap : ∀ u j, (sh (.cache u j)).length ≤ threadLocalCacheCap + 1)
    (hothers : ∀ u j, ¬ (u = t ∧ j = i) → (sh (.cache u j)).length ≤ threadLocalCacheCap)
    (hover : threadLocalCacheCap < (sh (.cache t i)).length) :
    ∃ s' sh', flushBatchToPool s t i = .ok s' ∧ Settled c s' sh' ∧
      (∀ j, sh' (.live j) = sh (.live j)) ∧ SlotStep i [] [] s sh s' sh' := by
  have hlen := hcap t i
  unfold threadLocalCacheCap threadLocalCacheBatchSize at hlen
  have hne : sh (.cache t i) ≠ [] := fun h ↦ by simp [h] at hover
  obtain ⟨s₁, xs, d, ys, hrun₁, hl, hbatch, H₁, hstep₁⟩ :=
    H.detachBatch t (hidle t i) hne (by omega)
  have htransit : (sh.move (.cache t i) ys (.transit t i) (xs ++ [d])) (.transit t i) =
      xs ++ [d] := Shelves.move_snd (by simp)
  obtain ⟨s₂, hrun₂, -, H₂, hstep₂⟩ := H₁.spliceBatch htransit
  rw [setTransit_same] at hrun₂
  rw [setTransit_clear] at H₂
  refine ⟨s₂, _, by simp only [flushBatchToPool, hrun₁, ok_bind, hrun₂],
    ⟨H₂, fun u j ↦ ?_, fun u j ↦ ?_⟩, fun j ↦ ?_, hstep₁.trans hstep₂⟩
  · by_cases hu : Spot.transit u j = .transit t i
    · rw [hu, Shelves.move_fst]
    · rw [Shelves.move_other hu (by simp), Shelves.move_other (by simp) hu]
      exact hidle u j
  · rw [Shelves.move_other (by simp) (by simp)]
    by_cases hu : u = t ∧ j = i
    · obtain ⟨rfl, rfl⟩ := hu
      rw [Shelves.move_fst]
      have := congrArg List.length hl
      simp only [List.length_append, List.length_cons, List.length_nil] at this
      rcases hbatch with hx | ⟨-, rfl⟩
      · unfold threadLocalCacheCap threadLocalCacheBatchSize at *
        omega
      · exact Nat.zero_le _
    · rw [Shelves.move_other (by simpa using hu) (by simp)]
      exact hothers u j hu
  · rw [Shelves.move_other (by simp) (by simp), Shelves.move_other (by simp) (by simp)]

/-- A pooled free takes one slot back: a live one, or one that stood nowhere. -/
theorem Settled.freePooled (H : Settled c s sh) (t : Tid) {x : Nat} (hx : SlotAddr x)
    (hxm : InMapped s.os.mapped x) (hspot : ∀ S, x ∈ sh S → S = .live i) :
    ∃ s' sh', freePooled c s t i (x + 16) = .ok s' ∧ TakenBack c s sh i x s' sh' := by
  have hsub : sub64 (x + 16) sizeofPoolSlotHeader = x := by
    rw [sub64_of_le (by unfold sizeofPoolSlotHeader; omega) hx.2.2]
    simp
  have hshared : ∃ s' sh', ((s.pools i).deallocate s.mem (x + 16) >>= fun r ↦
        Except.ok ({ s with mem := r.1 }.setPool i r.2)) = .ok s' ∧
          TakenBack c s sh i x s' sh' := by
    obtain ⟨m, p, hrun, H', hstep⟩ := H.shelved.deallocate hx hxm hspot
    refine ⟨_, _, by simp only [hrun, ok_bind], ⟨H', fun u j ↦ ?_, fun u j ↦ ?_⟩,
      Shelves.move_fst, fun j hj ↦ ?_, hstep⟩
    · rw [Shelves.move_other (by simp) (by simp)]
      exact H.idle u j
    · rw [Shelves.move_other (by simp) (by simp)]
      exact H.cap u j
    · exact Shelves.move_other (by simpa using hj) (by simp)
  unfold CustomAllocator.freePooled
  cases c.stage with
  | globalLock => exact hshared
  | poolLocks => exact hshared
  | threadCaches =>
    have hcap := H.cap t i
    unfold threadLocalCacheCap threadLocalCacheBatchSize at hcap
    obtain ⟨s₁, hrun₁, H₁, hstep₁⟩ := H.shelved.pushToCache t hx hxm hspot (by omega)
    have hcache : (sh.move (.live i) ((sh (.live i)).erase x) (.cache t i)
        (x :: sh (.cache t i))) (.cache t i) = x :: sh (.cache t i) :=
      Shelves.move_snd (by simp)
    have hcount := (H₁.linked (.cache t i)).2.2
    rw [hcache, List.length_cons] at hcount
    have hidle₁ : ∀ u j, (sh.move (.live i) ((sh (.live i)).erase x) (.cache t i)
        (x :: sh (.cache t i))) (.transit u j) = [] := fun u j ↦ by
      rw [Shelves.move_other (by simp) (by simp)]
      exact H.idle u j
    have hothers : ∀ u j, ¬ (u = t ∧ j = i) → ((sh.move (.live i) ((sh (.live i)).erase x)
        (.cache t i) (x :: sh (.cache t i))) (.cache u j)).length ≤ threadLocalCacheCap := by
      intro u j hu
      rw [Shelves.move_other (by simp) (by simpa using hu)]
      exact H.cap u j
    simp only [freePooledStage3, hsub, hrun₁, ok_bind, overCap, hcount, decide_eq_true_eq]
    by_cases hover : threadLocalCacheCap < (sh (.cache t i)).length + 1
    · rw [if_pos hover]
      have hall : ∀ u j, ((sh.move (.live i) ((sh (.live i)).erase x) (.cache t i)
          (x :: sh (.cache t i))) (.cache u j)).length ≤ threadLocalCacheCap + 1 := by
        intro u j
        by_cases hu : u = t ∧ j = i
        · obtain ⟨rfl, rfl⟩ := hu
          rw [hcache, List.length_cons]
          exact Nat.succ_le_succ (H.cap u j)
        · exact Nat.le_succ_of_le (hothers u j hu)
      obtain ⟨s', sh', hrun, H', hlive, hstep⟩ := H₁.flush hidle₁ hall hothers
        (by rw [hcache]; exact hover)
      exact ⟨s', sh', hrun, H', by rw [hlive, Shelves.move_fst], fun j hj ↦ by
        rw [hlive, Shelves.move_other (by simpa using hj) (by simp)], hstep₁.trans hstep⟩
    · rw [if_neg hover]
      refine ⟨s₁, _, rfl, ⟨H₁, hidle₁, fun u j ↦ ?_⟩, Shelves.move_fst, fun j hj ↦ ?_, hstep₁⟩
      · by_cases hu : u = t ∧ j = i
        · obtain ⟨rfl, rfl⟩ := hu
          rw [hcache, List.length_cons]
          omega
        · exact hothers u j hu
      · exact Shelves.move_other (by simpa using hj) (by simp)

end CustomAllocator
