import CustomAllocator.Properties.Reallocation

/-!
# Failure atomicity

A public call that returns null, whatever its arguments and however the kernel answered, has
changed nothing but the kernel's remaining answers and its log. No byte of memory, arena, list
head, pool or cache differs, so nothing has to be undone by a later call.
-/

namespace CustomAllocator
open CustomAllocator.Base

/-- The state after a call that gave up: the kernel `os'` has moved on, all else is as it was. -/
def State.unserved (s : State) (os' : Os) : State :=
  { s with os := { s.os with offers := os'.offers, log := os'.log } }

variable {c : Config} {s s' : State} {live : List Grant} {ts : List Carved} {order : List Nat}
  {sh : Shelves} {g : Grant} {t : Tid} {w : Session} {size count newSize : Nat} {call : Call}

theorem State.unserved_eq {os : Os} (h : os.mapped = s.os.mapped) :
    ({ s with os := os } : State) = s.unserved os := by
  simp only [State.unserved, ← h]

/-- Two results of one call are equal. -/
private theorem ok_inj {run : Except Fault (State × Nat)} {a : State × Nat}
    (h : run = .ok a) (h' : run = .ok (s', 0)) : a = (s', 0) :=
  Except.ok.inj (h.symm.trans h')

namespace Accounted

/-- A null result of `my_malloc`. -/
theorem malloc_null (A : Accounted c s live ts order sh)
    (hrun : myMalloc c s t size = .ok (s', 0)) : s' = s.unserved s'.os := by
  by_cases hsize : size ≤ sizeMax - 47
  · rcases A.malloc t (show size + 47 < 2 ^ 64 by unfold sizeMax at hsize; omega) with
      ⟨os, hrun', hos⟩ | ⟨s₁, p, ts', order', sh', hrun', G⟩
    · obtain ⟨rfl, -⟩ := Prod.mk.inj (ok_inj hrun' hrun)
      exact State.unserved_eq hos
    · exact absurd (Prod.mk.inj (ok_inj hrun' hrun)).2 G.ptr_new.1
  · rcases A.malloc_wrapped hsize hrun with ⟨-, hex⟩ | ⟨hne, -⟩
    · obtain ⟨os, hrun', hos⟩ := hex.refuses A.coherent.heap.rep A.coherent.arenaSize_lt
      obtain ⟨rfl, -⟩ :=
        Prod.mk.inj (ok_inj ((myMalloc_wrapped c s t hsize).trans hrun') hrun)
      exact State.unserved_eq hos
    · exact absurd rfl hne

/-- A null result of `my_calloc`. -/
theorem calloc_null (A : Accounted c s live ts order sh)
    (hrun : myCalloc c s t count size = .ok (s', 0)) : s' = s.unserved s'.os := by
  by_cases hover : sizeMax < count * size
  · obtain ⟨rfl, -⟩ := Prod.mk.inj (ok_inj (calloc_overflow c s t hover) hrun)
    rfl
  · rw [calloc_eq c s t (by omega)] at hrun
    obtain ⟨⟨s₁, p⟩, hrun₁, hrun⟩ := bind_eq_ok.mp hrun
    dsimp only at hrun
    by_cases hp : p = 0
    · rw [if_pos hp] at hrun
      obtain ⟨rfl, -⟩ := Prod.mk.inj (Except.ok.inj hrun)
      exact A.malloc_null (hp ▸ hrun₁)
    · rw [if_neg hp] at hrun
      exact absurd (Prod.mk.inj (Except.ok.inj hrun)).2 hp

/-- Moving to a size that wraps returns null only from an exhausted heap. -/
theorem moveTo_null (A : Accounted c s live ts order sh) {ptr k : Nat}
    (hwrap : ¬ newSize ≤ sizeMax - 47)
    (hrun : CustomAllocator.moveTo c s t ptr newSize k = .ok (s', 0)) :
    s' = s.unserved s'.os := by
  rcases A.moveTo_wrapped hwrap hrun with ⟨-, hex⟩ | ⟨hne, -⟩
  · obtain ⟨os, hnull, hos⟩ := hex.refuses A.coherent.heap.rep A.coherent.arenaSize_lt
    have hrun' : CustomAllocator.moveTo c s t ptr newSize k = .ok ({ s with os := os }, 0) := by
      simp only [CustomAllocator.moveTo, myMalloc_wrapped c s t hwrap, hnull, ok_bind, if_true]
    obtain ⟨rfl, -⟩ := Prod.mk.inj (ok_inj hrun' hrun)
    exact State.unserved_eq hos
  · exact absurd rfl hne

/-- A null result of `my_realloc` for a live pointer. -/
theorem realloc_null (A : Accounted c s live ts order sh) (hg : g ∈ live)
    (hrun : myRealloc c s t g.ptr newSize = .ok (s', 0)) : s' = s.unserved s'.os := by
  by_cases hsize : newSize ≤ sizeMax - 47
  · rcases A.realloc t hg (show newSize + 47 < 2 ^ 64 by unfold sizeMax at hsize; omega) with
      ⟨os, hrun', hos⟩ | ⟨s₁, q, live', ts', order', sh', hrun', hq, -⟩
    · obtain ⟨rfl, -⟩ := Prod.mk.inj (ok_inj hrun' hrun)
      exact State.unserved_eq hos
    · exact absurd (Prod.mk.inj (ok_inj hrun' hrun)).2 hq
  have hptr : g.ptr ≠ 0 := by
    have := (A.ptr_aligned hg).2.1
    omega
  -- A size that wraps is never served in place from a pool, and a block's pointer is not null.
  by_cases hk : isKnownPool c (tagOf s.mem g.ptr) = true
  · rcases (A.realloc_known t newSize hg hk).2 with ⟨-, hrun'⟩ | ⟨-, hmove⟩
    · exact absurd (Prod.mk.inj (ok_inj hrun' hrun)).2 hptr
    · exact A.moveTo_null hsize (hmove ▸ hrun)
  · rcases A.realloc_unknown t newSize hg hk with ⟨-, -, hmove⟩ | ⟨-, s₁, hrun', -⟩
    · exact A.moveTo_null hsize (hmove ▸ hrun)
    · exact absurd (Prod.mk.inj (ok_inj hrun' hrun)).2 hptr

end Accounted

/-- In every reachable session, an allocating call with any arguments that returns null leaves
the whole state as it was, and every later call as if it had not been made. -/
theorem failure_atomic (h : Reachable c t anyCall w) (legal : call.Legal w.live)
    (hcall : ∀ ptr, call ≠ .free ptr) (hrun : exec c w.state t call = .ok (s', 0)) :
    s' = w.state.unserved s'.os ∧
      ∀ u later, exec c s' u later = exec c (w.state.unserved s'.os) u later := by
  obtain ⟨ts, order, sh, A, -⟩ := h.accounted
  have hsame : s' = w.state.unserved s'.os := by
    cases call with
    | malloc size => exact A.malloc_null hrun
    | calloc count size => exact A.calloc_null hrun
    | realloc ptr newSize =>
      rcases legal with h0 | ⟨g, hg, hp⟩
      · simp only [Call.argument] at h0
        subst h0
        have hnull : myRealloc c w.state t 0 newSize = myMalloc c w.state t newSize := if_pos rfl
        exact A.malloc_null (hnull.symm.trans hrun)
      · simp only [Call.argument] at hp
        subst hp
        exact A.realloc_null hg hrun
    | free ptr => exact absurd rfl (hcall ptr)
  exact ⟨hsame, fun u later ↦ congrArg (exec c · u later) hsame⟩

/-- With the kernel's offers used up, a request beyond the arena is refused. -/
theorem failure_atomic_twoBlocks :
    ∃ s', exec .fixedBase Session.twoBlocks.state 0 (.malloc 70000) = .ok (s', 0) ∧
      s' = Session.twoBlocks.state.unserved s'.os := by
  have hnull : (exec .fixedBase Session.twoBlocks.state 0 (.malloc 70000)).toOption.map
      Prod.snd = some 0 := by
    decide +kernel
  cases hrun : exec .fixedBase Session.twoBlocks.state 0 (.malloc 70000) with
  | error e => simp [hrun, Except.toOption] at hnull
  | ok out =>
    obtain ⟨s', r⟩ := out
    rw [hrun] at hnull
    obtain rfl : r = 0 := by simpa [Except.toOption] using hnull
    exact ⟨s', rfl, (failure_atomic (Session.twoBlocks_reachable fun _ _ _ ↦ trivial) (.inl rfl)
      (by simp) hrun).1⟩

end CustomAllocator
