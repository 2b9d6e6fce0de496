import CustomAllocator.Concurrent.Invariant

/-!
# What a step moves

Every step of a thread moves slots between two spots of one class, at most one of which
belongs to a thread: its own. This, and the effect of a step on the ledger, is all that the
other threads' knowledge depends on.
-/

namespace CustomAllocator
open CustomAllocator.Base

/-- How a step of thread `t` from phase `ph` to phase `ph'` moves slots. -/
inductive Motion (t : Tid) (sh : Shelves) : Phase → Phase → Shelves → Prop
  | still {ph ph' : Phase}
      (cap : ∀ i, (sh (.cache t i)).length ≤ threadLocalCacheCap + ph'.excess i) :
      Motion t sh ph ph' sh
  /-- The first slot of the cache is handed out. -/
  | pop {ph : Phase} {i : Fin numSizeClasses} {size x : Nat} {use : Purpose} {l : List Nat}
      (clear : ∀ j, ph.excess j = 0) (cache : sh (.cache t i) = x :: l) :
      Motion t sh ph (.got size (x + 16) use)
        (sh.move (.cache t i) l (.live i) (x :: sh (.live i)))
  /-- A live slot becomes the first of the cache. -/
  | push {i : Fin numSizeClasses} {x tag : Nat} {sequel : Sequel} (live : x ∈ sh (.live i)) :
      Motion t sh (.tagged (x + 16) tag sequel) (.pushed i sequel)
        (sh.move (.live i) ((sh (.live i)).erase x) (.cache t i) (x :: sh (.cache t i)))
  /-- A batch is taken from the pool because the cache is empty. -/
  | refill {i : Fin numSizeClasses} {size : Nat} {b : SlotBatch} {use : Purpose}
      {l taken : List Nat} (empty : sh (.cache t i) = [])
      (length_le : taken.length ≤ threadLocalCacheBatchSize) :
      Motion t sh (.malloc size use) (.refilled size i b use)
        (sh.move (.pool i) l (.transit t i) taken)
  /-- The batch becomes the cache. -/
  | install {i : Fin numSizeClasses} {size : Nat} {b : SlotBatch} {use : Purpose}
      (empty : sh (.cache t i) = [])
      (length_le : (sh (.transit t i)).length ≤ threadLocalCacheBatchSize) :
      Motion t sh (.refilled size i b use) (.stocked size i use)
        (sh.move (.transit t i) [] (.cache t i) (sh (.transit t i)))
  /-- A batch is cut off the front of the cache. -/
  | detach {i : Fin numSizeClasses} {xs ys : List Nat} {hd d : Nat} {sequel : Sequel}
      (cache : sh (.cache t i) = xs ++ [d] ++ ys)
      (full : xs.length + 1 = threadLocalCacheBatchSize)
      (large : threadLocalCacheCap < (sh (.cache t i)).length) :
      Motion t sh (.pushed i sequel) (.detached i hd d sequel)
        (sh.move (.cache t i) ys (.transit t i) (xs ++ [d]))
  /-- The batch is put in front of the pool's chain. -/
  | splice {i : Fin numSizeClasses} {hd d : Nat} {sequel : Sequel} :
      Motion t sh (.detached i hd d sequel) (.idle sequel.result)
        (sh.move (.transit t i) [] (.pool i) (sh (.transit t i) ++ sh (.pool i)))
  /-- Without caches, a slot is taken from the pool. -/
  | take {i : Fin numSizeClasses} {size x : Nat} {use : Purpose} {l : List Nat} :
      Motion t sh (.malloc size use) (.got size (x + 16) use)
        (sh.move (.pool i) l (.live i) (x :: sh (.live i)))
  /-- Without caches, a live slot goes back to the pool. -/
  | put {i : Fin numSizeClasses} {x tag : Nat} {sequel : Sequel} (live : x ∈ sh (.live i)) :
      Motion t sh (.tagged (x + 16) tag sequel) (.idle sequel.result)
        (sh.move (.live i) ((sh (.live i)).erase x) (.pool i) (x :: sh (.pool i)))

variable {c : Config} {y y' : System} {t u : Tid} {ts ts' : List Carved}
  {order order' : List Nat} {sh sh' : Shelves} {g : Grant} {i : Fin numSizeClasses}
  {K : Grant → Prop} {s : State} {ph ph' : Phase}

/-- A step moves no slot of another thread's cache or batch. -/
theorem Motion.others (M : Motion t sh ph ph' sh') (hu : u ≠ t) (i : Fin numSizeClasses) :
    sh' (.cache u i) = sh (.cache u i) ∧ sh' (.transit u i) = sh (.transit u i) := by
  cases M <;> simp [Shelves.move, hu]

/-- A step keeps the own cache within its cap. -/
theorem Motion.cap (M : Motion t sh ph ph' sh')
    (h : ∀ i, (sh (.cache t i)).length ≤ threadLocalCacheCap + ph.excess i)
    (j : Fin numSizeClasses) :
    (sh' (.cache t j)).length ≤ threadLocalCacheCap + ph'.excess j := by
  have hj := h j
  have hcap : threadLocalCacheCap = 64 := rfl
  have hbatch : threadLocalCacheBatchSize = 32 := rfl
  cases M with
  | still cap => exact cap j
  | @pop _ i _ _ _ l clear cache =>
    rw [clear j] at hj
    by_cases hij : j = i
    · subst hij
      rw [cache, List.length_cons] at hj
      rw [Shelves.move_fst]
      exact Nat.le_trans (Nat.le_succ _) hj
    · rwa [Shelves.move_other (by simp [hij]) (by simp)]
  | @push i x _ _ live =>
    by_cases hij : j = i
    · subst hij
      rw [Shelves.move_snd (by simp), List.length_cons]
      simpa [Phase.excess] using hj
    · rw [Shelves.move_other (by simp) (by simp [hij])]
      simpa [Phase.excess, hij] using hj
  | refill empty length_le => rwa [Shelves.move_other (by simp) (by simp)]
  | @install i _ _ _ empty length_le =>
    by_cases hij : j = i
    · subst hij
      rw [Shelves.move_snd (by simp)]
      omega
    · rwa [Shelves.move_other (by simp) (by simp [hij])]
  | @detach i xs ys _ _ _ cache full _ =>
    by_cases hij : j = i
    · subst hij
      rw [cache] at hj
      simp only [Phase.excess, if_true, List.length_append, List.length_singleton] at hj
      rw [Shelves.move_fst]
      omega
    · rw [Shelves.move_other (by simp [hij]) (by simp)]
      simpa [Phase.excess, hij] using hj
  | splice => rwa [Shelves.move_other (by simp) (by simp)]
  | take => rwa [Shelves.move_other (by simp) (by simp)]
  | put live => rwa [Shelves.move_other (by simp) (by simp)]

/-- A step of thread `t` disturbs no other thread when it keeps their phases and grants. -/
theorem Motion.undisturbed (M : Motion t sh ph ph' sh')
    (hphase : ∀ u, u ≠ t → y'.phase u = y.phase u)
    (hkeeps : ∀ u, u ≠ t → Keeps y y' u everyGrant) : Undisturbed y sh t y' sh' where
  phase := hphase
  keeps := hkeeps
  cache _ hu i := (M.others hu i).1
  transit _ hu i := (M.others hu i).2

/-- A step that leaves a thread where it rests moves no slot. -/
theorem Motion.rest (M : Motion t sh ph ph sh') (h : ph.AtRest) : sh' = sh := by
  cases M with
  | still cap => rfl
  | pop clear cache => exact absurd h id

/-! ### What a step keeps -/

@[simp] theorem System.setPhase_same (y : System) (t : Tid) (ph : Phase) :
    (y.setPhase t ph).phase t = ph := if_pos rfl

theorem System.setPhase_ne (y : System) (ph : Phase) (hu : u ≠ t) :
    (y.setPhase t ph).phase u = y.phase u := if_neg hu

/-- Changing the phase to one with the same batch leaves the batches in transit alone. -/
theorem System.transit_same {z : System} (hz : z.phase = y.phase)
    (h : ∀ j, ph.batch j = (y.phase t).batch j) : (z.setPhase t ph).transit = y.transit := by
  funext u j
  by_cases hu : u = t
  · simp only [transit, hu, setPhase_same, h]
  · simp only [transit, setPhase_ne z ph hu, hz]

/-- Changing the phase to one with another batch of class `i` records that batch. -/
theorem System.transit_set {z : System} (hz : z.phase = y.phase) {hd : Nat}
    (h : ∀ j, ph.batch j = if j = i then hd else (y.phase t).batch j) :
    (z.setPhase t ph).transit = setTransit y.transit t i hd := by
  funext u j
  by_cases hu : u = t
  · subst hu
    simp only [transit, setTransit, setPhase_same, h, true_and]
  · simp only [transit, setTransit, setPhase_ne z ph hu, hu, false_and, if_false, hz]

/-- A step that leaves the ledger alone and spares its grants. -/
theorem Keeps.same (ph : Phase) (hsp : Spared y.state s y.live) (u : Tid) :
    Keeps y ((y.setState s).setPhase t ph) u everyGrant where
  began := rfl
  owned _ hg ho _ := ⟨hg, ho⟩
  spared g hg _ _ := hsp g hg

/-- A step that adds a grant. -/
theorem Keeps.grant {size p : Nat} (ph : Phase)
    (hnd : ((⟨p, size, originOf size⟩ :: y.live : List Grant).map Grant.ptr).Nodup)
    (hsp : Spared y.state s y.live) (u : Tid) :
    Keeps y (((y.setState s).grant t size p).setPhase t ph) u everyGrant where
  began := rfl
  owned g hg ho _ := by
    refine ⟨List.mem_cons_of_mem _ hg, ?_⟩
    have hne : g.ptr ≠ p := fun he ↦
      (List.nodup_cons.mp hnd).1 (List.mem_map.mpr ⟨g, hg, he⟩)
    exact (if_neg hne).trans ho
  spared g hg _ _ := hsp g hg

/-- A step that takes back the pointer `p`. -/
theorem Keeps.takeBack {p : Nat} (ph : Phase) (hsp : Spared y.state s (without y.live p))
    (u : Tid) : Keeps y (((y.setState s).takeBack p).setPhase t ph) u fun g ↦ g.ptr ≠ p where
  began := rfl
  owned _ hg ho hne := ⟨mem_without.mpr ⟨hg, hne⟩, ho⟩
  spared g hg _ hne := hsp g (mem_without.mpr ⟨hg, hne⟩)

/-- A step that grows the block at `p` in place. -/
theorem Keeps.renew {p newSize : Nat} (ph : Phase) (hsp : Spared y.state s (without y.live p))
    (u : Tid) :
    Keeps y (((y.setState s).renew p newSize).setPhase t ph) u fun g ↦ g.ptr ≠ p where
  began := rfl
  owned g hg ho hne := ⟨mem_renewed.mpr ⟨g, hg, .inr ⟨hne, rfl⟩⟩, ho⟩
  spared g hg _ hne := hsp g (mem_without.mpr ⟨hg, hne⟩)

/-- A step that writes into the block at `p`. -/
theorem Keeps.write {p : Nat} (ph : Phase) (hsp : Spared y.state s (without y.live p))
    (u : Tid) : Keeps y ((y.setState s).setPhase t ph) u fun g ↦ g.ptr ≠ p where
  began := rfl
  owned _ hg ho _ := ⟨hg, ho⟩
  spared g hg _ hne := hsp g (mem_without.mpr ⟨hg, hne⟩)

/-- Whoever does not own the pointer `p` keeps everything. -/
theorem Keeps.every {p : Nat} (N : Keeps y y' u fun g ↦ g.ptr ≠ p) (howner : y.owner p = t)
    (hu : u ≠ t) : Keeps y y' u everyGrant := by
  have hne : ∀ g : Grant, y.owner g.ptr = u → g.ptr ≠ p := fun g ho he ↦
    hu (ho.symm.trans (he ▸ howner))
  constructor
  · exact N.began
  · intro g hg ho _
    exact N.owned g hg ho (hne g ho)
  · intro g hg ho _
    exact N.spared g hg ho (hne g ho)

/-! ### What a step achieves -/

/-- A reallocation that returns `r`, not null, has kept the bytes both sizes share. -/
def ContentsKept (y : System) (t : Tid) (r : Nat) : Prop :=
  ∀ ptr newSize, (y.began t).1 = .realloc ptr newSize → ptr ≠ 0 → r ≠ 0 →
    ∃ g ∈ (y.began t).2.live, g.ptr = ptr ∧ ∃ q ∈ y.live, q.ptr = r ∧ q.requested = newSize ∧
      y.owner r = t ∧ ∀ k, k < usable (y.began t).2.state g → k < newSize →
        y.state.mem (r + k) = (y.began t).2.state.mem (ptr + k)

/-- The pointer that `my_malloc` is about to return. -/
def Phase.handed : Phase → Nat
  | got _ p _ => p
  | _ => 0

/-- The grants `kept` are as long in both states. -/
def SameSize (s s' : State) (kept : List Grant) : Prop :=
  ∀ g ∈ kept, usable s' g = usable s g

/-- What a step of thread `t` from state `s` to `s'` does to the ledger: nothing, hand out a fresh
pointer, take back the one it frees, or resize the one it reallocates. -/
inductive LedgerMove (t : Tid) (s s' : State) (live : List Grant) :
    Phase → Phase → List Grant → Prop
  | still {ph ph' : Phase} (quiet : ph'.handed = 0 ∨ ph' = ph) (sized : SameSize s s' live) :
      LedgerMove t s s' live ph ph' live
  | grant {ph : Phase} {size p : Nat} {use : Purpose} (fresh : ∀ g ∈ live, g.ptr ≠ p)
      (general : originOf size = none → ph = .malloc size use) (sized : SameSize s s' live) :
      LedgerMove t s s' live ph (.got size p use) (⟨p, size, originOf size⟩ :: live)
  | takeBack {ph' : Phase} {ptr tag : Nat} {sequel : Sequel} (quiet : ph'.handed = 0)
      (sized : SameSize s s' (without live ptr)) :
      LedgerMove t s s' live (.tagged ptr tag sequel) ph' (without live ptr)
  | renew {ptr newSize tag : Nat} (sized : SameSize s s' (without live ptr)) :
      LedgerMove t s s' live (.retagged ptr newSize tag) (.idle ptr) (renewed live ptr newSize)

theorem Spared.sameSize {s' : State} {kept : List Grant} (h : Spared s s' kept) :
    SameSize s s' kept := fun g hg ↦ (h g hg).1

theorem Spared.without {s' : State} {live : List Grant} (h : Spared s s' live) (p : Nat) :
    Spared s s' (without live p) := h.mono fun _ hg ↦ (mem_without.mp hg).1

theorem SameSize.refl (s : State) (kept : List Grant) : SameSize s s kept := fun _ _ ↦ rfl

/-- A pool acquires a region only when its chain is empty. -/
def Supplied (c : Config) (s s' : State) (sh' : Shelves) : Prop :=
  ∀ i, (s'.pools i).arenas = (s.pools i).arenas ∨
    (sh' (.pool i)).length ≤ arenaSlots c (classSize i + 16)

/-- What an action of thread `t` achieves. -/
structure Acted (c : Config) (y : System) (sh : Shelves) (t : Tid) (y' : System)
    (ts' : List Carved) (order' : List Nat) (sh' : Shelves) : Prop where
  consistent : Consistent c y' ts' order' sh'
  undisturbed : Undisturbed y sh t y' sh'
  motion : Motion t sh (y.phase t) (y'.phase t) sh'
  ledger : LedgerMove t y.state y'.state y.live (y.phase t) (y'.phase t) y'.live
  supplied : Supplied c y.state y'.state sh'

/-- The pointer whose block the next step writes to, resizes or takes back. -/
def Phase.target : Phase → Nat
  | got _ _ .malloc => 0
  | got _ p _ | tagged p _ _ | retagged p _ _ => p
  | _ => 0

/-- What the next step of thread `t` in its call achieves. -/
structure Advanced (c : Config) (y : System) (sh : Shelves) (t : Tid) (y' : System)
    (ts' : List Carved) (order' : List Nat) (sh' : Shelves) : Prop
    extends Acted c y sh t y' ts' order' sh' where
  contentsKept : ∀ r, y'.phase t = .idle r → ContentsKept y' t r
  spared : Spared y.state y'.state (without y.live (y.phase t).target)

end CustomAllocator
