import CustomAllocator.Pool.Spots

/-!
# The atomic steps of the pooled path

Each locked section and each unlocked cache operation of the pooled path, as a move of
slots between two spots of its class. `SlotStep` collects what every one of them leaves
alone: other pools' regions, the general path's records, and all memory but slot words and
fresh regions.
-/

namespace CustomAllocator
open CustomAllocator.Base

/-- The effect of pooled steps of class `i` on everything but the shelves themselves: the pool
grew by the regions `rs`, and the slots of these regions and of `extra` stand as well. -/
structure SlotStep (i : Fin numSizeClasses) (rs : List OsRegion) (extra : List Nat) (s : State)
    (sh : Shelves) (s' : State) (sh' : Shelves) : Prop where
  regions : NewRegions s.os.mapped rs s'.os.mapped
  pool_arenas : (s'.pools i).arenas = (s.pools i).arenas ++ rs
  other_arenas : ∀ j, j ≠ i → (s'.pools j).arenas = (s.pools j).arenas
  stands : ∀ j x, Stands sh' j x ↔
    Stands sh j x ∨ j = i ∧ (CarvedFrom (classSize i + 16) rs x ∨ x ∈ extra)
  words : ∀ a, (∀ x, Stands sh' i x → x ≤ a → x + 8 ≤ a) →
    (∀ r ∈ rs, r.base ≤ a → r.stop ≤ a) → s'.mem a = s.mem a
  general : s'.arenas = s.arenas ∧ s'.freeHead = s.freeHead ∧ s'.arenaSize = s.arenaSize

/-- Pooled steps of one class compose. -/
theorem SlotStep.trans {i : Fin numSizeClasses} {rs rs' : List OsRegion} {extra extra' : List Nat}
    {s s' s'' : State} {sh sh' sh'' : Shelves} (h : SlotStep i rs extra s sh s' sh')
    (h' : SlotStep i rs' extra' s' sh' s'' sh'') :
    SlotStep i (rs ++ rs') (extra ++ extra') s sh s'' sh'' where
  regions := h.regions.trans h'.regions
  pool_arenas := by rw [h'.pool_arenas, h.pool_arenas, List.append_assoc]
  other_arenas j hj := (h'.other_arenas j hj).trans (h.other_arenas j hj)
  stands j x := by
    rw [h'.stands, h.stands, CarvedFrom.append, List.mem_append]
    tauto
  words a hx hr := by
    rw [h'.words a hx fun r h ↦ hr r (by simp [h])]
    exact h.words a (fun x hs ↦ hx x ((h'.stands i x).mpr (.inl hs))) fun r h ↦ hr r (by simp [h])
  general := ⟨h'.general.1.trans h.general.1, h'.general.2.1.trans h.general.2.1,
    h'.general.2.2.trans h.general.2.2⟩

section steps

variable {c : Config} {s : State} {tr : Transit} {sh : Shelves} {t : Tid}
  {i : Fin numSizeClasses}

@[simp] theorem setPool_pools_same (s : State) (i : Fin numSizeClasses) (p : Pool) :
    (s.setPool i p).pools i = p := by simp [State.setPool]

theorem setPool_pools_ne (s : State) {i j : Fin numSizeClasses} (p : Pool) (h : j ≠ i) :
    (s.setPool i p).pools j = s.pools j := by simp [State.setPool, h]

@[simp] theorem setCache_caches_same (s : State) (t : Tid) (i : Fin numSizeClasses)
    (cache : ThreadLocalCache) : (s.setCache t i cache).caches t i = cache := by
  simp [State.setCache]

theorem setCache_caches_ne (s : State) {t u : Tid} {i j : Fin numSizeClasses}
    (cache : ThreadLocalCache) (h : ¬ (u = t ∧ j = i)) :
    (s.setCache t i cache).caches u j = s.caches u j := by simp [State.setCache, h]

/-- Replacing a pool by one of the same sizes keeps the shapes of all pools. -/
theorem shape_setPool (H : ∀ j, (s.pools j).Shape j) {p : Pool} (hp : p.Shape i) (k : Machine)
    (j : Fin numSizeClasses) : (((s.setMachine k).setPool i p).pools j).Shape j := by
  by_cases h : j = i
  · subst h
    rwa [setPool_pools_same]
  · rw [setPool_pools_ne _ _ h]
    exact H j

/-- Replacing the pool of class `i` keeps the records of every other spot. -/
theorem sameRecord_setPool (k : Machine) (p : Pool) {S : Spot} (h : S ≠ .pool i) :
    SameRecord s tr ((s.setMachine k).setPool i p) tr S := by
  cases S with
  | pool j =>
    have hj : j ≠ i := fun he ↦ h (he ▸ rfl)
    simp only [SameRecord, setPool_pools_ne _ _ hj]
    rfl
  | cache u j => rfl
  | transit u j => rfl
  | live j => trivial

/-- Replacing a cache keeps the records of every other spot. -/
theorem sameRecord_setCache (m : Mem) (cache : ThreadLocalCache) {S : Spot}
    (h : S ≠ .cache t i) :
    SameRecord s tr ({ s with mem := m }.setCache t i cache) tr S := by
  cases S with
  | pool j => rfl
  | cache u j =>
    refine setCache_caches_ne _ _ ?_
    rintro ⟨rfl, rfl⟩
    exact h rfl
  | transit u j => rfl
  | live j => trivial

/-- A step that replaces the pool of class `i` and moves slots between two spots of the class. -/
theorem slotStep_setPool (A B : Spot) (hAB : A ≠ B) (hA : A.cls = i) (hB : B.cls = i)
    {a b extra : List Nat} {ws : List Nat} {rs : List OsRegion} {k : Machine} {p : Pool}
    {new : Nat → Prop} (hg : PoolGrown c ws rs s.toMachine (s.pools i) k p)
    (hws : ∀ x ∈ ws, x ∈ a ∨ x ∈ b)
    (hmem : ∀ x, x ∈ a ∨ x ∈ b ↔ (x ∈ sh A ∨ x ∈ sh B) ∨ new x)
    (hnew : ∀ x, Stands sh i x ∨ new x ↔
      Stands sh i x ∨ CarvedFrom (classSize i + 16) rs x ∨ x ∈ extra) :
    SlotStep i rs extra s sh ((s.setMachine k).setPool i p) (sh.move A a B b) where
  regions := hg.regions
  pool_arenas := by rw [setPool_pools_same, hg.arenas_eq]
  other_arenas j hj := by
    rw [setPool_pools_ne _ _ hj]
    rfl
  stands j x := by
    rw [Shelves.stands_move hAB (hA.trans hB.symm) hmem, hA]
    by_cases hj : j = i
    · subst hj
      simpa using hnew x
    · simp [hj]
  words y hy hr := by
    refine hg.words y (fun x hx ↦ hy x ?_) hr
    rw [Shelves.stands_move hAB (hA.trans hB.symm) hmem]
    rcases (hmem x).mp (hws x hx) with (h | h) | h
    · exact .inl ⟨A, hA, h⟩
    · exact .inl ⟨B, hB, h⟩
    · exact .inr ⟨hA.symm, h⟩
  general := ⟨rfl, rfl, rfl⟩

/-- A step that replaces a cache of class `i` and moves slots between two spots of the class. -/
theorem slotStep_setCache (A B : Spot) (hAB : A ≠ B) (hA : A.cls = i) (hB : B.cls = i)
    {a b extra : List Nat} {x : Nat} {v : Nat} {cache : ThreadLocalCache}
    {new : Nat → Prop} (hx : x ∈ a ∨ x ∈ b)
    (hmem : ∀ x, x ∈ a ∨ x ∈ b ↔ (x ∈ sh A ∨ x ∈ sh B) ∨ new x)
    (hnew : ∀ x, Stands sh i x ∨ new x ↔ Stands sh i x ∨ x ∈ extra) :
    SlotStep i [] extra s sh ({ s with mem := write64 s.mem x v }.setCache t i cache)
      (sh.move A a B b) where
  regions := .nil _
  pool_arenas := (List.append_nil _).symm
  other_arenas j _ := rfl
  stands j y := by
    rw [Shelves.stands_move hAB (hA.trans hB.symm) hmem, hA]
    by_cases hj : j = i
    · subst hj
      simpa [CarvedFrom] using hnew y
    · simp [hj]
  words y hy _ := by
    have := hy x (by
      rw [Shelves.stands_move hAB (hA.trans hB.symm) hmem]
      rcases (hmem x).mp hx with (h | h) | h
      · exact .inl ⟨A, hA, h⟩
      · exact .inl ⟨B, hB, h⟩
      · exact .inr ⟨hA.symm, h⟩)
    exact write64_of_out _ _ (by omega)
  general := ⟨rfl, rfl, rfl⟩

/-- Slots of freshly acquired regions are good addresses and stood nowhere before. -/
theorem Shelved.fresh (H : Shelved c s tr sh) {rs mapped : List OsRegion}
    (hr : NewRegions s.os.mapped rs mapped) (y : Nat)
    (hy : CarvedFrom (classSize i + 16) rs y) :
    SlotAddr y ∧ InMapped mapped y ∧ ∀ S, y ∉ sh S := by
  rw [← (H.shape i).total_eq] at hy
  refine ⟨(hy.fresh (H.shape i).sized hr).1, (hy.fresh (H.shape i).sized hr).2, fun S hS ↦ ?_⟩
  obtain ⟨r, hrs, hlo, hhi⟩ := hy.bounds
  have := (H.mapped S y hS).out hr hrs
  have := (H.shape i).total_eq
  omega

/-! ### Stages 1 and 2 -/

/-- `Pool::allocate` either fails without a trace or moves one slot from the pool to its user. -/
theorem Shelved.allocate (H : Shelved c s tr sh) (i : Fin numSizeClasses) :
    (∃ os, (s.pools i).allocate c (c.poolAddr i) s.toMachine =
        .ok (⟨s.mem, os⟩, s.pools i, 0) ∧ os.mapped = s.os.mapped) ∨
    ∃ k p rs x l, (s.pools i).allocate c (c.poolAddr i) s.toMachine = .ok (k, p, x + 16) ∧
      Shelved c ((s.setMachine k).setPool i p) tr
        (sh.move (.pool i) l (.live i) (x :: sh (.live i))) ∧
      SlotStep i rs [] s sh ((s.setMachine k).setPool i p)
        (sh.move (.pool i) l (.live i) (x :: sh (.live i))) ∧
      Frugal c (classSize i + 16) rs l := by
  rcases Pool.allocate_spec (c := c) (H.poolHolds i) (c.poolAddr_word i).2.2 with
    ⟨os, hrun, -, hos⟩ | ⟨k, p, rs, x, l, hrun, hg, hh, hxl, hxa, hxm, htag, hm, hfew⟩
  · exact .inl ⟨os, hrun, hos⟩
  right
  rw [(H.shape i).total_eq] at hm hfew
  have hfresh := H.fresh (i := i) hg.regions
  have hAB : Spot.pool i ≠ .live i := by simp
  have hlive : ∀ y ∈ sh (.live i), y ∉ x :: l := by
    intro y hy hyl
    rcases (hm y).mp hyl with h | h
    · exact absurd (H.apart _ _ _ hy h) (by simp)
    · exact (hfresh y h).2.2 _ hy
  have hmem : ∀ y, y ∈ l ∨ y ∈ x :: sh (.live i) ↔
      (y ∈ sh (.pool i) ∨ y ∈ sh (.live i)) ∨ CarvedFrom (classSize i + 16) rs y := by
    intro y
    have := hm y
    simp only [List.mem_cons] at this ⊢
    tauto
  refine ⟨k, p, rs, x, l, hrun, H.move _ rs hAB hg.words hg.regions (by simp)
    (shape_setPool H.shape hh.shape k) (fun S hS _ ↦ sameRecord_setPool k p hS) ?_ ⟨?_, ?_⟩ hmem
    ?_ hfresh, slotStep_setPool (i := i) _ _ hAB rfl rfl hg (by simp) hmem
      (by simp), hfew⟩
  · simp only [Linked, setPool_pools_same]
    exact hh.chain
  · exact List.nodup_cons.mpr ⟨fun h ↦ hlive x h (by simp), (H.linked (.live i)).1⟩
  · intro y hy
    rcases List.mem_cons.mp hy with rfl | hy
    · exact htag
    · rw [← (H.linked (.live i)).2 y hy]
      refine hg.words.read64 (by simpa using hxa.2.1) (H.addr _ y hy).2.1 ?_ fun r hr ↦ ?_
      · intro h
        exact hlive y hy (by simp [List.mem_singleton.mp h])
      · have := (H.mapped _ y hy).out hg.regions hr
        omega
  · intro y hy h
    rcases List.mem_cons.mp h with rfl | h
    · exact hxl hy
    · exact hlive y h (by simp [hy])

/-! ### Giving a slot back -/

/-- What stands after a slot of class `i` was given back, whether it was live or new. -/
private theorem back_new {x : Nat} (y : Nat) :
    Stands sh i y ∨ (y = x ∧ x ∉ sh (.live i)) ↔ Stands sh i y ∨ y ∈ [x] := by
  rw [List.mem_singleton]
  constructor
  · rintro (h | h)
    · exact .inl h
    · exact .inr h.1
  · rintro (h | rfl)
    · exact .inl h
    · by_cases hy : y ∈ sh (.live i)
      · exact .inl ⟨.live i, rfl, hy⟩
      · exact .inr ⟨rfl, hy⟩

private theorem back_mem (H : Shelved c s tr sh) {B : Spot} {x : Nat} (y : Nat) :
    y ∈ (sh (.live i)).erase x ∨ y ∈ x :: sh B ↔
      (y ∈ sh (.live i) ∨ y ∈ sh B) ∨ (y = x ∧ x ∉ sh (.live i)) := by
  rw [(H.linked (.live i)).1.mem_erase_iff, List.mem_cons]
  by_cases hy : y = x
  · subst hy
    by_cases hl : y ∈ sh (.live i) <;> simp [hl]
  · simp [hy]

/-- A slot that is live, or stands nowhere, is put first at another spot of its class. -/
theorem Shelved.giveBack (H : Shelved c s tr sh) {B : Spot} (hBl : Spot.live i ≠ B)
    (s' : State) {x v : Nat} (hmem : s'.mem = write64 s.mem x v) (hos : s'.os = s.os)
    (hshape : ∀ j, (s'.pools j).Shape j) (hother : ∀ S, S ≠ B → SameRecord s tr s' tr S)
    (hlink : Linked c s' tr (x :: sh B) B) (hx : SlotAddr x) (hxm : InMapped s.os.mapped x)
    (hspot : ∀ S, x ∈ sh S → S = .live i) :
    Shelved c s' tr (sh.move (.live i) ((sh (.live i)).erase x) B (x :: sh B)) := by
  have hnd := (H.linked (.live i)).1
  have hxB : x ∉ sh B := fun h ↦ hBl (hspot B h).symm
  refine H.move [x] [] hBl ?_ (hos ▸ .nil _) (by simp) hshape
    (fun S _ hS ↦ hother S hS) ⟨hnd.erase x, fun y hy ↦ ?_⟩ hlink (fun y ↦ back_mem H y)
    (fun y hy hyb ↦ ?_) fun y hy ↦ ?_
  · rw [hmem]
    exact .write (by simp) v
  · have hy' := hnd.mem_erase_iff.mp hy
    have := (H.addr _ y hy'.2).2.1
    have := hx.2.1
    rw [hmem, read64_write64_of_ne _ _ (by omega) (by omega) hy'.1]
    exact (H.linked (.live i)).2 y hy'.2
  · have hy' := hnd.mem_erase_iff.mp hy
    rcases List.mem_cons.mp hyb with h | h
    · exact hy'.1 h
    · exact hBl (H.apart _ _ _ hy'.2 h)
  · obtain ⟨rfl, hn⟩ := hy
    refine ⟨hx, hos ▸ hxm, fun S hS ↦ ?_⟩
    rw [hspot S hS] at hS
    exact hn hS

/-- `Pool::deallocate` puts a slot back on the pool's chain. -/
theorem Shelved.deallocate (H : Shelved c s tr sh) {x : Nat} (hx : SlotAddr x)
    (hxm : InMapped s.os.mapped x) (hspot : ∀ S, x ∈ sh S → S = .live i) :
    ∃ m p, (s.pools i).deallocate s.mem (x + 16) = .ok (m, p) ∧
      Shelved c ({ s with mem := m }.setPool i p) tr
        (sh.move (.live i) ((sh (.live i)).erase x) (.pool i) (x :: sh (.pool i))) ∧
      SlotStep i [] [x] s sh ({ s with mem := m }.setPool i p)
        (sh.move (.live i) ((sh (.live i)).erase x) (.pool i) (x :: sh (.pool i))) := by
  have hn : x ∉ sh (.pool i) := fun h ↦ absurd (hspot _ h) (by simp)
  obtain ⟨hrun, hh⟩ := Pool.deallocate_spec (H.poolHolds i) hx hxm hn
  let k : Machine := ⟨write64 s.mem x (s.pools i).freeHead, s.os⟩
  let p : Pool := { s.pools i with freeHead := x }
  have hg : PoolGrown c [x] [] s.toMachine (s.pools i) k p :=
    ⟨.nil _, by simp [p], rfl, rfl, .write_one x _, by simp⟩
  refine ⟨k.mem, p, hrun, H.giveBack (by simp) ((s.setMachine k).setPool i p) rfl rfl
    (shape_setPool H.shape hh.shape k) (fun S hS ↦ sameRecord_setPool k p hS) ?_ hx hxm hspot,
    slotStep_setPool (i := i) (.live i) (.pool i) (by simp) rfl rfl hg (by simp)
      (fun y ↦ back_mem H y) fun y ↦ ?_⟩
  · simp only [Linked, setPool_pools_same]
    exact hh.chain
  · rw [back_new]
    simp [CarvedFrom]

/-- A freed slot is pushed onto the freeing thread's own cache. -/
theorem Shelved.pushToCache (H : Shelved c s tr sh) (t : Tid) {x : Nat} (hx : SlotAddr x)
    (hxm : InMapped s.os.mapped x) (hspot : ∀ S, x ∈ sh S → S = .live i)
    (hlen : (sh (.cache t i)).length + 1 < 2 ^ 64) :
    ∃ s', pushToCache s t i x = .ok s' ∧
      Shelved c s' tr
        (sh.move (.live i) ((sh (.live i)).erase x) (.cache t i) (x :: sh (.cache t i))) ∧
      SlotStep i [] [x] s sh s'
        (sh.move (.live i) ((sh (.live i)).erase x) (.cache t i) (x :: sh (.cache t i))) := by
  have hn : x ∉ sh (.cache t i) := fun h ↦ absurd (hspot _ h) (by simp)
  obtain ⟨cache, hrun, hh⟩ := pushToCache_spec (H.cacheHolds t i) hx hn hlen
  refine ⟨_, hrun, H.giveBack (by simp)
    ({ s with mem := write64 s.mem x (s.caches t i).head }.setCache t i cache) rfl rfl H.shape
    (fun S hS ↦ sameRecord_setCache _ _ hS) ?_ hx hxm hspot,
    slotStep_setCache (i := i) (.live i) (.cache t i) (x := x) (by simp) rfl rfl (.inr (by simp))
      (fun y ↦ back_mem H y) back_new⟩
  simp only [Linked, setCache_caches_same]
  exact ⟨hh.chain, hh.tail_eq, hh.count_eq⟩

/-! ### Taking a slot from a cache -/

/-- Popping moves the first slot of the thread's cache to its user. -/
theorem Shelved.popFromCache (H : Shelved c s tr sh) {t : Tid} {x : Nat} {l : List Nat}
    (hl : sh (.cache t i) = x :: l) (hlen : l.length + 1 < 2 ^ 64) :
    ∃ s', popFromCache c s t i = .ok (s', x + 16) ∧
      Shelved c s' tr (sh.move (.cache t i) l (.live i) (x :: sh (.live i))) ∧
      SlotStep i [] [] s sh s' (sh.move (.cache t i) l (.live i) (x :: sh (.live i))) := by
  obtain ⟨hx, hxl, cache, hrun, hh⟩ := popFromCache_spec (c := c) (hl ▸ H.cacheHolds t i) hlen
  have hAB : Spot.cache t i ≠ .live i := by simp
  have hlive : ∀ y ∈ sh (.live i), y ∉ x :: l := fun y hy h ↦
    absurd (H.apart _ _ _ hy (hl ▸ h)) (by simp)
  have hmem : ∀ y, y ∈ l ∨ y ∈ x :: sh (.live i) ↔
      (y ∈ sh (.cache t i) ∨ y ∈ sh (.live i)) ∨ False := by
    intro y
    rw [hl, List.mem_cons, List.mem_cons]
    tauto
  refine ⟨_, hrun, H.move [x] [] hAB (.write_one x _) (.nil _) (by simp) H.shape
    (fun S hS _ ↦ sameRecord_setCache _ _ hS) ?_ ⟨?_, fun y hy ↦ ?_⟩ hmem (fun y hy h ↦ ?_)
    (by simp), slotStep_setCache (i := i) _ _ hAB rfl rfl (.inr (by simp)) hmem (by simp)⟩
  · simp only [Linked, setCache_caches_same]
    exact ⟨hh.chain, hh.tail_eq, hh.count_eq⟩
  · exact List.nodup_cons.mpr ⟨fun h ↦ hlive x h (by simp), (H.linked (.live i)).1⟩
  · have hword := (c.poolAddr_word i).2.2
    rcases List.mem_cons.mp hy with rfl | hy
    · exact read64_write64_same _ _ hword
    · have hne : y ≠ x := fun h ↦ hlive y hy (by simp [h])
      have := (H.addr _ y hy).2.1
      have := hx.2.1
      exact (read64_write64_of_ne _ _ (by omega) (by omega) hne).trans
        ((H.linked (.live i)).2 y hy)
  · rcases List.mem_cons.mp h with rfl | h
    · exact hxl hy
    · exact hlive y h (by simp [hy])

/-! ### Batches between cache and pool -/

/-- Record where a thread's batch in transit starts. -/
def setTransit (tr : Transit) (t : Tid) (i : Fin numSizeClasses) (h : Nat) : Transit :=
  fun u j ↦ if u = t ∧ j = i then h else tr u j

@[simp] theorem setTransit_same (tr : Transit) (t : Tid) (i : Fin numSizeClasses) (h : Nat) :
    setTransit tr t i h t i = h := by simp [setTransit]

/-- Changing the record of one batch keeps the records of all other spots. -/
theorem SameRecord.setTransit {s' : State} {S : Spot} (h : SameRecord s tr s' tr S)
    (hS : S ≠ .transit t i) (hd : Nat) : SameRecord s tr s' (setTransit tr t i hd) S := by
  cases S with
  | transit u j =>
    refine if_neg ?_
    rintro ⟨rfl, rfl⟩
    exact hS rfl
  | _ => exact h

/-- The locked section of a refill moves up to a batch of slots out of the pool; an empty batch
means that nothing changed. -/
theorem Shelved.refillBatch (H : Shelved c s tr sh) (t : Tid) (hempty : sh (.transit t i) = []) :
    ∃ s' b taken l rs, refillBatch c s i = .ok (s', b) ∧
      Shelved c s' (setTransit tr t i b.head) (sh.move (.pool i) l (.transit t i) taken) ∧
      SlotStep i rs [] s sh s' (sh.move (.pool i) l (.transit t i) taken) ∧
      SlotList s'.mem b.head b.tail b.count taken ∧ s'.caches = s.caches ∧
      taken.length ≤ threadLocalCacheBatchSize ∧ Frugal c (classSize i + 16) rs l ∧
      (taken = [] → s' = { s with os := s'.os } ∧ s'.os.mapped = s.os.mapped) := by
  obtain ⟨k, p, b, rs, taken, l, hrun, hg, hh, hb, htm, hdis, hm, hlen, hfew, hnone⟩ :=
    Pool.allocateBatch_spec (c := c) (n := threadLocalCacheBatchSize) (by decide) (H.poolHolds i)
  rw [(H.shape i).total_eq] at hm hfew
  have hAB : Spot.pool i ≠ .transit t i := by simp
  have hfresh := H.fresh (i := i) hg.regions
  have hmem : ∀ y, y ∈ l ∨ y ∈ taken ↔
      (y ∈ sh (.pool i) ∨ y ∈ sh (.transit t i)) ∨ CarvedFrom (classSize i + 16) rs y := by
    intro y
    rw [hempty, Or.comm, hm]
    simp
  refine ⟨(s.setMachine k).setPool i p, b, taken, l, rs, ?_, H.move taken rs hAB hg.words hg.regions
    (fun x hx ↦ .inr hx) (shape_setPool H.shape hh.shape k)
    (fun S hS hS' ↦ (sameRecord_setPool k p hS).setTransit hS' _) ?_ ?_ hmem
    (fun y hy h ↦ hdis y h hy) hfresh, slotStep_setPool (i := i) _ _ hAB rfl rfl hg
      (fun x hx ↦ .inr hx) hmem (by simp), hb, rfl, hlen, hfew, fun ht ↦ ?_⟩
  · simp only [CustomAllocator.refillBatch, hrun, ok_bind]
  · simp only [Linked, setPool_pools_same]
    exact hh.chain
  · simp only [Linked, setTransit_same]
    exact hb.chain
  · obtain ⟨-, hmem', hp, hos⟩ := hnone ht
    refine ⟨?_, hos⟩
    have hpools : (fun j ↦ if j = i then p else s.pools j) = s.pools := by
      funext j
      split
      · next h => rw [hp, h]
      · rfl
    simp only [State.setPool, State.setMachine, hpools]
    rw [← show k.mem = s.mem from hmem']

/-- A refilled batch becomes the thread's cache. -/
theorem Shelved.installBatch (H : Shelved c s tr sh) {b : SlotBatch}
    (hb : SlotList s.mem b.head b.tail b.count (sh (.transit t i)))
    (hempty : sh (.cache t i) = []) :
    Shelved c (installBatch s t i b) (setTransit tr t i 0)
        (sh.move (.transit t i) [] (.cache t i) (sh (.transit t i))) ∧
      SlotStep i [] [] s sh (installBatch s t i b)
        (sh.move (.transit t i) [] (.cache t i) (sh (.transit t i))) := by
  have hAB : Spot.transit t i ≠ .cache t i := by simp
  have hmem : ∀ y, y ∈ [] ∨ y ∈ sh (.transit t i) ↔
      (y ∈ sh (.transit t i) ∨ y ∈ sh (.cache t i)) ∨ False := by simp [hempty]
  refine ⟨H.move [] [] hAB (.refl _ _ _) (.nil _) (by simp) H.shape (fun S hS hS' ↦
    (sameRecord_setCache _ _ hS').setTransit hS _) ?_ ?_ hmem (by simp) (by simp),
    ⟨.nil _, (List.append_nil _).symm, fun j _ ↦ rfl, fun j x ↦ ?_, fun a _ _ ↦ rfl, rfl, rfl, rfl⟩⟩
  · simp only [Linked, setTransit_same]
    rfl
  · simp only [Linked, CustomAllocator.installBatch, setCache_caches_same]
    exact ⟨hb.chain, hb.tail_eq, hb.count_eq⟩
  · rw [Shelves.stands_move hAB rfl hmem]
    simp [CarvedFrom]

/-- Detaching moves a batch from the front of the thread's cache into transit. -/
theorem Shelved.detachBatch (H : Shelved c s tr sh) (t : Tid) (hempty : sh (.transit t i) = [])
    (hne : sh (.cache t i) ≠ []) (hlen : (sh (.cache t i)).length < 2 ^ 64) :
    ∃ s' xs d ys, detachBatch s t i = .ok (s', (s.caches t i).head, d) ∧
      sh (.cache t i) = xs ++ [d] ++ ys ∧
      (xs.length + 1 = threadLocalCacheBatchSize ∨
        xs.length + 1 < threadLocalCacheBatchSize ∧ ys = []) ∧
      Shelved c s' (setTransit tr t i (s.caches t i).head)
        (sh.move (.cache t i) ys (.transit t i) (xs ++ [d])) ∧
      SlotStep i [] [] s sh s' (sh.move (.cache t i) ys (.transit t i) (xs ++ [d])) := by
  obtain ⟨xs, d, ys, cache, heq, hrun, hh, hfront, hbatch⟩ :=
    detachBatch_spec (H.cacheHolds t i) hne hlen
  have hAB : Spot.cache t i ≠ .transit t i := by simp
  have hmem : ∀ y, y ∈ ys ∨ y ∈ xs ++ [d] ↔
      (y ∈ sh (.cache t i) ∨ y ∈ sh (.transit t i)) ∨ False := by
    intro y
    rw [heq, hempty, List.mem_append (s := xs ++ [d]), Or.comm]
    simp
  have hnd := heq ▸ (H.cacheHolds t i).chain.nodup
  refine ⟨_, xs, d, ys, hrun, heq, hbatch, H.move [d] [] hAB (.write_one d 0) (.nil _) (by simp)
    H.shape (fun S hS hS' ↦ (sameRecord_setCache _ _ hS).setTransit hS' _) ?_ ?_ hmem
    (fun y hy h ↦ (List.nodup_append.mp hnd).2.2 y h y hy rfl) (by simp),
    slotStep_setCache (i := i) _ _ hAB rfl rfl (.inr (by simp)) hmem (by simp)⟩
  · simp only [Linked, setCache_caches_same]
    exact ⟨hh.chain, hh.tail_eq, hh.count_eq⟩
  · simp only [Linked, setTransit_same]
    exact hfront

/-- The locked section of a flush splices the batch in transit into the pool's chain. -/
theorem Shelved.spliceBatch (H : Shelved c s tr sh) {t : Tid} {xs : List Nat} {d : Nat}
    (hbatch : sh (.transit t i) = xs ++ [d]) :
    ∃ s', spliceBatch s i (tr t i) d = .ok s' ∧ s'.caches = s.caches ∧
      Shelved c s' (setTransit tr t i 0)
        (sh.move (.transit t i) [] (.pool i) (xs ++ [d] ++ sh (.pool i))) ∧
      SlotStep i [] [] s sh s'
        (sh.move (.transit t i) [] (.pool i) (xs ++ [d] ++ sh (.pool i))) := by
  have hAB : Spot.transit t i ≠ .pool i := by simp
  have hchain : Chain (read64 s.mem) 0 (tr t i) (xs ++ [d]) := hbatch ▸ H.linked (.transit t i)
  have hoff : ∀ y ∈ xs ++ [d], y ∉ sh (.pool i) := fun y hy h ↦
    hAB (H.apart _ _ y (hbatch ▸ hy) h)
  obtain ⟨hrun, hh⟩ := Pool.deallocateBatch_spec (H.poolHolds i) hchain
    (fun y hy ↦ H.addr _ y (hbatch ▸ hy)) (fun y hy ↦ H.mapped _ y (hbatch ▸ hy)) hoff
  let k : Machine := ⟨write64 s.mem d (s.pools i).freeHead, s.os⟩
  let p : Pool := { s.pools i with freeHead := tr t i }
  have hg : PoolGrown c [d] [] s.toMachine (s.pools i) k p :=
    ⟨.nil _, by simp [p], rfl, rfl, .write_one d _, by simp⟩
  have hmem : ∀ y, y ∈ [] ∨ y ∈ xs ++ [d] ++ sh (.pool i) ↔
      (y ∈ sh (.transit t i) ∨ y ∈ sh (.pool i)) ∨ False := by
    intro y
    rw [hbatch, List.mem_append]
    simp
  refine ⟨(s.setMachine k).setPool i p, ?_, rfl, H.move [d] [] hAB hg.words (.nil _) (by simp)
    (shape_setPool H.shape hh.shape k) (fun S hS hS' ↦
      (sameRecord_setPool k p hS').setTransit hS _) ?_ ?_ hmem (by simp) (by simp),
    slotStep_setPool (i := i) _ _ hAB rfl rfl hg (by simp) hmem (by simp [CarvedFrom])⟩
  · simp only [CustomAllocator.spliceBatch, hrun, ok_bind]
    rfl
  · simp only [Linked, setTransit_same]
    rfl
  · simp only [Linked, setPool_pools_same]
    exact hh.chain

end steps

end CustomAllocator
