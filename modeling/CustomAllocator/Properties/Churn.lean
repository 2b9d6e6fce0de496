import Mathlib.Algebra.Ring.Nat
import CustomAllocator.Concurrent.Flow
import CustomAllocator.Properties.SlotPartition

/-!
# Short-lived threads

A thread that exits leaves its cached slots behind, and no other thread takes them up. So what a
pool has carved grows with the threads that have exited, by what each left in its cache, and
otherwise only with the live blocks, the caches of the threads that run, and one arena.
-/

namespace CustomAllocator
open CustomAllocator.Base

/-- How many slots pool `i` has carved. -/
def System.slotCount (y : System) (i : Fin numSizeClasses) : Nat :=
  ((y.state.pools i).arenas.map fun r ↦ r.size / (classSize i + sizeofPoolSlotHeader)).sum

/-- The live blocks of class `i`. -/
def System.liveOf (y : System) (i : Fin numSizeClasses) : List Grant :=
  y.live.filter fun g ↦ decide (g.origin = some i)

/-- Only `threads` were started so far, and at most `most` blocks of class `i` are live. -/
def System.Within (i : Fin numSizeClasses) (threads : List Tid) (most : Nat) (y : System) :
    Prop :=
  (∀ t, y.phase t ≠ .unborn → t ∈ threads) ∧ (y.liveOf i).length ≤ most

/-- The systems of all interleavings that stay within these limits. -/
def System.Churned (c : Config) (i : Fin numSizeClasses) (threads : List Tid) (most : Nat)
    (y : System) : Prop :=
  ∃ mem offers arenaSize, arenaSize < 2 ^ 64 ∧
    Relation.ReflTransGen (fun y y' ↦ System.Step c y y' ∧ y'.Within i threads most)
      (System.start mem offers arenaSize) y

/-- Thread `t` has started and not exited. -/
def System.Running (y : System) (t : Tid) : Prop := y.phase t ≠ .unborn ∧ y.phase t ≠ .exited

/-- At most `running` threads run, and at most `most` blocks of class `i` are live. -/
def System.AtOnce (i : Fin numSizeClasses) (running most : Nat) (y : System) : Prop :=
  (∀ l : List Tid, l.Nodup → (∀ t ∈ l, y.Running t) → l.length ≤ running) ∧
    (y.liveOf i).length ≤ most

/-- The systems of all interleavings that stay within these limits, however many threads come and
go. -/
def System.Crowded (c : Config) (i : Fin numSizeClasses) (running most : Nat) (y : System) :
    Prop :=
  ∃ mem offers arenaSize, arenaSize < 2 ^ 64 ∧
    Relation.ReflTransGen (fun y y' ↦ System.Step c y y' ∧ y'.AtOnce i running most)
      (System.start mem offers arenaSize) y

/-- Thread `t` has exited and left the slots `l` in its class `i` cache, where no client holds any
of them. -/
structure Stranded (y : System) (t : Tid) (i : Fin numSizeClasses) (l : List Nat) : Prop where
  exited : y.phase t = .exited
  chain : Chain (read64 y.state.mem) 0 (y.state.caches t i).head l
  count : (y.state.caches t i).count = l.length
  unheld : ∀ x ∈ l, ∀ g ∈ y.live, g.ptr ≠ x + sizeofPoolSlotHeader

variable {c : Config} {y y' : System} {t u : Tid} {ts ts' : List Carved}
  {order order' : List Nat} {sh sh' : Shelves} {i : Fin numSizeClasses} {threads : List Tid}
  {running most : Nat} {ph ph' : Phase} {a : Action} {started : List Tid}

/-! ### Counting slots -/

/-- The slots of different regions, and those of one, are all different. -/
theorem nodup_freshSlots {total : Nat} (ht : 0 < total) {rs : List OsRegion}
    (h : rs.Pairwise OsRegion.Apart) : (rs.flatMap (freshSlots total)).Nodup := by
  rw [List.nodup_flatMap]
  constructor
  · intro r _
    rw [freshSlots, List.nodup_reverse, slotAddrs]
    apply List.Nodup.map _ List.nodup_range
    intro m n hmn
    exact Nat.eq_of_mul_eq_mul_right ht (Nat.add_left_cancel hmn)
  · refine h.imp fun {r q} hrq ↦ List.disjoint_left.mpr fun x hr hq ↦ ?_
    obtain ⟨_, hr', hrlo, hrhi⟩ := (mem_freshSlots.mp hr).bounds
    obtain ⟨_, hq', hqlo, hqhi⟩ := (mem_freshSlots.mp hq).bounds
    rw [List.mem_singleton] at hr' hq'
    subst hr' hq'
    simp only [OsRegion.Apart, OsRegion.stop] at hrq hrhi hqhi
    omega

theorem length_freshSlots (total : Nat) (rs : List OsRegion) :
    (rs.flatMap (freshSlots total)).length = (rs.map fun r ↦ r.size / total).sum := by
  rw [List.length_flatMap]
  congr 1
  apply List.map_congr_left
  intro r _
  simp [freshSlots, slotAddrs]

theorem sum_map_le {f g : Tid → Nat} (h : ∀ t ∈ threads, f t ≤ g t) :
    (threads.map f).sum ≤ (threads.map g).sum := by
  induction threads with
  | nil => simp
  | cons t rest ih =>
    have hrest := ih fun u hu ↦ h u (List.mem_cons_of_mem t hu)
    have ht := h t List.mem_cons_self
    rw [List.map_cons, List.map_cons, List.sum_cons, List.sum_cons]
    omega

theorem sum_map_const (threads : List Tid) (n : Nat) :
    (threads.map fun _ ↦ n).sum = n * threads.length := by
  induction threads with
  | nil => rfl
  | cons t rest ih =>
    rw [List.map_cons, List.sum_cons, ih, List.length_cons, Nat.mul_add, Nat.mul_one, Nat.add_comm]

/-- A sum over some of the elements. -/
theorem sum_map_filter (p : Tid → Bool) (f : Tid → Nat) :
    ((threads.filter p).map f).sum = (threads.map fun t ↦ if p t then f t else 0).sum := by
  induction threads with
  | nil => rfl
  | cons t rest ih =>
    rw [List.filter_cons, List.map_cons, List.sum_cons]
    cases hp : p t with
    | true => simp [ih]
    | false => simp [ih]

theorem Consistent.cache_count (C : Consistent c y ts order sh) (t : Tid)
    (i : Fin numSizeClasses) : (y.state.caches t i).count = (sh (.cache t i)).length :=
  (C.booked.coherent.shelved.linked (.cache t i)).2.2

/-- A class has no more live slots than live blocks. -/
theorem Consistent.live_le (C : Consistent c y ts order sh) (i : Fin numSizeClasses) :
    (sh (.live i)).length ≤ (y.liveOf i).length := by
  have hnd : ((sh (.live i)).map (· + 16)).Nodup :=
    (C.booked.coherent.shelved.linked (.live i)).1.map fun m n h ↦ Nat.add_right_cancel h
  have hsub : (sh (.live i)).map (· + 16) ⊆ (y.liveOf i).map Grant.ptr := by
    intro p hp
    obtain ⟨x, hx, rfl⟩ := List.mem_map.mp hp
    obtain ⟨g, hg, ho, hptr⟩ := (mem_live_iff C i x).mp hx
    exact List.mem_map.mpr ⟨g, List.mem_filter.mpr ⟨hg, by simpa using ho⟩, hptr⟩
  simpa using (List.subperm_of_subset hnd hsub).length_le

/-- The slots thread `t` has in its class `i` cache and batch. -/
def Shelves.heldBy (sh : Shelves) (i : Fin numSizeClasses) (t : Tid) : Nat :=
  (sh (.cache t i)).length + (sh (.transit t i)).length

/-- What a pool has carved is on its chain, live, or with a thread. -/
theorem Consistent.slotCount_le (C : Consistent c y ts order sh)
    (hnone : ∀ t, t ∉ threads → sh (.cache t i) = [] ∧ sh (.transit t i) = []) :
    y.slotCount i ≤
      (sh (.pool i)).length + (y.liveOf i).length + (threads.map (sh.heldBy i)).sum := by
  have hpos : 0 < classSize i + sizeofPoolSlotHeader := by
    have := classSize_bounds i
    omega
  have hnd := nodup_freshSlots hpos (C.booked.coherent.regions.pool_pairwise i)
  have hsub : (y.state.pools i).arenas.flatMap (freshSlots (classSize i + sizeofPoolSlotHeader)) ⊆
      sh (.pool i) ++ sh (.live i) ++
        threads.flatMap fun t ↦ sh (.cache t i) ++ sh (.transit t i) := by
    intro x hx
    obtain ⟨r, hr, hxr⟩ := List.mem_flatMap.mp hx
    obtain ⟨S, hS, hxS⟩ := C.booked.coherent.carved i x
      ⟨r, hr, by simpa [freshSlots] using hxr⟩
    simp only [List.mem_append, List.mem_flatMap]
    cases S with
    | pool j => exact .inl (.inl (hS ▸ hxS))
    | live j => exact .inl (.inr (hS ▸ hxS))
    | cache t j =>
      obtain rfl : j = i := hS
      refine .inr ⟨t, by_contra fun ht ↦ ?_, .inl hxS⟩
      rw [(hnone t ht).1] at hxS
      cases hxS
    | transit t j =>
      obtain rfl : j = i := hS
      refine .inr ⟨t, by_contra fun ht ↦ ?_, .inr hxS⟩
      rw [(hnone t ht).2] at hxS
      cases hxS
  have hle := (List.subperm_of_subset hnd hsub).length_le
  have hlive := C.live_le i
  have hheld : (threads.flatMap fun t ↦ sh (.cache t i) ++ sh (.transit t i)).length =
      (threads.map (sh.heldBy i)).sum := by
    rw [List.length_flatMap]
    congr 1
    exact List.map_congr_left fun t _ ↦ List.length_append
  rw [length_freshSlots, List.length_append, List.length_append, hheld] at hle
  unfold System.slotCount
  omega

/-! ### One step -/

/-- A thread's cache and batch of one class hold at most a full cache and the slot just pushed. -/
theorem Motion.held (M : Motion t sh ph ph' sh')
    (h : ∀ i, (sh (.cache t i)).length + (sh (.transit t i)).length ≤ threadLocalCacheCap + 1)
    (hcap : ∀ i, (sh (.cache t i)).length ≤ threadLocalCacheCap + ph.excess i)
    (hnil : ∀ i, ph.batch i = 0 → sh (.transit t i) = []) (j : Fin numSizeClasses) :
    (sh' (.cache t j)).length + (sh' (.transit t j)).length ≤ threadLocalCacheCap + 1 := by
  have hj := h j
  have hc := hcap j
  cases M with
  | still cap => exact hj
  | @pop _ i _ _ _ l clear cache =>
    rw [Shelves.move_other (S := .transit t j) (by simp) (by simp)]
    by_cases hij : j = i
    · subst hij
      rw [cache, List.length_cons] at hj
      rw [Shelves.move_fst]
      omega
    · rwa [Shelves.move_other (by simp [hij]) (by simp)]
  | @push i x _ _ live =>
    rw [Shelves.move_other (S := .transit t j) (by simp) (by simp), hnil j rfl]
    by_cases hij : j = i
    · subst hij
      rw [Shelves.move_snd (by simp)]
      exact Nat.succ_le_succ hc
    · rw [Shelves.move_other (by simp) (by simp [hij])]
      exact Nat.le_succ_of_le hc
  | @refill i _ _ _ l taken empty length_le =>
    rw [Shelves.move_other (S := .cache t j) (by simp) (by simp)]
    by_cases hij : j = i
    · subst hij
      rw [Shelves.move_snd (by simp), empty]
      simp only [List.length_nil, threadLocalCacheCap]
      omega
    · rwa [Shelves.move_other (by simp) (by simp [hij])]
  | @install i _ _ _ empty length_le =>
    by_cases hij : j = i
    · subst hij
      rw [Shelves.move_fst, Shelves.move_snd (by simp)]
      simp only [List.length_nil, threadLocalCacheCap]
      omega
    · rwa [Shelves.move_other (S := .cache t j) (by simp) (by simp [hij]),
        Shelves.move_other (by simp [hij]) (by simp)]
  | @detach i xs ys _ d _ cache full large =>
    by_cases hij : j = i
    · subst hij
      rw [Shelves.move_fst, Shelves.move_snd (by simp)]
      rw [cache] at hj
      simp only [List.length_append] at hj ⊢
      omega
    · rwa [Shelves.move_other (S := .cache t j) (by simp [hij]) (by simp),
        Shelves.move_other (by simp) (by simp [hij])]
  | @splice i _ _ _ =>
    rw [Shelves.move_other (S := .cache t j) (by simp) (by simp)]
    by_cases hij : j = i
    · subst hij
      rw [Shelves.move_fst, List.length_nil]
      omega
    · rwa [Shelves.move_other (by simp [hij]) (by simp)]
  | take =>
    rwa [Shelves.move_other (S := .cache t j) (by simp) (by simp),
      Shelves.move_other (by simp) (by simp)]
  | put live =>
    rwa [Shelves.move_other (S := .cache t j) (by simp) (by simp),
      Shelves.move_other (by simp) (by simp)]

/-- A consistent system in which no thread holds more slots of a class than a full cache and the
slot just pushed, and no thread holds any before its start. -/
structure Tended (c : Config) (y : System) (ts : List Carved) (order : List Nat) (sh : Shelves) :
    Prop where
  consistent : Consistent c y ts order sh
  held : ∀ t j, sh.heldBy j t ≤ threadLocalCacheCap + 1
  none : ∀ t, y.phase t = .unborn → ∀ j, sh (.cache t j) = [] ∧ sh (.transit t j) = []

theorem Tended.start (c : Config) (mem : Mem) (offers : List (Option Nat)) {arenaSize : Nat}
    (h : arenaSize < 2 ^ 64) : Tended c (.start mem offers arenaSize) [] [] fun _ ↦ [] :=
  ⟨.start c mem offers h, fun _ _ ↦ Nat.zero_le _, fun _ _ _ ↦ ⟨rfl, rfl⟩⟩

/-- Every action keeps that. -/
theorem Tended.step (T : Tended c y ts order sh) (legal : a.Legal c y)
    (hact : y.act c a = .ok y') (A : Acted c y sh (a.actor y) y' ts' order' sh') :
    Tended c y' ts' order' sh' := by
  refine ⟨A.consistent, fun t j ↦ ?_, fun t ht j ↦ ?_⟩
  · unfold Shelves.heldBy
    by_cases hu : t = a.actor y
    · subst hu
      exact A.motion.held (T.held _) (T.consistent.cap _)
        (fun i hi ↦ T.consistent.transit_nil hi) j
    · rw [A.undisturbed.cache t hu, A.undisturbed.transit t hu]
      exact T.held t j
  · have hbefore := legal.unborn hact ht
    by_cases hu : t = a.actor y
    · have M := A.motion
      rw [← hu, hbefore, ht] at M
      rw [M.rest trivial]
      exact T.none t hbefore j
    · rw [A.undisturbed.cache t hu, A.undisturbed.transit t hu]
      exact T.none t hbefore j

/-! ### All threads that ever started -/

/-- A tended system whose pool `i` is no larger than its threads and its live blocks explain. -/
structure Thrifty (c : Config) (i : Fin numSizeClasses) (threads : List Tid) (most : Nat)
    (y : System) (ts : List Carved) (order : List Nat) (sh : Shelves) : Prop where
  tended : Tended c y ts order sh
  within : y.Within i threads most
  count : y.slotCount i ≤ most + (threadLocalCacheCap + 1) * threads.length +
    arenaSlots c (classSize i + 16)

/-- A step within the limits keeps the pool in its bound. -/
theorem Thrifty.step (T : Thrifty c i threads most y ts order sh) (legal : a.Legal c y)
    (hact : y.act c a = .ok y') (A : Acted c y sh (a.actor y) y' ts' order' sh')
    (W : y'.Within i threads most) : Thrifty c i threads most y' ts' order' sh' := by
  have T' := T.tended.step legal hact A
  refine ⟨T', W, ?_⟩
  rcases A.supplied i with hsame | hfew
  · have hcount : y'.slotCount i = y.slotCount i := by
      unfold System.slotCount
      rw [hsame]
    rw [hcount]
    exact T.count
  · have hle := T'.consistent.slotCount_le (i := i) fun t ht ↦
      T'.none t (by_contra fun h ↦ ht (W.1 t h)) i
    have hheld : (threads.map (sh'.heldBy i)).sum ≤
        (threads.map fun _ ↦ threadLocalCacheCap + 1).sum :=
      sum_map_le fun t _ ↦ T'.held t i
    rw [sum_map_const] at hheld
    have := W.2
    omega

/-- Every system of a run within the limits is in its bound. -/
theorem System.Churned.thrifty (h : System.Churned c i threads most y) :
    ∃ ts order sh, Thrifty c i threads most y ts order sh := by
  obtain ⟨mem, offers, arenaSize, hsize, hrun⟩ := h
  induction hrun with
  | refl =>
    exact ⟨[], [], _, .start c mem offers hsize, ⟨fun t ht ↦ absurd rfl ht, Nat.zero_le _⟩,
      Nat.zero_le _⟩
  | tail _ hstep ih =>
    obtain ⟨ts, order, sh, T⟩ := ih
    obtain ⟨⟨a, legal, hact⟩, W⟩ := hstep
    obtain ⟨z, ts', order', sh', hz, A⟩ := T.tended.consistent.act legal
    obtain rfl : z = _ := by simpa using hz.symm.trans hact
    exact ⟨ts', order', sh', T.step legal hact A W⟩

/-! ### Building runs -/

/-- Each action of the list is legal when its turn comes and done by one of `threads`, and leads
to a system that passes `check`. -/
def System.Stays (c : Config) (threads : List Tid) (check : System → Bool) :
    System → List Action → Prop
  | _, [] => True
  | y, a :: actions => a.Legal c y ∧ a.actor y ∈ threads ∧ check (y.after c a) = true ∧
      Stays c threads check (y.after c a) actions

instance instDecidableSystemStays (c : Config) (threads : List Tid) (check : System → Bool) :
    (y : System) → (actions : List Action) → Decidable (y.Stays c threads check actions)
  | _, [] => inferInstanceAs (Decidable True)
  | y, a :: actions =>
    have := instDecidableSystemStays c threads check (y.after c a) actions
    inferInstanceAs (Decidable (_ ∧ _))

/-- Such actions are a run in which no other thread starts and the check passes throughout. -/
theorem Consistent.stays (C : Consistent c y ts order sh) {check : System → Bool}
    {actions : List Action} (hs : y.Stays c threads check actions)
    (hnone : ∀ t, t ∉ threads → y.phase t = .unborn) :
    Relation.ReflTransGen (fun y y' ↦ System.Step c y y' ∧ check y' = true ∧
      ∀ t, t ∉ threads → y'.phase t = .unborn) y (y.run c actions) := by
  induction actions generalizing y ts order sh with
  | nil => exact .refl
  | cons a actions ih =>
    obtain ⟨legal, hactor, hcheck, hs⟩ := hs
    obtain ⟨y', ts', order', sh', hact, A⟩ := C.act legal
    have hafter : y.after c a = y' := by rw [System.after, hact]
    rw [hafter] at hcheck hs
    have hnone' : ∀ t, t ∉ threads → y'.phase t = .unborn := by
      intro t ht
      rw [A.undisturbed.phase t fun h ↦ ht (h ▸ hactor)]
      exact hnone t ht
    have hrest := ih A.consistent hs hnone'
    rw [System.run, List.foldl_cons, hafter]
    exact hrest.head ⟨⟨a, legal, hact⟩, hcheck, hnone'⟩

/-- Few enough threads of the list run, and few enough blocks are live. -/
def System.few (i : Fin numSizeClasses) (threads : List Tid) (running most : Nat) (y : System) :
    Bool :=
  decide ((threads.filter fun t ↦ y.phase t ≠ .unborn ∧ y.phase t ≠ .exited).length ≤ running) &&
    decide ((y.liveOf i).length ≤ most)

theorem System.few.within (h : y.few i threads running most = true)
    (hnone : ∀ t, t ∉ threads → y.phase t = .unborn) : y.Within i threads most :=
  ⟨fun t ht ↦ by_contra fun hm ↦ ht (hnone t hm),
    of_decide_eq_true (Bool.and_eq_true _ _ ▸ h).2⟩

theorem System.few.atOnce (h : y.few i threads running most = true)
    (hnone : ∀ t, t ∉ threads → y.phase t = .unborn) : y.AtOnce i running most := by
  obtain ⟨hrunning, hmost⟩ := Bool.and_eq_true _ _ ▸ h
  refine ⟨fun l hl hall ↦ ?_, of_decide_eq_true hmost⟩
  have hsub : l ⊆ threads.filter fun t ↦ y.phase t ≠ .unborn ∧ y.phase t ≠ .exited := by
    intro t ht
    obtain ⟨hborn, hhere⟩ := hall t ht
    exact List.mem_filter.mpr ⟨by_contra fun hm ↦ hborn (hnone t hm), by simp [hborn, hhere]⟩
  exact (List.subperm_of_subset hl hsub).length_le.trans (of_decide_eq_true hrunning)

/-- Thread 0 allocates a block and hands it to thread 1, which frees it and exits. -/
def System.crossFreed : System :=
  (System.start (fun _ ↦ 0xab) [some 0x10000] 65536).run .fixedBase
    [.start 0, .start 1, .call 0 (.malloc 100), .advance 0, .advance 0, .advance 0, .advance 0,
      .give 0x18f80 1, .call 1 (.free 0x18f80), .advance 1, .advance 1, .advance 1, .exit 1]

theorem System.crossFreed_run :
    Relation.ReflTransGen (fun y y' ↦ System.Step .fixedBase y y' ∧
      y'.few 3 [0, 1] 2 1 = true ∧ ∀ t, t ∉ [0, 1] → y'.phase t = .unborn)
      (.start (fun _ ↦ 0xab) [some 0x10000] 65536) .crossFreed :=
  (Consistent.start .fixedBase _ _ (by decide)).stays (by decide +kernel) fun _ _ ↦ rfl

theorem System.crossFreed_churned : System.Churned .fixedBase 3 [0, 1] 1 .crossFreed :=
  ⟨fun _ ↦ 0xab, [some 0x10000], 65536, by decide,
    Relation.ReflTransGen.mono (fun _ _ h ↦ ⟨h.1, System.few.within h.2.1 h.2.2⟩) _ _
      crossFreed_run⟩

theorem System.crossFreed_crowded : System.Crowded .fixedBase 3 2 1 .crossFreed :=
  ⟨fun _ ↦ 0xab, [some 0x10000], 65536, by decide,
    Relation.ReflTransGen.mono (fun _ _ h ↦ ⟨h.1, System.few.atOnce h.2.1 h.2.2⟩) _ _
      crossFreed_run⟩

/-! ### What an exited thread leaves -/

/-- The slots in an exited thread's cache are nobody's. -/
theorem Consistent.stranded (C : Consistent c y ts order sh) (ht : y.phase t = .exited)
    (i : Fin numSizeClasses) : Stranded y t i (sh (.cache t i)) := by
  have H := C.booked.coherent.shelved
  obtain ⟨hchain, -, hcount⟩ := H.linked (.cache t i)
  refine ⟨ht, hchain, hcount, fun x hx g hg hptr ↦ ?_⟩
  cases ho : g.origin with
  | some j =>
    obtain ⟨z, hz, hzp, -⟩ := C.booked.pooled g hg j ho
    obtain rfl : x = z := Nat.add_right_cancel (hptr.symm.trans hzp)
    cases H.apart _ _ x hx hz
  | none =>
    obtain ⟨b, hb, hn⟩ := C.booked.general g hg ho
    have haddr : b.addr = x := Nat.add_right_cancel (hb.ptr_eq.symm.trans hptr)
    exact hn i (haddr ▸ ⟨.cache t i, rfl, hx⟩)

/-- An exited thread's cache, with all its slots, stays as it is for good. -/
theorem Consistent.stranded_run (C : Consistent c y ts order sh) (ht : y.phase t = .exited)
    (i : Fin numSizeClasses) (hrun : Relation.ReflTransGen (System.Step c) y y') :
    y'.state.caches t i = y.state.caches t i ∧ Stranded y' t i (sh (.cache t i)) := by
  have hall : ∃ ts' order' sh', Consistent c y' ts' order' sh' ∧ y'.phase t = .exited ∧
      sh' (.cache t i) = sh (.cache t i) := by
    induction hrun with
    | refl => exact ⟨ts, order, sh, C, ht, rfl⟩
    | tail _ hstep ih =>
      obtain ⟨ts₁, order₁, sh₁, C₁, ht₁, hcache₁⟩ := ih
      obtain ⟨a, legal, hact⟩ := hstep
      obtain ⟨z, ts₂, order₂, sh₂, hz, A⟩ := C₁.act legal
      obtain rfl : z = _ := by simpa using hz.symm.trans hact
      obtain ⟨ht₂, hcache₂⟩ := A.stranded legal hact ht₁ i
      exact ⟨ts₂, order₂, sh₂, A.consistent, ht₂, hcache₂.trans hcache₁⟩
  obtain ⟨ts', order', sh', C', ht', hcache⟩ := hall
  have S := C'.stranded ht' i
  obtain ⟨hchain, htail, hcount⟩ := C.booked.coherent.shelved.linked (.cache t i)
  obtain ⟨hchain', htail', hcount'⟩ := C'.booked.coherent.shelved.linked (.cache t i)
  rw [hcache] at S hchain' htail' hcount'
  have hhead := hchain'.head_unique hchain
  refine ⟨?_, S⟩
  rcases hk : y.state.caches t i with ⟨hd, tl, n⟩
  rcases hk' : y'.state.caches t i with ⟨hd', tl', n'⟩
  rw [hk] at hhead htail hcount
  rw [hk'] at hhead htail' hcount'
  simp only at hhead htail hcount htail' hcount'
  rw [hhead, htail, htail', hcount, hcount']

/-- Under any churn of threads a pool has carved no more than the blocks live at once, a full
cache and one slot for each thread ever started, and one arena. What an exited thread has in its
cache it keeps: in every further run the cache and the chain of its slots are the same, and no
client comes to hold one of them. -/
theorem churn_bounded (h : System.Churned c i threads most y) :
    y.slotCount i ≤ most + (threadLocalCacheCap + 1) * threads.length +
      arenaSlots c (classSize i + sizeofPoolSlotHeader) ∧
    ∀ t, y.phase t = .exited → ∃ l, l.length ≤ threadLocalCacheCap ∧
      ∀ y', Relation.ReflTransGen (System.Step c) y y' →
        y'.state.caches t i = y.state.caches t i ∧ Stranded y' t i l := by
  obtain ⟨ts, order, sh, T⟩ := h.thrifty
  have C := T.tended.consistent
  refine ⟨T.count, fun t ht ↦ ⟨sh (.cache t i), ?_, fun y' hrun ↦ C.stranded_run ht i hrun⟩⟩
  have hcap := C.cap t i
  rwa [ht] at hcap

theorem churn_bounded_crossFreed : System.crossFreed.slotCount 3 = 256 ∧
    256 ≤ 1 + (threadLocalCacheCap + 1) * 2 + arenaSlots .fixedBase (classSize 3 + 16) ∧
    (System.crossFreed.state.caches 1 3).count = 1 ∧
    ∃ l, l.length ≤ threadLocalCacheCap ∧
      ∀ y', Relation.ReflTransGen (System.Step .fixedBase) .crossFreed y' →
        y'.state.caches 1 3 = System.crossFreed.state.caches 1 3 ∧ Stranded y' 1 3 l := by
  have hcount : System.crossFreed.slotCount 3 = 256 := by decide +kernel
  obtain ⟨hbound, hgone⟩ := churn_bounded System.crossFreed_churned
  exact ⟨hcount, hcount ▸ hbound, by decide +kernel, hgone 1 (by decide +kernel)⟩

/-! ### Threads that come and go -/

/-- The slots that the exited ones of `threads` left in their class `i` caches. -/
def System.leftBehind (y : System) (i : Fin numSizeClasses) (threads : List Tid) : Nat :=
  (threads.map fun t ↦ if y.phase t = .exited then (y.state.caches t i).count else 0).sum

/-- A tended system in which exactly the threads `started` have started, and whose pool `i` is no
larger than its running threads, its live blocks and what exited threads left behind explain. -/
structure Peopled (c : Config) (i : Fin numSizeClasses) (running most : Nat) (y : System)
    (ts : List Carved) (order : List Nat) (sh : Shelves) (started : List Tid) : Prop where
  tended : Tended c y ts order sh
  atOnce : y.AtOnce i running most
  nodup : started.Nodup
  mem : ∀ t, t ∈ started ↔ y.phase t ≠ .unborn
  count : y.slotCount i ≤ most + (threadLocalCacheCap + 1) * running +
    arenaSlots c (classSize i + 16) + y.leftBehind i started

/-- What threads hold is what exited ones left behind, and little more for each that runs. -/
theorem Tended.held_le (T : Tended c y ts order sh) (i : Fin numSizeClasses)
    (threads : List Tid) :
    (threads.map (sh.heldBy i)).sum ≤
      (threadLocalCacheCap + 1) * (threads.filter fun t ↦ y.phase t ≠ .exited).length +
        y.leftBehind i threads := by
  induction threads with
  | nil => exact Nat.zero_le _
  | cons t rest ih =>
    unfold System.leftBehind at ih ⊢
    rw [List.map_cons, List.sum_cons, List.map_cons, List.sum_cons, List.filter_cons]
    by_cases ht : y.phase t = .exited
    · have htransit : sh (.transit t i) = [] := T.consistent.transit_nil (by rw [ht]; rfl)
      have hcount := T.consistent.cache_count t i
      have hheld : sh.heldBy i t = (y.state.caches t i).count := by
        unfold Shelves.heldBy
        rw [htransit, hcount, List.length_nil, Nat.add_zero]
      rw [if_pos ht, hheld, if_neg (by simpa using ht)]
      omega
    · have hheld := T.held t i
      rw [if_neg ht, if_pos (by simpa using ht), List.length_cons, Nat.mul_add, Nat.mul_one]
      omega

/-- What exited threads left behind stays, and a thread that starts adds nothing to it. -/
theorem Tended.leftBehind_le (T : Tended c y ts order sh) (legal : a.Legal c y)
    (hact : y.act c a = .ok y') (A : Acted c y sh (a.actor y) y' ts' order' sh')
    (i : Fin numSizeClasses) (threads : List Tid) :
    y.leftBehind i threads ≤ y'.leftBehind i threads := by
  apply sum_map_le
  intro t _
  by_cases ht : y.phase t = .exited
  · obtain ⟨ht', hcache⟩ := A.stranded legal hact ht i
    rw [if_pos ht, if_pos ht', T.consistent.cache_count t i, A.consistent.cache_count t i, hcache]
  · rw [if_neg ht]
    exact Nat.zero_le _

/-- The threads started after an action. -/
theorem Peopled.started_after (P : Peopled c i running most y ts order sh started)
    (legal : a.Legal c y) (hact : y.act c a = .ok y')
    (A : Acted c y sh (a.actor y) y' ts' order' sh') :
    ∃ started' : List Tid, started'.Nodup ∧ (∀ t, t ∈ started' ↔ y'.phase t ≠ .unborn) ∧
      y'.leftBehind i started ≤ y'.leftBehind i started' := by
  have hothers : ∀ t, t ≠ a.actor y → (t ∈ started ↔ y'.phase t ≠ .unborn) := fun t ht ↦ by
    rw [A.undisturbed.phase t ht]
    exact P.mem t
  by_cases hold : a.actor y ∈ started ∨ y'.phase (a.actor y) = .unborn
  · refine ⟨started, P.nodup, fun t ↦ ?_, Nat.le_refl _⟩
    by_cases ht : t = a.actor y
    · subst ht
      constructor
      · intro hm h
        exact (P.mem _).mp hm (legal.unborn hact h)
      · intro h
        exact hold.resolve_right h
    · exact hothers t ht
  · refine ⟨a.actor y :: started, List.nodup_cons.mpr ⟨fun h ↦ hold (.inl h), P.nodup⟩,
      fun t ↦ ?_, ?_⟩
    · by_cases ht : t = a.actor y
      · subst ht
        exact ⟨fun _ h ↦ hold (.inr h), fun _ ↦ List.mem_cons_self⟩
      · rw [List.mem_cons, or_iff_right ht]
        exact hothers t ht
    · unfold System.leftBehind
      rw [List.map_cons, List.sum_cons]
      exact Nat.le_add_left _ _

/-- A step within the limits keeps the pool in its bound. -/
theorem Peopled.step (P : Peopled c i running most y ts order sh started) (legal : a.Legal c y)
    (hact : y.act c a = .ok y') (A : Acted c y sh (a.actor y) y' ts' order' sh')
    (W : y'.AtOnce i running most) :
    ∃ started', Peopled c i running most y' ts' order' sh' started' := by
  have T' := P.tended.step legal hact A
  obtain ⟨started', hnodup, hmem, hle⟩ := P.started_after legal hact A
  refine ⟨started', T', W, hnodup, hmem, ?_⟩
  have hleft := P.tended.leftBehind_le legal hact A i started
  have hcount := P.count
  rcases A.supplied i with hsame | hfew
  · have hsame : y'.slotCount i = y.slotCount i := by
      unfold System.slotCount
      rw [hsame]
    omega
  · have hnone : ∀ t, t ∉ started' → sh' (.cache t i) = [] ∧ sh' (.transit t i) = [] :=
      fun t ht ↦ T'.none t (by_contra fun h ↦ ht ((hmem t).mpr h)) i
    have hslots := T'.consistent.slotCount_le hnone
    have hheld := T'.held_le i started'
    have hrunning := W.1 (started'.filter fun t ↦ y'.phase t ≠ .exited) (hnodup.filter _)
      fun t ht ↦ by
        obtain ⟨hm, hne⟩ := List.mem_filter.mp ht
        exact ⟨(hmem t).mp hm, by simpa using hne⟩
    have hscaled := Nat.mul_le_mul_left (threadLocalCacheCap + 1) hrunning
    have := W.2
    omega

/-- Every system of a run within the limits is in its bound. -/
theorem System.Crowded.peopled (h : System.Crowded c i running most y) :
    ∃ ts order sh started, Peopled c i running most y ts order sh started := by
  obtain ⟨mem, offers, arenaSize, hsize, hrun⟩ := h
  induction hrun with
  | refl =>
    refine ⟨[], [], _, [], .start c mem offers hsize, ⟨fun l _ hl ↦ ?_, Nat.zero_le _⟩,
      List.nodup_nil, fun t ↦ ?_, Nat.zero_le _⟩
    · cases l with
      | nil => exact Nat.zero_le _
      | cons t l => exact absurd rfl (hl t List.mem_cons_self).1
    · simp [System.start]
  | tail _ hstep ih =>
    obtain ⟨ts, order, sh, started, P⟩ := ih
    obtain ⟨⟨a, legal, hact⟩, W⟩ := hstep
    obtain ⟨z, ts', order', sh', hz, A⟩ := P.tended.consistent.act legal
    obtain rfl : z = _ := by simpa using hz.symm.trans hact
    obtain ⟨started', P'⟩ := P.step legal hact A W
    exact ⟨ts', order', sh', started', P'⟩

/-- The slot `x` of class `i` is live, on its pool's chain, or with a thread that runs. -/
def System.InReach (y : System) (sh : Shelves) (i : Fin numSizeClasses) (x : Nat) : Prop :=
  x ∈ sh (.live i) ∨ x ∈ sh (.pool i) ∨
    ∃ t, y.Running t ∧ (x ∈ sh (.cache t i) ∨ x ∈ sh (.transit t i))

/-- A slot out of reach is in the cache of a thread that has exited. -/
theorem Tended.place (T : Tended c y ts order sh) {x : Nat} (hx : y.Carved i x) :
    y.InReach sh i x ∨ ∃ t, y.phase t = .exited ∧ x ∈ sh (.cache t i) := by
  obtain ⟨S, hS, hxS, -⟩ := T.consistent.slotPartition.place i x hx
  have hwith : ∀ t, x ∈ sh (.cache t i) ∨ x ∈ sh (.transit t i) →
      y.InReach sh i x ∨ ∃ t, y.phase t = .exited ∧ x ∈ sh (.cache t i) := by
    intro t ht
    by_cases hunborn : y.phase t = .unborn
    · obtain ⟨hcache, htransit⟩ := T.none t hunborn i
      rw [hcache, htransit] at ht
      rcases ht with ht | ht <;> cases ht
    by_cases hgone : y.phase t = .exited
    · have htransit : sh (.transit t i) = [] := T.consistent.transit_nil (by rw [hgone]; rfl)
      rw [htransit] at ht
      exact .inr ⟨t, hgone, ht.resolve_right List.not_mem_nil⟩
    · exact .inl (.inr (.inr ⟨t, ⟨hunborn, hgone⟩, ht⟩))
  cases S with
  | pool j => exact .inl (.inr (.inl (hS ▸ hxS)))
  | live j => exact .inl (.inl (hS ▸ hxS))
  | cache t j => exact hwith t (.inl (hS ▸ hxS))
  | transit t j => exact hwith t (.inr (hS ▸ hxS))

/-- However many threads come and go, a pool has carved no more than the blocks live at once, a
full cache and one slot for each thread that runs at once, one arena, and what the threads that
have exited left in their caches, at most a full cache each. Every carved slot but those is within
reach of a thread that runs. -/
theorem crowd_bounded (h : System.Crowded c i running most y) :
    ∃ gone : List Tid, gone.Nodup ∧ (∀ t, t ∈ gone ↔ y.phase t = .exited) ∧
      (∀ t ∈ gone, (y.state.caches t i).count ≤ threadLocalCacheCap) ∧
      y.slotCount i ≤ most + (threadLocalCacheCap + 1) * running +
        arenaSlots c (classSize i + sizeofPoolSlotHeader) +
        (gone.map fun t ↦ (y.state.caches t i).count).sum ∧
      ∃ sh, SlotPartition y sh ∧
        ∀ x, y.Carved i x → y.InReach sh i x ∨ ∃ t ∈ gone, x ∈ sh (.cache t i) := by
  obtain ⟨ts, order, sh, started, P⟩ := h.peopled
  have C := P.tended.consistent
  have hgone : ∀ t, t ∈ started.filter (fun t ↦ y.phase t = .exited) ↔ y.phase t = .exited := by
    intro t
    rw [List.mem_filter, decide_eq_true_eq, and_iff_right_iff_imp]
    intro ht
    rw [P.mem t, ht]
    simp
  refine ⟨started.filter fun t ↦ y.phase t = .exited, P.nodup.filter _, hgone, fun t ht ↦ ?_, ?_,
    sh, C.slotPartition, fun x hx ↦ ?_⟩
  · have hcap := C.cap t i
    rwa [(hgone t).mp ht, ← C.cache_count t i] at hcap
  · rw [sum_map_filter]
    simpa [System.leftBehind] using P.count
  · refine (P.tended.place hx).imp_right ?_
    rintro ⟨t, ht, hxt⟩
    exact ⟨t, (hgone t).mpr ht, hxt⟩

theorem crowd_bounded_crossFreed : ∃ gone : List Tid, 1 ∈ gone ∧
    System.crossFreed.slotCount 3 ≤ 1 + (threadLocalCacheCap + 1) * 2 +
      arenaSlots .fixedBase (classSize 3 + sizeofPoolSlotHeader) +
      (gone.map fun t ↦ (System.crossFreed.state.caches t 3).count).sum := by
  obtain ⟨gone, -, hgone, -, hcount, -⟩ := crowd_bounded System.crossFreed_crowded
  exact ⟨gone, (hgone 1).mpr (by decide +kernel), hcount⟩

end CustomAllocator
