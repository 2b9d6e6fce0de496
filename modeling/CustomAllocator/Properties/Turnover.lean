import CustomAllocator.Pool.Stages
import CustomAllocator.Properties.Churn
import CustomAllocator.Properties.Uninterrupted

/-!
# One thread after another

A thread that allocates and frees a single block leaves slots in its cache when it exits, and the
next thread draws its own from the pool. So a pool runs dry and is carved again although one thread
runs and one block is live at a time: what exited threads hold counts toward every bound.
-/

namespace CustomAllocator
open CustomAllocator.Base

/-- Thread `t` runs alone, in a call that leaves at most one block live. -/
structure Solo (t : Tid) (y : System) : Prop where
  others : ∀ u, u ≠ t → ¬ y.Running u
  short : (y.phase t).steps ≤ 4
  few : y.live.length ≤ 1
  first : (y.phase t).wanted ≠ none → y.live = []

/-- The threads before `n` have run one after another, each with one block of class `i` at a time,
and have exited. It is the turn of thread `n`, between calls in phase `ph` with the blocks `held`;
the kernel stands at `os`, and class `i` has the stock `k` in its pool and the thread's cache. -/
structure Turn (c : Config) (i : Fin numSizeClasses) (n : Tid) (ph : Phase) (held : List Grant)
    (os : Os) (k : Stock) (y : System) : Prop where
  crowded : System.Crowded c i 1 1 y
  gone : ∀ u, u < n → y.phase u = .exited
  here : y.phase n = ph
  rest : ph.AtRest
  unborn : ∀ u, n < u → y.phase u = .unborn
  live : y.live = held
  few : held.length ≤ 1
  owner : ∀ g ∈ held, y.owner g.ptr = n
  os : y.state.os = os
  stock : ∃ sh, Shelved c y.state noTransit sh ∧ Stocks c n y.state sh i k

variable {c : Config} {y y' : System} {t : Tid} {i : Fin numSizeClasses} {n : Tid} {os : Os}
  {k : Stock} {s s' : State} {running most size r : Nat} {request : Call} {ts : List Carved}
  {order : List Nat} {sh : Shelves}

/-! ### A thread on its own -/

theorem Solo.atOnce (S : Solo t y) (i : Fin numSizeClasses) : y.AtOnce i 1 1 := by
  constructor
  · intro l hnd hl
    have hsub : l ⊆ [t] := fun u hu ↦
      List.mem_singleton.mpr (by_contra fun hne ↦ S.others u hne (hl u hu))
    exact (List.subperm_of_subset hnd hsub).length_le
  · exact (List.length_filter_le _ _).trans S.few

/-- A step of the call leaves the thread alone with at most one block. -/
theorem Solo.step (S : Solo t y) (G : Goes y t y') : Solo t y' := by
  have F := G.forward
  have hothers : ∀ u, u ≠ t → ¬ y'.Running u := by
    intro u hu
    rw [System.Running, F.others u hu]
    exact S.others u hu
  have hshort : (y'.phase t).steps ≤ 4 := (Nat.le_of_lt F.fewer).trans S.short
  have hwithout : ∀ ptr, (without y.live ptr).length ≤ 1 := fun ptr ↦
    (List.length_filter_le _ _).trans S.few
  -- Past `my_malloc` no step allocates, except in a reallocation, which has more steps to go.
  have hlast : ∀ {z ph}, y' = System.setPhase z t ph → z.live.length ≤ 1 → ph.wanted = none →
      Solo t y' := by
    rintro z ph rfl hfew hwanted
    refine ⟨hothers, hshort, hfew, fun h ↦ absurd ?_ h⟩
    rw [System.setPhase_same, hwanted]
  have hlong : ∀ ph, y.phase t = ph → 4 < ph.steps → Solo t y' := by
    rintro ph rfl h
    exact absurd S.short (Nat.not_le_of_lt h)
  cases G with
  | refill here s i b =>
    have hlive := S.first (by rw [here]; exact Option.some_ne_none _)
    exact ⟨hothers, hshort, S.few, fun _ ↦ hlive⟩
  | stock here s =>
    have hlive := S.first (by rw [here]; exact Option.some_ne_none _)
    exact ⟨hothers, hshort, S.few, fun _ ↦ hlive⟩
  | @handOut size use here s p =>
    have hlive := S.first (by rw [here]; exact Option.some_ne_none _)
    by_cases hp : p = 0
    · exact hlast (if_pos hp) S.few rfl
    · refine hlast (if_neg hp) ?_ rfl
      exact Nat.le_of_eq (congrArg (fun l ↦ l.length + 1) hlive)
  | fail here => exact hlast rfl S.few rfl
  | returns here ne => exact hlast rfl S.few rfl
  | zero here ne => exact hlast rfl S.few rfl
  | copies here ne => exact hlong _ here (show 4 < 5 by decide)
  | tag here => exact hlast rfl S.few rfl
  | push here s i => exact hlast rfl (hwithout _) rfl
  | takeBack here s => exact hlast rfl (hwithout _) rfl
  | detach here s chainHead chainTail => exact hlast rfl S.few rfl
  | keep here => exact hlast rfl S.few rfl
  | splice here s => exact hlast rfl S.few rfl
  | retag here => exact hlong _ here (show 4 < 10 by decide)
  | renew here s => exact hlong _ here (show 4 < 9 by decide)
  | move here copySize => exact hlong _ here (show 4 < 9 by decide)

/-- A step within the limits extends a run within the limits. -/
theorem System.Crowded.tail (h : System.Crowded c i running most y) (hstep : System.Step c y y')
    (W : y'.AtOnce i running most) : System.Crowded c i running most y' := by
  obtain ⟨mem, offers, arenaSize, hsize, hrun⟩ := h
  exact ⟨mem, offers, arenaSize, hsize, hrun.tail ⟨hstep, W⟩⟩

theorem System.Crowded.reachable (h : System.Crowded c i running most y) :
    System.Reachable c y := by
  obtain ⟨mem, offers, arenaSize, hsize, hrun⟩ := h
  exact ⟨mem, offers, arenaSize, hsize, Relation.ReflTransGen.mono (fun _ _ h ↦ h.1) _ _ hrun⟩

/-- A call that a thread makes on its own, run to its end. -/
theorem System.Crowded.called (h : System.Crowded c i 1 1 y)
    (legal : (Action.call t request).Legal c y) (S : Solo t (y.after c (.call t request)))
    (run : exec c y.state t request = .ok (s, r)) :
    System.Crowded c i 1 1 ((y.after c (.call t request)).returned t request s r) := by
  obtain ⟨n, -, hrun⟩ := legal.leads h.reachable.lives
  rw [run, ok_bind] at hrun
  have hcalled : System.Crowded c i 1 1 (y.after c (.call t request)) :=
    h.tail ⟨_, legal, rfl⟩ (S.atOnce i)
  refine (System.proceed_induct (P := fun z ↦ System.Crowded c i 1 1 z ∧ Solo t z) ?_
    ⟨hcalled, S⟩ hrun).1
  rintro z z' ⟨hz, Sz⟩ hbusy hadv
  have Sz' := Sz.step (System.advance_goes hbusy z' hadv)
  exact ⟨hz.tail ⟨.advance t, hbusy, hadv⟩ (Sz'.atOnce i), Sz'⟩

/-! ### One life -/

/-- Between calls the slots are settled. -/
theorem Consistent.settled (C : Consistent c y ts order sh) (hrest : ∀ t, (y.phase t).AtRest) :
    Settled c y.state sh := by
  have htransit : y.transit = noTransit := by
    funext t i
    exact ((hrest t).clear i).1
  refine ⟨htransit ▸ C.booked.coherent.shelved, fun t i ↦ C.transit_nil ((hrest t).clear i).1,
    fun t i ↦ ?_⟩
  have hcap := C.cap t i
  rwa [((hrest t).clear i).2] at hcap

theorem detachLoop_count {m : Mem} {steps detachTail detachCount : Nat} {r : Nat × Nat}
    (h : detachLoop m steps detachTail detachCount = .ok r) : r.2 ≤ detachCount + steps := by
  induction steps generalizing detachTail detachCount with
  | zero =>
    cases h
    exact Nat.le_refl _
  | succ steps ih =>
    simp only [detachLoop, bind_eq_ok] at h
    obtain ⟨next, -, h⟩ := h
    split at h
    · cases h
      exact Nat.le_add_right _ _
    · have := ih h
      omega

/-- A free leaves a slot in the cache. -/
theorem freePooledStage3_count {slot : Nat} (h : freePooledStage3 s t i slot = .ok s')
    (hcap : (s.caches t i).count ≤ threadLocalCacheCap) : 0 < (s'.caches t i).count := by
  simp only [freePooledStage3, bind_eq_ok] at h
  obtain ⟨s₁, hpush, h⟩ := h
  have hpushed : (s₁.caches t i).count = (s.caches t i).count + 1 := by
    simp only [pushToCache, bind_eq_ok] at hpush
    obtain ⟨mem, -, hpush⟩ := hpush
    cases hpush
    simp only [State.setCache, and_self, if_true]
    exact add64_of_lt (Nat.lt_of_le_of_lt (Nat.succ_le_succ hcap) (by decide))
  split at h
  · next hover =>
    have hover : threadLocalCacheCap < (s₁.caches t i).count := of_decide_eq_true hover
    simp only [flushBatchToPool, detachBatch, spliceBatch, bind_eq_ok] at h
    obtain ⟨_, ⟨⟨detachTail, detachCount⟩, hloop, _, -, _, -, h₁⟩, _, -, h₂⟩ := h
    have hcount := detachLoop_count hloop
    cases h₁
    cases h₂
    simp only [State.setPool, State.setCache, and_self, if_true]
    unfold threadLocalCacheCap threadLocalCacheBatchSize at hcap hover
    unfold threadLocalCacheBatchSize at hcount
    rw [sub64_of_le (by omega) (by omega)]
    omega
  · cases h
    omega

/-- All systems of such a run are tended. -/
theorem System.Crowded.tended (h : System.Crowded c i running most y) :
    ∃ ts order sh, Tended c y ts order sh := by
  obtain ⟨ts, order, sh, started, P⟩ := h.peopled
  exact ⟨ts, order, sh, P.tended⟩

namespace Turn

variable {ph : Phase} {held : List Grant}

theorem others (T : Turn c i n ph held os k y) {u : Tid} (hu : u ≠ n) : ¬ y.Running u := by
  rcases Nat.lt_or_gt_of_ne hu with hlt | hgt
  · exact fun h ↦ h.2 (T.gone u hlt)
  · exact fun h ↦ h.1 (T.unborn u hgt)

theorem atRest (T : Turn c i n ph held os k y) (u : Tid) : (y.phase u).AtRest := by
  rcases Nat.lt_trichotomy u n with hlt | rfl | hgt
  · rw [T.gone u hlt]
    trivial
  · rw [T.here]
    exact T.rest
  · rw [T.unborn u hgt]
    trivial

/-- An action that moves no other thread and grants nothing leaves the thread alone. -/
theorem solo (T : Turn c i n ph held os k y) (hothers : ∀ u, u ≠ n → y'.phase u = y.phase u)
    (hlive : y'.live = y.live) (hshort : (y'.phase n).steps ≤ 4)
    (hfirst : (y'.phase n).wanted ≠ none → held = []) : Solo n y' := by
  have hheld : y'.live = held := hlive.trans T.live
  refine ⟨fun u hu ↦ ?_, hshort, hheld ▸ T.few, fun h ↦ hheld.trans (hfirst h)⟩
  rw [System.Running, hothers u hu]
  exact T.others hu

/-- The stock, on the shelves of the invariant. -/
theorem settled (T : Turn c i n ph held os k y) :
    ∃ ts order sh, Tended c y ts order sh ∧ Settled c y.state sh ∧ Stocks c n y.state sh i k := by
  obtain ⟨ts, order, sh, T'⟩ := T.crowded.tended
  obtain ⟨sh', H, K⟩ := T.stock
  have S := T'.consistent.settled T.atRest
  exact ⟨ts, order, sh, T', S, K.congr H S.shelved⟩

/-- The thread starts. -/
theorem start (T : Turn c i n .unborn [] os k y) :
    Turn c i n (.idle 0) [] os k (y.setPhase n (.idle 0)) := by
  have hothers : ∀ u, u ≠ n → (y.setPhase n (.idle 0)).phase u = y.phase u :=
    fun u hu ↦ System.setPhase_ne _ _ hu
  have S : Solo n (y.setPhase n (.idle 0)) := by
    refine T.solo hothers rfl ?_ fun _ ↦ rfl
    rw [System.setPhase_same]
    exact Nat.zero_le 4
  exact {
    crowded := T.crowded.tail ⟨.start n, T.here, rfl⟩ (S.atOnce i)
    gone u hu := (hothers u (Nat.ne_of_lt hu)).trans (T.gone u hu)
    here := System.setPhase_same ..
    rest := trivial
    unborn u hu := (hothers u (Nat.ne_of_gt hu)).trans (T.unborn u hu)
    live := T.live
    few := T.few
    owner := T.owner
    os := T.os
    stock := T.stock }

/-- A call of the thread, run to its end. -/
theorem call {r₀ : Nat} (T : Turn c i n (.idle r₀) held os k y)
    (legal : (Action.call n request).Legal c y) (hshort : request.entry.steps ≤ 4)
    (hfirst : request.entry.wanted ≠ none → held = [])
    (hfew : (ledgerAfter held request r).length ≤ 1)
    (run : exec c y.state n request = .ok (s, r)) {k' : Stock} {sh : Shelves}
    (H : Shelved c s noTransit sh) (K : Stocks c n s sh i k') :
    Turn c i n (.idle r) (ledgerAfter held request r) s.os k'
      ((y.after c (.call n request)).returned n request s r) := by
  have hothers : ∀ u, u ≠ n → (y.after c (.call n request)).phase u = y.phase u :=
    fun u hu ↦ System.setPhase_ne _ _ hu
  have hothers' : ∀ u, u ≠ n →
      ((y.after c (.call n request)).returned n request s r).phase u = y.phase u :=
    fun u hu ↦ (System.setPhase_ne _ _ hu).trans (hothers u hu)
  have hentry : (y.after c (.call n request)).phase n = request.entry := System.setPhase_same ..
  have S : Solo n (y.after c (.call n request)) :=
    T.solo hothers rfl (hentry ▸ hshort) (hentry ▸ hfirst)
  exact {
    crowded := T.crowded.called legal S run
    gone u hu := (hothers' u (Nat.ne_of_lt hu)).trans (T.gone u hu)
    here := System.setPhase_same ..
    rest := trivial
    unborn u hu := (hothers' u (Nat.ne_of_gt hu)).trans (T.unborn u hu)
    live := congrArg (fun l ↦ ledgerAfter l request r) T.live
    few := hfew
    owner g hg := by
      change (if r ≠ 0 ∧ g.ptr = r then n else y.owner g.ptr) = n
      rcases mem_ledgerAfter hg with hr | ⟨g', hlive, hptr⟩
      · exact if_pos hr
      · split
        · rfl
        · rw [← hptr]
          exact T.owner g' hlive
    os := rfl
    stock := ⟨sh, H, K⟩ }

/-- The thread allocates a block of the class. -/
theorem malloc {r₀ : Nat} (T : Turn c i n (.idle r₀) [] os k y) (hwhole : WholeBatches c)
    (ho : originOf size = some i) (hd : (k.draw c i os).2.2 = true) :
    ∃ p y', Turn c i n (.idle p) [⟨p, size, some i⟩] (k.draw c i os).1 (k.draw c i os).2.1 y' := by
  obtain ⟨ts, order, sh, -, S, K⟩ := T.settled
  have hsize := originOf_eq_some ho
  have hclass := classSize_bounds i
  have legal : (Action.call n (.malloc size)).Legal c y := by
    refine ⟨⟨r₀, T.here⟩, ?_, .inl rfl⟩
    change size ≤ sizeMax - 47
    unfold sizeMax
    omega
  have hdraw := S.draw hwhole K
  unfold Drawn at hdraw
  rw [T.os] at hdraw
  rcases hdraw with ⟨hnull, -⟩ | ⟨s', x, sh', -, hrun, H', hos, K', -⟩
  · rw [hd] at hnull
    cases hnull
  have run : exec c y.state n (.malloc size) = .ok (s', x + 16) := by
    change myMalloc c y.state n size = _
    rw [myMalloc_eq, ho]
    exact hrun
  have hledger : ledgerAfter [] (.malloc size) (x + 16) = [⟨x + 16, size, some i⟩] := by
    simp only [ledgerAfter, if_neg (Nat.succ_ne_zero _), ho]
  have T' := T.call legal (Nat.le_refl 4) (fun _ ↦ rfl) (hledger ▸ Nat.le_refl 1) run H' K'
  rw [hledger, hos] at T'
  exact ⟨x + 16, _, T'⟩

/-- The thread frees its block, and has a slot in its cache. -/
theorem free {r₀ p : Nat} (T : Turn c i n (.idle r₀) [⟨p, size, some i⟩] os k y)
    (hstage : c.stage = .threadCaches) :
    ∃ y', Turn c i n (.idle 0) [] os k.put y' ∧ 0 < (y'.state.caches n i).count := by
  obtain ⟨ts, order, sh, T', S, K⟩ := T.settled
  have B := T'.consistent.booked
  have hg : (⟨p, size, some i⟩ : Grant) ∈ y.live := T.live ▸ List.mem_cons_self
  obtain ⟨x, hx, rfl, -⟩ := B.pooled _ hg i rfl
  have legal : (Action.call n (.free (x + 16))).Legal c y :=
    ⟨⟨r₀, T.here⟩, trivial, .inr ⟨_, hg, rfl, T.owner _ List.mem_cons_self, B.routed_pooled hg rfl⟩⟩
  obtain ⟨s', sh', hrun, H', hos, K', -⟩ := S.putBack K (S.shelved.addr _ x hx)
    (S.shelved.mapped _ x hx) fun U hU ↦ S.shelved.apart _ _ x hU hx
  have run : exec c y.state n (.free (x + 16)) = .ok (s', 0) := by
    simp only [exec, B.myFree_pooled n hg rfl, hrun, ok_bind]
  have hledger : ledgerAfter [⟨x + 16, size, some i⟩] (.free (x + 16)) 0 = [] := by
    simp [ledgerAfter, without]
  have T'' := T.call legal (Nat.le_refl 4) (fun h ↦ absurd rfl h)
    (by rw [hledger]; exact Nat.zero_le 1) run H' K'
  rw [hledger, hos, T.os] at T''
  refine ⟨_, T'', ?_⟩
  simp only [freePooled, hstage] at hrun
  apply freePooledStage3_count hrun
  rw [T'.consistent.cache_count]
  exact S.cap n i

/-- The thread exits, and the next finds less in the pool. -/
theorem exit {r₀ : Nat} (T : Turn c i n (.idle r₀) [] os k y)
    (hcount : 0 < (y.state.caches n i).count) :
    ∃ m < k.idle, Turn c i (n + 1) .unborn [] os ⟨m, k.arenas⟩ (y.setPhase n .exited) := by
  obtain ⟨ts, order, sh, T', S, K⟩ := T.settled
  have hothers : ∀ u, u ≠ n → (y.setPhase n .exited).phase u = y.phase u :=
    fun u hu ↦ System.setPhase_ne _ _ hu
  have hnext : sh (.cache (n + 1) i) = [] := (T'.none _ (T.unborn _ (Nat.lt_succ_self n)) i).1
  have hidle := K.idle
  rw [T'.consistent.cache_count] at hcount
  have solo : Solo n (y.setPhase n .exited) := by
    refine T.solo hothers rfl ?_ fun _ ↦ rfl
    rw [System.setPhase_same]
    exact Nat.zero_le 4
  refine ⟨(sh (.pool i)).length, by omega, {
    crowded := T.crowded.tail ⟨.exit n, ⟨r₀, T.here⟩, rfl⟩ (solo.atOnce i)
    gone := fun u hu ↦ ?_
    here := ?_
    rest := trivial
    unborn := fun u hu ↦ ?_
    live := T.live
    few := T.few
    owner := fun g hg ↦ nomatch hg
    os := T.os
    stock := ⟨sh, S.shelved, K.arenas, ?_, K.batches, fun _ ↦ hnext⟩ }⟩
  · rcases Nat.lt_succ_iff_lt_or_eq.mp hu with hlt | rfl
    · exact (hothers u (Nat.ne_of_lt hlt)).trans (T.gone u hlt)
    · exact System.setPhase_same ..
  · exact (hothers _ (Nat.succ_ne_self n)).trans (T.unborn _ (Nat.lt_succ_self n))
  · have hlt : n < u := Nat.lt_of_succ_lt hu
    exact (hothers u (Nat.ne_of_gt hlt)).trans (T.unborn u hlt)
  · rw [hnext, List.length_nil, Nat.add_zero]

/-- A thread that allocates and frees one block and exits. -/
theorem life (T : Turn c i n .unborn [] os k y) (hstage : c.stage = .threadCaches)
    (hwhole : WholeBatches c) (ho : originOf size = some i) (hd : (k.draw c i os).2.2 = true) :
    ∃ m < (k.draw c i os).2.1.put.idle, ∃ y', 0 < (y'.state.caches n i).count ∧
      Turn c i (n + 1) .unborn [] (k.draw c i os).1 ⟨m, (k.draw c i os).2.1.arenas⟩ y' := by
  obtain ⟨p, y₁, T₁⟩ := T.start.malloc hwhole ho hd
  obtain ⟨y₂, T₂, hcount⟩ := T₁.free hstage
  obtain ⟨m, hm, T₃⟩ := T₂.exit hcount
  exact ⟨m, hm, y₂.setPhase n .exited, hcount, T₃⟩

/-- Thread after thread, until the pool is dry. -/
theorem exhaust {m : Nat} {rs : List OsRegion} (T : Turn c i n .unborn [] os ⟨m, rs⟩ y)
    (hstage : c.stage = .threadCaches) (hwhole : WholeBatches c) (ho : originOf size = some i) :
    ∃ n' y', Turn c i n' .unborn [] os ⟨0, rs⟩ y' := by
  induction m using Nat.strong_induction_on generalizing n y with
  | _ m ih =>
    cases m with
    | zero => exact ⟨n, y, T⟩
    | succ m =>
      obtain ⟨m', hlt, y', -, T'⟩ := T.life hstage hwhole ho rfl
      exact ih m' hlt T'

/-- At program start it is the first thread's turn. -/
theorem first (c : Config) (i : Fin numSizeClasses) (mem : Mem) (offers : List (Option Nat))
    {arenaSize : Nat} (h : arenaSize < 2 ^ 64) :
    Turn c i 0 .unborn [] ⟨[], offers, []⟩ ⟨0, []⟩ (.start mem offers arenaSize) where
  crowded := ⟨mem, offers, arenaSize, h, .refl⟩
  gone u hu := absurd hu (Nat.not_lt_zero u)
  here := rfl
  rest := trivial
  unborn _ _ := rfl
  live := rfl
  few := Nat.zero_le 1
  owner _ hg := nomatch hg
  os := rfl
  stock := by
    have S := (Consistent.start c mem offers h).settled fun _ ↦ trivial
    exact ⟨fun _ ↦ [], S.shelved, rfl, rfl, fun _ ↦ rfl, fun _ ↦ rfl⟩

/-- A slot in the cache of the thread that exited last is out of reach. -/
theorem unreached (T : Turn c i (n + 1) .unborn [] os k y)
    (hcount : 0 < (y.state.caches n i).count) :
    ∃ x, y.Carved i x ∧ ∀ sh, SlotPartition y sh → ¬ y.InReach sh i x := by
  obtain ⟨ts, order, sh, T', -⟩ := T.settled
  have P := T'.consistent.slotPartition
  rw [T'.consistent.cache_count] at hcount
  obtain ⟨x, l, hl⟩ := List.exists_cons_of_ne_nil (List.ne_nil_of_length_pos hcount)
  have hx : x ∈ sh (.cache n i) := hl ▸ List.mem_cons_self
  refine ⟨x, P.carved _ x hx, fun sh' P' hreach ↦ ?_⟩
  have hchain : Chain (read64 y.state.mem) 0 (y.state.caches n i).head (sh' (.cache n i)) :=
    P'.shows (.cache n i)
  have hx' : x ∈ sh' (.cache n i) := by
    rwa [hchain.unique (P.shows (.cache n i))]
  obtain ⟨place, -, -, honly⟩ := P'.place i x (P.carved _ x hx)
  have hcache := honly _ hx'
  rcases hreach with h | h | ⟨u, hu, h | h⟩
  · cases (honly _ h).trans hcache.symm
  · cases (honly _ h).trans hcache.symm
  · cases (honly _ h).trans hcache.symm
    exact hu.2 (T.gone n (Nat.lt_succ_self n))
  · cases (honly _ h).trans hcache.symm

end Turn

/-- A kernel with addresses for two regions. -/
def Os.twoRegions : Os := ⟨[], [some 0x800000, some 0x900000], []⟩

/-- The first slot of class `i`. -/
def Stock.drawn (c : Config) (i : Fin numSizeClasses) (os : Os) : Os × Stock × Bool :=
  (⟨0, []⟩ : Stock).draw c i os

/-- The first slot after that region has run dry. -/
def Stock.redrawn (c : Config) (i : Fin numSizeClasses) (os : Os) : Os × Stock × Bool :=
  (⟨0, (Stock.drawn c i os).2.1.arenas⟩ : Stock).draw c i (Stock.drawn c i os).1

/-- One thread at a time with one live block at a time carves 512 slots of the 128-byte class, more
than one cache, one batch and one arena explain; and a slot is in nobody's reach. -/
theorem crowd_outgrows : ∃ y, System.Crowded .fixedBase 3 1 1 y ∧
    1 + (threadLocalCacheCap + 1) * 1 + threadLocalCacheBatchSize +
      arenaSlots .fixedBase (classSize 3 + sizeofPoolSlotHeader) < y.slotCount 3 ∧
    ∃ x, y.Carved 3 x ∧ ∀ sh, SlotPartition y sh → ¬ y.InReach sh 3 x := by
  have hwhole : WholeBatches .fixedBase := wholeBatches_of_page rfl
  have ho : originOf 100 = some 3 := by decide
  have hfirst : (Stock.drawn .fixedBase 3 .twoRegions).2.2 = true := by decide +kernel
  have hsecond : (Stock.redrawn .fixedBase 3 .twoRegions).2.2 = true := by decide +kernel
  have T₀ := Turn.first .fixedBase 3 (fun _ ↦ 0) Os.twoRegions.offers
    (show 65536 < 2 ^ 64 by decide)
  obtain ⟨m, -, y₁, -, T₁⟩ := T₀.life rfl hwhole ho hfirst
  obtain ⟨n, y₂, T₂⟩ := T₁.exhaust rfl hwhole ho
  obtain ⟨m', -, y₃, hcount, T₃⟩ := T₂.life rfl hwhole ho hsecond
  obtain ⟨sh, -, K⟩ := T₃.stock
  have hslots : y₃.slotCount 3 = 512 := by
    unfold System.slotCount
    rw [K.arenas]
    change ((Stock.redrawn .fixedBase 3 .twoRegions).2.1.arenas.map
      fun r ↦ r.size / (classSize 3 + 16)).sum = 512
    decide +kernel
  refine ⟨y₃, T₃.crowded, ?_, T₃.unreached hcount⟩
  rw [hslots]
  decide +kernel

end CustomAllocator
