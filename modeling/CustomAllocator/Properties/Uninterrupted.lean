import CustomAllocator.Lifetime.Runs

/-!
# One thread at a time

A call whose steps no other thread interrupts does what the function of the source does: the
steps that the threads take are the same computation, cut where other threads may act. The
single-threaded runs are therefore among the runs of the system.
-/

namespace CustomAllocator
open CustomAllocator.Base

/-- `n` steps of thread `t` in a row. -/
def System.proceed (c : Config) (t : Tid) : Nat → System → Except Fault System
  | 0, y => .ok y
  | n + 1, y => do
    let y ← y.advance c t
    proceed c t n y

/-- At most `n` steps of thread `t` in a row give `x`. -/
def Leads (c : Config) (t : Tid) (n : Nat) (y : System) (x : Except Fault System) : Prop :=
  ∃ k ≤ n, y.proceed c t k = x

/-- The system after the call that thread `t` runs returned `r` and left the state `s`. -/
def System.returned (y : System) (t : Tid) (request : Call) (s : State) (r : Nat) : System :=
  { y with
    state := s,
    live := ledgerAfter y.live request r,
    owner := fun q ↦ if r ≠ 0 ∧ q = r then t else y.owner q }.setPhase t (.idle r)

/-- However far thread `t` gets, no pointer is granted twice. -/
def Unshared (c : Config) (t : Tid) (y : System) : Prop :=
  ∀ k z, y.proceed c t k = .ok z → (z.live.map Grant.ptr).Nodup

variable {c : Config} {y y' z : System} {t : Tid} {n m k size ptr copySize newSize p : Nat}
  {use : Purpose} {sequel : Sequel} {request : Call} {s : State} {ph ph' : Phase}

/-! ### Steps in a row -/

theorem System.proceed_add (n k : Nat) (y : System) :
    y.proceed c t (n + k) = y.proceed c t n >>= fun z ↦ z.proceed c t k := by
  induction n generalizing y with
  | zero =>
    rw [Nat.zero_add]
    rfl
  | succ n ih =>
    rw [Nat.add_right_comm, System.proceed, System.proceed]
    cases y.advance c t with
    | error e => rfl
    | ok z => exact ih z

theorem Leads.refl (c : Config) (t : Tid) (y : System) : Leads c t 0 y (.ok y) :=
  ⟨0, Nat.le_refl 0, rfl⟩

theorem Leads.mono {x : Except Fault System} (h : Leads c t n y x) (hle : n ≤ m) :
    Leads c t m y x := by
  obtain ⟨k, hk, hx⟩ := h
  exact ⟨k, Nat.le_trans hk hle, hx⟩

theorem Leads.step {x : Except Fault System} (h : y.advance c t = x) : Leads c t 1 y x := by
  refine ⟨1, Nat.le_refl 1, ?_⟩
  rw [System.proceed, h]
  cases x with
  | error e => rfl
  | ok z => rfl

/-- What follows a computation that may fail follows it in the steps too. -/
theorem Leads.bind {α : Type} {run : Except Fault α} {f : α → System}
    {g : α → Except Fault System} (h : Leads c t n y (run >>= fun a ↦ .ok (f a)))
    (hg : ∀ a, run = .ok a → Leads c t m (f a) (g a)) : Leads c t (n + m) y (run >>= g) := by
  obtain ⟨k, hk, hrun⟩ := h
  cases run with
  | error e => exact ⟨k, by omega, hrun⟩
  | ok a =>
    obtain ⟨j, hj, hnext⟩ := hg a rfl
    refine ⟨k + j, by omega, ?_⟩
    rw [System.proceed_add, hrun]
    exact hnext

theorem Leads.trans {x : Except Fault System} (h : Leads c t n y (.ok z))
    (h' : Leads c t m z x) : Leads c t (n + m) y x := by
  obtain ⟨k, hk, hz⟩ := h
  obtain ⟨j, hj, hx⟩ := h'
  refine ⟨k + j, by omega, ?_⟩
  rw [System.proceed_add, hz]
  exact hx

theorem System.setPhase_setPhase (y : System) (t : Tid) (ph ph' : Phase) :
    (y.setPhase t ph).setPhase t ph' = y.setPhase t ph' := by
  simp only [System.setPhase, System.mk.injEq, true_and, and_true]
  funext u
  by_cases hu : u = t
  · rw [if_pos hu, if_pos hu]
  · rw [if_neg hu, if_neg hu, if_neg hu]

/-- A pointer handed out replaces the phase. -/
theorem System.handOut_setPhase (y : System) (t : Tid) (ph : Phase) (s : State) (size p : Nat)
    (use : Purpose) : ((y.setPhase t ph).setState s).handOut t size p use =
      (y.setState s).handOut t size p use := by
  unfold System.handOut
  split
  · exact System.setPhase_setPhase (y.setState s) t ph _
  · exact System.setPhase_setPhase ((y.setState s).grant t size p) t ph _

theorem Unshared.proceed (U : Unshared c t y) (h : y.proceed c t n = .ok z) : Unshared c t z := by
  intro k z' hk
  apply U (n + k)
  rw [System.proceed_add, h]
  exact hk

/-! ### Whole functions -/

/-- On entry to `my_malloc` a thread runs all of it in at most three steps. -/
theorem System.leads_malloc (h : y.phase t = .malloc size use) :
    Leads c t 3 y (myMalloc c y.state t size >>= fun r ↦
      .ok ((y.setState r.1).handOut t size r.2 use)) := by
  rw [myMalloc_eq]
  cases ho : originOf size with
  | none =>
    refine (Leads.step ?_).mono (by decide)
    simp only [System.advance, h, ho]
  | some i =>
    have hshared : c.stage ≠ .threadCaches → Leads c t 3 y (mallocPooled c y.state t i >>= fun r ↦
        .ok ((y.setState r.1).handOut t size r.2 use)) := by
      intro hstage
      refine (Leads.step ?_).mono (by decide)
      simp only [System.advance, h, ho]
    cases hstage : c.stage with
    | globalLock => exact hshared (by simp [hstage])
    | poolLocks => exact hshared (by simp [hstage])
    | threadCaches =>
      simp only [mallocPooled, hstage, mallocPooledStage3]
      by_cases hhead : (y.state.caches t i).head = 0
      · simp only [if_pos hhead, bind_assoc]
        refine Leads.bind (n := 1) (m := 2) (f := fun r ↦
          (y.setState r.1).setPhase t (.refilled size i r.2 use)) (Leads.step ?_) ?_
        · simp only [System.advance, h, ho, hstage, if_pos hhead]
        rintro ⟨s, batch⟩ -
        have hphase : ((y.setState s).setPhase t (.refilled size i batch use)).phase t =
            .refilled size i batch use := System.setPhase_same ..
        by_cases hb : batch.head = 0
        · refine (Leads.step ?_).mono (by decide)
          simp only [System.advance, hphase, if_pos hb]
          exact congrArg Except.ok (System.handOut_setPhase y t _ s size 0 use)
        · simp only [if_neg hb]
          have hfirst : Leads c t 1 ((y.setState s).setPhase t (.refilled size i batch use))
              (.ok ((y.setState (installBatch s t i batch)).setPhase t (.stocked size i use))) := by
            refine Leads.step ?_
            simp only [System.advance, hphase, if_neg hb]
            exact congrArg Except.ok
              (System.setPhase_setPhase (y.setState (installBatch s t i batch)) t _ _)
          refine hfirst.trans (Leads.step ?_)
          have hphase' : ((y.setState (installBatch s t i batch)).setPhase t
              (.stocked size i use)).phase t = .stocked size i use := System.setPhase_same ..
          simp only [System.advance, hphase']
          simp only [System.handOut_setPhase]
          rfl
      · simp only [if_neg hhead]
        refine (Leads.step ?_).mono (by decide)
        simp only [System.advance, h, ho, hstage, if_neg hhead]

/-- On entry to `my_free` a thread runs all of it in at most four steps. -/
theorem System.leads_free (h : y.phase t = .free ptr sequel) (h0 : ptr ≠ 0) :
    Leads c t 4 y (myFree c y.state t ptr >>= fun s ↦
      .ok (((y.setState s).takeBack ptr).setPhase t (.idle sequel.result))) := by
  have hfirst : Leads c t 1 y
      (.ok (y.setPhase t (.tagged ptr (tagOf y.state.mem ptr) sequel))) := by
    apply Leads.step
    simp only [System.advance, h]
  refine hfirst.trans (m := 3) ?_
  generalize htag : tagOf y.state.mem ptr = tag
  have hphase : (y.setPhase t (.tagged ptr tag sequel)).phase t = .tagged ptr tag sequel :=
    System.setPhase_same ..
  have hback : ∀ (s : State) (ph ph' : Phase),
      ((((y.setPhase t ph).setState s).takeBack ptr).setPhase t ph') =
        ((y.setState s).takeBack ptr).setPhase t ph' := fun s ph ph' ↦
    System.setPhase_setPhase ((y.setState s).takeBack ptr) t ph ph'
  have hback' : ∀ (s s' : State) (ph ph' : Phase),
      ((((y.setState s).takeBack ptr).setPhase t ph).setState s').setPhase t ph' =
        ((y.setState s').takeBack ptr).setPhase t ph' := fun s s' ph ph' ↦
    System.setPhase_setPhase ((y.setState s').takeBack ptr) t ph ph'
  have hstate : (y.setPhase t (.tagged ptr tag sequel)).state = y.state := rfl
  have hstate' : ∀ (s : State) (ph : Phase),
      (((y.setState s).takeBack ptr).setPhase t ph).state = s := fun _ _ ↦ rfl
  unfold myFree
  rw [if_neg h0, htag]
  by_cases hknown : isKnownPool c tag = true
  · rw [if_pos hknown]
    cases hi : poolAt c tag with
    | error e =>
      refine (Leads.step ?_).mono (by decide)
      simp only [System.advance, hphase, if_pos hknown, hi]
      rfl
    | ok i =>
      have hshared : c.stage ≠ .threadCaches →
          Leads c t 3 (y.setPhase t (.tagged ptr tag sequel))
            (freePooled c y.state t i ptr >>= fun s ↦
              .ok (((y.setState s).takeBack ptr).setPhase t (.idle sequel.result))) := by
        intro hstage
        refine (Leads.step ?_).mono (by decide)
        simp only [System.advance, hphase, if_pos hknown, hi, ok_bind, hback, hstate]
      cases hstage : c.stage with
      | globalLock => exact hshared (by simp [hstage])
      | poolLocks => exact hshared (by simp [hstage])
      | threadCaches =>
        simp only [ok_bind, freePooled, hstage, freePooledStage3, bind_assoc]
        refine Leads.bind (n := 1) (m := 2) (f := fun s ↦
          ((y.setState s).takeBack ptr).setPhase t (.pushed i sequel)) (Leads.step ?_) ?_
        · simp only [System.advance, hphase, if_pos hknown, hi, ok_bind, hstage, hback, hstate]
        intro s _
        have hpushed : (((y.setState s).takeBack ptr).setPhase t (.pushed i sequel)).phase t =
            .pushed i sequel := System.setPhase_same ..
        by_cases hover : overCap s t i = true
        · simp only [if_pos hover, flushBatchToPool, bind_assoc]
          refine Leads.bind (n := 1) (m := 1) (f := fun r ↦
            ((y.setState r.1).takeBack ptr).setPhase t (.detached i r.2.1 r.2.2 sequel))
            (Leads.step ?_) ?_
          · simp only [System.advance, hpushed, hstate', if_pos hover, hback']
          rintro ⟨s', chainHead, chainTail⟩ -
          apply Leads.step
          have hdetached : (((y.setState s').takeBack ptr).setPhase t
              (.detached i chainHead chainTail sequel)).phase t =
                .detached i chainHead chainTail sequel := System.setPhase_same ..
          simp only [System.advance, hdetached, hback', hstate']
        · simp only [if_neg hover]
          refine (Leads.step ?_).mono (by decide)
          simp only [System.advance, hpushed, hstate', if_neg hover]
          exact congrArg Except.ok (System.setPhase_setPhase ((y.setState s).takeBack ptr) t _ _)
  · rw [if_neg hknown]
    refine (Leads.step ?_).mono (by decide)
    simp only [System.advance, hphase, if_neg hknown, hback, hstate, bind_assoc, ok_bind]

/-- What a call has done to the state and the phase before it returns does not matter. -/
theorem System.returned_setPhase (y : System) (t : Tid) (ph : Phase) (s s' : State)
    (request : Call) (r : Nat) :
    ((y.setState s).setPhase t ph).returned t request s' r = y.returned t request s' r :=
  System.setPhase_setPhase { y with
    state := s',
    live := ledgerAfter y.live request r,
    owner := fun q ↦ if r ≠ 0 ∧ q = r then t else y.owner q } t ph (.idle r)

/-- A null result leaves the ledger as it is. -/
theorem System.returned_null (y : System) (t : Tid) (s : State) (hfree : ∀ p, request ≠ .free p) :
    y.returned t request s 0 = (y.setState s).setPhase t (.idle 0) := by
  have hlive : ledgerAfter y.live request 0 = y.live := by
    cases request with
    | free p => exact absurd rfl (hfree p)
    | _ => simp [ledgerAfter]
  unfold System.returned
  rw [hlive]
  simp only [ne_eq, not_true_eq_false, false_and, if_false]
  rfl

/-- A grant that the call returns. -/
theorem System.returned_grant (y : System) (t : Tid) (s : State) (hp : p ≠ 0)
    (hlive : ledgerAfter y.live request p = ⟨p, size, originOf size⟩ :: y.live) :
    y.returned t request s p = ((y.setState s).grant t size p).setPhase t (.idle p) := by
  unfold System.returned
  rw [hlive]
  simp only [ne_eq, hp, not_false_eq_true, true_and]
  rfl

/-- On entry to `my_malloc` a thread returns after at most four steps. -/
theorem System.leads_alloc (h : y.phase t = .malloc size .malloc)
    (hlive : ∀ p, p ≠ 0 → ledgerAfter y.live request p = ⟨p, size, originOf size⟩ :: y.live)
    (hfree : ∀ p, request ≠ .free p) :
    Leads c t 4 y (myMalloc c y.state t size >>= fun r ↦ .ok (y.returned t request r.1 r.2)) := by
  refine Leads.bind (n := 3) (m := 1) (System.leads_malloc h) ?_
  rintro ⟨s, p⟩ -
  apply Leads.step
  unfold System.handOut
  by_cases hp : p = 0
  · subst hp
    simp only [if_true, System.advance, System.setPhase_same]
    rw [System.setPhase_setPhase, System.returned_null y t s hfree]
  · simp only [if_neg hp, System.advance, System.setPhase_same]
    rw [System.setPhase_setPhase, System.returned_grant y t s hp (hlive p hp)]

/-- On entry to `my_malloc` for `my_calloc` a thread returns after at most four steps. -/
theorem System.leads_calloc {count total : Nat} (h : y.phase t = .malloc total .calloc)
    (hguard : ¬ (size ≠ 0 ∧ sizeMax / size < count)) (htotal : mul64 count size = total)
    (heq : count * size = total) :
    Leads c t 4 y (myCalloc c y.state t count size >>= fun r ↦
      .ok (y.returned t (.calloc count size) r.1 r.2)) := by
  unfold myCalloc
  simp only [if_neg hguard, bind_assoc, htotal]
  refine Leads.bind (n := 3) (m := 1) (System.leads_malloc h) ?_
  rintro ⟨s, p⟩ -
  apply Leads.step
  unfold System.handOut
  by_cases hp : p = 0
  · subst hp
    simp only [if_true, ok_bind, System.advance, System.setPhase_same]
    rw [System.setPhase_setPhase, System.returned_null y t s (by simp)]
  · have hlive : ledgerAfter y.live (.calloc count size) p =
        ⟨p, total, originOf total⟩ :: y.live := by
      simp only [ledgerAfter, if_neg hp, heq]
    simp only [if_neg hp, ok_bind, System.advance, System.setPhase_same]
    rw [System.returned_grant y t _ hp hlive]
    exact congrArg Except.ok (System.setPhase_setPhase
      (((y.setState s).grant t total p).setState { s with mem := fill s.mem p 0 total }) t _ _)

/-- On entry to its moving end `my_realloc` returns after at most eight steps. -/
theorem System.leads_move (h : y.phase t = .malloc newSize (.realloc ptr copySize))
    (h0 : ptr ≠ 0) (hlive : ∃ g ∈ y.live, g.ptr = ptr) (U : Unshared c t y) :
    Leads c t 8 y (moveTo c y.state t ptr newSize copySize >>= fun r ↦
      .ok (y.returned t (.realloc ptr newSize) r.1 r.2)) := by
  unfold moveTo
  rw [bind_assoc]
  refine Leads.bind (n := 3) (m := 5) (System.leads_malloc h) ?_
  rintro ⟨s, p⟩ hrun
  unfold System.handOut
  by_cases hp : p = 0
  · subst hp
    refine (Leads.step ?_).mono (by decide)
    simp only [if_true, ok_bind, System.advance, System.setPhase_same]
    rw [System.setPhase_setPhase, System.returned_null y t s (by simp)]
  simp only [if_neg hp, bind_assoc, ok_bind]
  have hne : p ≠ ptr := by
    obtain ⟨g, hg, rfl⟩ := hlive
    obtain ⟨k, -, hk⟩ := System.leads_malloc (c := c) h
    rw [hrun, ok_bind, System.handOut, if_neg hp] at hk
    have hnd : p ∉ y.live.map Grant.ptr := (List.nodup_cons.mp (U k _ hk)).1
    rintro rfl
    exact hnd (List.mem_map_of_mem hg)
  generalize hz : ((y.setState s).grant t newSize p).setState
    { s with mem := copy s.mem p ptr copySize } = z
  have hfirst : Leads c t 1
      (((y.setState s).grant t newSize p).setPhase t (.got newSize p (.realloc ptr copySize)))
      (.ok (z.setPhase t (.free ptr (.realloc p copySize)))) := by
    apply Leads.step
    simp only [System.advance, System.setPhase_same, if_neg hp]
    rw [← hz]
    exact congrArg Except.ok (System.setPhase_setPhase (((y.setState s).grant t newSize p).setState
      { s with mem := copy s.mem p ptr copySize }) t _ _)
  refine hfirst.trans (m := 4) ?_
  have hfree := System.leads_free (c := c) (y := z.setPhase t (.free ptr (.realloc p copySize)))
    (System.setPhase_same ..) h0
  have hstate : (z.setPhase t (.free ptr (.realloc p copySize))).state =
      { s with mem := copy s.mem p ptr copySize } := by
    rw [← hz]
    rfl
  have hback : ∀ s', ((((z.setPhase t (.free ptr (.realloc p copySize))).setState s').takeBack
      ptr).setPhase t (.idle p)) = y.returned t (.realloc ptr newSize) s' p := by
    intro s'
    have hlive : ledgerAfter y.live (.realloc ptr newSize) p =
        without (⟨p, newSize, originOf newSize⟩ :: y.live) ptr := by
      have hkept : without (⟨p, newSize, originOf newSize⟩ :: y.live) ptr =
          ⟨p, newSize, originOf newSize⟩ :: without y.live ptr :=
        List.filter_cons_of_pos (by simpa using hne)
      simp only [ledgerAfter, if_neg hp, if_neg h0, if_neg hne, hkept]
    unfold System.returned
    rw [hlive, ← hz]
    simp only [ne_eq, hp, not_false_eq_true, true_and]
    exact System.setPhase_setPhase (((y.setState s').grant t newSize p).takeBack ptr) t _ _
  simp only [Sequel.result, hback, hstate] at hfree
  exact hfree

/-- A pointer that keeps its place stays with its owner. -/
theorem System.returned_renew (y : System) (s : State) (h0 : ptr ≠ 0) (howner : y.owner ptr = t) :
    y.returned t (.realloc ptr newSize) s ptr =
      ((y.setState s).renew ptr newSize).setPhase t (.idle ptr) := by
  have hown : (fun q ↦ if ptr ≠ 0 ∧ q = ptr then t else y.owner q) = y.owner := by
    funext q
    by_cases hq : q = ptr
    · rw [if_pos ⟨h0, hq⟩, hq, howner]
    · rw [if_neg fun h ↦ hq h.2]
  unfold System.returned
  rw [hown]
  simp only [ledgerAfter, if_neg h0, if_true]
  rfl

/-- On entry to `my_realloc` a thread returns after at most ten steps. -/
theorem System.leads_realloc (h : y.phase t = .realloc ptr newSize) (h0 : ptr ≠ 0)
    (howner : y.owner ptr = t) (hlive : ∃ g ∈ y.live, g.ptr = ptr) (U : Unshared c t y) :
    Leads c t 10 y (myRealloc c y.state t ptr newSize >>= fun r ↦
      .ok (y.returned t (.realloc ptr newSize) r.1 r.2)) := by
  have hfirst : y.advance c t =
      .ok (y.setPhase t (.retagged ptr newSize (tagOf y.state.mem ptr))) := by
    simp only [System.advance, h]
  refine (Leads.step hfirst).trans (m := 9) ?_
  have U₁ := U.proceed (n := 1) (z := y.setPhase t (.retagged ptr newSize (tagOf y.state.mem ptr)))
    (by rw [System.proceed, hfirst]; rfl)
  unfold myRealloc
  rw [if_neg h0]
  generalize tagOf y.state.mem ptr = tag at *
  generalize hy₁ : y.setPhase t (.retagged ptr newSize tag) = y₁ at *
  have hphase : y₁.phase t = .retagged ptr newSize tag := hy₁ ▸ System.setPhase_same ..
  have hstate : y₁.state = y.state := hy₁ ▸ rfl
  have hset : ∀ (s : State) (ph : Phase), (y₁.setState s).setPhase t ph =
      (y.setState s).setPhase t ph := fun s ph ↦
    hy₁ ▸ System.setPhase_setPhase (y.setState s) t _ ph
  have hrenew : ∀ (s : State), ((y₁.setState s).renew ptr newSize).setPhase t (.idle ptr) =
      ((y.setState s).renew ptr newSize).setPhase t (.idle ptr) := fun s ↦
    hy₁ ▸ System.setPhase_setPhase ((y.setState s).renew ptr newSize) t _ _
  -- The moving end starts from the same blocks.
  have hmove : ∀ (s : State) (copySize : Nat),
      y₁.advance c t = .ok ((y.setState s).setPhase t (.malloc newSize (.realloc ptr copySize))) →
      Leads c t 9 y₁ (moveTo c s t ptr newSize copySize >>= fun r ↦
        .ok (y.returned t (.realloc ptr newSize) r.1 r.2)) := by
    intro s copySize hadv
    refine (Leads.step hadv).trans (m := 8) ?_
    have U₂ := U₁.proceed (n := 1)
      (z := (y.setState s).setPhase t (.malloc newSize (.realloc ptr copySize)))
      (by rw [System.proceed, hadv]; rfl)
    have hleads := System.leads_move (System.setPhase_same (y.setState s) t _) h0 hlive U₂
    simp only [System.returned_setPhase] at hleads
    exact hleads
  by_cases hknown : isKnownPool c tag = true
  · rw [if_pos hknown]
    cases hi : poolAt c tag with
    | error e =>
      refine (Leads.step ?_).mono (by decide)
      simp only [System.advance, hphase, if_pos hknown, hi]
      rfl
    | ok i =>
      simp only [ok_bind]
      by_cases hfit : newSize ≤ (y.state.pools i).slotPayloadSize
      · refine (Leads.step ?_).mono (by decide)
        simp only [System.advance, hphase, if_pos hknown, hi, ok_bind, hstate, if_pos hfit]
        rw [System.returned_renew y y.state h0 howner, ← hrenew, ← hstate]
        rfl
      · rw [if_neg hfit]
        apply hmove
        simp only [System.advance, hphase, if_pos hknown, hi, ok_bind, hstate, if_neg hfit]
        rw [← hset, ← hstate]
        rfl
  · rw [if_neg hknown]
    cases hrun : reallocInPlace c y.state.arenas y.state.mem y.state.freeHead (headerOf ptr)
        newSize with
    | error e =>
      refine (Leads.step ?_).mono (by decide)
      simp only [System.advance, hphase, if_neg hknown, hstate, hrun]
      rfl
    | ok r =>
      obtain ⟨heap, outcome⟩ := r
      cases outcome with
      | done =>
        refine (Leads.step ?_).mono (by decide)
        simp only [System.advance, hphase, if_neg hknown, hstate, hrun, ok_bind, hrenew]
        rw [System.returned_renew y _ h0 howner]
      | move oldPayloadSize =>
        apply hmove
        simp only [System.advance, hphase, if_neg hknown, hstate, hrun, ok_bind, hset]

theorem System.setPhase_self (h : y.phase t = ph) : y.setPhase t ph = y := by
  have hphase : (fun u ↦ if u = t then ph else y.phase u) = y.phase := by
    funext u
    by_cases hu : u = t
    · rw [if_pos hu, hu, h]
    · rw [if_neg hu]
  unfold System.setPhase
  rw [hphase]

/-- A free leaves the ledger without its pointer. -/
theorem System.returned_free (y : System) (s : State) (h0 : ptr ≠ 0) :
    y.returned t (.free ptr) s 0 = ((y.setState s).takeBack ptr).setPhase t (.idle 0) := by
  unfold System.returned
  simp only [ledgerAfter, if_neg h0, ne_eq, not_true_eq_false, false_and, if_false]
  rfl

/-- A call that has just begun returns after at most ten steps, with the result and the state that
the function of the source gives. -/
theorem System.leads_call (h : y.phase t = request.entry) (fits : request.Fits)
    (harg : request.argument = 0 ∨ ∃ g ∈ y.live, g.ptr = request.argument ∧ y.owner g.ptr = t)
    (U : Unshared c t y) : Leads c t 10 y (exec c y.state t request >>= fun r ↦
      .ok (y.returned t request r.1 r.2)) := by
  cases request with
  | malloc size =>
    refine (System.leads_alloc h (fun p hp ↦ ?_) (by simp)).mono (by decide)
    simp only [ledgerAfter, if_neg hp]
  | calloc count size =>
    unfold Call.entry at h
    by_cases hguard : size ≠ 0 ∧ sizeMax / size < count
    · simp only [if_pos hguard] at h
      simp only [exec, myCalloc, if_pos hguard, ok_bind]
      rw [System.returned_null y t _ (by simp)]
      rw [show y.setState y.state = y from rfl, System.setPhase_self h]
      exact (Leads.refl c t y).mono (by decide)
    · simp only [if_neg hguard] at h
      have hle : ¬ sizeMax < count * size := fun hlt ↦ hguard ((calloc_guard count size).mpr hlt)
      have htotal : mul64 count size = count * size :=
        mul64_of_lt (by unfold sizeMax at hle; omega)
      exact (System.leads_calloc h hguard rfl htotal.symm).mono (by decide)
  | realloc ptr newSize =>
    unfold Call.entry at h
    by_cases h0 : ptr = 0
    · subst h0
      simp only [if_true] at h
      simp only [exec, myRealloc, if_true]
      refine (System.leads_alloc h (fun p hp ↦ ?_) (by simp)).mono (by decide)
      simp only [ledgerAfter, if_neg hp, if_true]
    · simp only [if_neg h0] at h
      obtain ⟨g, hg, rfl, howner⟩ := harg.resolve_left h0
      exact System.leads_realloc h h0 howner ⟨g, hg, rfl⟩ U
  | free ptr =>
    unfold Call.entry at h
    by_cases h0 : ptr = 0
    · subst h0
      simp only [if_true] at h
      have hsame : y.returned t (.free 0) y.state 0 = y := by
        unfold System.returned
        simp only [ledgerAfter, if_true, ne_eq, not_true_eq_false, false_and, if_false]
        exact System.setPhase_self h
      simp only [exec, myFree, if_true, ok_bind, hsame]
      exact (Leads.refl c t y).mono (by decide)
    · simp only [if_neg h0] at h
      have hfree := System.leads_free (c := c) h h0
      simp only [exec, bind_assoc, ok_bind, System.returned_free y _ h0]
      exact hfree.mono (by decide)

/-! ### Runs -/

theorem System.advance_rest (hrest : (y.phase t).AtRest) : y.advance c t = .ok y := by
  unfold System.advance
  cases hph : y.phase t with
  | unborn => rfl
  | exited => rfl
  | idle r => rfl
  | _ =>
    rw [hph] at hrest
    exact absurd hrest id

/-- What every step of a call keeps holds after any number of them. -/
theorem System.proceed_induct {P : System → Prop}
    (hstep : ∀ y y', P y → ¬ (y.phase t).AtRest → y.advance c t = .ok y' → P y') (h : P y)
    (hrun : y.proceed c t n = .ok z) : P z := by
  induction n generalizing y with
  | zero =>
    cases hrun
    exact h
  | succ n ih =>
    rw [System.proceed] at hrun
    cases hadv : y.advance c t with
    | error e =>
      rw [hadv] at hrun
      cases hrun
    | ok y' =>
      rw [hadv] at hrun
      refine ih ?_ hrun
      by_cases hrest : (y.phase t).AtRest
      · obtain rfl : y = y' := by simpa using (System.advance_rest hrest).symm.trans hadv
        exact h
      · exact hstep y y' h hrest hadv

/-- Steps in a row extend a lifetime. -/
theorem System.Lives.proceed (h : System.Lives c y) (hrun : y.proceed c t n = .ok z) :
    System.Lives c z :=
  System.proceed_induct (fun _ _ h hbusy hadv ↦ h.episode ⟨.act (.advance t), hbusy, hadv⟩) h hrun

/-- Steps in a row always complete. -/
theorem System.Lives.proceed_ok (h : System.Lives c y) (t : Tid) (n : Nat) :
    ∃ z, y.proceed c t n = .ok z := by
  induction n generalizing y with
  | zero => exact ⟨y, rfl⟩
  | succ n ih =>
    by_cases hrest : (y.phase t).AtRest
    · obtain ⟨z, hz⟩ := ih h
      refine ⟨z, ?_⟩
      rw [System.proceed, System.advance_rest hrest]
      exact hz
    · have legal : (Event.act (.advance t)).Legal c y := hrest
      obtain ⟨y', hact, -⟩ := h.surviving.happen legal
      have hadv := hact false
      rw [Config.relax_false] at hadv
      obtain ⟨z, hz⟩ := ih (h.episode ⟨.act (.advance t), legal, hadv⟩)
      refine ⟨z, ?_⟩
      rw [System.proceed, show y.advance c t = .ok y' from hadv]
      exact hz

/-- In a lifetime no pointer is granted twice. -/
theorem System.Lives.unshared (h : System.Lives c y) (t : Tid) : Unshared c t y := by
  intro k z hk
  obtain ⟨past, os, x, ts, order, sh, S⟩ := (h.proceed hk).surviving
  rw [S.echo.live]
  exact S.consistent.booked.nodup

/-- The steps of a legal call. -/
theorem Action.Legal.leads (legal : (Action.call t request).Legal c y) (h : System.Lives c y) :
    Leads c t 10 (y.after c (.call t request)) (exec c y.state t request >>= fun r ↦
      .ok ((y.after c (.call t request)).returned t request r.1 r.2)) := by
  have h' : System.Lives c (y.after c (.call t request)) :=
    h.episode ⟨.act (.call t request), legal, rfl⟩
  obtain ⟨-, fits, harg⟩ := legal
  refine System.leads_call (System.setPhase_same ..) fits ?_ (h'.unshared t)
  exact harg.imp_right fun ⟨g, hg, hptr, howner, _⟩ ↦ ⟨g, hg, hptr, howner⟩

/-- The function of the source completes a legal call. -/
theorem Action.Legal.completes (legal : (Action.call t request).Legal c y)
    (h : System.Lives c y) : ∃ s r, exec c y.state t request = .ok (s, r) := by
  obtain ⟨n, -, hrun⟩ := legal.leads h
  have h' : System.Lives c (y.after c (.call t request)) :=
    h.episode ⟨.act (.call t request), legal, rfl⟩
  obtain ⟨z, hz⟩ := h'.proceed_ok t n
  cases hexec : exec c y.state t request with
  | error e =>
    rw [hz, hexec] at hrun
    cases hrun
  | ok r => exact ⟨r.1, r.2, rfl⟩

/-- In every lifetime, a call whose steps follow each other returns after at most ten of them: with
the result and the state that the function of the source gives on the state before the call, and
with the ledger that goes with the result. -/
theorem uninterrupted_call (h : System.Lives c y) (legal : (Action.call t request).Legal c y) :
    ∃ n s r, n ≤ 10 ∧ exec c y.state t request = .ok (s, r) ∧
      (y.after c (.call t request)).proceed c t n =
        .ok ((y.after c (.call t request)).returned t request s r) := by
  obtain ⟨n, hn, hrun⟩ := legal.leads h
  obtain ⟨s, r, hexec⟩ := legal.completes h
  rw [hexec, ok_bind] at hrun
  exact ⟨n, s, r, hn, hexec, hrun⟩

theorem uninterrupted_call_handover : ∃ n s r, n ≤ 10 ∧
    exec .fixedBase System.handover.state 0 (.realloc 0x10010 9000) = .ok (s, r) ∧
    (System.handover.after .fixedBase (.call 0 (.realloc 0x10010 9000))).proceed .fixedBase 0 n =
      .ok ((System.handover.after .fixedBase (.call 0 (.realloc 0x10010 9000))).returned 0
        (.realloc 0x10010 9000) s r) :=
  uninterrupted_call System.handover_reachable.lives (by decide +kernel)

/-- A session of thread `t` within a system in which no other thread has started. -/
structure Hosts (t : Tid) (y : System) (w : Session) : Prop where
  state : y.state = w.state
  live : y.live = w.live
  idle : ∃ r, y.phase t = .idle r
  others : ∀ u, u ≠ t → y.phase u = .unborn
  owner : ∀ g ∈ y.live, y.owner g.ptr = t

/-- What a call returns belongs to its thread. -/
theorem mem_ledgerAfter {live : List Grant} {r : Nat} {g : Grant}
    (h : g ∈ ledgerAfter live request r) :
    (r ≠ 0 ∧ g.ptr = r) ∨ ∃ g' ∈ live, g'.ptr = g.ptr := by
  have hcons : ∀ {size : Nat} {l : List Grant}, r ≠ 0 → (∀ g ∈ l, g ∈ live) →
      g ∈ ⟨r, size, originOf size⟩ :: l → (r ≠ 0 ∧ g.ptr = r) ∨ ∃ g' ∈ live, g'.ptr = g.ptr := by
    intro size l hr hl hg
    rcases List.mem_cons.mp hg with rfl | hg
    · exact .inl ⟨hr, rfl⟩
    · exact .inr ⟨g, hl g hg, rfl⟩
  cases request with
  | malloc size =>
    simp only [ledgerAfter] at h
    split at h
    · exact .inr ⟨g, h, rfl⟩
    · next hr => exact hcons hr (fun _ hg ↦ hg) h
  | calloc count size =>
    simp only [ledgerAfter] at h
    split at h
    · exact .inr ⟨g, h, rfl⟩
    · next hr => exact hcons hr (fun _ hg ↦ hg) h
  | realloc ptr newSize =>
    simp only [ledgerAfter] at h
    split at h
    · exact .inr ⟨g, h, rfl⟩
    · next hr =>
      split at h
      · exact hcons hr (fun _ hg ↦ hg) h
      · split at h
        · obtain ⟨g', hg', hcase⟩ := mem_renewed.mp h
          rcases hcase with ⟨-, rfl⟩ | ⟨-, rfl⟩
          · exact .inr ⟨g', hg', rfl⟩
          · exact .inr ⟨_, hg', rfl⟩
        · exact hcons hr (fun _ hg ↦ (mem_without.mp hg).1) h
  | free ptr =>
    simp only [ledgerAfter] at h
    split at h
    · exact .inr ⟨g, h, rfl⟩
    · exact .inr ⟨g, (mem_without.mp h).1, rfl⟩

/-- A byte that the client of a session writes is written in the system that hosts it. -/
theorem Hosts.write {w : Session} (H : Hosts t y w) {g : Grant} (hg : g ∈ w.live) {x : Nat}
    (hx : InPayload w.state g x) (v : UInt8) :
    ∃ y', Relation.ReflTransGen (System.Step c) y y' ∧
      Hosts t y' ⟨{ w.state with mem := write8 w.state.mem x v }, w.live⟩ := by
  have legal : (Action.write t x v).Legal c y :=
    ⟨H.idle, g, H.live ▸ hg, H.owner g (H.live ▸ hg), H.state ▸ hx⟩
  refine ⟨_, .single ⟨_, legal, rfl⟩, ?_, H.live, H.idle, H.others, H.owner⟩
  rw [← H.state]
  rfl

/-- A call of a session is a run of the system that hosts it. -/
theorem Hosts.call {w : Session} (H : Hosts t y w) (h : System.Lives c y)
    (legal : (Action.call t request).Legal c y) {s' : State} {r : Nat}
    (run : exec c w.state t request = .ok (s', r)) :
    ∃ y', Relation.ReflTransGen (System.Step c) y y' ∧
      Hosts t y' ⟨s', ledgerAfter w.live request r⟩ := by
  have hcalled : Relation.ReflTransGen (System.Step c) y (y.after c (.call t request)) :=
    .single ⟨.call t request, legal, rfl⟩
  obtain ⟨n, -, hrun⟩ := legal.leads h
  rw [H.state, run, ok_bind] at hrun
  refine ⟨_, System.proceed_induct (fun _ _ h hbusy hadv ↦ h.tail ⟨.advance t, hbusy, hadv⟩)
    hcalled hrun, rfl, ?_, ⟨r, System.setPhase_same ..⟩, fun u hu ↦ ?_, fun g hg ↦ ?_⟩
  · exact congrArg (fun live ↦ ledgerAfter live request r) H.live
  · rw [System.returned, System.setPhase_ne _ _ hu]
    exact (System.setPhase_ne _ _ hu).trans (H.others u hu)
  · have hg' : g ∈ ledgerAfter y.live request r := hg
    change (if r ≠ 0 ∧ g.ptr = r then t else y.owner g.ptr) = t
    rcases mem_ledgerAfter hg' with hr | ⟨g', hlive, hptr⟩
    · exact if_pos hr
    · split
      · rfl
      · rw [← hptr]
        exact H.owner g' hlive

/-- A step of a session is a run of the system that hosts it. -/
theorem Hosts.step {w w' : Session} (H : Hosts t y w) (h : System.Lives c y)
    (hstep : Step c t (routedCall c) w w') :
    ∃ y', Relation.ReflTransGen (System.Step c) y y' ∧ Hosts t y' w' := by
  cases hstep with
  | write v live payload => exact H.write live payload v
  | call call legal fits ok run =>
    refine H.call h ⟨H.idle, fits, legal.imp_right ?_⟩ run
    rintro ⟨g, hg, hptr⟩
    exact ⟨g, H.live ▸ hg, hptr, H.owner g (H.live ▸ hg), H.state ▸ ok g hg hptr⟩

/-- At program start a thread that has just started hosts the session of no call. -/
theorem Hosts.start (c : Config) (t : Tid) (mem : Mem) (offers : List (Option Nat))
    {arenaSize : Nat} (h : arenaSize < 2 ^ 64) :
    ∃ y, System.Reachable c y ∧ Hosts t y (.start mem offers arenaSize) := by
  have hstart : System.Reachable c (System.start mem offers arenaSize) :=
    ⟨mem, offers, arenaSize, h, .refl⟩
  refine ⟨_, hstart.step ⟨.start t, rfl, rfl⟩, rfl, rfl, ⟨0, System.setPhase_same ..⟩,
    fun u hu ↦ System.setPhase_ne _ _ hu, fun g hg ↦ ?_⟩
  cases hg

/-- Every session of a single-threaded run is hosted by a system that some interleaving reaches:
what holds of all interleavings holds of the functions of the source called one after another. -/
theorem sessions_hosted {w : Session} (h : Reachable c t (routedCall c) w) :
    ∃ y, System.Reachable c y ∧ Hosts t y w := by
  obtain ⟨mem, offers, arenaSize, hsize, hrun⟩ := h
  induction hrun with
  | refl => exact Hosts.start c t mem offers hsize
  | tail _ hstep ih =>
    obtain ⟨y, hy, H⟩ := ih
    obtain ⟨y', hrun, H'⟩ := H.step hy.lives hstep
    obtain ⟨mem, offers, arenaSize, hsize, hreach⟩ := hy
    exact ⟨y', ⟨mem, offers, arenaSize, hsize, hreach.trans hrun⟩, H'⟩

theorem sessions_hosted_gap :
    ∃ y, System.Reachable .fixedBase y ∧ Hosts 0 y Session.gap :=
  sessions_hosted Session.gap_routed

end CustomAllocator
