import CustomAllocator.Concurrent.Motion

/-!
# One lemma for each phase

The next step of a thread in a given phase completes without a fault, keeps the invariant and
disturbs no other thread.
-/

namespace CustomAllocator
open CustomAllocator.Base

variable {c : Config} {y z : System} {t u : Tid} {ts ts' : List Carved}
  {order order' : List Nat} {sh sh' : Shelves} {g : Grant} {i : Fin numSizeClasses}
  {s s' : State} {ph : Phase} {size p ptr newSize tag : Nat} {use : Purpose} {sequel : Sequel}

/-- The next step of thread `t` completes and achieves what a step does. -/
def Advances (c : Config) (y : System) (sh : Shelves) (t : Tid) : Prop :=
  ∃ y' ts' order' sh', y.advance c t = .ok y' ∧ Advanced c y sh t y' ts' order' sh'

theorem Supplied.same (h : s'.pools = s.pools) : Supplied c s s' sh' :=
  fun _ ↦ .inl (by rw [h])

/-- A pooled step that acquires regions as a last resort. -/
theorem SlotStep.supplied {rs : List OsRegion} {extra : List Nat}
    (step : SlotStep i rs extra s sh s' sh') (h : Frugal c (classSize i + 16) rs (sh' (.pool i))) :
    Supplied c s s' sh' := by
  intro j
  by_cases hj : j = i
  · subst hj
    rcases h with rfl | hle
    · exact .inl (by rw [step.pool_arenas, List.append_nil])
    · exact .inr hle
  · exact .inl (step.other_arenas j hj)

/-- Giving back a slot that stands captures no block. -/
theorem SlotStep.uncaptured {x : Nat} (step : SlotStep i [] [x] s sh s' sh')
    (hx : Stands sh i x) (h : Uncaptured ts sh) : Uncaptured ts sh' := by
  intro b hb j hs
  rcases (step.stands j _).mp hs with hs | ⟨rfl, hc | he⟩
  · exact h b hb j hs
  · exact absurd hc (by simp [CarvedFrom])
  · exact h b hb j (List.mem_singleton.mp he ▸ hx)

namespace Consistent

/-- A thread that carries no batch of class `i` has nothing in transit there. -/
theorem transit_nil (C : Consistent c y ts order sh) (h : (y.phase t).batch i = 0) :
    sh (.transit t i) = [] :=
  (show Chain _ _ _ _ from C.booked.coherent.shelved.linked (.transit t i)).head_eq_nil_iff.mp h

/-- A cache holds at most one slot more than its cap. -/
theorem cache_length (C : Consistent c y ts order sh) (t : Tid) (i : Fin numSizeClasses) :
    (sh (.cache t i)).length ≤ 65 := by
  have h := C.cap t i
  have hle : (y.phase t).excess i ≤ 1 := by
    cases y.phase t <;> simp only [Phase.excess] <;> (try split) <;> omega
  unfold threadLocalCacheCap threadLocalCacheBatchSize at h
  omega

/-- A step of `t`, from its parts. -/
theorem advanced (C : Consistent c y ts order sh) (hz : z.phase = y.phase) {tr' : Transit}
    (htr : (z.setPhase t ph).transit = tr')
    (keeps : ∀ u, u ≠ t → Keeps y (z.setPhase t ph) u everyGrant)
    (motion : Motion t sh (y.phase t) ph sh')
    (booked : Booked c z.state tr' z.live ts' order' sh')
    (uncaptured : Uncaptured ts' sh') (phase : PhaseOk c (z.setPhase t ph) sh' t ph)
    (ledger : LedgerMove t y.state z.state y.live (y.phase t) ph z.live)
    (supplied : Supplied c y.state z.state sh')
    (kept : ∀ r, ph = .idle r → ContentsKept (z.setPhase t ph) t r)
    (spared : Spared y.state z.state (without y.live (y.phase t).target)) :
    Advanced c y sh t (z.setPhase t ph) ts' order' sh' := by
  have hother : ∀ u, u ≠ t → (z.setPhase t ph).phase u = y.phase u := fun u hu ↦ by
    rw [System.setPhase_ne z ph hu, hz]
  have U : Undisturbed y sh t (z.setPhase t ph) sh' := motion.undisturbed hother keeps
  have hphase := System.setPhase_same z t ph
  have acted : Acted c y sh t (z.setPhase t ph) ts' order' sh' := by
    constructor
    · apply C.next U (htr ▸ booked) uncaptured
      · rwa [hphase]
      · rw [hphase]
        exact motion.cap (C.cap t)
    · exact U
    · rwa [hphase]
    · rwa [hphase]
    · exact supplied
  exact ⟨acted, by rwa [hphase], spared⟩

/-- A step of `t` that changes its phase only. -/
theorem still (C : Consistent c y ts order sh) (hquiet : ph.handed = 0)
    (hbatch : ∀ j, ph.batch j = (y.phase t).batch j)
    (hcap : ∀ i, (sh (.cache t i)).length ≤ threadLocalCacheCap + ph.excess i)
    (phase : Keeps y (y.setPhase t ph) t everyGrant → PhaseOk c (y.setPhase t ph) sh t ph)
    (kept : ∀ r, ph = .idle r → ContentsKept (y.setPhase t ph) t r) :
    Advanced c y sh t (y.setPhase t ph) ts order sh := by
  have keeps := Keeps.same (y := y) (t := t) ph (Spared.refl y.state y.live)
  exact C.advanced rfl (System.transit_same rfl hbatch) (fun u _ ↦ keeps u) (.still hcap) C.booked
    C.uncaptured (phase (keeps t)) (.still (.inl hquiet) (.refl _ _)) (.same rfl) kept
    (.refl _ _)

/-- A step of `t` that moves slots between its pool, cache and batch. -/
theorem shuffled (C : Consistent c y ts order sh) (hquiet : ph.handed = 0)
    {rs : List OsRegion} {tr' : Transit}
    (htr : ((y.setState s').setPhase t ph).transit = tr')
    (step : SlotStep i rs [] y.state sh s' sh') (shelved : Shelved c s' tr' sh')
    (hlive : ∀ j, sh' (.live j) = sh (.live j)) (motion : Motion t sh (y.phase t) ph sh')
    (hfew : Frugal c (classSize i + 16) rs (sh' (.pool i)))
    (phase : Keeps y ((y.setState s').setPhase t ph) t everyGrant →
      Booked c s' tr' y.live ts order sh' → PhaseOk c ((y.setState s').setPhase t ph) sh' t ph)
    (kept : Keeps y ((y.setState s').setPhase t ph) t everyGrant →
      ∀ r, ph = .idle r → ContentsKept ((y.setState s').setPhase t ph) t r) :
    Advanced c y sh t ((y.setState s').setPhase t ph) ts order sh' := by
  obtain ⟨B, hsp, hun⟩ := C.booked.shuffle step shelved hlive
  have keeps := Keeps.same (t := t) ph hsp
  exact C.advanced (z := y.setState s') rfl htr (fun u _ ↦ keeps u) motion B (hun C.uncaptured)
    (phase (keeps t) B) (.still (.inl hquiet) hsp.sameSize) (step.supplied hfew) (kept (keeps t))
    (hsp.without _)

/-! ### `my_malloc` -/

/-- A refused allocation leaves everything but the kernel's log as it was. -/
theorem refused (C : Consistent c y ts order sh) {os : Os} (hos : os.mapped = y.state.os.mapped)
    (hbatch : ∀ j, (y.phase t).batch j = 0) (hexcess : ∀ j, (y.phase t).excess j = 0)
    (huse : PurposeOk c y t size use) :
    Advanced c y sh t ((y.setState { y.state with os := os }).handOut t size 0 use)
      ts order sh := by
  have keeps := Keeps.same (y := y) (t := t) (s := { y.state with os := os }) (.got size 0 use)
    (fun _ _ ↦ ⟨rfl, fun _ _ ↦ rfl⟩)
  have B := C.booked.os hos
  have hcap : ∀ j, (sh (.cache t j)).length ≤
      threadLocalCacheCap + (Phase.got size 0 use).excess j := fun j ↦ by
    have := C.cap t j
    rwa [hexcess j] at this
  exact C.advanced (z := y.setState { y.state with os := os }) rfl
    (System.transit_same rfl fun j ↦ (hbatch j).symm) (fun u _ ↦ keeps u) (.still hcap) B
    C.uncaptured ⟨huse.keep C.booked (keeps t) B fun _ _ _ ↦ trivial, fun h ↦ absurd rfl h⟩
    (.still (.inl rfl) fun _ _ ↦ rfl) (.same rfl) (by simp) fun _ _ ↦ ⟨rfl, fun _ _ ↦ rfl⟩

/-- A served allocation hands out a fresh pointer. -/
theorem served (C : Consistent c y ts order sh) (hbatch : ∀ j, (y.phase t).batch j = 0)
    (hgen : originOf size = none → y.phase t = .malloc size use)
    (B : Booked c s' y.transit (⟨p, size, originOf size⟩ :: y.live) ts' order' sh')
    (hsp : Spared y.state s' y.live) (hun : Uncaptured ts' sh')
    (motion : Motion t sh (y.phase t) (.got size p use) sh')
    (supplied : Supplied c y.state s' sh') (huse : PurposeOk c y t size use) :
    Advanced c y sh t ((y.setState s').handOut t size p use) ts' order' sh' := by
  have hp : p ≠ 0 := by
    have := B.ptr_aligned List.mem_cons_self
    dsimp only at this
    omega
  have hfresh : ∀ g ∈ y.live, g.ptr ≠ p := fun g hg he ↦
    (List.nodup_cons.mp B.nodup).1 (List.mem_map.mpr ⟨g, hg, he⟩)
  have keeps := Keeps.grant (t := t) (.got size p use) B.nodup hsp
  rw [System.handOut, if_neg hp]
  refine C.advanced (z := (y.setState s').grant t size p) rfl
    (System.transit_same rfl fun j ↦ (hbatch j).symm) (fun u _ ↦ keeps u) motion B hun
    ⟨huse.keep C.booked (keeps t) B fun _ _ _ ↦ trivial, fun _ ↦ ⟨List.mem_cons_self,
      if_pos rfl, fun ptr copySize he ↦ ?_⟩⟩ (.grant hfresh hgen hsp.sameSize) supplied (by simp)
    (hsp.without _)
  subst he
  obtain ⟨⟨g, rfl, hg⟩, -⟩ := huse
  exact (hfresh g hg.live).symm

/-- A pop from the own cache hands out its first slot. -/
theorem pop (C : Consistent c y ts order sh) (hbatch : ∀ j, (y.phase t).batch j = 0)
    (hexcess : ∀ j, (y.phase t).excess j = 0) (ho : originOf size = some i)
    (hne : sh (.cache t i) ≠ []) (huse : PurposeOk c y t size use) :
    ∃ s' p sh', popFromCache c y.state t i = .ok (s', p) ∧
      Advanced c y sh t ((y.setState s').handOut t size p use) ts order sh' := by
  obtain ⟨x, l, hl⟩ := List.exists_cons_of_ne_nil hne
  have hlen := C.cache_length t i
  rw [hl, List.length_cons] at hlen
  obtain ⟨s', hrun, shelved, step⟩ :=
    C.booked.coherent.shelved.popFromCache hl (show l.length + 1 < 2 ^ 64 by omega)
  have hlive : (sh.move (.cache t i) l (.live i) (x :: sh (.live i))) (.live i) =
      x :: sh (.live i) := Shelves.move_snd (by simp)
  have hothers : ∀ j, j ≠ i → (sh.move (.cache t i) l (.live i) (x :: sh (.live i))) (.live j) =
      sh (.live j) := fun j hj ↦ Shelves.move_other (by simp) (by simpa using hj)
  obtain ⟨B, hsp, hun⟩ := C.booked.grantSlot step shelved hlive hothers ho
  exact ⟨s', x + 16, _, hrun, C.served hbatch (by simp [ho]) B hsp (hun C.uncaptured)
    (.pop hexcess hl) (step.supplied (.inl rfl)) huse⟩

/-- The locked section of a refill takes a batch into transit. -/
theorem refill (C : Consistent c y ts order sh) (hph : y.phase t = .malloc size use)
    (ho : originOf size = some i) (hempty : sh (.cache t i) = [])
    (huse : PurposeOk c y t size use) :
    ∃ s' b sh', refillBatch c y.state i = .ok (s', b) ∧
      Advanced c y sh t ((y.setState s').setPhase t (.refilled size i b use)) ts order sh' := by
  have htr : sh (.transit t i) = [] := C.transit_nil (by rw [hph]; rfl)
  obtain ⟨s', b, taken, l, rs, hrun, shelved, step, hb, -, hlen, hfew, -⟩ :=
    C.booked.coherent.shelved.refillBatch t htr
  have hmoved : (sh.move (.pool i) l (.transit t i) taken) (.transit t i) = taken :=
    Shelves.move_snd (by simp)
  have hcache : (sh.move (.pool i) l (.transit t i) taken) (.cache t i) = [] := by
    rw [Shelves.move_other (by simp) (by simp), hempty]
  have hset : ((y.setState s').setPhase t (.refilled size i b use)).transit =
      setTransit y.transit t i b.head :=
    System.transit_set (y := y) rfl fun j ↦ by rw [hph]; rfl
  refine ⟨s', b, _, hrun, C.shuffled rfl hset step shelved
    (fun j ↦ Shelves.move_other (by simp) (by simp)) (hph ▸ .refill hempty hlen)
    (by rwa [Shelves.move_fst])
    (fun keeps B ↦ ⟨ho, ?_, ?_, ?_, hcache, huse.keep C.booked keeps B fun _ _ _ ↦ trivial⟩)
    (by simp)⟩
  · rw [hmoved]
    exact hb.tail_eq
  · rw [hmoved]
    exact hb.count_eq
  · rw [hb.count_eq]
    exact hlen

/-- On entry to `my_malloc`. -/
theorem advance_malloc (C : Consistent c y ts order sh) (hph : y.phase t = .malloc size use) :
    Advances c y sh t := by
  obtain ⟨hsize, huse⟩ : PhaseOk c y sh t (.malloc size use) := hph ▸ C.phases t
  have hbatch : ∀ j, (y.phase t).batch j = 0 := fun j ↦ by rw [hph]; rfl
  have hexcess : ∀ j, (y.phase t).excess j = 0 := fun j ↦ by rw [hph]; rfl
  have A := C.booked.coherent
  unfold Advances System.advance
  simp only [hph]
  cases ho : originOf size with
  | none =>
    have hlo := originOf_eq_none.mp ho
    rcases A.heap.mallocGeneral c (fun a ha ↦ A.regions.arena_mapped ha) A.arenaSize_lt hlo hsize
      with ⟨os, hrun, hos, -⟩ | ⟨s', ts', order', k, hrun, hadd, -⟩
    · exact ⟨_, ts, order, sh, by simp only [hrun, ok_bind], C.refused hos hbatch hexcess huse⟩
    · obtain ⟨B, hsp, hun⟩ := C.booked.grantBlock hadd hlo
      have hcap : ∀ j, (sh (.cache t j)).length ≤
          threadLocalCacheCap + (Phase.got size (k.addr + 16) use).excess j := fun j ↦ by
        have := C.cap t j
        rwa [hexcess j] at this
      exact ⟨_, ts', order', sh, by simp only [hrun, ok_bind],
        C.served hbatch (fun _ ↦ hph) B hsp (hun C.uncaptured) (.still hcap) (.same hadd.pools_eq)
          huse⟩
  | some i =>
    have hshared : ∃ s' p ts' order' sh',
        ((y.state.pools i).allocate c (c.poolAddr i) y.state.toMachine >>= fun r ↦
          Except.ok ((y.state.setMachine r.1).setPool i r.2.1, r.2.2)) = .ok (s', p) ∧
        Advanced c y sh t ((y.setState s').handOut t size p use) ts' order' sh' := by
      rcases A.shelved.allocate i with
        ⟨os, hrun, hos⟩ | ⟨k, p, rs, x, l, hrun, shelved, step, hfew⟩
      · have hpools : (fun j ↦ if j = i then y.state.pools i else y.state.pools j) =
            y.state.pools := by
          funext j
          split
          · next h => rw [h]
          · rfl
        refine ⟨{ y.state with os := os }, 0, ts, order, sh, ?_,
          C.refused hos hbatch hexcess huse⟩
        simp only [hrun, ok_bind, State.setPool, State.setMachine, hpools]
      · have hlive : (sh.move (.pool i) l (.live i) (x :: sh (.live i))) (.live i) =
            x :: sh (.live i) := Shelves.move_snd (by simp)
        have hothers : ∀ j, j ≠ i →
            (sh.move (.pool i) l (.live i) (x :: sh (.live i))) (.live j) = sh (.live j) :=
          fun j hj ↦ Shelves.move_other (by simp) (by simpa using hj)
        obtain ⟨B, hsp, hun⟩ := C.booked.grantSlot step shelved hlive hothers ho
        exact ⟨_, x + 16, ts, order, _, by simp only [hrun, ok_bind],
          C.served hbatch (fun _ ↦ hph) B hsp (hun C.uncaptured) (hph ▸ .take)
            (step.supplied (by rwa [Shelves.move_fst])) huse⟩
    dsimp only
    cases hstage : c.stage with
    | threadCaches =>
      dsimp only
      have hhead := (A.shelved.cacheHolds t i).chain.head_eq_nil_iff
      by_cases h0 : (y.state.caches t i).head = 0
      · obtain ⟨s', b, sh', hrun, hadv⟩ := C.refill hph ho (hhead.mp h0) huse
        exact ⟨_, ts, order, sh', by rw [if_pos h0, hrun, ok_bind], hadv⟩
      · obtain ⟨s', p, sh', hrun, hadv⟩ :=
          C.pop hbatch hexcess ho (fun h ↦ h0 (hhead.mpr h)) huse
        exact ⟨_, ts, order, sh', by rw [if_neg h0, hrun, ok_bind], hadv⟩
    | globalLock =>
      obtain ⟨s', p, ts', order', sh', hrun, hadv⟩ := hshared
      refine ⟨_, ts', order', sh', ?_, hadv⟩
      simp only [mallocPooled, hstage, hrun, ok_bind]
    | poolLocks =>
      obtain ⟨s', p, ts', order', sh', hrun, hadv⟩ := hshared
      refine ⟨_, ts', order', sh', ?_, hadv⟩
      simp only [mallocPooled, hstage, hrun, ok_bind]

/-- After the locked section of a refill. -/
theorem advance_refilled (C : Consistent c y ts order sh) {b : SlotBatch}
    (hph : y.phase t = .refilled size i b use) : Advances c y sh t := by
  obtain ⟨ho, htail, hcount, hle, hcache, huse⟩ :
    PhaseOk c y sh t (.refilled size i b use) := hph ▸ C.phases t
  have hexcess : ∀ j, (y.phase t).excess j = 0 := fun j ↦ by rw [hph]; rfl
  have H := C.booked.coherent.shelved
  have htr : y.transit t i = b.head := by simp [System.transit, hph, Phase.batch]
  have hchain : Chain (read64 y.state.mem) 0 b.head (sh (.transit t i)) :=
    htr ▸ H.linked (.transit t i)
  unfold Advances System.advance
  simp only [hph]
  by_cases h0 : b.head = 0
  · have hbatch : ∀ j, (y.phase t).batch j = 0 := fun j ↦ by
      simp [hph, Phase.batch, h0]
    exact ⟨_, ts, order, sh, if_pos h0, C.refused rfl hbatch hexcess huse⟩
  rw [if_neg h0]
  obtain ⟨shelved, step⟩ := H.installBatch ⟨hchain, htail, hcount, H.addr _⟩ hcache
  have hset : ((y.setState (installBatch y.state t i b)).setPhase t (.stocked size i use)).transit =
      setTransit y.transit t i 0 :=
    System.transit_set (y := y) rfl fun j ↦ by
      rw [hph]
      simp only [Phase.batch]
      split <;> rfl
  have hmoved : (sh.move (.transit t i) [] (.cache t i) (sh (.transit t i))) (.cache t i) =
      sh (.transit t i) := Shelves.move_snd (by simp)
  refine ⟨_, ts, order, _, rfl, C.shuffled rfl hset step shelved
    (fun j ↦ Shelves.move_other (by simp) (by simp)) (hph ▸ .install hcache (hcount ▸ hle))
    (.inl rfl) (fun keeps B ↦ ⟨ho, ?_, huse.keep C.booked keeps B fun _ _ _ ↦ trivial⟩) (by simp)⟩
  rw [hmoved]
  exact fun h ↦ h0 (hchain.head_eq_nil_iff.mpr h)

/-- After the batch has become the cache. -/
theorem advance_stocked (C : Consistent c y ts order sh)
    (hph : y.phase t = .stocked size i use) : Advances c y sh t := by
  obtain ⟨ho, hne, huse⟩ : PhaseOk c y sh t (.stocked size i use) := hph ▸ C.phases t
  obtain ⟨s', p, sh', hrun, hadv⟩ :=
    C.pop (t := t) (fun j ↦ by rw [hph]; rfl) (fun j ↦ by rw [hph]; rfl) ho hne huse
  unfold Advances System.advance
  simp only [hph, hrun, ok_bind]
  exact ⟨_, ts, order, sh', rfl, hadv⟩

end Consistent

end CustomAllocator
