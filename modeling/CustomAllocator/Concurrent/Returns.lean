import CustomAllocator.Concurrent.Steps

/-!
# Freeing and reallocating

The steps of `my_free` and `my_realloc`, and what happens to a pointer between the end of
`my_malloc` and its return.
-/

namespace CustomAllocator
open CustomAllocator.Base

variable {c : Config} {y z : System} {t u : Tid} {ts ts' : List Carved}
  {order order' : List Nat} {sh sh' : Shelves} {g : Grant} {i : Fin numSizeClasses}
  {s s' : State} {ph : Phase} {size p ptr newSize tag : Nat} {use : Purpose} {sequel : Sequel}

/-- A free on behalf of a reallocation ends with the bytes in place. -/
theorem SequelOk.contentsKept (h : SequelOk y t sequel) : ContentsKept y t sequel.result := by
  intro ptr newSize hcall _ _
  cases sequel with
  | free =>
    obtain ⟨p, hp⟩ := h
    simp [hp] at hcall
  | realloc newPtr copySize =>
    obtain ⟨ptr', newSize', ⟨hcall', g, hg, hgp, hsize⟩, q, hq, hqp, hreq, ho, hbytes⟩ := h
    obtain ⟨rfl, rfl⟩ : ptr' = ptr ∧ newSize' = newSize := by simpa using hcall'.symm.trans hcall
    exact ⟨g, hg, hgp, q, hq, hqp, hreq, ho, fun k hk hkn ↦ hbytes k (by omega)⟩

/-- A call without a pointer reallocates nothing. -/
theorem contentsKept_of_argument {r : Nat} (h : (y.began t).1.argument = 0) :
    ContentsKept y t r := by
  intro ptr newSize hcall hptr
  rw [hcall] at h
  exact absurd h hptr

theorem contentsKept_null : ContentsKept y t 0 := fun _ _ _ _ h ↦ absurd rfl h

namespace Consistent

/-- Outside a push, a cache is within its cap. -/
theorem cap_of_excess (C : Consistent c y ts order sh) (h : ∀ j, (y.phase t).excess j = 0)
    (j : Fin numSizeClasses) : (sh (.cache t j)).length ≤ threadLocalCacheCap := by
  simpa [h j] using C.cap t j

/-- A step of `t` that writes into one grant. -/
theorem writes (C : Consistent c y ts order sh) (hg : g ∈ y.live) (howner : y.owner g.ptr = t)
    (htarget : (y.phase t).target = g.ptr)
    {m' : Mem} (hm : ∀ x, ¬ InPayload y.state g x → m' x = y.state.mem x)
    (hquiet : ph.handed = 0) (hbatch : ∀ j, ph.batch j = (y.phase t).batch j)
    (hcap : ∀ i, (sh (.cache t i)).length ≤ threadLocalCacheCap + ph.excess i)
    (phase : Keeps y ((y.setState { y.state with mem := m' }).setPhase t ph) t
        (fun h ↦ h.ptr ≠ g.ptr) →
      Booked c { y.state with mem := m' } y.transit y.live ts order sh →
      PhaseOk c ((y.setState { y.state with mem := m' }).setPhase t ph) sh t ph)
    (kept : ∀ r, ph = .idle r →
      ContentsKept ((y.setState { y.state with mem := m' }).setPhase t ph) t r) :
    Advanced c y sh t ((y.setState { y.state with mem := m' }).setPhase t ph) ts order sh := by
  obtain ⟨B, hsp, -⟩ := C.booked.writeGrant hg hm
  have keeps := Keeps.write (t := t) ph hsp
  have hsized := (C.booked.write m' fun x hx ↦ ⟨g, hg, by_contra fun h ↦ hx (hm x h)⟩).2
  exact C.advanced (z := y.setState { y.state with mem := m' }) rfl
    (System.transit_same rfl hbatch) (fun u hu ↦ (keeps u).every howner hu) (.still hcap) B
    C.uncaptured (phase (keeps t) B) (.still (.inl hquiet) hsized) (.same rfl) kept
    (htarget ▸ hsp)

/-- With the pointer that `my_malloc` returns. -/
theorem advance_got (C : Consistent c y ts order sh) (hph : y.phase t = .got size p use) :
    Advances c y sh t := by
  obtain ⟨huse, hgot⟩ : PhaseOk c y sh t (.got size p use) := hph ▸ C.phases t
  have hcap : ∀ j, (sh (.cache t j)).length ≤ threadLocalCacheCap :=
    C.cap_of_excess fun j ↦ by rw [hph]; rfl
  have hidle : ∀ r j, (Phase.idle r).batch j = (y.phase t).batch j := fun r j ↦ by rw [hph]; rfl
  unfold Advances System.advance
  simp only [hph]
  by_cases h0 : p = 0
  · refine ⟨_, ts, order, sh, if_pos h0, C.still rfl (hidle 0) hcap (fun _ ↦ trivial) ?_⟩
    rintro r ⟨rfl⟩
    exact contentsKept_null
  rw [if_neg h0]
  obtain ⟨hlive, howner, hne⟩ := hgot h0
  have hle := C.booked.requested_le hlive
  have hin : ∀ {x n}, n ≤ size → ¬ InPayload y.state ⟨p, size, originOf size⟩ x →
      x < p ∨ p + n ≤ x := by
    intro x n hn hx
    simp only [InPayload] at hx hle
    omega
  cases use with
  | malloc =>
    refine ⟨_, ts, order, sh, rfl, C.still rfl (hidle p) hcap (fun _ ↦ trivial) ?_⟩
    rintro r ⟨rfl⟩
    exact contentsKept_of_argument huse
  | calloc =>
    refine ⟨_, ts, order, sh, rfl, C.writes hlive howner (by rw [hph]; rfl)
      (fun x hx ↦ fill_of_out _ _ (hin (Nat.le_refl _) hx)) rfl (hidle p) hcap
      (fun _ _ ↦ trivial) ?_⟩
    rintro r ⟨rfl⟩
    exact contentsKept_of_argument huse
  | realloc ptr copySize =>
    obtain ⟨⟨g, rfl, hg⟩, hcall, hsize⟩ := huse
    have hnp : p ≠ g.ptr := hne g.ptr copySize rfl
    obtain ⟨h, hh, hhp, hcopy⟩ := hsize
    have hcopyle : copySize ≤ size := by omega
    refine ⟨_, ts, order, sh, rfl, C.writes hlive howner (by rw [hph]; rfl)
      (fun x hx ↦ copy_of_out _ (hin hcopyle hx)) rfl (fun j ↦ by rw [hph]; rfl) hcap
      (fun keeps B ↦ ⟨⟨g, rfl, hg.keep C.booked keeps B fun he ↦ hnp he.symm⟩,
        ⟨g.ptr, size, ⟨hcall, h, hh, hhp, hcopy⟩, _, hlive, rfl, rfl, howner, fun k hk ↦ ?_⟩, hnp,
        congrArg Call.argument hcall⟩) (by simp)⟩
    have hbefore : h = g := hg.unique h hh hhp
    calc copy y.state.mem p g.ptr copySize (p + k) = y.state.mem (g.ptr + k) :=
          copy_apply _ _ _ hk
      _ = (y.began t).2.state.mem (g.ptr + k) := by
        refine hg.bytes _ ⟨Nat.le_add_right _ _, ?_⟩
        rw [hg.usable_eq, ← hbefore]
        omega

/-! ### `my_free` -/

/-- A step of `t` that takes back the pointer it frees. -/
theorem takes (C : Consistent c y ts order sh) (hph : y.phase t = .tagged ptr tag sequel)
    (howner : y.owner ptr = t) (hquiet : ph.handed = 0) (hbatch : ∀ j, ph.batch j = 0)
    (B : Booked c s' y.transit (without y.live ptr) ts' order' sh')
    (hsp : Spared y.state s' (without y.live ptr)) (hun : Uncaptured ts' sh')
    (motion : Motion t sh (y.phase t) ph sh') (supplied : Supplied c y.state s' sh')
    (hseq : SequelOk y t sequel) (hresult : sequel.result ≠ ptr)
    (phase : SequelOk (((y.setState s').takeBack ptr).setPhase t ph) t sequel →
      PhaseOk c (((y.setState s').takeBack ptr).setPhase t ph) sh' t ph)
    (hidle : ∀ r, ph = .idle r → r = sequel.result) :
    Advanced c y sh t (((y.setState s').takeBack ptr).setPhase t ph) ts' order' sh' := by
  have keeps := Keeps.takeBack (t := t) ph hsp
  have hseq' := hseq.keep C.booked (keeps t) fun q n he ↦ by
    subst he
    exact hresult
  have hledger : LedgerMove t y.state s' y.live (y.phase t) ph (without y.live ptr) :=
    hph ▸ .takeBack hquiet hsp.sameSize
  refine C.advanced (z := (y.setState s').takeBack ptr) rfl
    (System.transit_same (y := y) rfl fun j ↦ by rw [hbatch, hph]; rfl)
    (fun u hu ↦ (keeps u).every howner hu) motion B hun (phase hseq') hledger supplied
    (fun r hr ↦ ?_) (by rw [hph]; exact hsp)
  rw [hidle r hr]
  exact hseq'.contentsKept

/-- After the speculative read of the tag in `my_free`. -/
theorem advance_tagged (C : Consistent c y ts order sh)
    (hph : y.phase t = .tagged ptr tag sequel) : Advances c y sh t := by
  obtain ⟨⟨g, rfl, hg⟩, hseq, hresult, -, rfl⟩ :
    PhaseOk c y sh t (.tagged ptr tag sequel) := hph ▸ C.phases t
  have H := C.booked.coherent.shelved
  have hcap : ∀ j, (sh (.cache t j)).length ≤ threadLocalCacheCap :=
    C.cap_of_excess fun j ↦ by rw [hph]; rfl
  have hrouted : isKnownPool c (tagOf y.state.mem g.ptr) = g.origin.isSome := hg.routed
  have hidle : ∀ r, Phase.idle sequel.result = .idle r → r = sequel.result := by
    rintro r ⟨rfl⟩
    rfl
  unfold Advances System.advance
  simp only [hph, hrouted]
  cases ho : g.origin with
  | none =>
    obtain ⟨b, hb, hn⟩ := C.booked.general g hg.live ho
    obtain ⟨heap, ts', order', k, hrun, B, hsp, F⟩ := C.booked.returnBlock hb hn
    simp only [Option.isSome_none, Bool.false_eq_true, if_false, hrun, ok_bind]
    have hun : Uncaptured ts' sh := fun d hd j ↦
      C.uncaptured d ((F.allocated d).mp hd).1 j
    exact ⟨_, ts', order', sh, rfl, C.takes hph hg.owner rfl (fun _ ↦ rfl) B hsp hun (.still hcap)
      (.same rfl) hseq hresult (fun _ ↦ trivial) hidle⟩
  | some i =>
    obtain ⟨x, hx, hptr, -⟩ := C.booked.pooled g hg.live i ho
    have hspot : ∀ S, x ∈ sh S → S = .live i := fun S hS ↦ H.apart _ _ x hS hx
    have hst := stands_of_live hx
    rw [C.booked.tag_pooled hg.live ho, poolAt_poolAddr]
    simp only [Option.isSome_some, if_true, ok_bind]
    have hshared : ∃ s' sh', ((y.state.pools i).deallocate y.state.mem (x + 16) >>= fun r ↦
          Except.ok ({ y.state with mem := r.1 }.setPool i r.2)) = .ok s' ∧
        Advanced c y sh t (((y.setState s').takeBack g.ptr).setPhase t (.idle sequel.result))
          ts order sh' := by
      obtain ⟨m, p, hrun, shelved, step⟩ := H.deallocate (H.addr _ x hx) (H.mapped _ x hx) hspot
      obtain ⟨B, hsp⟩ := C.booked.returnSlot hptr (.inr hst) step shelved Shelves.move_fst
        (fun j hj ↦ Shelves.move_other (by simpa using hj) (by simp)) hspot
      exact ⟨_, _, by simp only [hrun, ok_bind], C.takes hph hg.owner rfl (fun _ ↦ rfl) B hsp
        (step.uncaptured hst C.uncaptured) (hph ▸ hptr ▸ .put hx) (step.supplied (.inl rfl)) hseq
        hresult (fun _ ↦ trivial) hidle⟩
    cases hstage : c.stage with
    | threadCaches =>
      dsimp only
      have hlen := C.cache_length t i
      obtain ⟨s', hrun, shelved, step⟩ := H.pushToCache t (H.addr _ x hx) (H.mapped _ x hx) hspot
        (by omega)
      obtain ⟨B, hsp⟩ := C.booked.returnSlot hptr (.inr hst) step shelved Shelves.move_fst
        (fun j hj ↦ Shelves.move_other (by simpa using hj) (by simp)) hspot
      have hsub : sub64 g.ptr sizeofPoolSlotHeader = x := by
        rw [hptr, sub64_of_le (by unfold sizeofPoolSlotHeader; omega) (H.addr _ x hx).2.2]
        exact Nat.add_sub_cancel x 16
      rw [hsub, hrun, ok_bind]
      exact ⟨_, ts, order, _, rfl, C.takes hph hg.owner rfl (fun _ ↦ rfl) B hsp
        (step.uncaptured hst C.uncaptured) (hph ▸ hptr ▸ .push hx) (step.supplied (.inl rfl)) hseq
        hresult id (by simp)⟩
    | globalLock =>
      obtain ⟨s', sh', hrun, hadv⟩ := hshared
      refine ⟨_, ts, order, sh', ?_, hadv⟩
      simp only [freePooled, hstage, hptr, hrun, ok_bind]
    | poolLocks =>
      obtain ⟨s', sh', hrun, hadv⟩ := hshared
      refine ⟨_, ts, order, sh', ?_, hadv⟩
      simp only [freePooled, hstage, hptr, hrun, ok_bind]

/-- On entry to `my_free`. -/
theorem advance_free (C : Consistent c y ts order sh) (hph : y.phase t = .free ptr sequel) :
    Advances c y sh t := by
  obtain ⟨⟨g, hgp, hg⟩, hseq, hresult, harg⟩ :
    PhaseOk c y sh t (.free ptr sequel) := hph ▸ C.phases t
  unfold Advances System.advance
  simp only [hph]
  exact ⟨_, ts, order, sh, rfl, C.still rfl (fun j ↦ by rw [hph]; rfl)
    (C.cap_of_excess fun j ↦ by rw [hph]; rfl)
    (fun keeps ↦ ⟨⟨g, hgp, hg.keep C.booked keeps C.booked trivial⟩,
      hseq.keep C.booked keeps fun _ _ _ ↦ trivial, hresult, harg, rfl⟩) (by simp)⟩

/-- After the push of a freed slot. -/
theorem advance_pushed (C : Consistent c y ts order sh) (hph : y.phase t = .pushed i sequel) :
    Advances c y sh t := by
  have hseq : SequelOk y t sequel := show PhaseOk c y sh t (.pushed i sequel) from hph ▸ C.phases t
  have H := C.booked.coherent.shelved
  have hcount : (y.state.caches t i).count = (sh (.cache t i)).length :=
    (H.cacheHolds t i).count_eq
  unfold Advances System.advance
  simp only [hph]
  by_cases hover : overCap y.state t i = true
  · have hlt : threadLocalCacheCap < (sh (.cache t i)).length := by
      rw [← hcount]
      exact of_decide_eq_true hover
    have hle := C.cache_length t i
    have hne : sh (.cache t i) ≠ [] := fun h ↦ by simp [h] at hlt
    have hnil : sh (.transit t i) = [] := C.transit_nil (by rw [hph]; rfl)
    obtain ⟨s', xs, d, ys, hrun, hcache, hbatch, shelved, step⟩ :=
      H.detachBatch t hnil hne (by omega)
    have hfull : xs.length + 1 = threadLocalCacheBatchSize := by
      rcases hbatch with h | ⟨h, rfl⟩
      · exact h
      · rw [hcache] at hlt
        simp only [List.append_nil, List.length_append, List.length_singleton] at hlt
        unfold threadLocalCacheCap at hlt
        omega
    have hset : ((y.setState s').setPhase t
        (.detached i (y.state.caches t i).head d sequel)).transit =
          setTransit y.transit t i (y.state.caches t i).head :=
      System.transit_set (y := y) rfl fun j ↦ by rw [hph]; rfl
    have hmoved : (sh.move (.cache t i) ys (.transit t i) (xs ++ [d])) (.transit t i) = xs ++ [d] :=
      Shelves.move_snd (by simp)
    rw [if_pos hover, hrun, ok_bind]
    exact ⟨_, ts, order, _, rfl, C.shuffled rfl hset step shelved
      (fun j ↦ Shelves.move_other (by simp) (by simp)) (hph ▸ .detach hcache hfull hlt) (.inl rfl)
      (fun keeps _ ↦ ⟨hseq.keep C.booked keeps fun _ _ _ ↦ trivial, xs, hmoved, hfull⟩) (by simp)⟩
  · have hcap : ∀ j, (sh (.cache t j)).length ≤ threadLocalCacheCap := by
      intro j
      by_cases hj : j = i
      · rw [hj, ← hcount]
        exact Nat.not_lt.mp fun h ↦ hover (decide_eq_true h)
      · have h := C.cap t j
        rw [hph] at h
        simpa [Phase.excess, hj] using h
    refine ⟨_, ts, order, sh, if_neg hover, C.still rfl (fun j ↦ by rw [hph]; rfl) hcap
      (fun _ ↦ trivial) ?_⟩
    rintro r ⟨rfl⟩
    exact hseq.contentsKept

/-- With a detached batch. -/
theorem advance_detached (C : Consistent c y ts order sh) {chainHead chainTail : Nat}
    (hph : y.phase t = .detached i chainHead chainTail sequel) : Advances c y sh t := by
  obtain ⟨hseq, xs, hxs, -⟩ :
    PhaseOk c y sh t (.detached i chainHead chainTail sequel) := hph ▸ C.phases t
  have htr : y.transit t i = chainHead := by simp [System.transit, hph, Phase.batch]
  obtain ⟨s', hrun, -, shelved, step⟩ := C.booked.coherent.shelved.spliceBatch hxs
  have hset : ((y.setState s').setPhase t (.idle sequel.result)).transit =
      setTransit y.transit t i 0 :=
    System.transit_set (y := y) rfl fun j ↦ by
      rw [hph]
      simp only [Phase.batch]
      split <;> rfl
  rw [htr] at hrun
  rw [← hxs] at shelved step
  unfold Advances System.advance
  simp only [hph, hrun, ok_bind]
  refine ⟨_, ts, order, _, rfl, C.shuffled rfl hset step shelved
    (fun j ↦ Shelves.move_other (by simp) (by simp)) (hph ▸ .splice) (.inl rfl)
    (fun _ _ ↦ trivial) ?_⟩
  rintro keeps r ⟨rfl⟩
  exact (hseq.keep C.booked keeps fun _ _ _ ↦ trivial).contentsKept

/-! ### `my_realloc` -/

/-- On entry to `my_realloc` with a pointer. -/
theorem advance_realloc (C : Consistent c y ts order sh)
    (hph : y.phase t = .realloc ptr newSize) : Advances c y sh t := by
  obtain ⟨hsize, ⟨g, hgp, hg⟩, hcall⟩ :
    PhaseOk c y sh t (.realloc ptr newSize) := hph ▸ C.phases t
  unfold Advances System.advance
  simp only [hph]
  exact ⟨_, ts, order, sh, rfl, C.still rfl (fun j ↦ by rw [hph]; rfl)
    (C.cap_of_excess fun j ↦ by rw [hph]; rfl)
    (fun keeps ↦ ⟨hsize, ⟨g, hgp, hg.keep C.booked keeps C.booked trivial⟩, hcall, rfl⟩) (by simp)⟩

/-- A reallocation that keeps the pointer. -/
theorem renews (C : Consistent c y ts order sh) (hph : y.phase t = .retagged g.ptr newSize tag)
    (hg : Claimed c y t g) (hcall : (y.began t).1 = .realloc g.ptr newSize)
    (B : Booked c s' y.transit y.live ts' order' sh)
    (hsp : Spared y.state s' (without y.live g.ptr)) (hun : Uncaptured ts' sh)
    (hpools : s'.pools = y.state.pools) (hfit : newSize ≤ usable s' g)
    (hbytes : ∀ k, k < usable y.state g → s'.mem (g.ptr + k) = y.state.mem (g.ptr + k)) :
    Advanced c y sh t (((y.setState s').renew g.ptr newSize).setPhase t (.idle g.ptr))
      ts' order' sh := by
  have keeps : ∀ u, Keeps y (((y.setState s').renew g.ptr newSize).setPhase t (.idle g.ptr)) u
      fun h ↦ h.ptr ≠ g.ptr := Keeps.renew _ hsp
  have B' : Booked c s' y.transit (renewed y.live g.ptr newSize) ts' order' sh :=
    B.renew fun h hh he ↦ by
      rw [B.grant_eq hh hg.live he]
      exact hfit
  have hcap : ∀ j, (sh (.cache t j)).length ≤ threadLocalCacheCap :=
    C.cap_of_excess fun j ↦ by rw [hph]; rfl
  refine C.advanced (z := (y.setState s').renew g.ptr newSize) rfl
    (System.transit_same (y := y) rfl fun j ↦ by rw [hph]; rfl)
    (fun u hu ↦ (keeps u).every hg.owner hu) (.still hcap) B' hun trivial
    (by rw [hph]; exact .renew hsp.sameSize) (.same hpools) ?_ (by rw [hph]; exact hsp)
  rintro r ⟨rfl⟩ ptr newSize' hcall' _ _
  obtain ⟨rfl, rfl⟩ : g.ptr = ptr ∧ newSize = newSize' := by simpa using hcall.symm.trans hcall'
  refine ⟨g, hg.before, rfl, { g with requested := newSize },
    mem_renewed.mpr ⟨g, hg.live, .inl ⟨rfl, rfl⟩⟩, rfl, rfl, hg.owner, fun k hk _ ↦ ?_⟩
  have hk' : k < usable y.state g := hg.usable_eq ▸ hk
  exact (hbytes k hk').trans (hg.bytes _ ⟨Nat.le_add_right _ _, by omega⟩)

/-- A reallocation that goes on to allocate. -/
theorem moves (C : Consistent c y ts order sh) (hph : y.phase t = .retagged g.ptr newSize tag)
    (hsize : newSize + 47 < 2 ^ 64) (hg : Claimed c y t g)
    (hcall : (y.began t).1 = .realloc g.ptr newSize) {copySize : Nat}
    (hcopy : copySize = min (usable y.state g) newSize) :
    Advanced c y sh t (y.setPhase t (.malloc newSize (.realloc g.ptr copySize))) ts order sh :=
  C.still rfl (fun j ↦ by rw [hph]; rfl) (C.cap_of_excess fun j ↦ by rw [hph]; rfl)
    (fun keeps ↦ ⟨hsize, ⟨g, rfl, hg.keep C.booked keeps C.booked trivial⟩,
      hcall, g, hg.before, rfl, by rw [hcopy, hg.usable_eq]; rfl⟩) (by simp)

/-- After the speculative read of the tag in `my_realloc`. -/
theorem advance_retagged (C : Consistent c y ts order sh)
    (hph : y.phase t = .retagged ptr newSize tag) : Advances c y sh t := by
  obtain ⟨hsize, ⟨g, rfl, hg⟩, hcall, rfl⟩ :
    PhaseOk c y sh t (.retagged ptr newSize tag) := hph ▸ C.phases t
  have hrouted : isKnownPool c (tagOf y.state.mem g.ptr) = g.origin.isSome := hg.routed
  unfold Advances System.advance
  simp only [hph, hrouted]
  cases ho : g.origin with
  | some i =>
    have hu := C.booked.usable_pooled ho
    rw [C.booked.tag_pooled hg.live ho, poolAt_poolAddr]
    simp only [Option.isSome_some, if_true, ok_bind,
      (C.booked.coherent.shelved.shape i).payload_eq]
    by_cases hfit : newSize ≤ classSize i
    · rw [if_pos hfit]
      exact ⟨_, ts, order, sh, rfl, C.renews hph hg hcall C.booked
        (Spared.refl _ _) C.uncaptured rfl (hu ▸ hfit) fun _ _ ↦ rfl⟩
    · rw [if_neg hfit]
      exact ⟨_, ts, order, sh, rfl, C.moves hph hsize hg hcall (by rw [hu]; omega)⟩
  | none =>
    obtain ⟨b, hb, hn⟩ := C.booked.general g hg.live ho
    have hu := C.booked.usable_general ho hb
    obtain ⟨hlo, -⟩ := alignUp_spec (show newSize + 16 ≤ 2 ^ 64 by omega)
    simp only [Option.isSome_none, Bool.false_eq_true, if_false,
      hb.headerOf_eq C.booked.coherent.heap.rep.placed]
    rcases C.booked.coherent.heap.reallocInPlace c hb.allocated hb.headed newSize with
      ⟨hrun, -⟩ | ⟨m', head', ts', order', b', hrun, H', haddr, hh, hnew, hgrow, halloc, hframe,
        hpay, -⟩
    · have hmin : (if b.size < newSize then b.size else newSize) =
          min (usable y.state g) newSize := by
        rw [hu]
        split <;> omega
      rw [hrun, ok_bind]
      exact ⟨_, ts, order, sh, rfl, C.moves hph hsize hg hcall hmin⟩
    · obtain ⟨B, hsp, hu'⟩ :=
        C.booked.growBlock (m', head') hg.live ho hb hn H' haddr hh hgrow halloc hframe
      have hun : Uncaptured ts' sh := fun d hd j ↦ by
        rcases (halloc d).mp hd with rfl | ⟨hd, -⟩
        · exact haddr ▸ hn j
        · exact C.uncaptured d hd j
      have hptr := hb.ptr_eq
      rw [hrun, ok_bind]
      exact ⟨_, ts', order', sh, rfl, C.renews hph hg hcall B hsp hun rfl (by rw [hu']; omega)
        fun k hk ↦ hpay _ (by omega) (by omega)⟩

/-- The next step of a thread in a call completes. -/
theorem advance (C : Consistent c y ts order sh) (h : ¬ (y.phase t).AtRest) :
    Advances c y sh t := by
  cases hph : y.phase t with
  | unborn => exact absurd (by rw [hph]; trivial) h
  | exited => exact absurd (by rw [hph]; trivial) h
  | idle r => exact absurd (by rw [hph]; trivial) h
  | malloc size use => exact C.advance_malloc hph
  | refilled size i batch use => exact C.advance_refilled hph
  | stocked size i use => exact C.advance_stocked hph
  | got size p use => exact C.advance_got hph
  | free ptr sequel => exact C.advance_free hph
  | tagged ptr tag sequel => exact C.advance_tagged hph
  | pushed i sequel => exact C.advance_pushed hph
  | detached i chainHead chainTail sequel => exact C.advance_detached hph
  | realloc ptr newSize => exact C.advance_realloc hph
  | retagged ptr newSize tag => exact C.advance_retagged hph

end Consistent

end CustomAllocator
