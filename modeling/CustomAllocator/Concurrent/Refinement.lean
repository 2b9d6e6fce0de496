import CustomAllocator.Concurrent.View

/-!
# Every step refines the heap that serves at once

A step of the system is matched by steps of the heap on what is in view: most change nothing in
view, one step of each call serves its request, and the last one returns.
-/

namespace CustomAllocator
open CustomAllocator.Base

/-- Steps of the heap: blocks lie at multiples of 16, and zeroed ones hold zeros. -/
abbrev HeapStep : Label Tid UInt8 → Atomic Tid UInt8 → Atomic Tid UInt8 → Prop :=
  Atomic.Step 16 0

/-- Runs of the heap. -/
abbrev HeapRun : List (Label Tid UInt8) → Atomic Tid UInt8 → Atomic Tid UInt8 → Prop :=
  Atomic.Run 16 0

/-- The request a call makes, if it makes one. -/
def Call.request : Call → Option Request
  | .malloc size => some (.alloc size)
  | .calloc count size =>
    if size ≠ 0 ∧ sizeMax / size < count then none else some (.zeroed (mul64 count size))
  | .realloc ptr newSize => some (if ptr = 0 then .alloc newSize else .resize ptr newSize)
  | .free ptr => if ptr = 0 then none else some (.release ptr)

/-- What the clients see of an action that leads to the system `y'`. An own step of a thread
serves its request or not, and is the last one exactly when the thread has returned. -/
inductive Shows (y' : System) : Action → List (Label Tid UInt8) → Prop
  | start (t : Tid) : Shows y' (.start t) [.start t]
  | exit (t : Tid) : Shows y' (.exit t) [.exit t]
  | call (t : Tid) (request : Call) : Shows y' (.call t request) [.call t request.request]
  | unseen {t : Tid} (busy : ¬ (y'.phase t).AtRest) : Shows y' (.advance t) []
  | serve {t : Tid} (busy : ¬ (y'.phase t).AtRest) : Shows y' (.advance t) [.serve t]
  | finish {t : Tid} {r : Nat} (idle : y'.phase t = .idle r) : Shows y' (.advance t) [.finish t r]
  | serveFinish {t : Tid} {r : Nat} (idle : y'.phase t = .idle r) :
      Shows y' (.advance t) [.serve t, .finish t r]
  | write (t : Tid) (x : Nat) (v : UInt8) : Shows y' (.write t x v) [.store t x v]
  | give (p : Nat) (u : Tid) : Shows y' (.give p u) [.give p u]

/-- Only the phases of the threads matter. -/
theorem Shows.congr {y y' : System} {a : Action} {ls : List (Label Tid UInt8)}
    (h : Shows y a ls) (hphase : ∀ t, y'.phase t = y.phase t) : Shows y' a ls := by
  cases h with
  | start t => exact .start t
  | exit t => exact .exit t
  | call t request => exact .call t request
  | unseen busy => exact .unseen (by rwa [hphase])
  | serve busy => exact .serve (by rwa [hphase])
  | finish idle => exact .finish ((hphase _).trans idle)
  | serveFinish idle => exact .serveFinish ((hphase _).trans idle)
  | write t x v => exact .write t x v
  | give p u => exact .give p u

/-- What the clients see of an action is a run of the heap. -/
def Refines (a : Action) (y y' : System) : Prop :=
  ∃ ls, Shows y' a ls ∧ HeapRun ls y.view y'.view

variable {c : Config} {y y' : System} {t u : Tid} {ts ts' : List Carved} {order order' : List Nat}
  {sh sh' : Shelves} {g : Grant} {p q n r : Nat} {request : Request} {use : Purpose}
  {sequel : Sequel} {a : Action}

/-! ### Matching one step -/

/-- What a step of `t` does to the view. -/
theorem System.view_eq (hphase : ∀ u, u ≠ t → y'.phase u = y.phase u)
    (hbegan : ∀ u, u ≠ t → y'.began u = y.began u) :
    y'.view = { y.view with heap := y'.holding }.setStatus t
      ((y'.phase t).status (y'.began t).1) := by
  have hstatus : y'.view.status = Function.update y.view.status t
      ((y'.phase t).status (y'.began t).1) := by
    funext u
    by_cases hu : u = t
    · subst hu
      rw [Function.update_self, System.view_status]
    · rw [Function.update_of_ne hu, System.view_status, System.view_status, hphase u hu,
        hbegan u hu]
  rw [Atomic.setStatus, ← hstatus]
  rfl

theorem Forward.view_eq (F : Forward y t y') :
    y'.view = { y.view with heap := y'.holding }.setStatus t
      ((y'.phase t).status (y.began t).1) := by
  have h := System.view_eq F.others fun u _ ↦ congrFun F.began u
  rwa [F.began] at h

/-- A step that nobody sees. -/
theorem Forward.unseen (F : Forward y t y') (hheap : y'.holding = y.holding)
    (hstatus : (y'.phase t).status (y.began t).1 = (y.phase t).status (y.began t).1)
    (hbusy : ¬ (y'.phase t).AtRest) : Refines (.advance t) y y' := by
  have hview : y'.view = y.view := by
    rw [F.view_eq, hheap, hstatus, Atomic.setStatus]
    congr 1
    exact Function.update_eq_self t y.view.status
  exact ⟨[], .unseen hbusy, hview ▸ .nil _⟩

/-- A step that returns. -/
theorem Forward.finish (F : Forward y t y') (hheap : y'.holding = y.holding)
    (hserved : (y.phase t).status (y.began t).1 = .served r) (hidle : y'.phase t = .idle r) :
    Refines (.advance t) y y' := by
  refine ⟨_, .finish hidle, ?_⟩
  rw [F.view_eq, hheap, hidle]
  exact .single (.finish hserved)

/-- A step that serves the request. -/
theorem Forward.serve (F : Forward y t y')
    (hpending : (y.phase t).status (y.began t).1 = .pending request)
    (hserved : (y'.phase t).status (y.began t).1 = .served r)
    (serves : Serves 16 0 t request y.holding r y'.holding) (hbusy : ¬ (y'.phase t).AtRest) :
    Refines (.advance t) y y' := by
  refine ⟨_, .serve hbusy, ?_⟩
  rw [F.view_eq, hserved]
  exact .single (.serve hpending serves)

/-- A step that serves the request and returns. -/
theorem Forward.serve_finish (F : Forward y t y')
    (hpending : (y.phase t).status (y.began t).1 = .pending request)
    (hidle : y'.phase t = .idle r)
    (serves : Serves 16 0 t request y.holding r y'.holding) : Refines (.advance t) y y' := by
  have hstep : HeapStep (.serve t) y.view
      ({ y.view with heap := y'.holding }.setStatus t (.served r)) := .serve hpending serves
  refine ⟨_, .serveFinish hidle, .cons hstep (.single ?_)⟩
  rw [F.view_eq, hidle]
  have hset : { y.view with heap := y'.holding }.setStatus t (.idle r) =
      ({ y.view with heap := y'.holding }.setStatus t (.served r)).setStatus t (.idle r) := by
    simp [Atomic.setStatus]
  rw [Phase.status, hset]
  exact .finish Atomic.setStatus_same

/-! ### Blocks that come into view -/

/-- A block that comes into view has room there: it shares no byte with another block. -/
theorem Consistent.room (C' : Consistent c y' ts' order' sh') (hg : g ∈ y'.live)
    {h : Holdings Tid UInt8} (hfree : h g.ptr = none)
    (hothers : ∀ q d, h q = some d → ∃ g' ∈ y'.live, g'.ptr = q ∧
      d.bytes.length = usable y'.state g') :
    Room 16 h g.ptr (usable y'.state g) := by
  have hal := C'.booked.ptr_aligned hg
  constructor
  · omega
  · exact hal.1
  · exact hfree
  · intro q d hq x hlo hhi hx
    obtain ⟨g', hg', rfl, hlen⟩ := hothers q d hq
    have hne : g ≠ g' := by
      rintro rfl
      rw [hfree] at hq
      cases hq
    rw [Covers, hlen] at hx
    exact C'.booked.payload_apart hg hg' hne ⟨hlo, hhi⟩ hx

/-- The blocks in view are as long as they are usable. -/
theorem System.holding_length {d : Holding Tid UInt8} (h : y.holding q = some d)
    (hkept : ∀ g ∈ y.live, g.ptr = q → g ∈ y'.live ∧ usable y'.state g = usable y.state g) :
    ∃ g ∈ y'.live, g.ptr = q ∧ d.bytes.length = usable y'.state g := by
  obtain ⟨g, hg, hptr, rfl⟩ := System.holding_some h
  obtain ⟨hg', hsame⟩ := hkept g hg hptr
  refine ⟨g, hg', hptr, ?_⟩
  rw [hsame]
  exact length_bytesAt

/-- A block that is in view with its owner. -/
theorem Consistent.holding_shown (C : Consistent c y ts order sh) (hg : g ∈ y.live)
    (howner : y.owner g.ptr = t) (hshown : (y.phase t).hidden ≠ g.ptr) :
    y.holding g.ptr = some ⟨t, bytesAt y.state.mem g.ptr (usable y.state g)⟩ := by
  rw [System.holding_of_mem C.booked.nodup hg, howner, if_neg hshown]

/-- A block that its owner has not been given yet. -/
theorem Consistent.holding_hidden (C : Consistent c y ts order sh) (hg : g ∈ y.live)
    (howner : y.owner g.ptr = t) (hhidden : (y.phase t).hidden = g.ptr) :
    y.holding g.ptr = none := by
  rw [System.holding_of_mem C.booked.nodup hg, howner, if_pos hhidden]

/-! ### One step of a call -/

section calls

variable {s : State} {size : Nat} {ptr copySize tag newSize : Nat} (C : Consistent c y ts order sh)
include C

/-- `my_malloc` comes to hold a pointer, or null. -/
theorem Consistent.refines_handOut (hwanted : (y.phase t).wanted = some (size, use))
    (A : Advanced c y sh t ((y.setState s).handOut t size p use) ts' order' sh') :
    Refines (.advance t) y ((y.setState s).handOut t size p use) := by
  have F := (Goes.handOut (y := y) hwanted s p).forward
  have C' := A.consistent
  obtain ⟨hpending, hhidden, htarget⟩ := Phase.wanted_waits (y.began t).1 hwanted
  have hspared := A.spared_all C htarget
  have hserves : ∀ q, use.request size ≠ .release q := by
    intro q
    cases use <;> simp [Purpose.request]
  by_cases hp : p = 0
  · rw [System.handOut, if_pos hp] at A F C' hspared ⊢
    have hheap : ((y.setState s).setPhase t (.got size 0 use)).holding = y.holding := by
      apply C.holding_quiet F.others rfl rfl _ hspared
      rw [System.setPhase_same, hhidden]
      cases use <;> rfl
    apply F.serve (r := 0) hpending
    · rw [System.setPhase_same]
      cases use <;> rfl
    · rw [hheap]
      exact .refuse hserves
    · rw [System.setPhase_same]
      exact id
  rw [System.handOut, if_neg hp] at A F C' hspared ⊢
  generalize hy' : ((y.setState s).grant t size p).setPhase t (.got size p use) = y' at *
  have hlive : y'.live = ⟨p, size, originOf size⟩ :: y.live := by
    rw [← hy']
    rfl
  have hphase : y'.phase t = .got size p use := by
    rw [← hy', System.setPhase_same]
  have howner : ∀ q, y'.owner q = if q = p then t else y.owner q := by
    rw [← hy']
    exact fun _ ↦ rfl
  have hgrant : (⟨p, size, originOf size⟩ : Grant) ∈ y'.live := hlive ▸ List.mem_cons_self
  have hfresh : ∀ g ∈ y.live, g.ptr ≠ p := by
    intro g hg he
    have hnd := C'.booked.nodup
    rw [hlive, List.map_cons, List.nodup_cons] at hnd
    exact hnd.1 (List.mem_map.mpr ⟨g, hg, he⟩)
  have hothers : ∀ q, q ≠ p → y'.holding q = y.holding q := by
    intro q hq
    apply C.holding_same F.others
    · rw [hlive, List.find?_cons_of_neg (by simpa using hq.symm)]
    · rw [howner, if_neg hq]
    · intro h0
      rw [hphase, hhidden]
      constructor
      · intro h
        cases use <;> simp only [Phase.hidden] at h <;> omega
      · exact fun h ↦ absurd h h0.symm
    · intro g hg _
      exact hspared g hg
  have hnone : y.holding p = none := System.holding_none hfresh
  by_cases hshown : use = .malloc
  · subst hshown
    have hheap : y'.holding = Function.update y.holding p
        (some ⟨t, bytesAt y'.state.mem p (usable y'.state ⟨p, size, originOf size⟩)⟩) := by
      funext q
      by_cases hq : q = p
      · subst hq
        rw [Function.update_self]
        refine C'.holding_shown (t := t) hgrant ((howner _).trans (if_pos rfl)) ?_
        rw [hphase]
        exact Ne.symm hp
      · rw [Function.update_of_ne hq, hothers q hq]
    apply F.serve hpending
    · rw [hphase]
      rfl
    · rw [hheap]
      apply Serves.alloc
      · rw [length_bytesAt]
        exact C'.booked.requested_le hgrant
      · rw [length_bytesAt]
        refine C'.room hgrant hnone fun q d hq ↦ System.holding_length hq fun g hg _ ↦ ?_
        exact ⟨hlive ▸ List.mem_cons_of_mem _ hg, (hspared g hg).1⟩
    · rw [hphase]
      exact id
  · have hheap : y'.holding = y.holding := by
      funext q
      by_cases hq : q = p
      · subst hq
        rw [hnone]
        refine C'.holding_hidden (t := t) hgrant ((howner _).trans (if_pos rfl)) ?_
        rw [hphase]
        cases use with
        | malloc => exact absurd rfl hshown
        | calloc => rfl
        | realloc ptr n => rfl
      · exact hothers q hq
    apply F.unseen hheap
    · rw [hphase, hpending]
      cases use with
      | malloc => exact absurd rfl hshown
      | calloc => exact if_neg hp
      | realloc ptr n => exact if_neg hp
    · rw [hphase]
      exact id

/-- `my_calloc` has zeroed its block. -/
theorem Consistent.refines_zero (hph : y.phase t = .got size p .calloc) (hp : p ≠ 0)
    (A : Advanced c y sh t ((y.setState { y.state with
      mem := fill y.state.mem p 0 size }).setPhase t (.idle p)) ts' order' sh') :
    Refines (.advance t) y ((y.setState { y.state with
      mem := fill y.state.mem p 0 size }).setPhase t (.idle p)) := by
  have F := (Goes.zero (y := y) hph hp).forward
  have C' := A.consistent
  obtain ⟨-, hgot⟩ : PhaseOk c y sh t (.got size p .calloc) := hph ▸ C.phases t
  obtain ⟨hgrant, howner, -⟩ := hgot hp
  have hspared : ∀ g ∈ y.live, g.ptr ≠ p → usable _ g = usable y.state g ∧ _ :=
    fun g hg hne ↦ A.spared g (mem_without.mpr ⟨hg, by rwa [hph]⟩)
  generalize hy' : (y.setState { y.state with
    mem := fill y.state.mem p 0 size }).setPhase t (.idle p) = y' at *
  have hphase : y'.phase t = .idle p := by
    rw [← hy', System.setPhase_same]
  have hlive : y'.live = y.live := by
    rw [← hy']
    rfl
  have hown : y'.owner = y.owner := by
    rw [← hy']
    rfl
  have hmem : y'.state.mem = fill y.state.mem p 0 size := by
    rw [← hy']
    rfl
  have hgrant' : (⟨p, size, originOf size⟩ : Grant) ∈ y'.live := hlive ▸ hgrant
  have hnone : y.holding p = none :=
    C.holding_hidden (t := t) hgrant howner (by rw [hph]; rfl)
  have hheap : y'.holding = Function.update y.holding p
      (some ⟨t, bytesAt y'.state.mem p (usable y'.state ⟨p, size, originOf size⟩)⟩) := by
    funext q
    by_cases hq : q = p
    · subst hq
      rw [Function.update_self]
      refine C'.holding_shown (t := t) hgrant' (hown ▸ howner) ?_
      rw [hphase]
      exact Ne.symm hp
    · rw [Function.update_of_ne hq]
      apply C.holding_same F.others
      · rw [hlive]
      · rw [hown]
      · intro h0
        rw [hphase, hph]
        exact ⟨fun h ↦ absurd h h0.symm, fun h ↦ absurd h.symm hq⟩
      · rintro g hg rfl
        exact hspared g hg hq
  have hpending : (y.phase t).status (y.began t).1 = .pending (.zeroed size) := by
    rw [hph]
    exact if_neg hp
  apply F.serve_finish hpending hphase
  · rw [hheap]
    have hle := C'.booked.requested_le hgrant'
    apply Serves.zeroed
    · rw [length_bytesAt]
      exact hle
    · rw [length_bytesAt]
      refine C'.room hgrant' hnone fun q d hq ↦ System.holding_length hq fun g hg hptr ↦ ?_
      have hne : g.ptr ≠ p := by
        rintro rfl
        rw [← hptr, hnone] at hq
        cases hq
      exact ⟨hlive ▸ hg, (hspared g hg hne).1⟩
    · intro k hk
      rw [getElem?_bytesAt (Nat.lt_of_lt_of_le hk hle), hmem]
      exact congrArg some (if_pos ⟨Nat.le_add_right p k, Nat.add_lt_add_left hk p⟩)

/-- `my_realloc` has copied into its new block. -/
theorem Consistent.refines_copies (hph : y.phase t = .got size p (.realloc ptr copySize))
    (hp : p ≠ 0) (A : Advanced c y sh t ((y.setState { y.state with
      mem := copy y.state.mem p ptr copySize }).setPhase t (.free ptr (.realloc p copySize)))
      ts' order' sh') :
    Refines (.advance t) y ((y.setState { y.state with
      mem := copy y.state.mem p ptr copySize }).setPhase t (.free ptr (.realloc p copySize))) := by
  have F := (Goes.copies (y := y) hph hp).forward
  have C' := A.consistent
  obtain ⟨⟨-, hmoving⟩, hgot⟩ : PhaseOk c y sh t (.got size p (.realloc ptr copySize)) :=
    hph ▸ C.phases t
  obtain ⟨hgrant, howner, -⟩ := hgot hp
  have hspared : ∀ g ∈ y.live, g.ptr ≠ p → usable _ g = usable y.state g ∧ _ :=
    fun g hg hne ↦ A.spared g (mem_without.mpr ⟨hg, by rwa [hph]⟩)
  generalize hy' : (y.setState { y.state with mem := copy y.state.mem p ptr copySize }).setPhase t
    (.free ptr (.realloc p copySize)) = y' at *
  have hphase : y'.phase t = .free ptr (.realloc p copySize) := by
    rw [← hy', System.setPhase_same]
  have hlive : y'.live = y.live := by
    rw [← hy']
    rfl
  have hown : y'.owner = y.owner := by
    rw [← hy']
    rfl
  have hheap : y'.holding = y.holding := by
    funext q
    by_cases hq : q = p
    · subst hq
      have hnone : y.holding q = none :=
        C.holding_hidden (t := t) hgrant howner (by rw [hph]; rfl)
      rw [hnone]
      exact C'.holding_hidden (g := ⟨q, size, originOf size⟩) (t := t) (hlive ▸ hgrant)
        (hown ▸ howner) (by rw [hphase]; rfl)
    · apply C.holding_same F.others
      · rw [hlive]
      · rw [hown]
      · intro _
        rw [hphase, hph]
        exact Iff.rfl
      · rintro g hg rfl
        exact hspared g hg hq
  apply F.unseen hheap
  · rw [hphase, hph, hmoving.call]
    exact (if_neg hp).symm
  · rw [hphase]
    exact id

/-- A reallocation in place. -/
theorem Consistent.refines_renew (hph : y.phase t = .retagged ptr newSize tag)
    (A : Advanced c y sh t (((y.setState s).renew ptr newSize).setPhase t (.idle ptr))
      ts' order' sh') :
    Refines (.advance t) y (((y.setState s).renew ptr newSize).setPhase t (.idle ptr)) := by
  have F := (Goes.renew (y := y) hph s).forward
  have C' := A.consistent
  obtain ⟨-, ⟨g, rfl, hg⟩, hcall, -⟩ :
    PhaseOk c y sh t (.retagged ptr newSize tag) := hph ▸ C.phases t
  have hkept := A.contentsKept g.ptr (System.setPhase_same _ _ _) g.ptr newSize
  have hspared : ∀ h ∈ y.live, h.ptr ≠ g.ptr → usable _ h = usable y.state h ∧ _ :=
    fun h hh hne ↦ A.spared h (mem_without.mpr ⟨hh, by rwa [hph]⟩)
  generalize hy' : ((y.setState s).renew g.ptr newSize).setPhase t (.idle g.ptr) = y' at *
  have hphase : y'.phase t = .idle g.ptr := by
    rw [← hy', System.setPhase_same]
  have hlive : y'.live = renewed y.live g.ptr newSize := by
    rw [← hy']
    rfl
  have hown : y'.owner = y.owner := by
    rw [← hy']
    rfl
  have hne0 : g.ptr ≠ 0 := by
    have := (C.booked.ptr_aligned hg.live).2.1
    omega
  have hgrant' : { g with requested := newSize } ∈ y'.live :=
    hlive ▸ mem_renewed.mpr ⟨g, hg.live, .inl ⟨rfl, rfl⟩⟩
  have hshown := C.holding_shown hg.live hg.owner (by rw [hph]; exact Ne.symm hne0)
  have hheap : y'.holding = Function.update (Function.update y.holding g.ptr none) g.ptr
      (some ⟨t, bytesAt y'.state.mem g.ptr (usable y'.state { g with requested := newSize })⟩) := by
    funext q
    by_cases hq : q = g.ptr
    · subst hq
      rw [Function.update_self]
      refine C'.holding_shown (g := { g with requested := newSize }) (t := t) hgrant'
        (hown ▸ hg.owner) ?_
      rw [hphase]
      exact Ne.symm hne0
    · rw [Function.update_of_ne hq, Function.update_of_ne hq]
      apply C.holding_same F.others
      · rw [hlive]
        exact find_renewed hq
      · rw [hown]
      · intro _
        rw [hphase, hph]
        exact Iff.rfl
      · rintro h hh rfl
        exact hspared h hh hq
  have hpending : (y.phase t).status (y.began t).1 = .pending (.resize g.ptr newSize) := by
    rw [hph]
    rfl
  apply F.serve_finish hpending hphase
  · rw [hheap]
    have hle : newSize ≤ usable y'.state { g with requested := newSize } :=
      C'.booked.requested_le hgrant'
    refine Serves.resize hshown ?_ ?_ fun k hk hkn ↦ ?_
    · rw [length_bytesAt]
      exact hle
    · rw [length_bytesAt]
      refine C'.room (g := { g with requested := newSize }) hgrant' (Function.update_self ..)
        fun q d hq ↦ ?_
      have hqp : q ≠ g.ptr := by
        rintro rfl
        rw [Function.update_self] at hq
        cases hq
      rw [Function.update_of_ne hqp] at hq
      refine System.holding_length hq fun h hh hptr ↦ ?_
      have hne : h.ptr ≠ g.ptr := hptr ▸ hqp
      exact ⟨hlive ▸ mem_renewed.mpr ⟨h, hh, .inr ⟨hne, rfl⟩⟩, (hspared h hh hne).1⟩
    · rw [length_bytesAt] at hk
      rw [getElem?_bytesAt hk, getElem?_bytesAt (Nat.lt_of_lt_of_le hkn hle)]
      have hcall' : (y'.began t).1 = .realloc g.ptr newSize := by rw [F.began, hcall]
      obtain ⟨g', hg', hptr, -, -, -, -, -, hbytes⟩ := hkept hcall' hne0 hne0
      rw [F.began] at hg' hbytes
      obtain rfl : g' = g := hg.unique g' hg' hptr
      rw [hbytes k (hg.usable_eq ▸ hk) hkn, hg.bytes _ ⟨Nat.le_add_right _ _, by omega⟩]

/-- The pointer that is freed goes out of view, and the block it was moved to comes into view. -/
theorem Consistent.serves_takeBack {ph : Phase} (hph : y.phase t = .tagged ptr tag sequel)
    (F : Forward y t (((y.setState s).takeBack ptr).setPhase t ph)) (hhidden : ph.hidden = 0)
    (A : Advanced c y sh t (((y.setState s).takeBack ptr).setPhase t ph) ts' order' sh') :
    Serves 16 0 t (sequel.request ptr (y.began t).1.newSize) y.holding sequel.result
      (((y.setState s).takeBack ptr).setPhase t ph).holding := by
  have C' := A.consistent
  obtain ⟨⟨g, rfl, hg⟩, hseq, hresult, harg, -⟩ :
    PhaseOk c y sh t (.tagged ptr tag sequel) := hph ▸ C.phases t
  have hspared : ∀ h ∈ y.live, h.ptr ≠ g.ptr → usable _ h = usable y.state h ∧ _ :=
    fun h hh hne ↦ A.spared h (mem_without.mpr ⟨hh, by rwa [hph]⟩)
  generalize hy' : ((y.setState s).takeBack g.ptr).setPhase t ph = y' at *
  have hphase : y'.phase t = ph := by
    rw [← hy', System.setPhase_same]
  have hlive : y'.live = without y.live g.ptr := by
    rw [← hy']
    rfl
  have hown : y'.owner = y.owner := by
    rw [← hy']
    rfl
  have hkeeps : ∀ {h}, h ∈ y.live → h.ptr ≠ g.ptr → h ∈ y'.live ∧
      usable y'.state h = usable y.state h := fun hh hne ↦
    ⟨hlive ▸ mem_without.mpr ⟨hh, hne⟩, (hspared _ hh hne).1⟩
  have hgone : y'.holding g.ptr = none := by
    apply System.holding_none
    rw [hlive]
    exact fun h hh ↦ (mem_without.mp hh).2
  have hothers : ∀ q, q ≠ g.ptr → (y.phase t).hidden ≠ q → y'.holding q = y.holding q := by
    intro q hq hshown
    apply C.holding_same F.others
    · rw [hlive]
      exact find_without hq
    · rw [hown]
    · intro h0
      rw [hphase, hhidden]
      exact ⟨fun h ↦ absurd h h0.symm, fun h ↦ absurd h hshown⟩
    · rintro h hh rfl
      exact hspared h hh hq
  cases sequel with
  | free =>
    have hnothing : (y.phase t).hidden = 0 := by
      rw [hph]
      rfl
    have hshown := C.holding_shown hg.live hg.owner (by
      have := (C.booked.ptr_aligned hg.live).2.1
      omega)
    have hheap : y'.holding = Function.update y.holding g.ptr none := by
      funext q
      by_cases hq : q = g.ptr
      · rw [hq, Function.update_self, hgone]
      · rw [Function.update_of_ne hq]
        by_cases h0 : q = 0
        · have hzero : ∀ {z : System} {ts order sh}, Consistent c z ts order sh →
              z.holding 0 = none := by
            intro z ts order sh Z
            apply System.holding_none
            intro h hh
            have := (Z.booked.ptr_aligned hh).2.1
            omega
          rw [h0, hzero C, hzero C']
        · apply hothers q hq
          rw [hph]
          exact fun h ↦ h0 h.symm
    rw [hheap]
    exact .release hshown
  | realloc newPtr n =>
    obtain ⟨ptr, newSize, ⟨hcall, g', hg', hptr', hn⟩, r, hr, rfl, hreq, howner, hbytes⟩ := hseq
    have hptr : ptr = g.ptr := by
      rw [hcall] at harg
      exact harg
    obtain rfl : g' = g := hg.unique g' hg' (hptr'.trans hptr)
    have hne : r.ptr ≠ g'.ptr := hresult
    have hshown := C.holding_shown hg.live hg.owner (by rw [hph]; exact hne)
    have hnone : y.holding r.ptr = none := C.holding_hidden hr howner (by rw [hph]; rfl)
    obtain ⟨hr', husable⟩ := hkeeps hr hne
    have hnew : y'.holding r.ptr = some ⟨t, bytesAt y'.state.mem r.ptr (usable y'.state r)⟩ := by
      refine C'.holding_shown hr' (hown ▸ howner) ?_
      have := (C'.booked.ptr_aligned hr').2.1
      rw [hphase, hhidden]
      omega
    have hheap : y'.holding = Function.update (Function.update y.holding g'.ptr none) r.ptr
        (some ⟨t, bytesAt y'.state.mem r.ptr (usable y'.state r)⟩) := by
      funext q
      by_cases hqr : q = r.ptr
      · rw [hqr, Function.update_self, hnew]
      · rw [Function.update_of_ne hqr]
        by_cases hq : q = g'.ptr
        · rw [hq, Function.update_self, hgone]
        · rw [Function.update_of_ne hq]
          apply hothers q hq
          rw [hph]
          exact fun h ↦ hqr h.symm
    have hle : newSize ≤ usable y'.state r := hreq ▸ C'.booked.requested_le hr'
    rw [hheap, Sequel.request, hcall]
    refine Serves.resize hshown ?_ ?_ fun k hk hkn ↦ ?_
    · rw [length_bytesAt]
      exact hle
    · rw [length_bytesAt]
      refine C'.room hr' ((Function.update_of_ne hne ..).trans hnone) fun q d hq ↦ ?_
      have hqp : q ≠ g'.ptr := by
        rintro rfl
        rw [Function.update_self] at hq
        cases hq
      rw [Function.update_of_ne hqp] at hq
      exact System.holding_length hq fun h hh hhq ↦ hkeeps hh (hhq ▸ hqp)
    · have hkn : k < newSize := hkn
      have husable' := hg.usable_eq
      rw [length_bytesAt] at hk
      have hkr : k < usable y'.state r := Nat.lt_of_lt_of_le hkn hle
      rw [getElem?_bytesAt hk, getElem?_bytesAt hkr,
        (hspared r hr hne).2 _ ⟨Nat.le_add_right _ _, by omega⟩, hbytes k (by omega), hptr,
        hg.bytes _ ⟨Nat.le_add_right _ _, by omega⟩]

/-- Every own step of a thread in a call refines steps of the heap. -/
theorem Consistent.refines_advance (h : ¬ (y.phase t).AtRest) (hact : y.advance c t = .ok y') :
    Refines (.advance t) y y' := by
  obtain ⟨z, ts', order', sh', hz, A⟩ := C.advance h
  obtain rfl : z = y' := by simpa using hz.symm.trans hact
  have G := System.advance_goes h z hact
  have F := G.forward
  have hquiet : ∀ {ph : Phase}, z = y.setPhase t ph → ph.hidden = (y.phase t).hidden →
      z.holding = y.holding := by
    rintro ph rfl hhidden
    refine C.holding_quiet F.others rfl rfl ?_ (.refl _ _)
    rw [System.setPhase_same, hhidden]
  have hspared : ∀ {ph : Phase} {s : State}, z = (y.setState s).setPhase t ph →
      ph.hidden = (y.phase t).hidden → (y.phase t).target = 0 → z.holding = y.holding := by
    rintro ph s rfl hhidden htarget
    refine C.holding_quiet F.others rfl rfl ?_ (A.spared_all C htarget)
    rw [System.setPhase_same, hhidden]
  cases G with
  | handOut here s p => exact C.refines_handOut here A
  | zero here ne => exact C.refines_zero here ne A
  | copies here ne => exact C.refines_copies here ne A
  | renew here s => exact C.refines_renew here A
  | push here s i =>
    apply F.serve
    · rw [here]
      rfl
    · rw [System.setPhase_same]
      rfl
    · exact C.serves_takeBack here F rfl A
    · rw [System.setPhase_same]
      exact id
  | takeBack here s =>
    apply F.serve_finish
    · rw [here]
      rfl
    · rw [System.setPhase_same]
    · exact C.serves_takeBack here F rfl A
  | refill here s i b =>
    apply F.unseen (hspared rfl (by rw [here]; rfl) (by rw [here]; rfl))
    · rw [System.setPhase_same, here]
      rfl
    · rw [System.setPhase_same]
      exact id
  | stock here s =>
    apply F.unseen (hspared rfl (by rw [here]; rfl) (by rw [here]; rfl))
    · rw [System.setPhase_same, here]
      rfl
    · rw [System.setPhase_same]
      exact id
  | detach here s hd tl =>
    apply F.unseen (hspared rfl (by rw [here]; rfl) (by rw [here]; rfl))
    · rw [System.setPhase_same, here]
      rfl
    · rw [System.setPhase_same]
      exact id
  | @tag ptr sequel here =>
    apply F.unseen (hquiet rfl (by rw [here]; cases sequel <;> rfl))
    · rw [System.setPhase_same, here]
      rfl
    · rw [System.setPhase_same]
      exact id
  | retag here =>
    apply F.unseen (hquiet rfl (by rw [here]; rfl))
    · rw [System.setPhase_same, here]
      rfl
    · rw [System.setPhase_same]
      exact id
  | move here copySize =>
    apply F.unseen (hquiet rfl (by rw [here]; rfl))
    · rw [System.setPhase_same, here]
      rfl
    · rw [System.setPhase_same]
      exact id
  | @fail size use here =>
    apply F.finish (r := 0) (hquiet rfl (by rw [here]; cases use <;> rfl))
    · rw [here]
      cases use <;> rfl
    · rw [System.setPhase_same]
  | returns here ne =>
    apply F.finish (hquiet rfl (by rw [here]; rfl))
    · rw [here]
      rfl
    · rw [System.setPhase_same]
  | keep here =>
    apply F.finish (hquiet rfl (by rw [here]; rfl))
    · rw [here]
      rfl
    · rw [System.setPhase_same]
  | splice here s =>
    apply F.finish (hspared rfl (by rw [here]; rfl) (by rw [here]; rfl))
    · rw [here]
      rfl
    · rw [System.setPhase_same]

end calls

/-! ### Actions between calls -/

/-- What a thread has not been given yet is its own. -/
theorem Consistent.hidden_owner (C : Consistent c y ts order sh) (hp : p ≠ 0)
    (h : (y.phase t).hidden = p) : y.owner p = t := by
  have hok := C.phases t
  generalize y.phase t = ph at h hok
  cases ph with
  | got size q use =>
    cases use with
    | malloc => exact absurd h.symm hp
    | calloc =>
      obtain rfl : q = p := h
      exact (hok.2 hp).2.1
    | realloc ptr n =>
      obtain rfl : q = p := h
      exact (hok.2 hp).2.1
  | free ptr sequel =>
    cases sequel with
    | free => exact absurd h.symm hp
    | realloc newPtr n =>
      obtain rfl : newPtr = p := h
      obtain ⟨_, _, _, _, _, _, _, howner, -⟩ := hok.2.1
      exact howner
  | tagged ptr tag sequel =>
    cases sequel with
    | free => exact absurd h.symm hp
    | realloc newPtr n =>
      obtain rfl : newPtr = p := h
      obtain ⟨_, _, _, _, _, _, _, howner, -⟩ := hok.2.1
      exact howner
  | _ => exact absurd h.symm hp

theorem Phase.AtRest.hidden {ph : Phase} (h : ph.AtRest) : ph.hidden = 0 := by
  cases ph with
  | unborn => rfl
  | exited => rfl
  | idle r => rfl
  | _ => exact absurd h id

theorem Phase.AtRest.status {ph : Phase} (h : ph.AtRest) (call : Call) :
    (ph.status call).AtRest := by
  cases ph with
  | unborn => trivial
  | exited => trivial
  | idle r => trivial
  | _ => exact absurd h id

/-- A thread that has just called hides nothing. -/
theorem Call.entry_hidden (request : Call) : request.entry.hidden = 0 := by
  cases request <;> simp only [Call.entry] <;> (try split) <;> rfl

/-- A call is waiting to be served, or has returned null at once. -/
theorem Call.entry_status (request : Call) : request.entry.status request =
    match request.request with
    | none => .idle 0
    | some r => .pending r := by
  cases request with
  | malloc size => rfl
  | calloc count size =>
    simp only [Call.entry, Call.request]
    split <;> rfl
  | realloc ptr newSize =>
    simp only [Call.entry, Call.request]
    split <;> rfl
  | free ptr =>
    simp only [Call.entry, Call.request]
    split <;> rfl

/-- A request is about the pointer of its call. -/
theorem Call.request_argument {call : Call} (h : call.request = some request)
    (hp : request.argument = some p) : p ≠ 0 ∧ p = call.argument := by
  cases call with
  | malloc size =>
    cases h
    cases hp
  | calloc count size =>
    simp only [Call.request] at h
    split at h
    · cases h
    · cases h
      cases hp
  | realloc ptr newSize =>
    simp only [Call.request, Option.some.injEq] at h
    subst h
    split at hp
    · cases hp
    · next hptr =>
      cases hp
      exact ⟨hptr, rfl⟩
  | free ptr =>
    simp only [Call.request] at h
    split at h
    · cases h
    · next hptr =>
      cases h
      cases hp
      exact ⟨hptr, rfl⟩

/-- A change of the blocks in view alone. -/
theorem System.view_heap {h : Holdings Tid UInt8} (hphase : y'.phase = y.phase)
    (hbegan : y'.began = y.began) (hheap : y'.holding = h) :
    y'.view = { y.view with heap := h } := by
  rw [System.view, hheap, hphase, hbegan]
  rfl

/-- A client stores a byte into its block. -/
theorem Consistent.refines_write (C : Consistent c y ts order sh) {x : Nat} {v : UInt8}
    (here : y.phase t = .idle r) (hg : g ∈ y.live) (howner : y.owner g.ptr = t)
    (hx : InPayload y.state g x) (hact : y.act c (.write t x v) = .ok y') :
    Refines (.write t x v) y y' := by
  have hm : ∀ z, ¬ InPayload y.state g z → write8 y.state.mem x v z = y.state.mem z := by
    intro z hz
    apply write8_of_ne
    rintro rfl
    exact hz hx
  obtain ⟨-, hsp, husable⟩ := C.booked.writeGrant hg hm
  obtain ⟨k, rfl⟩ : ∃ k, x = g.ptr + k := ⟨x - g.ptr, by have := hx.1; omega⟩
  have hk : k < usable y.state g := Nat.lt_of_add_lt_add_left hx.2
  have hne : (y.phase t).hidden ≠ g.ptr := by
    have := (C.booked.ptr_aligned hg).2.1
    rw [here]
    exact fun h ↦ absurd (show 0 = g.ptr from h) (by omega)
  have hshown := C.holding_shown hg howner hne
  have hlive : y'.live = y.live := by
    cases hact
    rfl
  have hown : y'.owner = y.owner := by
    cases hact
    rfl
  have hphase : y'.phase = y.phase := by
    cases hact
    rfl
  have hbegan : y'.began = y.began := by
    cases hact
    rfl
  have hmem : y'.state.mem = write8 y.state.mem (g.ptr + k) v := by
    cases hact
    rfl
  have hsp : Spared y.state y'.state (without y.live g.ptr) := by
    cases hact
    exact hsp
  have husable : usable y'.state g = usable y.state g := by
    cases hact
    exact husable
  have hheap : y'.holding = Function.update y.holding g.ptr
      (some ⟨t, (bytesAt y.state.mem g.ptr (usable y.state g)).set k v⟩) := by
    funext q
    by_cases hq : q = g.ptr
    · subst hq
      rw [Function.update_self, System.holding_of_mem (hlive ▸ C.booked.nodup) (hlive ▸ hg), hphase,
        hown, howner, if_neg hne, husable, hmem, bytesAt_write8]
    · rw [Function.update_of_ne hq]
      apply C.holding_same (t := t)
      · intro u _
        rw [hphase]
      · rw [hlive]
      · rw [hown]
      · intro _
        rw [hphase]
      · rintro h hh rfl
        exact hsp h (mem_without.mpr ⟨hh, hq⟩)
  have hstatus : y.view.status t = .idle r := by
    rw [System.view_status, here]
    rfl
  refine ⟨_, .write t _ v, ?_⟩
  rw [System.view_heap hphase hbegan hheap]
  exact .single (.store hstatus hshown k v (by rwa [length_bytesAt]))

/-- A client hands a block on. -/
theorem Consistent.refines_give (C : Consistent c y ts order sh) (hg : g ∈ y.live)
    (hrest : (y.phase (y.owner g.ptr)).AtRest) (hact : y.act c (.give g.ptr u) = .ok y') :
    Refines (.give g.ptr u) y y' := by
  have hne0 : g.ptr ≠ 0 := by
    have := (C.booked.ptr_aligned hg).2.1
    omega
  have hshown := C.holding_shown hg rfl (by rw [hrest.hidden]; exact hne0.symm)
  have hne : (y.phase u).hidden ≠ g.ptr := by
    intro h
    rw [← C.hidden_owner hne0 h, hrest.hidden] at h
    exact hne0 h.symm
  have hlive : y'.live = y.live := by
    cases hact
    rfl
  have hstate : y'.state = y.state := by
    cases hact
    rfl
  have hphase : y'.phase = y.phase := by
    cases hact
    rfl
  have hbegan : y'.began = y.began := by
    cases hact
    rfl
  have hown : ∀ q, y'.owner q = if q = g.ptr then u else y.owner q := by
    cases hact
    exact fun _ ↦ rfl
  have hheap : y'.holding = Function.update y.holding g.ptr
      (some ⟨u, bytesAt y.state.mem g.ptr (usable y.state g)⟩) := by
    funext q
    by_cases hq : q = g.ptr
    · subst hq
      rw [Function.update_self, System.holding_of_mem (hlive ▸ C.booked.nodup) (hlive ▸ hg), hphase,
        hstate, hown, if_pos rfl, if_neg hne]
    · rw [Function.update_of_ne hq]
      apply C.holding_same (t := u)
      · intro v _
        rw [hphase]
      · rw [hlive]
      · rw [hown, if_neg hq]
      · intro _
        rw [hphase]
      · intro _ _ _
        rw [hstate]
        exact ⟨rfl, fun _ _ ↦ rfl⟩
  refine ⟨_, .give _ u, ?_⟩
  rw [System.view_heap hphase hbegan hheap]
  exact .single (.give (hrest.status _) hshown u)

/-- Every legal action refines steps of the heap. -/
theorem Consistent.refines_act (C : Consistent c y ts order sh) (legal : a.Legal c y)
    (hact : y.act c a = .ok y') : Refines a y y' := by
  have hset : ∀ {t ph}, (y.phase t).AtRest → ph.AtRest →
      (y.setPhase t ph).view = y.view.setStatus t (ph.status (y.began t).1) := by
    intro t ph hrest hrest'
    have hphase : ∀ u, u ≠ t → (y.setPhase t ph).phase u = y.phase u := fun u hu ↦
      System.setPhase_ne y ph hu
    have hheap : (y.setPhase t ph).holding = y.holding := by
      refine C.holding_quiet hphase rfl rfl ?_ (.refl _ _)
      rw [System.setPhase_same, hrest.hidden, hrest'.hidden]
    rw [System.view_eq hphase fun _ _ ↦ rfl, hheap, System.setPhase_same]
    rfl
  have hidle : (Phase.idle 0).AtRest := trivial
  have hexited : Phase.exited.AtRest := trivial
  cases a with
  | start t =>
    cases hact
    have here : y.phase t = .unborn := legal
    refine ⟨_, .start t, ?_⟩
    rw [hset (by rw [here]; trivial) hidle]
    refine .single (.start ?_)
    rw [System.view_status, here]
    rfl
  | exit t =>
    cases hact
    obtain ⟨r, here⟩ := legal
    refine ⟨_, .exit t, ?_⟩
    rw [hset (by rw [here]; trivial) hexited]
    refine .single (.exit (r := r) ?_)
    rw [System.view_status, here]
    rfl
  | advance t => exact C.refines_advance legal hact
  | call t request =>
    obtain ⟨⟨r, here⟩, -, harg⟩ := legal
    have hstatus : y.view.status t = .idle r := by
      rw [System.view_status, here]
      rfl
    have hphase : ∀ u, u ≠ t → y'.phase u = y.phase u := by
      cases hact
      exact fun u hu ↦ if_neg hu
    have hbegan : ∀ u, u ≠ t → y'.began u = y.began u := by
      cases hact
      exact fun u hu ↦ if_neg hu
    have hcall : (y'.began t).1 = request := by
      cases hact
      exact congrArg Prod.fst (if_pos rfl)
    have hentry : y'.phase t = request.entry := by
      cases hact
      exact System.setPhase_same _ t _
    have hheap : y'.holding = y.holding := by
      have hhidden : (y'.phase t).hidden = (y.phase t).hidden := by
        rw [hentry, here, request.entry_hidden]
        rfl
      cases hact
      exact C.holding_quiet hphase rfl rfl hhidden (.refl _ _)
    refine ⟨_, .call t request, ?_⟩
    rw [System.view_eq hphase hbegan, hheap, hentry, hcall, request.entry_status]
    cases hreq : request.request with
    | none => exact .single (.decline hstatus)
    | some req =>
      refine .single (.call hstatus req fun p hp ↦ ?_)
      obtain ⟨hp0, hparg⟩ := Call.request_argument hreq hp
      obtain ⟨g, hg, hptr, howner, -⟩ := harg.resolve_left (hparg ▸ hp0)
      obtain rfl : g.ptr = p := hptr.trans hparg.symm
      exact ⟨_, C.holding_shown hg howner (by rw [here]; exact Ne.symm hp0)⟩
  | write t x v =>
    obtain ⟨⟨r, here⟩, g, hg, howner, hx⟩ := legal
    exact C.refines_write here hg howner hx hact
  | give ptr u =>
    obtain ⟨⟨g, hg, rfl⟩, hrest⟩ := legal
    exact C.refines_give hg hrest hact

end CustomAllocator
