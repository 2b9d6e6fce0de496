import Mathlib.Logic.Relation
import CustomAllocator.Client.Calls

/-!
# Single-threaded runs

A session is the allocator's state with the client's ledger. It advances by one public call
on legal pointers and bounded sizes, or by one byte written into a payload. A predicate on
calls restricts the runs further, for instance to calls whose pointer is routed correctly.
Every session of a run is accounted for.
-/

namespace CustomAllocator
open CustomAllocator.Base

/-- A call of the public interface. -/
inductive Call where
  | malloc (size : Nat)
  | calloc (count size : Nat)
  | realloc (ptr newSize : Nat)
  | free (ptr : Nat)
  deriving DecidableEq, Repr

/-- Run a call; a free returns nothing, given as zero. -/
def exec (c : Config) (s : State) (t : Tid) : Call → Except Fault (State × Nat)
  | .malloc size => myMalloc c s t size
  | .calloc count size => myCalloc c s t count size
  | .realloc ptr newSize => myRealloc c s t ptr newSize
  | .free ptr => do
    let s ← myFree c s t ptr
    .ok (s, 0)

/-- The pointer a call is given, if any. -/
def Call.argument : Call → Nat
  | .malloc _ | .calloc _ _ => 0
  | .realloc ptr _ | .free ptr => ptr

/-- Frees and reallocations receive null or a live pointer. -/
def Call.Legal (live : List Grant) (call : Call) : Prop :=
  call.argument = 0 ∨ ∃ g ∈ live, g.ptr = call.argument

/-- The requested byte count is at most `SIZE_MAX - 47`; a product above `SIZE_MAX` is refused by
`my_calloc` itself. -/
def Call.Fits : Call → Prop
  | .malloc size => size ≤ sizeMax - 47
  | .calloc count size => count * size ≤ sizeMax - 47 ∨ sizeMax < count * size
  | .realloc _ newSize => newSize ≤ sizeMax - 47
  | .free _ => True

/-- The ledger after a call returned `r`. -/
def ledgerAfter (live : List Grant) (call : Call) (r : Nat) : List Grant :=
  match call with
  | .malloc size => if r = 0 then live else ⟨r, size, originOf size⟩ :: live
  | .calloc count size =>
    if r = 0 then live else ⟨r, count * size, originOf (count * size)⟩ :: live
  | .realloc ptr newSize =>
    if r = 0 then live
    else if ptr = 0 then ⟨r, newSize, originOf newSize⟩ :: live
    else if r = ptr then renewed live ptr newSize
    else ⟨r, newSize, originOf newSize⟩ :: without live ptr
  | .free ptr => if ptr = 0 then live else without live ptr

/-- The allocator's state and what the client holds. -/
structure Session where
  state : State
  live : List Grant

/-- Before any call. -/
def Session.start (mem : Mem) (offers : List (Option Nat)) (arenaSize : Nat) : Session :=
  ⟨State.initial mem offers arenaSize, []⟩

/-- One step of thread `t`'s client: a legal call that `allowed` admits, or one byte written into
a payload. -/
inductive Step (c : Config) (t : Tid) (allowed : Session → Call → Prop) :
    Session → Session → Prop
  | call {w : Session} (call : Call) {s' : State} {r : Nat} (legal : call.Legal w.live)
      (fits : call.Fits) (ok : allowed w call) (run : exec c w.state t call = .ok (s', r)) :
      Step c t allowed w ⟨s', ledgerAfter w.live call r⟩
  | write {w : Session} {g : Grant} {x : Nat} (v : UInt8) (live : g ∈ w.live)
      (payload : InPayload w.state g x) :
      Step c t allowed w ⟨{ w.state with mem := write8 w.state.mem x v }, w.live⟩

/-- The sessions of all runs from a program start. -/
def Reachable (c : Config) (t : Tid) (allowed : Session → Call → Prop) (w : Session) : Prop :=
  ∃ mem offers arenaSize, arenaSize < 2 ^ 64 ∧
    Relation.ReflTransGen (Step c t allowed) (Session.start mem offers arenaSize) w

/-- Every call is admitted. -/
def anyCall : Session → Call → Prop := fun _ _ ↦ True

/-- The call's pointer is routed to where it came from. -/
def routedCall (c : Config) : Session → Call → Prop := fun w call ↦
  ∀ g ∈ w.live, g.ptr = call.argument → Routed c w.state g

variable {c : Config} {s : State} {live : List Grant} {ts : List Carved} {order : List Nat}
  {sh : Shelves} {t : Tid} {allowed : Session → Call → Prop} {w : Session}

/-! ### One step -/

/-- Nothing but the mapped regions is read off the kernel. -/
theorem Booked.os {tr : Transit} (A : Booked c s tr live ts order sh) {os : Os}
    (h : os.mapped = s.os.mapped) : Booked c { s with os := os } tr live ts order sh := by
  have C := A.coherent
  have R : Regions { s with os := os } := ⟨by rw [h]; exact C.regions.held,
    fun r hr ↦ C.regions.wf r (h ▸ hr), by rw [h]; exact C.regions.apart⟩
  have H : Shelved c { s with os := os } tr sh :=
    C.shelved.congr rfl rfl (fun q hq ↦ by rw [h]; exact hq) fun _ _ _ ↦ rfl
  exact ⟨⟨C.heap, H, R, C.arenaSize_lt, C.slots, C.carved⟩, A.general, A.pooled, A.blocks,
    A.slots, A.nodup, A.occupied⟩

namespace Accounted

/-- The same between calls. -/
theorem os (A : Accounted c s live ts order sh) {os : Os} (h : os.mapped = s.os.mapped) :
    Accounted c { s with os := os } live ts order sh :=
  have B := A.toBooked.os h
  ⟨B, B.coherent.shelved, A.settled.idle, A.settled.cap⟩

/-- At program start nothing is held. -/
theorem initial (c : Config) (mem : Mem) (offers : List (Option Nat)) {arenaSize : Nat}
    (h : arenaSize < 2 ^ 64) :
    Accounted c (State.initial mem offers arenaSize) [] [] [] fun _ ↦ [] := by
  have H : Shelved c (State.initial mem offers arenaSize) noTransit fun _ ↦ [] := by
    refine ⟨fun i ↦ Pool.init_shape i, fun S ↦ ?_, by simp, by simp, by simp⟩
    cases S <;> simp [Linked, State.initial, Pool.init, noTransit, Base.Chain, Base.Path]
  have R : Regions (State.initial mem offers arenaSize) :=
    ⟨by simp [State.initial, regionsOf, Pool.init], by simp [State.initial],
      by simp [State.initial]⟩
  have G : GeneralHeap mem 0 [] [] [] :=
    ⟨⟨by simp, by simp, by simp [blocksOf], by simp [Dll], by simp⟩, rfl, by simp [blocksOf],
      by simp, by simp [blocksOf]⟩
  refine ⟨⟨⟨G, H, R, h, ?_, ?_⟩, by simp, by simp, by simp [Allocated, blocksOf], by simp, by simp,
    by simp [State.initial]⟩, H, fun _ _ ↦ rfl, by simp⟩
  · rintro i x ⟨S, -, hx⟩
    simp at hx
  · rintro i x ⟨r, hr, -⟩
    simp [State.initial, Pool.init] at hr

/-- The client may store any byte into a payload. -/
theorem store (A : Accounted c s live ts order sh) {g : Grant} (hg : g ∈ live) {x : Nat}
    (hx : InPayload s g x) (v : UInt8) :
    Accounted c { s with mem := write8 s.mem x v } live ts order sh :=
  (A.write _ fun y hy ↦ ⟨g, hg, by
    by_cases he : y = x
    · exact he ▸ hx
    · exact absurd (write8_of_ne s.mem v he) hy⟩).1

/-- Every legal call of bounded size completes, keeps the ledger accounted for and spares every
grant but its argument. Calls with a correctly routed pointer take no block for a slot. -/
theorem exec (A : Accounted c s live ts order sh) (t : Tid) {call : Call}
    (legal : call.Legal live) (fits : call.Fits) :
    ∃ s' r ts' order' sh', exec c s t call = .ok (s', r) ∧
      Accounted c s' (ledgerAfter live call r) ts' order' sh' ∧
      Spared s s' (without live call.argument) ∧
      (routedCall c ⟨s, live⟩ call → Uncaptured ts sh → Uncaptured ts' sh') := by
  have hzero : ∀ os : Os, os.mapped = s.os.mapped →
      Accounted c { s with os := os } live ts order sh ∧
        ∀ kept, Spared s { s with os := os } kept := fun os hos ↦
    ⟨A.os hos, fun kept ↦ Spared.refl s kept⟩
  have hkeep : ∀ g ∈ without live call.argument, g ∈ live := fun g hg ↦ (mem_without.mp hg).1
  have hmalloc : ∀ {size : Nat}, size ≤ sizeMax - 47 →
      ∃ s' r ts' order' sh', myMalloc c s t size = .ok (s', r) ∧
        Accounted c s' (if r = 0 then live else ⟨r, size, originOf size⟩ :: live) ts' order' sh' ∧
        Spared s s' live ∧ (Uncaptured ts sh → Uncaptured ts' sh') := by
    intro size hsize
    rcases A.malloc t (show size + 47 < 2 ^ 64 by unfold sizeMax at hsize; omega) with
      ⟨os, hrun, hos⟩ | ⟨s', p, ts', order', sh', hrun, G⟩
    · exact ⟨_, 0, ts, order, sh, hrun, (hzero os hos).1, (hzero os hos).2 _, id⟩
    · refine ⟨s', p, ts', order', sh', hrun, ?_, G.spared, G.uncaptured⟩
      rw [if_neg G.ptr_new.1]
      exact G.accounted
  cases call with
  | malloc size =>
    obtain ⟨s', r, ts', order', sh', hrun, A', hsp, hun⟩ := hmalloc fits
    exact ⟨s', r, ts', order', sh', hrun, A', hsp.mono hkeep, fun _ ↦ hun⟩
  | calloc count size =>
    by_cases hover : sizeMax < count * size
    · exact ⟨s, 0, ts, order, sh, calloc_overflow c s t hover, A, Spared.refl s _, fun _ ↦ id⟩
    · have hfit := fits.resolve_right hover
      rcases A.calloc t (show count * size + 47 < 2 ^ 64 by unfold sizeMax at hfit; omega) with
        ⟨os, hrun, hos⟩ | ⟨s', p, ts', order', sh', hrun, G, -⟩
      · exact ⟨_, 0, ts, order, sh, hrun, (hzero os hos).1, (hzero os hos).2 _, fun _ ↦ id⟩
      · refine ⟨s', p, ts', order', sh', hrun, ?_, G.spared.mono hkeep, fun _ ↦ G.uncaptured⟩
        simp only [ledgerAfter, if_neg G.ptr_new.1]
        exact G.accounted
  | realloc ptr newSize =>
    by_cases h0 : ptr = 0
    · subst h0
      obtain ⟨s', r, ts', order', sh', hrun, A', hsp, hun⟩ := hmalloc fits
      refine ⟨s', r, ts', order', sh', ?_, by simpa [ledgerAfter] using A', hsp.mono hkeep,
        fun _ ↦ hun⟩
      simpa [CustomAllocator.exec, myRealloc] using hrun
    · obtain ⟨g, hg, hp⟩ := legal.resolve_left h0
      simp only [Call.argument] at hp
      subst hp
      have hfit : newSize + 47 < 2 ^ 64 := by
        simp only [Call.Fits, sizeMax] at fits
        omega
      rcases A.realloc t hg hfit with
        ⟨os, hrun, hos⟩ | ⟨s', q, live', ts', order', sh', hrun, hq, R, hr⟩
      · exact ⟨_, 0, ts, order, sh, hrun, (hzero os hos).1, (hzero os hos).2 _, fun _ ↦ id⟩
      · refine ⟨s', q, ts', order', sh', hrun, ?_, R.spared,
          fun hrt ↦ (hr (hrt g hg rfl)).uncaptured⟩
        simp only [ledgerAfter, if_neg hq, if_neg h0]
        rcases R.ledger with ⟨rfl, hl, -⟩ | ⟨hfresh, hl⟩
        · rw [if_pos rfl]
          exact hl ▸ R.accounted
        · rw [if_neg fun h ↦ hfresh g hg h.symm]
          exact hl ▸ R.accounted
  | free ptr =>
    by_cases h0 : ptr = 0
    · subst h0
      refine ⟨s, 0, ts, order, sh, ?_, by simpa [ledgerAfter] using A, Spared.refl s _, fun _ ↦ id⟩
      simp [CustomAllocator.exec, myFree]
    · obtain ⟨g, hg, hp⟩ := legal.resolve_left h0
      simp only [Call.argument] at hp
      subst hp
      obtain ⟨s', ts', order', sh', hrun, R, hr⟩ := A.free t hg
      refine ⟨s', 0, ts', order', sh', ?_, ?_, R.spared, fun hrt ↦ (hr (hrt g hg rfl)).1⟩
      · simp only [CustomAllocator.exec, hrun, ok_bind]
      · simp only [ledgerAfter, if_neg h0]
        exact R.accounted

end Accounted

/-! ### Whole runs -/

/-- Every reachable session is accounted for; no block is taken for a slot while every call's
pointer is routed to where it came from. -/
theorem Reachable.accounted (h : Reachable c t allowed w) :
    ∃ ts order sh, Accounted c w.state w.live ts order sh ∧
      ((∀ w call, allowed w call → routedCall c w call) → Uncaptured ts sh) := by
  obtain ⟨mem, offers, arenaSize, hsize, hrun⟩ := h
  induction hrun with
  | refl =>
    exact ⟨[], [], _, .initial c mem offers hsize, fun _ b hb ↦ by simp [Allocated, blocksOf] at hb⟩
  | tail _ hstep ih =>
    obtain ⟨ts, order, sh, A, hun⟩ := ih
    cases hstep with
    | call call legal fits ok run =>
      obtain ⟨s', r, ts', order', sh', hrun', A', -, hun'⟩ := A.exec t legal fits
      obtain ⟨rfl, rfl⟩ : s' = _ ∧ r = _ := by simpa using hrun'.symm.trans run
      exact ⟨ts', order', sh', A', fun hr ↦ hun' (hr _ _ ok) (hun hr)⟩
    | write v live payload => exact ⟨ts, order, sh, A.store live payload v, hun⟩

/-- A run that admits fewer calls is a run. -/
theorem Reachable.mono {allowed' : Session → Call → Prop} (h : Reachable c t allowed w)
    (hle : ∀ w call, allowed w call → allowed' w call) : Reachable c t allowed' w := by
  obtain ⟨mem, offers, arenaSize, hsize, hrun⟩ := h
  refine ⟨mem, offers, arenaSize, hsize, Relation.ReflTransGen.mono (fun _ _ hstep ↦ ?_) _ _ hrun⟩
  cases hstep with
  | call call legal fits ok run => exact .call call legal fits (hle _ _ ok) run
  | write v live payload => exact .write v live payload

/-- Sessions of routed runs are accounted for with no block taken for a slot. -/
theorem Reachable.routed (h : Reachable c t (routedCall c) w) :
    ∃ ts order sh, Accounted c w.state w.live ts order sh ∧ Uncaptured ts sh := by
  obtain ⟨ts, order, sh, A, hun⟩ := h.accounted
  exact ⟨ts, order, sh, A, hun fun _ _ ↦ id⟩

/-! ### Building runs -/

/-- The session after a call, or the same session when the call does not complete. -/
def Session.after (w : Session) (c : Config) (t : Tid) (call : Call) : Session :=
  match exec c w.state t call with
  | .ok (s', r) => ⟨s', ledgerAfter w.live call r⟩
  | .error _ => w

/-- An admitted legal call of bounded size extends a run. -/
theorem Reachable.after (h : Reachable c t allowed w) {call : Call} (legal : call.Legal w.live)
    (fits : call.Fits) (ok : allowed w call) : Reachable c t allowed (w.after c t call) := by
  obtain ⟨ts, order, sh, A, -⟩ := h.accounted
  obtain ⟨s', r, _, _, _, hrun, -⟩ := A.exec t legal fits
  obtain ⟨mem, offers, arenaSize, hsize, hsteps⟩ := h
  refine ⟨mem, offers, arenaSize, hsize, hsteps.tail ?_⟩
  rw [Session.after, hrun]
  exact .call call legal fits ok hrun

theorem Reachable.start (c : Config) (t : Tid) (allowed : Session → Call → Prop) (mem : Mem)
    (offers : List (Option Nat)) {arenaSize : Nat} (h : arenaSize < 2 ^ 64) :
    Reachable c t allowed (Session.start mem offers arenaSize) :=
  ⟨mem, offers, arenaSize, h, .refl⟩

instance (live : List Grant) (call : Call) : Decidable (call.Legal live) :=
  inferInstanceAs (Decidable (_ ∨ _))

instance (call : Call) : Decidable call.Fits :=
  match call with
  | .malloc _ | .realloc _ _ => inferInstanceAs (Decidable (_ ≤ _))
  | .calloc _ _ => inferInstanceAs (Decidable (_ ∨ _))
  | .free _ => inferInstanceAs (Decidable True)

instance (c : Config) (w : Session) (call : Call) : Decidable (routedCall c w call) :=
  inferInstanceAs (Decidable (∀ g ∈ w.live, _))

/-- The session after a list of calls. -/
def Session.run (w : Session) (c : Config) (t : Tid) (calls : List Call) : Session :=
  calls.foldl (fun w call ↦ w.after c t call) w

/-- Each call of the list is legal, bounded and routed when its turn comes. -/
def Session.Admits (c : Config) (t : Tid) : Session → List Call → Prop
  | _, [] => True
  | w, call :: calls => (call.Legal w.live ∧ call.Fits ∧ routedCall c w call) ∧
      Admits c t (w.after c t call) calls

instance instDecidableAdmits (c : Config) (t : Tid) : (w : Session) → (calls : List Call) →
    Decidable (w.Admits c t calls)
  | _, [] => inferInstanceAs (Decidable True)
  | w, call :: calls =>
    have := instDecidableAdmits c t (w.after c t call) calls
    inferInstanceAs (Decidable (_ ∧ _))

/-- Admitted calls extend a routed run. -/
theorem Reachable.run (h : Reachable c t (routedCall c) w) {calls : List Call}
    (ha : w.Admits c t calls) : Reachable c t (routedCall c) (w.run c t calls) := by
  induction calls generalizing w with
  | nil => exact h
  | cons call calls ih =>
    obtain ⟨⟨legal, fits, routed⟩, hrest⟩ := ha
    exact ih (h.after legal fits routed) hrest

/-- A call whose result is known has completed. -/
theorem toOption_map_snd {run : Except Fault (State × Nat)} {r : Nat}
    (h : run.toOption.map Prod.snd = some r) : ∃ out, run = .ok out ∧ r = out.2 := by
  cases run with
  | error e => simp [Except.toOption] at h
  | ok out => exact ⟨out, rfl, by simpa [Except.toOption] using h.symm⟩

/-- At program start with a willing kernel. -/
def Session.fresh : Session := .start (fun _ ↦ 0xab) [some 0x10000, some 0x800000] 65536

/-- A session with one general and one pooled block. -/
def Session.twoBlocks : Session :=
  (Session.fresh.after .fixedBase 0 (.malloc 5000)).after .fixedBase 0 (.malloc 100)

theorem Session.fresh_reachable (allowed : Session → Call → Prop) :
    Reachable .fixedBase 0 allowed .fresh := .start _ _ _ _ _ (by decide)

/-- The pooled block of that session. -/
def Grant.small : Grant := ⟨0x808f80, 100, some 3⟩

/-- The general block of that session. -/
def Grant.big : Grant := ⟨0x10010, 5000, none⟩

theorem Session.twoBlocks_live : Session.twoBlocks.live = [.small, .big] := by
  decide +kernel

theorem Session.twoBlocks_reachable {allowed : Session → Call → Prop}
    (h : ∀ w size, Reachable .fixedBase 0 allowed w → allowed w (.malloc size)) :
    Reachable .fixedBase 0 allowed .twoBlocks := by
  have hfits : ∀ size, size < 2 ^ 60 → (Call.malloc size).Fits := fun size h ↦ by
    unfold Call.Fits sizeMax
    omega
  have h₀ := Session.fresh_reachable allowed
  have h₁ := h₀.after (.inl rfl) (hfits 5000 (by decide)) (h _ _ h₀)
  exact h₁.after (.inl rfl) (hfits 100 (by decide)) (h _ _ h₁)

/-- A session whose arena holds a free block between two allocated ones. -/
def Session.gap : Session :=
  (((Session.fresh.after .fixedBase 0 (.malloc 5000)).after .fixedBase 0 (.malloc 6000)).after
    .fixedBase 0 (.malloc 7000)).after .fixedBase 0 (.free 0x113c0)

/-- The block before the gap. -/
def Grant.low : Grant := ⟨0x10010, 5000, none⟩

/-- The block after the gap. -/
def Grant.high : Grant := ⟨0x12b50, 7000, none⟩

theorem Session.gap_live : Session.gap.live = [.high, .low] := by
  decide +kernel

theorem Session.gap_routed : Reachable .fixedBase 0 (routedCall .fixedBase) .gap :=
  (Session.fresh_reachable _).run
    (show Session.fresh.Admits .fixedBase 0
      [.malloc 5000, .malloc 6000, .malloc 7000, .free 0x113c0] by decide +kernel)

end CustomAllocator
