import CustomAllocator.Base.Lockstep
import CustomAllocator.Stages.Twins

/-!
# The concurrency stages agree

For a single thread the three stages are one allocator. A client that names its blocks by their
place in its ledger, and learns of a call only whether it returned null, is answered alike by
every build, and the kernel sees the same requests in the same order.
-/

namespace CustomAllocator
open CustomAllocator.Base

/-- One step of a single-threaded client. Blocks are named by their place in the ledger, and
`none` is the null pointer. -/
inductive Command where
  | malloc (size : Nat)
  | calloc (count size : Nat)
  | realloc (block : Option Nat) (newSize : Nat)
  | free (block : Option Nat)
  /-- The client writes one byte of a block. -/
  | store (block offset : Nat) (v : UInt8)
  | shutdown
  | setArenaSize (size : Nat)
  deriving DecidableEq, Repr

/-- The pointer a block's name stands for. -/
def pointerOf (live : List Grant) : Option Nat → Nat
  | none => 0
  | some n => (live[n]?.map Grant.ptr).getD 0

/-- Run a call, and tell whether it returned null. -/
def Session.answer (c : Config) (t : Tid) (w : Session) (call : Call) :
    Except Fault (Session × Bool) := do
  let (s, r) ← exec c w.state t call
  .ok (⟨s, ledgerAfter w.live call r⟩, decide (r = 0))

/-- Run one command of thread `t`'s client in build `c`. -/
def Session.serve (c : Config) (t : Tid) (w : Session) : Command → Except Fault (Session × Bool)
  | .malloc size => w.answer c t (.malloc size)
  | .calloc count size => w.answer c t (.calloc count size)
  | .realloc block newSize => w.answer c t (.realloc (pointerOf w.live block) newSize)
  | .free block => w.answer c t (.free (pointerOf w.live block))
  | .store block offset v =>
    .ok (⟨{ w.state with mem := write8 w.state.mem (pointerOf w.live (some block) + offset) v },
      w.live⟩, false)
  | .shutdown => .ok (⟨allocatorShutdown w.state t, []⟩, false)
  | .setArenaSize size => .ok (⟨setArenaSizeForTesting w.state size, w.live⟩, false)

/-- The name stands for null, or for a live block whose pointer is routed to where it came from. -/
def Session.Names (c : Config) (w : Session) : Option Nat → Prop
  | none => True
  | some n => ∃ g ∈ w.live[n]?, Routed c w.state g

/-- Sizes are at most `SIZE_MAX - 47`, blocks are live and routed, and stores stay inside them. -/
def Session.Proper (c : Config) (w : Session) : Command → Prop
  | .malloc size => (Call.malloc size).Fits
  | .calloc count size => (Call.calloc count size).Fits
  | .realloc block newSize => (Call.malloc newSize).Fits ∧ w.Names c block
  | .free block => w.Names c block
  | .store block offset _ => ∃ g ∈ w.live[block]?, offset < usable w.state g
  | .shutdown => True
  | .setArenaSize size => size < 2 ^ 64

instance (c : Config) (w : Session) (block : Option Nat) : Decidable (w.Names c block) :=
  match block with
  | none => inferInstanceAs (Decidable True)
  | some n => inferInstanceAs (Decidable (∃ g ∈ w.live[n]?, _))

instance (c : Config) (w : Session) (command : Command) : Decidable (w.Proper c command) :=
  match command with
  | .malloc size => inferInstanceAs (Decidable (Call.malloc size).Fits)
  | .calloc count size => inferInstanceAs (Decidable (Call.calloc count size).Fits)
  | .realloc _ _ => inferInstanceAs (Decidable (_ ∧ _))
  | .free block => inferInstanceAs (Decidable (w.Names c block))
  | .store block _ _ => inferInstanceAs (Decidable (∃ g ∈ w.live[block]?, _))
  | .shutdown => inferInstanceAs (Decidable True)
  | .setArenaSize _ => inferInstanceAs (Decidable (_ < _))

/-- What two sessions have in common that were answered alike: the kernel with all its calls, the
regions of all arenas and pools, and ledgers alike. -/
structure SeenAlike (w w' : Session) : Prop where
  os : w'.state.os = w.state.os
  arenas : w'.state.arenas = w.state.arenas
  pools : ∀ i, (w'.state.pools i).arenas = (w.state.pools i).arenas
  ledger : List.Forall₂ Counterpart w.live w'.live

variable {c c' : Config} {t : Tid} {w w' : Session} {n : Nat} {g : Grant} {block : Option Nat}

theorem Twins.seenAlike (T : Twins c c' t w w') : SeenAlike w w' := by
  obtain ⟨v, sh, sh', P⟩ := T
  refine ⟨P.right.os.trans P.left.os.symm, ?_, fun i ↦ ?_, P.ledger⟩
  · rw [P.left.arenas_eq, P.right.arenas_eq]
  · rw [(P.left.stock i).arenas, (P.right.stock i).arenas]

/-- Two builds start as twins, whatever memory holds. -/
theorem Twins.start {offers : List (Option Nat)} (h : Peers c c' offers) (t : Tid)
    (mem mem' : Mem) {arenaSize : Nat} (hsize : arenaSize < 2 ^ 64) :
    Twins c c' t (.start mem offers arenaSize) (.start mem' offers arenaSize) := by
  have hos : (⟨[], offers, []⟩ : Os).mapped = [] := rfl
  exact ⟨_, _, _, h, Outlined.initial c t mem hos hsize, Outlined.initial c' t mem' hos hsize, .nil⟩

/-! ### Names -/

theorem pointerOf_some (hg : w.live[n]? = some g) : pointerOf w.live (some n) = g.ptr := by
  simp [pointerOf, hg]

/-- A name that two sessions route stands for null in both, or for a live block in each. -/
theorem Session.Names.cases (hn : w.Names c block) (hn' : w'.Names c' block) :
    (block = none ∧ pointerOf w.live block = 0 ∧ pointerOf w'.live block = 0) ∨
      ∃ (n : Nat) (g g' : Grant), w.live[n]? = some g ∧ w'.live[n]? = some g' ∧
        Routed c w.state g ∧ Routed c' w'.state g' ∧ pointerOf w.live block = g.ptr ∧
        pointerOf w'.live block = g'.ptr := by
  cases block with
  | none => exact .inl ⟨rfl, rfl, rfl⟩
  | some n =>
    obtain ⟨g, hg, hr⟩ := hn
    obtain ⟨g', hg', hr'⟩ := hn'
    exact .inr ⟨n, g, g', hg, hg', hr, hr', pointerOf_some hg, pointerOf_some hg'⟩

/-- Builds with their `Pool` objects at the same place route alike. -/
theorem Twins.routes (h : Siblings c c') (T : Twins c c' t w w') (hn : w.Names c block) :
    w'.Names c' block := by
  obtain ⟨v, sh, sh', P⟩ := T
  cases block with
  | none => trivial
  | some n =>
    obtain ⟨g, hg, hr⟩ := hn
    obtain ⟨g', hg', E⟩ := forall₂_getElem P.ledger hg
    exact ⟨g', hg', (P.routed_iff h (List.mem_of_getElem? hg) (List.mem_of_getElem? hg') E).mpr hr⟩

/-- Then what is proper for one twin is proper for the other. -/
theorem Twins.proper (h : Siblings c c') (T : Twins c c' t w w') {command : Command}
    (hp : w.Proper c command) : w'.Proper c' command := by
  cases command with
  | realloc block newSize => exact ⟨hp.1, T.routes h hp.2⟩
  | free block => exact T.routes h hp
  | store block offset v =>
    obtain ⟨_, sh, sh', P⟩ := T
    obtain ⟨g, hg, hlt⟩ := hp
    obtain ⟨g', hg', E⟩ := forall₂_getElem P.ledger hg
    refine ⟨g', hg', ?_⟩
    rwa [P.usable_eq (List.mem_of_getElem? hg) (List.mem_of_getElem? hg') E]
  | _ => exact hp

/-! ### Commands -/

/-- Calls answered alike keep twins. -/
theorem Matched.serve {call call' : Call}
    (A : Matched c c' t (ledgerAfter w.live call) (ledgerAfter w'.live call')
      (exec c w.state t call) (exec c' w'.state t call')) :
    ∃ w₁ w₁' b, w.answer c t call = .ok (w₁, b) ∧ w'.answer c' t call' = .ok (w₁', b) ∧
      Twins c c' t w₁ w₁' := by
  obtain ⟨s, r, s', r', hrun, hrun', hiff, T⟩ := A
  refine ⟨_, _, decide (r = 0), by simp only [Session.answer, hrun, ok_bind], ?_, T⟩
  simp only [Session.answer, hrun', ok_bind, hiff]

/-- Every command that is proper for both keeps twins. -/
theorem Twins.serve (hwhole : WholeBatches c) (T : Twins c c' t w w') {command : Command}
    (hp : w.Proper c command) (hp' : w'.Proper c' command) :
    ∃ w₁ w₁' b, w.serve c t command = .ok (w₁, b) ∧ w'.serve c' t command = .ok (w₁', b) ∧
      Twins c c' t w₁ w₁' := by
  have hfits : ∀ {size : Nat}, (Call.malloc size).Fits → size + 47 < 2 ^ 64 := by
    intro size hs
    unfold Call.Fits sizeMax at hs
    omega
  cases command with
  | malloc size => exact (T.malloc hwhole (hfits hp)).serve
  | calloc count size => exact (T.calloc hwhole hp).serve
  | realloc block newSize =>
    obtain ⟨hsize, hname⟩ := hp
    simp only [Session.serve]
    rcases hname.cases hp'.2 with
      ⟨-, hp0, hp0'⟩ | ⟨n, g, g', hg, hg', hr, hr', hptr, hptr'⟩
    · rw [hp0, hp0']
      have A := T.malloc hwhole (hfits hsize)
      refine Matched.serve ?_
      obtain ⟨s, r, s', r', hrun, hrun', hiff, T₁⟩ := A
      refine ⟨s, r, s', r', ?_, ?_, hiff, ?_⟩
      · simpa [exec, myRealloc] using hrun
      · simpa [exec, myRealloc] using hrun'
      · simpa [ledgerAfter] using T₁
    · rw [hptr, hptr']
      exact (T.realloc hwhole hg hg' hr hr' (hfits hsize)).serve
  | free block =>
    simp only [Session.serve]
    rcases Session.Names.cases hp hp' with
      ⟨-, hp0, hp0'⟩ | ⟨n, g, g', hg, hg', hr, hr', hptr, hptr'⟩
    · rw [hp0, hp0']
      refine Matched.serve ⟨w.state, 0, w'.state, 0, ?_, ?_, Iff.rfl, T⟩
      · simp [exec, myFree]
      · simp [exec, myFree]
    · rw [hptr, hptr']
      obtain ⟨s, s', hrun, hrun', T₁⟩ := T.free hg hg' hr hr'
      obtain ⟨v, sh, sh', P⟩ := T
      have hal := (P.left.accounted.ptr_aligned (List.mem_of_getElem? hg)).2.1
      have hal' := (P.right.accounted.ptr_aligned (List.mem_of_getElem? hg')).2.1
      refine Matched.serve ⟨s, 0, s', 0, ?_, ?_, Iff.rfl, ?_⟩
      · simp only [exec, hrun, ok_bind]
      · simp only [exec, hrun', ok_bind]
      · simp only [ledgerAfter]
        rw [if_neg (by omega), if_neg (by omega)]
        exact T₁
  | store block offset v =>
    obtain ⟨u, sh, sh', P⟩ := T
    obtain ⟨g, hg, hlt⟩ := hp
    obtain ⟨g', hg', E⟩ := forall₂_getElem P.ledger hg
    have hm := List.mem_of_getElem? hg
    have hm' := List.mem_of_getElem? hg'
    have hlt' := hlt
    rw [← P.usable_eq hm hm' E] at hlt'
    simp only [Session.serve, pointerOf_some hg, pointerOf_some hg']
    refine ⟨_, _, false, rfl, rfl, P.twins.write (fun x hx ↦ ?_) fun x hx ↦ ?_⟩
    · have hx : x = g.ptr + offset := by
        by_contra hne
        exact hx (write8_of_ne _ _ hne)
      exact ⟨g, hm, by omega, by omega⟩
    · have hx : x = g'.ptr + offset := by
        by_contra hne
        exact hx (write8_of_ne _ _ hne)
      exact ⟨g', hm', by omega, by omega⟩
  | shutdown =>
    obtain ⟨v, sh, sh', P⟩ := T
    have hpeers : Peers c c' v.shutdown.os.offers := by
      rw [v.shutdown_offers]
      exact P.peers
    exact ⟨_, _, false, rfl, rfl, _, _, _, hpeers, P.left.shutdown, P.right.shutdown, .nil⟩
  | setArenaSize size =>
    obtain ⟨v, sh, sh', P⟩ := T
    exact ⟨_, _, false, rfl, rfl, { v with arenaSize := size }, _, _, P.peers,
      P.left.setArenaSize hp, P.right.setArenaSize hp, P.ledger⟩

/-- Two builds serve their clients in lockstep. -/
theorem Twins.lockstep (hwhole : WholeBatches c) (t : Tid) :
    Lockstep (Twins c c' t) (Session.Proper c) (Session.Proper c')
      (fun w ↦ w.serve c t) fun w ↦ w.serve c' t where
  step _ _ _ T hp hp' := T.serve hwhole hp hp'

/-- When every pool's regions are carved into whole batches, builds in different stages serve
every proper list of commands alike: it is proper in both, both complete it with null in the same
places, and the kernel has seen the same calls. -/
theorem stages_agree (h : Siblings c c') (hwhole : WholeBatches c) (t : Tid) (mem mem' : Mem)
    (offers : List (Option Nat)) {arenaSize : Nat} (hsize : arenaSize < 2 ^ 64)
    {commands : List Command}
    (hproper : AllProper (Session.Proper c) (fun w ↦ w.serve c t)
      (Session.start mem offers arenaSize) commands) :
    AllProper (Session.Proper c') (fun w ↦ w.serve c' t) (Session.start mem' offers arenaSize)
        commands ∧
      ∃ w w' nulls,
        feed (fun w ↦ w.serve c t) (Session.start mem offers arenaSize) commands =
          .ok (w, nulls) ∧
        feed (fun w ↦ w.serve c' t) (Session.start mem' offers arenaSize) commands =
          .ok (w', nulls) ∧ SeenAlike w w' := by
  have L : Lockstep (Twins c c' t) _ _ _ _ := Twins.lockstep hwhole t
  have T := Twins.start (h.peers offers) t mem mem' hsize
  have hproper' := L.allProper (fun _ _ _ T hp ↦ T.proper h hp) T hproper
  obtain ⟨w, w', nulls, hrun, hrun', T'⟩ := L.feed T hproper hproper'
  exact ⟨hproper', w, w', nulls, hrun, hrun', T'.seenAlike⟩

/-- The build of `Config.fixedBase` with one mutex for all state. -/
def Config.fixedBaseLocked : Config := { Config.fixedBase with stage := .globalLock }

theorem Config.fixedBaseLocked_siblings : Siblings .fixedBase .fixedBaseLocked := ⟨rfl, rfl, rfl⟩

/-- Commands over both paths and across a shutdown. -/
def Command.tour : List Command :=
  [.malloc 100, .malloc 5000, .store 0 4999 7, .free (some 1), .realloc (some 0) 6000, .shutdown,
    .malloc 5000]

/-- A program start whose kernel grants three requests. -/
def Session.granted (b : UInt8) : Session :=
  .start (fun _ ↦ b) [some 0x800000, some 0x10000, some 0x20000] 65536

theorem Session.granted_tour : AllProper (Session.Proper .fixedBase)
    (fun w ↦ w.serve .fixedBase 0) (Session.granted 0xab) Command.tour := by
  decide +kernel

theorem stages_agree_tour : ∃ w w' nulls,
    feed (fun w ↦ w.serve .fixedBase 0) (Session.granted 0xab) Command.tour = .ok (w, nulls) ∧
    feed (fun w ↦ w.serve .fixedBaseLocked 0) (Session.granted 0xcd) Command.tour =
      .ok (w', nulls) ∧ SeenAlike w w' :=
  (stages_agree Config.fixedBaseLocked_siblings (wholeBatches_of_page rfl) 0 (fun _ ↦ 0xab)
    (fun _ ↦ 0xcd) [some 0x800000, some 0x10000, some 0x20000] (by decide)
    Session.granted_tour).2

end CustomAllocator
