import CustomAllocator.Properties.Stages
import CustomAllocator.Properties.Uninterrupted

/-!
# Debug and release builds

One thread, whole calls, and shutdowns between them. The build that evaluates every assertion
completes every proper list of commands, so no assertion is ever false, and the build without
assertions goes through the same sessions.
-/

namespace CustomAllocator
open CustomAllocator.Base

/-- The same build with `NDEBUG` as given. -/
def Config.withNdebug (c : Config) (ndebug : Bool) : Config := { c with ndebug := ndebug }

variable {c : Config} {b b' : Bool} {s : State} {t : Tid} {w : Session} {y : System} {call : Call}
  {command : Command}

/-! ### Dropping assertions -/

/-- Equal up to no past is equal. -/
theorem Echoes.eq {α : Type} {os : Os} {r r' : State × α} (h : Echoes .none os r r') : r = r' :=
  Prod.ext h.1.1.symm h.2.symm

/-- A build with fewer assertions allocates in the same way. -/
theorem myMalloc_relax (size : Nat) :
    Simulates (· = ·) (myMalloc c s t size) (myMalloc (c.relax b) s t size) := by
  have hself : Echo .none s.os s s := ⟨rfl, .refl _⟩
  rw [myMalloc_eq, myMalloc_eq]
  cases originOf size with
  | none => exact (mallocGeneral_echo b hself size).mono fun _ _ ↦ Echoes.eq
  | some i => exact (mallocPooled_echo b hself rfl i).mono fun _ _ ↦ Echoes.eq

/-- It frees in the same way. -/
theorem myFree_relax (ptr : Nat) :
    Simulates (· = ·) (myFree c s t ptr) (myFree (c.relax b) s t ptr) := by
  unfold myFree
  apply Simulates.ite
  · intro _
    exact .refl
  intro _
  apply Simulates.ite (p := isKnownPool c (tagOf s.mem ptr) = true)
  · intro _
    refine Simulates.bindEq (x := poolAt c (tagOf s.mem ptr)) .refl fun i ↦ ?_
    have hself : Echo .none s.os s s := ⟨rfl, .refl _⟩
    exact (freePooled_echo b hself rfl i ptr).mono fun _ _ h ↦ h.1.symm
  · intro _
    apply (freeGeneral_relax ptr).bindEq
    intro heap
    exact .refl

/-- It zeroes in the same way. -/
theorem myCalloc_relax (count size : Nat) :
    Simulates (· = ·) (myCalloc c s t count size) (myCalloc (c.relax b) s t count size) := by
  unfold myCalloc
  apply Simulates.ite
  · intro _
    exact .refl
  · intro _
    apply (myMalloc_relax (mul64 count size)).bindEq
    intro out
    exact .refl

/-- It moves in the same way. -/
theorem moveTo_relax (ptr newSize copySize : Nat) : Simulates (· = ·)
    (moveTo c s t ptr newSize copySize) (moveTo (c.relax b) s t ptr newSize copySize) := by
  unfold moveTo
  apply (myMalloc_relax newSize).bindEq
  rintro ⟨s₁, newPtr⟩
  apply Simulates.ite
  · intro _
    exact .refl
  · intro _
    apply (myFree_relax ptr).bindEq
    intro s₂
    exact .refl

/-- It reallocates in the same way. -/
theorem myRealloc_relax (ptr newSize : Nat) :
    Simulates (· = ·) (myRealloc c s t ptr newSize) (myRealloc (c.relax b) s t ptr newSize) := by
  unfold myRealloc
  apply Simulates.ite
  · intro _
    exact myMalloc_relax newSize
  intro _
  apply Simulates.ite (p := isKnownPool c (tagOf s.mem ptr) = true)
  · intro _
    refine Simulates.bindEq (x := poolAt c (tagOf s.mem ptr)) .refl fun i ↦ ?_
    apply Simulates.ite
    · intro _
      exact .refl
    · intro _
      exact moveTo_relax ptr newSize _
  · intro _
    apply (reallocInPlace_relax (headerOf ptr) newSize).bindEq
    rintro ⟨heap, _ | oldPayloadSize⟩
    · exact .refl
    · exact moveTo_relax ptr newSize _

/-- It runs every call in the same way. -/
theorem exec_relax (call : Call) :
    Simulates (· = ·) (exec c s t call) (exec (c.relax b) s t call) := by
  cases call with
  | malloc size => exact myMalloc_relax size
  | calloc count size => exact myCalloc_relax count size
  | realloc ptr newSize => exact myRealloc_relax ptr newSize
  | free ptr =>
    apply (myFree_relax ptr).bindEq
    intro s₁
    exact .refl

/-- It serves every command in the same way. -/
theorem Session.serve_relax (w : Session) (command : Command) :
    Simulates (· = ·) (w.serve c t command) (w.serve (c.relax b) t command) := by
  have hanswer : ∀ call, Simulates (· = ·) (w.answer c t call) (w.answer (c.relax b) t call) := by
    intro call
    apply (exec_relax call).bindEq
    intro out
    exact .refl
  cases command with
  | malloc size => exact hanswer _
  | calloc count size => exact hanswer _
  | realloc block newSize => exact hanswer _
  | free block => exact hanswer _
  | store block offset v => exact .refl
  | shutdown => exact .refl
  | setArenaSize size => exact .refl

/-! ### Sessions with shutdowns -/

/-- Thread `t` is alone in some lifetime that has reached the session `w`. -/
def Alone (c : Config) (t : Tid) (w : Session) : Prop :=
  ∃ y, System.Lives c y ∧ Hosts t y w

theorem Alone.start (c : Config) (t : Tid) (mem : Mem) (offers : List (Option Nat))
    {arenaSize : Nat} (h : arenaSize < 2 ^ 64) : Alone c t (.start mem offers arenaSize) := by
  obtain ⟨y, hy, H⟩ := Hosts.start c t mem offers h
  exact ⟨y, hy.lives, H⟩

/-- A thread that is alone and between calls leaves every other thread at rest. -/
theorem Hosts.rest (H : Hosts t y w) (u : Tid) : (y.phase u).AtRest := by
  by_cases hu : u = t
  · obtain ⟨r, hr⟩ := H.idle
    rw [hu, hr]
    trivial
  · rw [H.others u hu]
    trivial

/-- A name that is routed stands for null or for a live block that is. -/
theorem Session.Names.argument {block : Option Nat} (h : w.Names c block) :
    pointerOf w.live block = 0 ∨
      ∃ g ∈ w.live, g.ptr = pointerOf w.live block ∧ Routed c w.state g := by
  cases block with
  | none => exact .inl rfl
  | some n =>
    obtain ⟨g, hg, hr⟩ := h
    exact .inr ⟨g, List.mem_of_getElem? hg, (pointerOf_some hg).symm, hr⟩

namespace Alone

/-- A legal call completes, and the thread is still alone. -/
theorem answer (h : Alone c t w) (fits : call.Fits)
    (harg : call.argument = 0 ∨ ∃ g ∈ w.live, g.ptr = call.argument ∧ Routed c w.state g) :
    ∃ w' null, w.answer c t call = .ok (w', null) ∧ Alone c t w' := by
  obtain ⟨y, hy, H⟩ := h
  have legal : (Action.call t call).Legal c y := by
    refine ⟨H.idle, fits, harg.imp_right ?_⟩
    rintro ⟨g, hg, hptr, hr⟩
    exact ⟨g, H.live ▸ hg, hptr, H.owner g (H.live ▸ hg), H.state ▸ hr⟩
  obtain ⟨s, r, hexec⟩ := legal.completes hy
  rw [H.state] at hexec
  obtain ⟨y', hrun, H'⟩ := H.call hy legal hexec
  refine ⟨_, decide (r = 0), ?_, y', hy.run hrun, H'⟩
  simp only [Session.answer, hexec, ok_bind]

/-- A proper command completes, and the thread is still alone. -/
theorem serve (h : Alone c t w) (hp : w.Proper c command) :
    ∃ w' null, w.serve c t command = .ok (w', null) ∧ Alone c t w' := by
  cases command with
  | malloc size => exact h.answer hp (.inl rfl)
  | calloc count size => exact h.answer hp (.inl rfl)
  | realloc block newSize => exact h.answer hp.1 hp.2.argument
  | free block => exact h.answer trivial (Session.Names.argument hp)
  | store block offset v =>
    obtain ⟨y, hy, H⟩ := h
    obtain ⟨g, hg, hlt⟩ := hp
    have hx : InPayload w.state g (pointerOf w.live (some block) + offset) := by
      rw [pointerOf_some hg]
      unfold InPayload
      omega
    obtain ⟨y', hrun, H'⟩ := H.write (List.mem_of_getElem? hg) hx v
    exact ⟨_, false, rfl, y', hy.run hrun, H'⟩
  | shutdown =>
    obtain ⟨y, hy, H⟩ := h
    have legal : (Event.shutdown t).Legal c y := ⟨H.idle, fun u hu ↦ .inl (H.others u hu)⟩
    refine ⟨_, false, rfl, _, hy.episode ⟨.shutdown t, legal, rfl⟩, ?_, rfl, H.idle, H.others, ?_⟩
    · exact congrArg (fun s ↦ allocatorShutdown s t) H.state
    · intro g hg
      cases hg
  | setArenaSize size =>
    obtain ⟨y, hy, H⟩ := h
    have legal : (Event.setArenaSize size).Legal c y := ⟨hp, H.rest⟩
    refine ⟨_, false, rfl, _, hy.episode ⟨.setArenaSize size, legal, rfl⟩, ?_, H.live, H.idle,
      H.others, H.owner⟩
    exact congrArg (fun s ↦ setArenaSizeForTesting s size) H.state

end Alone

/-! ### Both builds -/

/-- What is proper does not depend on assertions. -/
theorem Session.proper_withNdebug :
    w.Proper (c.withNdebug b) command ↔ w.Proper c command := by
  have hnames : ∀ block, w.Names (c.withNdebug b) block ↔ w.Names c block := by
    intro block
    cases block with
    | none => exact Iff.rfl
    | some n => exact Iff.rfl
  cases command with
  | realloc block newSize => exact and_congr_right fun _ ↦ hnames block
  | free block => exact hnames block
  | _ => exact Iff.rfl

/-- A build that evaluates its assertions agrees with every other. -/
theorem Session.serve_withNdebug {r : Session × Bool}
    (h : w.serve (c.withNdebug false) t command = .ok r) (b : Bool) :
    w.serve (c.withNdebug b) t command = .ok r := by
  obtain ⟨r', hr', rfl⟩ := Session.serve_relax (b := b) w command r h
  exact hr'

/-- Two builds that differ in assertions alone go through the same sessions. -/
theorem Alone.lockstep (c : Config) (t : Tid) (b b' : Bool) :
    Lockstep (fun w w' ↦ w = w' ∧ Alone (c.withNdebug false) t w)
      (Session.Proper (c.withNdebug b)) (Session.Proper (c.withNdebug b'))
      (fun w ↦ w.serve (c.withNdebug b) t) fun w ↦ w.serve (c.withNdebug b') t where
  step w _ command R hp _ := by
    obtain ⟨rfl, h⟩ := R
    have hdebug : w.Proper (c.withNdebug false) command :=
      Session.proper_withNdebug.mpr (Session.proper_withNdebug.mp hp)
    obtain ⟨w₁, null, hrun, h₁⟩ := h.serve hdebug
    exact ⟨w₁, w₁, null, Session.serve_withNdebug hrun b, Session.serve_withNdebug hrun b', rfl, h₁⟩

/-- One thread may do whatever is legal, shutdowns included: no assertion is ever false. The build
that evaluates them all completes every list of commands that is proper in either build, with the
answers and the session of the build without them. -/
theorem assertions_never_fire (c : Config) (t : Tid) (mem : Mem) (offers : List (Option Nat))
    {arenaSize : Nat} (h : arenaSize < 2 ^ 64) (b : Bool) {commands : List Command}
    (hproper : AllProper (Session.Proper (c.withNdebug b))
      (fun w ↦ w.serve (c.withNdebug b) t) (Session.start mem offers arenaSize) commands) :
    ∃ w nulls, ∀ b', AllProper (Session.Proper (c.withNdebug b'))
        (fun w ↦ w.serve (c.withNdebug b') t) (Session.start mem offers arenaSize) commands ∧
      feed (fun w ↦ w.serve (c.withNdebug b') t) (Session.start mem offers arenaSize) commands =
        .ok (w, nulls) := by
  have hstart := Alone.start (c.withNdebug false) t mem offers h
  have hall : ∀ b', AllProper (Session.Proper (c.withNdebug b'))
      (fun w ↦ w.serve (c.withNdebug b') t) (Session.start mem offers arenaSize) commands := by
    intro b'
    refine (Alone.lockstep c t b b').allProper (fun w _ command R hp ↦ ?_) ⟨rfl, hstart⟩ hproper
    rw [← R.1]
    exact Session.proper_withNdebug.mpr (Session.proper_withNdebug.mp hp)
  obtain ⟨w, _, nulls, hrun, -⟩ := (Alone.lockstep c t b b).feed ⟨rfl, hstart⟩ hproper hproper
  refine ⟨w, nulls, fun b' ↦ ⟨hall b', ?_⟩⟩
  obtain ⟨w', w'', nulls', hrun', hrun'', rfl, -⟩ :=
    (Alone.lockstep c t b b').feed ⟨rfl, hstart⟩ hproper (hall b')
  rw [hrun] at hrun'
  cases hrun'
  exact hrun''

/-- Two freed blocks merge, the merged block is split, and its first part grows again. -/
def Command.mergeAndSplit : List Command :=
  [.malloc 5000, .malloc 6000, .malloc 7000, .store 0 6999 7, .free (some 1), .free (some 1),
    .malloc 8000, .realloc (some 0) 9000, .shutdown, .malloc 5000]

theorem assertions_never_fire_mergeAndSplit : ∃ w nulls, ∀ b,
    AllProper (Session.Proper (Config.fixedBase.withNdebug b))
      (fun w ↦ w.serve (Config.fixedBase.withNdebug b) 0)
      (Session.granted 0xab) Command.mergeAndSplit ∧
    feed (fun w ↦ w.serve (Config.fixedBase.withNdebug b) 0) (Session.granted 0xab)
      Command.mergeAndSplit = .ok (w, nulls) :=
  assertions_never_fire .fixedBase 0 (fun _ ↦ 0xab)
    [some 0x800000, some 0x10000, some 0x20000] (by decide) false
    (show AllProper _ _ (Session.granted 0xab) Command.mergeAndSplit by decide +kernel)

end CustomAllocator
