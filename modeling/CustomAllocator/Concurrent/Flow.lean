import CustomAllocator.Base.Simulates
import CustomAllocator.Concurrent.Runs

/-!
# Control flow of a call

`Goes` says once what an own step of a thread can do to the system: which phase follows which,
and what happens to the ledger. Every step brings the thread nearer to the end of its call, and
leaves the phases of all other threads and the history as they are.
-/

namespace CustomAllocator
open CustomAllocator.Base

/-- The request that `my_malloc` has not answered yet, and what it was called for. -/
def Phase.wanted : Phase → Option (Nat × Purpose)
  | malloc size use | refilled size _ _ use | stocked size _ use => some (size, use)
  | _ => none

/-- What an own step of thread `t` can do; `s` is the state of the allocator after it. -/
inductive Goes (y : System) (t : Tid) : System → Prop
  | refill {size : Nat} {use : Purpose} (here : y.phase t = .malloc size use) (s : State)
      (i : Fin numSizeClasses) (b : SlotBatch) :
      Goes y t ((y.setState s).setPhase t (.refilled size i b use))
  | stock {size : Nat} {i : Fin numSizeClasses} {b : SlotBatch} {use : Purpose}
      (here : y.phase t = .refilled size i b use) (s : State) :
      Goes y t ((y.setState s).setPhase t (.stocked size i use))
  | handOut {size : Nat} {use : Purpose} (here : (y.phase t).wanted = some (size, use))
      (s : State) (p : Nat) : Goes y t ((y.setState s).handOut t size p use)
  | fail {size : Nat} {use : Purpose} (here : y.phase t = .got size 0 use) :
      Goes y t (y.setPhase t (.idle 0))
  | returns {size p : Nat} (here : y.phase t = .got size p .malloc) (ne : p ≠ 0) :
      Goes y t (y.setPhase t (.idle p))
  | zero {size p : Nat} (here : y.phase t = .got size p .calloc) (ne : p ≠ 0) :
      Goes y t ((y.setState { y.state with mem := fill y.state.mem p 0 size }).setPhase t (.idle p))
  | copies {size p ptr copySize : Nat} (here : y.phase t = .got size p (.realloc ptr copySize))
      (ne : p ≠ 0) : Goes y t ((y.setState { y.state with
        mem := copy y.state.mem p ptr copySize }).setPhase t (.free ptr (.realloc p copySize)))
  | tag {ptr : Nat} {sequel : Sequel} (here : y.phase t = .free ptr sequel) :
      Goes y t (y.setPhase t (.tagged ptr (tagOf y.state.mem ptr) sequel))
  | push {ptr tag : Nat} {sequel : Sequel} (here : y.phase t = .tagged ptr tag sequel)
      (s : State) (i : Fin numSizeClasses) :
      Goes y t (((y.setState s).takeBack ptr).setPhase t (.pushed i sequel))
  | takeBack {ptr tag : Nat} {sequel : Sequel} (here : y.phase t = .tagged ptr tag sequel)
      (s : State) : Goes y t (((y.setState s).takeBack ptr).setPhase t (.idle sequel.result))
  | detach {i : Fin numSizeClasses} {sequel : Sequel} (here : y.phase t = .pushed i sequel)
      (s : State) (chainHead chainTail : Nat) :
      Goes y t ((y.setState s).setPhase t (.detached i chainHead chainTail sequel))
  | keep {i : Fin numSizeClasses} {sequel : Sequel} (here : y.phase t = .pushed i sequel) :
      Goes y t (y.setPhase t (.idle sequel.result))
  | splice {i : Fin numSizeClasses} {chainHead chainTail : Nat} {sequel : Sequel}
      (here : y.phase t = .detached i chainHead chainTail sequel) (s : State) :
      Goes y t ((y.setState s).setPhase t (.idle sequel.result))
  | retag {ptr newSize : Nat} (here : y.phase t = .realloc ptr newSize) :
      Goes y t (y.setPhase t (.retagged ptr newSize (tagOf y.state.mem ptr)))
  | renew {ptr newSize tag : Nat} (here : y.phase t = .retagged ptr newSize tag) (s : State) :
      Goes y t (((y.setState s).renew ptr newSize).setPhase t (.idle ptr))
  | move {ptr newSize tag : Nat} (here : y.phase t = .retagged ptr newSize tag)
      (copySize : Nat) : Goes y t (y.setPhase t (.malloc newSize (.realloc ptr copySize)))

/-- How many own steps are left when `my_malloc` returns. -/
def Purpose.steps : Purpose → Nat
  | malloc | calloc => 1
  | realloc _ _ => 5

/-- How many own steps at most are left in a call. -/
def Phase.steps : Phase → Nat
  | unborn | exited | idle _ => 0
  | malloc _ use => use.steps + 3
  | refilled _ _ _ use => use.steps + 2
  | stocked _ _ use => use.steps + 1
  | got _ _ use => use.steps
  | free _ _ => 4
  | tagged _ _ _ => 3
  | pushed _ _ => 2
  | detached _ _ _ _ => 1
  | realloc _ _ => 10
  | retagged _ _ _ => 9

/-- What a step of thread `t` in the middle of a call does to the phases and the history. -/
structure Forward (y : System) (t : Tid) (y' : System) : Prop where
  others : ∀ u, u ≠ t → y'.phase u = y.phase u
  began : y'.began = y.began
  fewer : (y'.phase t).steps < (y.phase t).steps
  running : y'.phase t ≠ .unborn ∧ y'.phase t ≠ .exited

variable {c : Config} {y y' z : System} {t u : Tid} {ph : Phase} {size : Nat} {use : Purpose}
  {a : Action} {s : State}

theorem Purpose.steps_pos (use : Purpose) : 0 < use.steps := by
  cases use <;> exact Nat.succ_pos _

theorem Purpose.steps_le (use : Purpose) : use.steps ≤ 5 := by
  cases use <;> simp [Purpose.steps]

/-- A call has at most ten steps. -/
theorem Phase.steps_le (ph : Phase) : ph.steps ≤ 10 := by
  have h := Purpose.steps_le
  cases ph with
  | malloc size use => exact Nat.le_trans (Nat.add_le_add_right (h use) 3) (by decide)
  | refilled size i batch use => exact Nat.le_trans (Nat.add_le_add_right (h use) 2) (by decide)
  | stocked size i use => exact Nat.le_trans (Nat.add_le_add_right (h use) 1) (by decide)
  | got size ptr use => exact Nat.le_trans (h use) (by decide)
  | _ => exact of_decide_eq_true rfl

/-- A thread without steps left is at rest. -/
theorem Phase.steps_eq_zero (ph : Phase) : ph.steps = 0 ↔ ph.AtRest := by
  have h := Purpose.steps_pos
  cases ph with
  | unborn => exact ⟨fun _ ↦ trivial, fun _ ↦ rfl⟩
  | exited => exact ⟨fun _ ↦ trivial, fun _ ↦ rfl⟩
  | idle r => exact ⟨fun _ ↦ trivial, fun _ ↦ rfl⟩
  | got size ptr use => exact ⟨fun he ↦ absurd he (h use).ne', fun hr ↦ absurd hr id⟩
  | _ => exact ⟨fun he ↦ absurd he (Nat.succ_ne_zero _), fun hr ↦ absurd hr id⟩

/-- A request not yet answered leaves more steps than its answer. -/
theorem Phase.wanted_steps (h : ph.wanted = some (size, use)) : use.steps < ph.steps := by
  cases ph with
  | malloc n u =>
    obtain ⟨rfl, rfl⟩ : n = size ∧ u = use := by simpa [Phase.wanted] using h
    exact Nat.lt_add_of_pos_right (by decide)
  | refilled n i b u =>
    obtain ⟨rfl, rfl⟩ : n = size ∧ u = use := by simpa [Phase.wanted] using h
    exact Nat.lt_add_of_pos_right (by decide)
  | stocked n i u =>
    obtain ⟨rfl, rfl⟩ : n = size ∧ u = use := by simpa [Phase.wanted] using h
    exact Nat.lt_add_of_pos_right (by decide)
  | _ => cases h

/-- A reallocation that goes on to allocate has changed nothing yet. -/
theorem reallocInPlace_unmoved (c : Config) (arenas : List Arena) (m : Mem)
    (head header newSize : Nat) :
    Ensures (fun r ↦ ∀ oldPayloadSize, r.2 = .move oldPayloadSize → r.1 = (m, head))
      (reallocInPlace c arenas m head header newSize) := by
  apply Ensures.tail
  intro _
  apply Ensures.ite
  · intro _
    exact .ok fun _ h ↦ by cases h
  · intro _
    apply Ensures.tail
    intro right
    apply Ensures.ite
    · intro _
      exact .ok fun _ _ ↦ rfl
    · intro _
      apply Ensures.ite
      · intro _
        apply Ensures.tail
        intro absorbed
        apply Ensures.tail
        intro split
        exact .ok fun _ h ↦ by cases h
      · intro _
        exact .ok fun _ _ ↦ rfl

/-- An own step is one of those listed. -/
theorem System.advance_goes (h : ¬ (y.phase t).AtRest) : Ensures (Goes y t) (y.advance c t) := by
  unfold System.advance
  cases hph : y.phase t with
  | unborn => exact absurd (hph ▸ trivial) h
  | exited => exact absurd (hph ▸ trivial) h
  | idle r => exact absurd (hph ▸ trivial) h
  | malloc size use =>
    have hwanted : (y.phase t).wanted = some (size, use) := by rw [hph]; rfl
    dsimp only
    cases originOf size with
    | none => exact .tail fun r ↦ .ok (.handOut hwanted r.1 r.2)
    | some i =>
      cases c.stage with
      | globalLock => exact .tail fun r ↦ .ok (.handOut hwanted r.1 r.2)
      | poolLocks => exact .tail fun r ↦ .ok (.handOut hwanted r.1 r.2)
      | threadCaches =>
        apply Ensures.ite
        · intro _
          exact .tail fun r ↦ .ok (.refill hph r.1 i r.2)
        · intro _
          exact .tail fun r ↦ .ok (.handOut hwanted r.1 r.2)
  | refilled size i batch use =>
    have hwanted : (y.phase t).wanted = some (size, use) := by rw [hph]; rfl
    apply Ensures.ite
    · intro _
      exact .ok (.handOut hwanted y.state 0)
    · intro _
      exact .ok (.stock hph _)
  | stocked size i use =>
    have hwanted : (y.phase t).wanted = some (size, use) := by rw [hph]; rfl
    exact .tail fun r ↦ .ok (.handOut hwanted r.1 r.2)
  | got size ptr use =>
    apply Ensures.ite
    · intro h0
      exact .ok (.fail (h0 ▸ hph))
    · intro h0
      cases use with
      | malloc => exact .ok (.returns hph h0)
      | calloc => exact .ok (.zero hph h0)
      | realloc ptr' copySize => exact .ok (.copies hph h0)
  | free ptr sequel => exact .ok (.tag hph)
  | tagged ptr tag sequel =>
    apply Ensures.ite
    · intro _
      apply Ensures.tail
      intro i
      cases c.stage with
      | globalLock => exact .tail fun s ↦ .ok (.takeBack hph s)
      | poolLocks => exact .tail fun s ↦ .ok (.takeBack hph s)
      | threadCaches => exact .tail fun s ↦ .ok (.push hph s i)
    · intro _
      exact .tail fun heap ↦ .ok (.takeBack hph _)
  | pushed i sequel =>
    apply Ensures.ite
    · intro _
      exact .tail fun r ↦ .ok (.detach hph r.1 r.2.1 r.2.2)
    · intro _
      exact .ok (.keep hph)
  | detached i chainHead chainTail sequel => exact .tail fun s ↦ .ok (.splice hph s)
  | realloc ptr newSize => exact .ok (.retag hph)
  | retagged ptr newSize tag =>
    apply Ensures.ite
    · intro _
      apply Ensures.tail
      intro i
      apply Ensures.ite
      · intro _
        exact .ok (.renew hph y.state)
      · intro _
        exact .ok (.move hph _)
    · intro _
      refine (reallocInPlace_unmoved c _ _ _ _ newSize).bind ?_
      rintro ⟨heap, outcome⟩ hsame
      cases outcome with
      | done => exact .ok (.renew hph _)
      | move oldPayloadSize =>
        obtain rfl : heap = (y.state.mem, y.state.freeHead) := hsame _ rfl
        exact .ok (.move hph _)

/-- A step that ends in phase `ph`. -/
theorem Forward.setPhase (hphase : z.phase = y.phase) (hbegan : z.began = y.began)
    (hfewer : ph.steps < (y.phase t).steps) (hrun : ph ≠ .unborn ∧ ph ≠ .exited) :
    Forward y t (z.setPhase t ph) := by
  have hsame : (z.setPhase t ph).phase t = ph := if_pos rfl
  constructor
  · intro u hu
    rw [← hphase]
    exact if_neg hu
  · exact hbegan
  · rwa [hsame]
  · rwa [hsame]

/-- A step that ends with the pointer of an allocation. -/
theorem Forward.handOut (hphase : z.phase = y.phase) (hbegan : z.began = y.began) (p : Nat)
    (hfewer : use.steps < (y.phase t).steps) : Forward y t (z.handOut t size p use) := by
  unfold System.handOut
  split
  · exact .setPhase hphase hbegan hfewer (by simp)
  · exact .setPhase hphase hbegan hfewer (by simp)

/-- Every step goes forward. -/
theorem Goes.forward (h : Goes y t y') : Forward y t y' := by
  cases h with
  | handOut here s p =>
    exact .handOut (y := y) (z := y.setState s) rfl rfl p (Phase.wanted_steps here)
  | zero here ne => exact .setPhase rfl rfl (here ▸ Nat.succ_pos _) (by simp)
  | copies here ne => exact .setPhase rfl rfl (here ▸ Nat.lt_succ_self _) (by simp)
  | move here copySize => exact .setPhase rfl rfl (here ▸ Nat.lt_succ_self _) (by simp)
  | push here s i => exact .setPhase rfl rfl (here ▸ Nat.lt_succ_self _) (by simp)
  | tag here => exact .setPhase rfl rfl (here ▸ Nat.lt_succ_self _) (by simp)
  | retag here => exact .setPhase rfl rfl (here ▸ Nat.lt_succ_self _) (by simp)
  | refill here s i b => exact .setPhase rfl rfl (here ▸ Nat.lt_succ_self _) (by simp)
  | stock here s => exact .setPhase rfl rfl (here ▸ Nat.lt_succ_self _) (by simp)
  | detach here s hd tl => exact .setPhase rfl rfl (here ▸ Nat.lt_succ_self _) (by simp)
  | fail here => exact .setPhase rfl rfl (here ▸ Purpose.steps_pos _) (by simp)
  | returns here ne => exact .setPhase rfl rfl (here ▸ Nat.succ_pos _) (by simp)
  | takeBack here s => exact .setPhase rfl rfl (here ▸ Nat.succ_pos _) (by simp)
  | keep here => exact .setPhase rfl rfl (here ▸ Nat.succ_pos _) (by simp)
  | splice here s => exact .setPhase rfl rfl (here ▸ Nat.succ_pos _) (by simp)
  | renew here s => exact .setPhase rfl rfl (here ▸ Nat.succ_pos _) (by simp)

/-- An own step goes forward. -/
theorem System.advance_forward (h : ¬ (y.phase t).AtRest) :
    Ensures (Forward y t) (y.advance c t) := fun y' hact ↦
  (System.advance_goes h y' hact).forward

/-- An action leaves the phases of the other threads as they are. -/
theorem Action.Legal.others (legal : a.Legal c y) (hact : y.act c a = .ok y')
    (hu : u ≠ a.actor y) : y'.phase u = y.phase u := by
  cases a with
  | start t =>
    cases hact
    exact System.setPhase_ne y _ hu
  | exit t =>
    cases hact
    exact System.setPhase_ne y _ hu
  | call t request =>
    cases hact
    exact if_neg hu
  | advance t => exact (System.advance_forward legal y' hact).others u hu
  | write t x v =>
    cases hact
    rfl
  | give ptr t =>
    cases hact
    rfl

/-- No action brings a thread back to before its start. -/
theorem Action.Legal.unborn (legal : a.Legal c y) (hact : y.act c a = .ok y')
    (ht : y'.phase t = .unborn) : y.phase t = .unborn := by
  by_cases hu : t = a.actor y
  · subst hu
    cases a with
    | start t => exact legal
    | exit t =>
      cases hact
      exact absurd ((System.setPhase_same y t _).symm.trans ht) (by simp)
    | call t request =>
      cases hact
      have hentry : request.entry = .unborn := (if_pos rfl).symm.trans ht
      cases request <;> simp only [Call.entry] at hentry <;> (try split at hentry) <;> cases hentry
    | advance t => exact absurd ht (System.advance_forward legal y' hact).running.1
    | write t x v =>
      cases hact
      exact ht
    | give ptr t =>
      cases hact
      exact ht
  · rwa [legal.others hact hu] at ht

/-- A thread that has exited stays so. -/
theorem Action.Legal.gone (legal : a.Legal c y) (hact : y.act c a = .ok y')
    (ht : y.phase t = .exited) : y'.phase t = .exited := by
  by_cases hu : t = a.actor y
  · obtain ⟨ptr, v, rfl⟩ := legal.exited (hu ▸ ht)
    cases hact
    exact ht
  · rwa [legal.others hact hu]

end CustomAllocator
