import Mathlib.Logic.Relation
import Mathlib.Logic.Function.Basic

/-!
# A heap served at once

What a heap is for, seen from its clients. Each block belongs to one client and holds a list of
bytes. A client calls with a request, the heap serves it at one moment between call and return,
and nothing but that moment and the client's own stores changes a block.
-/

namespace CustomAllocator.Base

/-- A block as its owner sees it. -/
structure Holding (τ β : Type) where
  owner : τ
  bytes : List β

/-- The blocks of all clients by their addresses. -/
abbrev Holdings (τ β : Type) : Type := Nat → Option (Holding τ β)

/-- What a client asks for. -/
inductive Request where
  | alloc (size : Nat)
  | zeroed (size : Nat)
  | resize (p size : Nat)
  | release (p : Nat)
  deriving DecidableEq, Repr

/-- The block a request is about. -/
def Request.argument : Request → Option Nat
  | alloc _ | zeroed _ => none
  | resize p _ | release p => some p

/-- Where a client stands. -/
inductive Status where
  | unborn
  | exited
  /-- Between calls; the last one returned `result`. -/
  | idle (result : Nat)
  /-- Its request waits to be served. -/
  | pending (request : Request)
  /-- Its request was served with `result`, which the call has yet to return. -/
  | served (result : Nat)
  deriving DecidableEq, Repr

/-- The client makes no call. -/
def Status.AtRest : Status → Prop
  | unborn | exited | idle _ => True
  | _ => False

/-- The blocks and where each client stands. -/
structure Atomic (τ β : Type) where
  heap : Holdings τ β
  status : τ → Status

variable {τ β : Type} {align : Nat} {h : Holdings τ β} {p q n x : Nat} {b d : Holding τ β} {t u : τ}

/-- The address `x` lies in the block `b` at `p`. -/
def Covers (p : Nat) (b : Holding τ β) (x : Nat) : Prop := p ≤ x ∧ x < p + b.bytes.length

/-- There is room for a block of `n` bytes at `p`. -/
structure Room (align : Nat) (h : Holdings τ β) (p n : Nat) : Prop where
  ne : p ≠ 0
  aligned : p % align = 0
  free : h p = none
  clear : ∀ q d, h q = some d → ∀ x, p ≤ x → x < p + n → ¬ Covers q d x

/-- The blocks are aligned, and no two share an address. -/
structure Laid (align : Nat) (h : Holdings τ β) : Prop where
  placed : ∀ p b, h p = some b → p ≠ 0 ∧ p % align = 0
  separate : ∀ p b q d, h p = some b → h q = some d → p ≠ q → ∀ x, Covers p b x → ¬ Covers q d x

namespace Laid

/-- Giving up a block leaves the others laid out. -/
theorem drop (L : Laid align h) (p : Nat) : Laid align (Function.update h p none) := by
  have hkept : ∀ {q c}, Function.update h p none q = some c → h q = some c := by
    intro q c hq
    by_cases hqp : q = p
    · subst hqp
      simp at hq
    · rwa [Function.update_of_ne hqp] at hq
  constructor
  · intro q c hq
    exact L.placed q c (hkept hq)
  · intro q c r e hq hr
    exact L.separate q c r e (hkept hq) (hkept hr)

/-- A block may be put where there is room for it. -/
theorem put (L : Laid align h) (room : Room align h p b.bytes.length) :
    Laid align (Function.update h p (some b)) := by
  constructor
  · intro q c hq
    by_cases hqp : q = p
    · subst hqp
      exact ⟨room.ne, room.aligned⟩
    · rw [Function.update_of_ne hqp] at hq
      exact L.placed q c hq
  · intro q c r e hq hr hne x hx hx'
    by_cases hqp : q = p
    · subst hqp
      rw [Function.update_self, Option.some.injEq] at hq
      subst hq
      rw [Function.update_of_ne hne.symm] at hr
      exact room.clear r e hr x hx.1 hx.2 hx'
    · rw [Function.update_of_ne hqp] at hq
      by_cases hrp : r = p
      · subst hrp
        rw [Function.update_self, Option.some.injEq] at hr
        subst hr
        exact room.clear q c hq x hx'.1 hx'.2 hx
      · rw [Function.update_of_ne hrp] at hr
        exact L.separate q c r e hq hr hne x hx hx'

/-- A block may be replaced by one that is as long. -/
theorem replace (L : Laid align h) (hp : h p = some d) (hlen : b.bytes.length = d.bytes.length) :
    Laid align (Function.update h p (some b)) := by
  have hsame : ∀ {q c}, Function.update h p (some b) q = some c →
      ∃ c', h q = some c' ∧ c'.bytes.length = c.bytes.length := by
    intro q c hq
    by_cases hqp : q = p
    · subst hqp
      rw [Function.update_self, Option.some.injEq] at hq
      subst hq
      exact ⟨d, hp, hlen.symm⟩
    · rw [Function.update_of_ne hqp] at hq
      exact ⟨c, hq, rfl⟩
  constructor
  · intro q c hq
    obtain ⟨c', hc, -⟩ := hsame hq
    exact L.placed q c' hc
  · intro q c r e hq hr hne x hx hx'
    obtain ⟨c', hc, hcl⟩ := hsame hq
    obtain ⟨e', he, hel⟩ := hsame hr
    unfold Covers at hx hx'
    exact L.separate q c' r e' hc he hne x ⟨hx.1, hcl ▸ hx.2⟩ ⟨hx'.1, hel ▸ hx'.2⟩

end Laid

section serving

variable {blank : β} {h' : Holdings τ β} {request : Request} {result : Nat}

/-- How the heap may serve a request of client `t` at one moment; `blank` is what fills a zeroed
block. -/
inductive Serves (align : Nat) (blank : β) (t : τ) :
    Request → Holdings τ β → Nat → Holdings τ β → Prop
  | refuse {r : Request} {h : Holdings τ β} (keeps : ∀ p, r ≠ .release p) :
      Serves align blank t r h 0 h
  | alloc {n p : Nat} {h : Holdings τ β} {bytes : List β} (enough : n ≤ bytes.length)
      (room : Room align h p bytes.length) :
      Serves align blank t (.alloc n) h p (Function.update h p (some ⟨t, bytes⟩))
  | zeroed {n p : Nat} {h : Holdings τ β} {bytes : List β} (enough : n ≤ bytes.length)
      (room : Room align h p bytes.length) (zero : ∀ k, k < n → bytes[k]? = some blank) :
      Serves align blank t (.zeroed n) h p (Function.update h p (some ⟨t, bytes⟩))
  | resize {n p q : Nat} {h : Holdings τ β} {old new : List β} (held : h p = some ⟨t, old⟩)
      (enough : n ≤ new.length) (room : Room align (Function.update h p none) q new.length)
      (kept : ∀ k, k < old.length → k < n → new[k]? = old[k]?) :
      Serves align blank t (.resize p n) h q
        (Function.update (Function.update h p none) q (some ⟨t, new⟩))
  | release {p : Nat} {h : Holdings τ β} {old : List β} (held : h p = some ⟨t, old⟩) :
      Serves align blank t (.release p) h 0 (Function.update h p none)

/-- Serving a request leaves the blocks laid out. -/
theorem Serves.laid (S : Serves align blank t request h result h') (L : Laid align h) :
    Laid align h' := by
  cases S with
  | refuse keeps => exact L
  | alloc enough room => exact L.put room
  | zeroed enough room zero => exact L.put room
  | resize held enough room kept => exact (L.drop _).put room
  | release held => exact L.drop _

/-- Serving a request of one client leaves the blocks of the others alone. -/
theorem Serves.others (S : Serves align blank t request h result h') (hb : h p = some b)
    (ht : b.owner ≠ t) : h' p = some b := by
  have hput : ∀ {q n} {c : Holding τ β}, Room align h q n →
      Function.update h q (some c) p = some b := by
    intro q n c room
    have hne : p ≠ q := by
      rintro rfl
      rw [room.free] at hb
      cases hb
    rwa [Function.update_of_ne hne]
  have hdrop : ∀ {q old}, h q = some ⟨t, old⟩ → Function.update h q none p = some b := by
    intro q old held
    have hne : p ≠ q := by
      rintro rfl
      rw [held, Option.some.injEq] at hb
      exact ht (by rw [← hb])
    rwa [Function.update_of_ne hne]
  cases S with
  | refuse keeps => exact hb
  | alloc enough room => exact hput room
  | zeroed enough room zero => exact hput room
  | release held => exact hdrop held
  | resize held enough room kept =>
    have hne : p ≠ result := by
      rintro rfl
      have := room.free
      rw [hdrop held] at this
      cases this
    rw [Function.update_of_ne hne]
    exact hdrop held

end serving

section machine

variable [DecidableEq τ]

/-- What a step is about. -/
inductive Label (τ β : Type) where
  | start (t : τ)
  | exit (t : τ)
  | call (t : τ) (request : Option Request)
  | serve (t : τ)
  | finish (t : τ) (result : Nat)
  | store (t : τ) (x : Nat) (v : β)
  | give (p : Nat) (u : τ)
  | reset

/-- Replace the status of client `t`. -/
def Atomic.setStatus (σ : Atomic τ β) (t : τ) (st : Status) : Atomic τ β :=
  { σ with status := Function.update σ.status t st }

/-- One step of the clients and the heap. -/
inductive Atomic.Step (align : Nat) (blank : β) : Label τ β → Atomic τ β → Atomic τ β → Prop
  | start {σ : Atomic τ β} {t : τ} (here : σ.status t = .unborn) :
      Step align blank (.start t) σ (σ.setStatus t (.idle 0))
  | exit {σ : Atomic τ β} {t : τ} {r : Nat} (here : σ.status t = .idle r) :
      Step align blank (.exit t) σ (σ.setStatus t .exited)
  /-- A call with a block of the caller's own, or none. -/
  | call {σ : Atomic τ β} {t : τ} {r : Nat} (here : σ.status t = .idle r) (request : Request)
      (held : ∀ p, request.argument = some p → ∃ bytes, σ.heap p = some ⟨t, bytes⟩) :
      Step align blank (.call t (some request)) σ (σ.setStatus t (.pending request))
  /-- A call that asks for nothing, or for more than there can be, returns null at once. -/
  | decline {σ : Atomic τ β} {t : τ} {r : Nat} (here : σ.status t = .idle r) :
      Step align blank (.call t none) σ (σ.setStatus t (.idle 0))
  | serve {σ : Atomic τ β} {t : τ} {request : Request} {r : Nat} {h : Holdings τ β}
      (here : σ.status t = .pending request) (serves : Serves align blank t request σ.heap r h) :
      Step align blank (.serve t) σ ({ σ with heap := h }.setStatus t (.served r))
  | finish {σ : Atomic τ β} {t : τ} {r : Nat} (here : σ.status t = .served r) :
      Step align blank (.finish t r) σ (σ.setStatus t (.idle r))
  /-- A byte stored into a block of the client's own. -/
  | store {σ : Atomic τ β} {t : τ} {r p : Nat} {bytes : List β} (here : σ.status t = .idle r)
      (held : σ.heap p = some ⟨t, bytes⟩) (k : Nat) (v : β) (inside : k < bytes.length) :
      Step align blank (.store t (p + k) v) σ
        { σ with heap := Function.update σ.heap p (some ⟨t, bytes.set k v⟩) }
  /-- A block handed to another client between calls. -/
  | give {σ : Atomic τ β} {t : τ} {p : Nat} {bytes : List β} (here : (σ.status t).AtRest)
      (held : σ.heap p = some ⟨t, bytes⟩) (u : τ) :
      Step align blank (.give p u) σ
        { σ with heap := Function.update σ.heap p (some ⟨u, bytes⟩) }
  /-- All blocks are given up while no client makes a call. -/
  | reset {σ : Atomic τ β} (here : ∀ t, (σ.status t).AtRest) :
      Step align blank .reset σ { σ with heap := fun _ ↦ none }

/-- A run with the labels of its steps. -/
inductive Atomic.Run (align : Nat) (blank : β) :
    List (Label τ β) → Atomic τ β → Atomic τ β → Prop
  | nil (σ : Atomic τ β) : Run align blank [] σ σ
  | cons {l : Label τ β} {ls : List (Label τ β)} {σ₁ σ₂ σ₃ : Atomic τ β}
      (step : Atomic.Step align blank l σ₁ σ₂) (rest : Run align blank ls σ₂ σ₃) :
      Run align blank (l :: ls) σ₁ σ₃

/-- No blocks and no clients. -/
def Atomic.empty : Atomic τ β := ⟨fun _ ↦ none, fun _ ↦ .unborn⟩

/-! ### What holds in every run -/

/-- The blocks are laid out, and what a call is about belongs to its caller. -/
structure Atomic.Sound (align : Nat) (σ : Atomic τ β) : Prop where
  laid : Laid align σ.heap
  held : ∀ t r p, σ.status t = .pending r → r.argument = some p →
    ∃ bytes, σ.heap p = some ⟨t, bytes⟩

variable {blank : β} {σ σ' σ'' : Atomic τ β} {st : Status} {l : Label τ β}
  {ls ls' : List (Label τ β)}

@[simp] theorem Atomic.setStatus_same : (σ.setStatus t st).status t = st := Function.update_self ..

theorem Atomic.setStatus_ne (hu : u ≠ t) : (σ.setStatus t st).status u = σ.status u :=
  Function.update_of_ne hu ..

/-- A step keeps the heap sound. -/
theorem Atomic.Sound.step (S : σ.Sound align) (hstep : Atomic.Step align blank l σ σ') :
    σ'.Sound align := by
  have hquiet : ∀ {t st}, (∀ r, st ≠ .pending r) → (σ.setStatus t st).Sound align := by
    intro t st hst
    refine ⟨S.laid, fun u r p hu harg ↦ ?_⟩
    by_cases hut : u = t
    · subst hut
      rw [setStatus_same] at hu
      exact absurd hu (hst r)
    · rw [setStatus_ne hut] at hu
      exact S.held u r p hu harg
  cases hstep with
  | start here => exact hquiet (by simp)
  | exit here => exact hquiet (by simp)
  | decline here => exact hquiet (by simp)
  | finish here => exact hquiet (by simp)
  | @call _ t _ here request held =>
    refine ⟨S.laid, fun u r p hu harg ↦ ?_⟩
    by_cases hut : u = t
    · subst hut
      rw [setStatus_same, Status.pending.injEq] at hu
      subst hu
      exact held p harg
    · rw [setStatus_ne hut] at hu
      exact S.held u r p hu harg
  | @serve _ t _ _ _ here serves =>
    refine ⟨serves.laid S.laid, fun u r p hu harg ↦ ?_⟩
    have hut : u ≠ t := by
      rintro rfl
      rw [setStatus_same] at hu
      cases hu
    rw [setStatus_ne hut] at hu
    obtain ⟨bytes, hb⟩ := S.held u r p hu harg
    exact ⟨bytes, serves.others hb hut⟩
  | @store _ t _ p bytes here held k v inside =>
    refine ⟨S.laid.replace held (List.length_set ..), fun u r q hu harg ↦ ?_⟩
    obtain ⟨old, hq⟩ := S.held u r q hu harg
    have hqp : q ≠ p := by
      rintro rfl
      rw [held, Option.some.injEq, Holding.mk.injEq] at hq
      rw [← hq.1, here] at hu
      cases hu
    exact ⟨old, (Function.update_of_ne hqp ..).trans hq⟩
  | @give _ _ p bytes here held v =>
    refine ⟨S.laid.replace held rfl, fun u r q hu harg ↦ ?_⟩
    obtain ⟨old, hq⟩ := S.held u r q hu harg
    have hqp : q ≠ p := by
      rintro rfl
      rw [held, Option.some.injEq, Holding.mk.injEq] at hq
      rw [hq.1, show σ.status u = _ from hu] at here
      exact here
    exact ⟨old, (Function.update_of_ne hqp ..).trans hq⟩
  | reset here =>
    refine ⟨⟨fun p b hb ↦ ?_, fun p b q d hb ↦ ?_⟩, fun u r p hu harg ↦ ?_⟩
    · cases hb
    · cases hb
    · have hrest := here u
      rw [show σ.status u = _ from hu] at hrest
      exact absurd hrest id

/-- A run keeps the heap sound. -/
theorem Atomic.Sound.run (S : σ.Sound align) (hrun : Atomic.Run align blank ls σ σ') :
    σ'.Sound align := by
  induction hrun with
  | nil σ => exact S
  | cons step _ ih => exact ih (S.step step)

omit [DecidableEq τ] in
/-- An empty heap is sound. -/
theorem Atomic.empty_sound : (Atomic.empty : Atomic τ β).Sound align := by
  refine ⟨⟨fun p b hb ↦ ?_, fun p b q d hb ↦ ?_⟩, fun t r p ht ↦ ?_⟩
  · cases hb
  · cases hb
  · cases ht

theorem Atomic.Run.single (step : Atomic.Step align blank l σ σ') :
    Atomic.Run align blank [l] σ σ' := .cons step (.nil σ')

/-- Runs compose. -/
theorem Atomic.Run.append (h : Atomic.Run align blank ls σ σ')
    (h' : Atomic.Run align blank ls' σ' σ'') : Atomic.Run align blank (ls ++ ls') σ σ'' := by
  induction h with
  | nil σ => exact h'
  | cons step _ ih => exact .cons step (ih h')

end machine

end CustomAllocator.Base
