import Mathlib.Data.List.Find
import CustomAllocator.Layout.Canonical
import CustomAllocator.Layout.Malloc

/-!
# The general path is determined

What a step of the general path does to the arenas, the blocks and the free list depends on
nothing else: two states with the same arenas, blocks, list and kernel answer alike, whatever
the payloads hold.
-/

namespace CustomAllocator
open CustomAllocator.Base

/-- A general allocation cannot tell the two states apart. -/
structure HeapsAlike (c c' : Config) (s s' : State) (order : List Nat) : Prop where
  fit : ∀ n, firstFit s' order n = firstFit s order n
  os : s'.os = s.os
  arenas : s'.arenas = s.arenas
  answer : ∀ n, (arenaAnswer c' s' n).2 = (arenaAnswer c s n).2
  asked : ∀ n, (arenaAnswer c' s' n).1.os = (arenaAnswer c s n).1.os

variable {c c' : Config} {s s' s₁ s₂ : State} {ts ts₁ ts₂ : List Carved}
  {order order₁ order₂ : List Nat} {n : Nat} {b k l : Block} {os os' : Os}

/-- The size read at a listed address is that of its block. -/
theorem GeneralHeap.firstFit_eq (H : GeneralHeap s.mem s.freeHead s.arenas ts order)
    (H' : GeneralHeap s'.mem s'.freeHead s'.arenas ts order) (n : Nat) :
    firstFit s' order n = firstFit s order n := by
  unfold firstFit
  apply List.find?_congr
  intro x hx
  obtain ⟨b, hb, rfl, hf⟩ := H.rep.listed x hx
  have hw := H.rep.placed.block_wf hb
  rw [((H.rep.tagged b hb).header hf).getSize hw, ((H'.rep.tagged b hb).header hf).getSize hw]

/-- The newest arena has room when the bytes fit behind what is carved. -/
theorem GeneralHeap.hasRoom (H : GeneralHeap s.mem s.freeHead s.arenas ts order) {init : List Arena}
    {a : Arena} (hnew : s.arenas = init ++ [a]) (hroom : a.used + n ≤ a.size) :
    s.arenas.getLast?.any (·.hasRoom n) = true := by
  have ha : a ∈ ts.map Carved.arena := by
    rw [← H.arenas_eq, hnew]
    simp
  obtain ⟨t, ht, rfl⟩ := List.mem_map.mp ha
  have hw := H.rep.wf t ht
  have hused := hw.used_le
  have hstop := hw.stop_le
  rw [hnew, List.getLast?_concat, Option.any_some, Arena.hasRoom, sub64_of_le hused (by omega)]
  exact decide_eq_true (by omega)

/-- A refusal is final: in a state like it the same request is not served. -/
theorem Unserved.not_served (H : GeneralHeap s.mem s.freeHead s.arenas ts order)
    (E : HeapsAlike c c' s s' order) (U : Unserved c s order n os) :
    ¬ Served c' s' ts order n s₂ ts₂ order₂ k := by
  intro S
  cases S with
  | reused b mem free first =>
    rw [E.fit, U.unlisted] at first
    cases first
  | bumped init a unlisted newest room =>
    rw [E.arenas] at newest
    have := H.hasRoom newest room
    rw [U.full] at this
    cases this
  | grown r unlisted full answer =>
    rw [E.answer, U.refused] at answer
    cases answer

/-- Two refusals leave the same kernel. -/
theorem Unserved.unique (E : HeapsAlike c c' s s' order) (U : Unserved c s order n os)
    (U' : Unserved c' s' order n os') : os' = os := by
  rw [U.os_eq, U'.os_eq, E.asked]

/-- A request is served in one way. -/
theorem Served.unique (H : GeneralHeap s.mem s.freeHead s.arenas ts order)
    (E : HeapsAlike c c' s s' order) (S : Served c s ts order n s₁ ts₁ order₁ k)
    (S' : Served c' s' ts order n s₂ ts₂ order₂ l) :
    l = k ∧ order₂ = order₁ ∧ s₂.os = s₁.os ∧ s₂.arenas = s₁.arenas := by
  have hreused : ∀ {b : Block}, firstFit s order n = some b.addr →
      firstFit s' order n = none → False := by
    intro b h h'
    rw [E.fit, h] at h'
    cases h'
  have hgrown : ∀ {init : List Arena} {a : Arena}, s.arenas = init ++ [a] →
      a.used + (n + 32) ≤ a.size → s.arenas.getLast?.any (·.hasRoom (n + 32)) = false → False := by
    intro init a h hroom hfull
    rw [H.hasRoom h hroom] at hfull
    cases hfull
  cases S with
  | reused b mem free first size block rest listed os arenas =>
    cases S' with
    | reused b' mem' free' first' size' block' rest' listed' os' arenas' =>
      rw [E.fit, first, Option.some.injEq] at first'
      obtain rfl := H.rep.placed.block_eq_of_addr mem mem' first'
      exact ⟨block'.trans block.symm, listed'.trans listed.symm, os'.trans (E.os.trans os.symm),
        arenas'.trans (E.arenas.trans arenas.symm)⟩
    | bumped init' a' unlisted' => exact (hreused first unlisted').elim
    | grown r' unlisted' => exact (hreused first unlisted').elim
  | bumped init a unlisted newest room block listed os arenas =>
    cases S' with
    | reused b' mem' free' first' =>
      rw [E.fit, unlisted] at first'
      cases first'
    | bumped init' a' unlisted' newest' room' block' listed' os' arenas' =>
      rw [E.arenas, newest] at newest'
      obtain ⟨rfl, ha⟩ := List.append_inj' newest' rfl
      obtain rfl := List.singleton_inj.mp ha
      exact ⟨block'.trans block.symm, listed'.trans listed.symm, os'.trans (E.os.trans os.symm),
        arenas'.trans arenas.symm⟩
    | grown r' unlisted' full' =>
      rw [E.arenas] at full'
      exact (hgrown newest room full').elim
  | grown r unlisted full answer room block listed os arenas =>
    cases S' with
    | reused b' mem' free' first' =>
      rw [E.fit, unlisted] at first'
      cases first'
    | bumped init' a' unlisted' newest' room' =>
      rw [E.arenas] at newest'
      exact (hgrown newest' room' full).elim
    | grown r' unlisted' full' answer' room' block' listed' os' arenas' =>
      rw [E.answer, answer, Option.some.injEq] at answer'
      subst answer'
      rw [E.asked] at os'
      rw [E.arenas] at arenas'
      exact ⟨block'.trans block.symm, listed'.trans listed.symm, os'.trans os.symm,
        arenas'.trans arenas.symm⟩

/-- Two heaps that agree on arenas and on allocated blocks, one for each of two states. -/
theorem GeneralHeap.tiling_eq (H : GeneralHeap s₁.mem s₁.freeHead s₁.arenas ts₁ order₁)
    (H' : GeneralHeap s₂.mem s₂.freeHead s₂.arenas ts₂ order₂) (harenas : s₂.arenas = s₁.arenas)
    (halloc : ∀ d, Allocated ts₁ d ↔ Allocated ts₂ d) : ts₂ = ts₁ := by
  rw [harenas] at H'
  exact (H.canonical H' halloc).symm

/-- A block is freed in one way. -/
theorem Freed.unique (F : Freed ts order b ts₁ order₁ k) (F' : Freed ts order b ts₁ order₂ l)
    (P : Placed ts₁) (hpos : 0 < b.size) : order₂ = order₁ := by
  have hin : ∀ {d : Block}, d.Includes b → d.Covers b.addr := by
    intro d hd
    unfold Block.Includes at hd
    exact ⟨hd.1, by unfold Block.stop at *; omega⟩
  obtain rfl : l = k := P.block_eq F'.mem F.mem (hin F'.includes) (hin F.includes)
  rw [F.listed, F'.listed]

/-- What cannot be had in place is not had in place. -/
theorem Hemmed.not_widened (h : Hemmed ts b n) : ¬ Widened ts order b n ts₁ order₁ k := by
  intro W
  cases W with
  | fits size => exact absurd h.1 (Nat.not_lt.mpr size)
  | grown r size follows free room => exact absurd (h.2 r follows free) (Nat.not_lt.mpr room)

/-- A block is grown in one way. -/
theorem Widened.unique (P : Placed ts) (W : Widened ts order b n ts₁ order₁ k)
    (W' : Widened ts order b n ts₂ order₂ l) : l = k ∧ order₂ = order₁ := by
  cases W with
  | fits size heap listed block =>
    cases W' with
    | fits size' heap' listed' block' =>
      exact ⟨block'.trans block.symm, listed'.trans listed.symm⟩
    | grown r' size' => exact absurd size' (Nat.not_lt.mpr size)
  | grown r size follows free room block rest listed =>
    cases W' with
    | fits size' => exact absurd size (Nat.not_lt.mpr size')
    | grown r' size' follows' free' room' block' rest' listed' =>
      obtain rfl := follows.right_unique follows' P
      exact ⟨block'.trans block.symm, listed'.trans listed.symm⟩

end CustomAllocator
