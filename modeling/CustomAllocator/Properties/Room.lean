import CustomAllocator.Alloc.General

/-!
# Room for a block

`arena_with_room` over any list of arenas that are not overfull and for any 64-bit request.
The remaining room, the size of the kernel request and its rounding to pages are computed
without wrapping, or the request is refused: a rounding that wraps gives a mapping of length
zero, which fails.
-/

namespace CustomAllocator
open CustomAllocator.Base

/-- An arena's offset does not exceed its size, which is a 64-bit value. -/
def Arena.Sound (a : Arena) : Prop := a.used ≤ a.size ∧ a.size < 2 ^ 64

/-- The arena `a` comes last in `arenas`: it was last before, or it is new, unused, and has the
base and size of a region the kernel has just answered `request` with. -/
inductive LastOrNew (c : Config) (k : Machine) (request : Nat) (before : List Arena)
    (init : List Arena) (a : Arena) : Prop where
  | last (same : before = init ++ [a])
  | new (region : OsRegion) (answer : (osAcquire c k request).2 = some region)
      (appended : before = init) (fresh : a = ⟨region.base, region.size, 0⟩)

/-- `arena_with_room` returns null and leaves the arenas, or the last arena, which has room. -/
def RoomOrNull (c : Config) (s : State) (needed : Nat) : Prop :=
  (∃ s', arenaWithRoom c s needed = (s', none) ∧ s'.arenas = s.arenas) ∨
  ∃ s' init a, arenaWithRoom c s needed = (s', some init.length) ∧ s'.arenas = init ++ [a] ∧
    a.used ≤ a.size ∧ needed ≤ a.size - a.used ∧
    LastOrNew c s.toMachine (arenaRequest s.arenaSize needed) s.arenas init a

variable {c : Config} {s : State} {needed : Nat}

/-- The kernel is asked for at least what is needed, in a 64-bit value. -/
theorem arenaRequest_bounds (hsize : s.arenaSize < 2 ^ 64) (hneed : needed < 2 ^ 64) :
    needed ≤ arenaRequest s.arenaSize needed ∧ arenaRequest s.arenaSize needed < 2 ^ 64 := by
  unfold arenaRequest
  split
  · exact ⟨Nat.le_refl _, hneed⟩
  · next h => exact ⟨Nat.le_of_not_lt h, hsize⟩

/-- The room test of an arena that is not overfull is exact. -/
theorem Arena.Sound.hasRoom_iff {a : Arena} (h : a.Sound) :
    a.hasRoom needed = true ↔ needed ≤ a.size - a.used := by
  obtain ⟨hle, hlt⟩ := h
  rw [Arena.hasRoom, sub64_of_le hle hlt, decide_eq_true_eq]

/-- For every list of sound arenas, every arena size and every 64-bit request,
`arena_with_room` returns null and leaves the arenas, or returns the last arena, with room for
the request, after appending at most one fresh arena. -/
theorem arena_room (harenas : ∀ a ∈ s.arenas, a.Sound) (hsize : s.arenaSize < 2 ^ 64)
    (hneed : needed < 2 ^ 64) : RoomOrNull c s needed := by
  obtain ⟨hreq, hlt⟩ := arenaRequest_bounds hsize hneed
  unfold RoomOrNull arenaWithRoom
  by_cases hlast : s.arenas.getLast?.any (·.hasRoom needed)
  · right
    rw [if_pos hlast]
    cases List.eq_nil_or_concat s.arenas with
    | inl hnil => simp [hnil] at hlast
    | inr hcons =>
      obtain ⟨init, a, heq⟩ := hcons
      rw [List.concat_eq_append] at heq
      have ha : a.Sound := harenas a (by simp [heq])
      have hroom : needed ≤ a.size - a.used := by
        apply ha.hasRoom_iff.mp
        simpa [heq] using hlast
      refine ⟨s, init, a, ?_, heq, ha.1, hroom, .last heq⟩
      simp [heq]
  · rw [if_neg hlast]
    -- The kernel answers with whole pages that cover the request, or not at all.
    cases osAcquire_cases c s.toMachine hlt with
    | inl hrefused =>
      left
      obtain ⟨hn, -, -⟩ := hrefused
      cases hos : osAcquire c s.toMachine (arenaRequest s.arenaSize needed) with
      | mk k answer =>
        rw [hos] at hn
        obtain rfl : answer = none := hn
        exact ⟨_, rfl, rfl⟩
    | inr hgranted =>
      right
      obtain ⟨r, hr, hle, -, -, -, -⟩ := hgranted
      cases hos : osAcquire c s.toMachine (arenaRequest s.arenaSize needed) with
      | mk k answer =>
        have hr' := hr
        rw [hos] at hr'
        obtain rfl : answer = some r := hr'
        refine ⟨_, s.arenas, ⟨r.base, r.size, 0⟩, rfl, rfl, Nat.zero_le _, ?_,
          .new r (by rw [hos]) rfl rfl⟩
        exact Nat.le_trans hreq hle

/-- An arena of which 5040 bytes are used. -/
def State.partlyUsed : State :=
  { State.initial (fun _ ↦ 0) [some 0x80000] 65536 with arenas := [⟨0x10000, 65536, 5040⟩] }

/-- Such an arena serves a request that fits, gives way to a fresh one for a larger request, and a
request whose rounding wraps is refused. -/
theorem arena_room_partlyUsed :
    RoomOrNull .fixedBase .partlyUsed 60496 ∧ RoomOrNull .fixedBase .partlyUsed 60512 ∧
      RoomOrNull .fixedBase .partlyUsed (2 ^ 64 - 1) := by
  have hsound : ∀ a ∈ State.partlyUsed.arenas, a.Sound := by
    intro a ha
    obtain rfl := List.mem_singleton.mp ha
    exact ⟨by decide, by decide⟩
  exact ⟨arena_room hsound (by decide) (by decide), arena_room hsound (by decide) (by decide),
    arena_room hsound (by decide) (by decide)⟩

end CustomAllocator
