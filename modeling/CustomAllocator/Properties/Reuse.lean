import CustomAllocator.Layout.Refusal
import CustomAllocator.Properties.BoundaryTags

/-!
# Reuse before growth

How `my_malloc` decides a request of the general path in a routed session: the first listed
block that is large enough, else the tail of the newest arena, else one request to the
kernel. Since the list is exact, a walk that finds nothing means that no free block of any
arena fits.
-/

namespace CustomAllocator
open CustomAllocator.Base

/-- The header `b` is that of a free block in some arena. -/
def FreeBlock (s : State) (b : Nat) : Prop :=
  isFree s.mem b = true ∧ ∃ a ∈ s.arenas, ∃ bs, a.Walk s.mem bs ∧ b ∈ bs

/-- The decision for a request of `size` bytes, `n` when rounded, with the free list `l`. -/
structure ReuseFirst (c : Config) (s : State) (t : Tid) (size n : Nat) (l : List Nat) : Prop where
  /-- A free block that is large enough: the first one listed is returned, nothing grows. -/
  reuse : (∃ b, FreeBlock s b ∧ n ≤ getSize s.mem b) →
    ∃ f s', l.find? (fun x ↦ decide (n ≤ getSize s.mem x)) = some f ∧
      myMalloc c s t size = .ok (s', dataAddress f) ∧ s'.os = s.os ∧ s'.arenas = s.arenas
  /-- None, but room in the newest arena: its bump offset moves by the block. -/
  bump : (∀ b, FreeBlock s b → getSize s.mem b < n) →
    ∀ init a, s.arenas = init ++ [a] → n + 32 ≤ a.size - a.used →
      ∃ s', myMalloc c s t size = .ok (s', dataAddress (a.base + a.used)) ∧ s'.os = s.os ∧
        s'.arenas = init ++ [{ a with used := a.used + (n + 32) }]
  /-- Neither: the kernel is asked once, and null is returned exactly when it refuses. -/
  grow : (∀ b, FreeBlock s b → getSize s.mem b < n) →
    (∀ a ∈ s.arenas.getLast?, a.size - a.used < n + 32) →
      ∃ s' r, myMalloc c s t size = .ok (s', r) ∧
        s'.os = (osAcquire c s.toMachine (max (n + 32) s.arenaSize)).1.os ∧
        s'.os.log = s.os.log ++ [.acquire (max (n + 32) s.arenaSize)
          (osAcquire c s.toMachine (max (n + 32) s.arenaSize)).2] ∧
        (r = 0 ↔ (osAcquire c s.toMachine (max (n + 32) s.arenaSize)).2 = none) ∧
        ∀ q, (osAcquire c s.toMachine (max (n + 32) s.arenaSize)).2 = some q →
          r = dataAddress q.base ∧ s'.arenas = s.arenas ++ [⟨q.base, q.size, n + 32⟩]

variable {c : Config} {t : Tid} {w : Session} {s : State} {ts : List Carved} {order : List Nat}
  {size n : Nat}

/-- The free headers are those of the free blocks. -/
theorem Tiled.freeBlock_iff (T : Tiled s ts order) {x : Nat} :
    FreeBlock s x ↔ ∃ b ∈ blocksOf ts, b.addr = x ∧ b.free = true := by
  unfold FreeBlock
  rw [T.visited]
  constructor
  · rintro ⟨hf, b, hb, rfl⟩
    exact ⟨b, hb, rfl, (T.free_eq hb).symm.trans hf⟩
  · rintro ⟨b, hb, rfl, hf⟩
    exact ⟨(T.free_eq hb).trans hf, b, hb, rfl⟩

/-- The search of the list fails exactly when no free block is large enough. -/
theorem Tiled.firstFit_none (T : Tiled s ts order) :
    firstFit s order n = none ↔ ∀ b, FreeBlock s b → getSize s.mem b < n := by
  simp only [firstFit, List.find?_eq_none, decide_eq_true_eq, Nat.not_le, T.freeBlock_iff,
    ← T.heap.mem_order]

/-- The room test of the newest arena, without wrap-around. -/
theorem Tiled.hasRoom_iff (T : Tiled s ts order) {a : Arena} (ha : a ∈ s.arenas) {needed : Nat} :
    a.hasRoom needed = true ↔ needed ≤ a.size - a.used := by
  rw [T.heap.arenas_eq] at ha
  obtain ⟨u, hu, rfl⟩ := List.mem_map.mp ha
  have hw := T.heap.rep.wf u hu
  have hle := hw.used_le
  have hstop := hw.stop_le
  unfold Arena.hasRoom
  rw [sub64_of_le hle (by omega), decide_eq_true_eq]

/-- The newest arena, if any, lacks the room. -/
theorem Tiled.full_iff (T : Tiled s ts order) {needed : Nat} :
    s.arenas.getLast?.any (·.hasRoom needed) = false ↔
      ∀ a ∈ s.arenas.getLast?, a.size - a.used < needed := by
  rw [any_getLast?]
  refine forall₂_congr fun a ha ↦ ?_
  rw [Bool.eq_false_iff, ne_eq, T.hasRoom_iff (List.mem_of_getLast? ha), Nat.not_le]

private theorem arenaRequest_eq (arenaSize needed : Nat) :
    arenaRequest arenaSize needed = max needed arenaSize := by
  unfold arenaRequest
  split <;> omega

/-- In every routed session a general request is served from the free list if any free block
fits, else from the newest arena if it has room, else from the kernel. -/
theorem reuse_before_growth (h : Reachable c t (routedCall c) w) (hlo : 4096 < size)
    (hhi : size ≤ sizeMax - 47) (hn : n % 16 = 0) (hle : size ≤ n) (hlt : n < size + 16) :
    ∃ l, FreeListExact w.state l ∧ ReuseFirst c w.state t size n l := by
  obtain ⟨ts, order, sh, A, hun⟩ := h.routed
  have T := A.tiled hun
  have hsize : size + 47 < 2 ^ 64 := by
    unfold sizeMax at hhi
    omega
  obtain rfl := alignUp_eq (by omega) hn hle hlt
  have hanswer : arenaAnswer c w.state (alignUp size + 32) =
      osAcquire c w.state.toMachine (max (alignUp size + 32) w.state.arenaSize) := by
    rw [arenaAnswer, arenaRequest_eq]
  have hlog := osAcquire_log c w.state.toMachine (max (alignUp size + 32) w.state.arenaSize)
  refine ⟨order, T.freeListExact, ?_⟩
  rcases A.mallocBlock t hlo hsize with
    ⟨os, hrun, -, hun⟩ | ⟨s', ts', order', k, hrun, G, -, hserved⟩
  · -- Refused: the list held nothing, the newest arena had no room, the kernel said no.
    have hnone := T.firstFit_none.mp hun.unlisted
    have hno := T.full_iff.mp hun.full
    have hrefused := hanswer ▸ hun.refused
    refine ⟨fun ⟨b, hb, hfit⟩ ↦ ?_, fun _ init a ha hroom ↦ ?_, fun _ _ ↦ ?_⟩
    · have := hnone b hb
      omega
    · have := hno a (by simp [ha])
      omega
    · have hos := hanswer ▸ hun.os_eq
      refine ⟨_, 0, hrun, hos, ?_, iff_of_true rfl hrefused, fun q hq ↦ ?_⟩
      · rw [← hlog, ← hos]
      · rw [hrefused] at hq
        exact absurd hq (by simp)
  have hk := (G.accounted.ptr_aligned List.mem_cons_self).2
  have hdata : dataAddress k.addr = k.addr + 16 := dataAddress_eq (by dsimp only at hk; omega)
  rw [← hdata] at hrun
  cases hserved with
  | reused b hb hf first hfit block rest listed os arenas =>
    have haddr : k.addr = b.addr := by rw [block, Block.taken_addr]
    have hblock : FreeBlock w.state b.addr := T.freeBlock_iff.mpr ⟨b, hb, rfl, hf⟩
    have hnot : ¬ ∀ d, FreeBlock w.state d → getSize w.state.mem d < alignUp size := fun hall ↦ by
      have := hall b.addr hblock
      rw [T.size_eq hb] at this
      omega
    rw [haddr] at hrun
    exact ⟨fun _ ↦ ⟨b.addr, s', first, hrun, os, arenas⟩,
      fun hall ↦ absurd hall hnot, fun hall ↦ absurd hall hnot⟩
  | bumped init a unlisted newest room block listed os arenas =>
    have hnone := T.firstFit_none.mp unlisted
    refine ⟨fun ⟨b, hb, hfit⟩ ↦ ?_, fun _ init' a' ha' _ ↦ ?_, fun _ hno ↦ ?_⟩
    · have := hnone b hb
      omega
    · obtain ⟨rfl, ha⟩ := List.append_inj' (newest.symm.trans ha') rfl
      obtain rfl := List.singleton_inj.mp ha
      exact ⟨s', by rw [hrun, block], os, arenas⟩
    · have := hno a (by simp [newest])
      omega
  | grown r unlisted full answer room block listed os arenas =>
    have hnone := T.firstFit_none.mp unlisted
    have hno := T.full_iff.mp full
    rw [hanswer] at answer os
    refine ⟨fun ⟨b, hb, hfit⟩ ↦ ?_, fun _ init a ha hroom ↦ ?_, fun _ _ ↦ ?_⟩
    · have := hnone b hb
      omega
    · have := hno a (by simp [ha])
      omega
    · refine ⟨s', _, hrun, os, by rw [← hlog, ← os], iff_of_false ?_ ?_, fun q hq ↦ ?_⟩
      · rw [hdata]
        omega
      · rw [answer]
        simp
      · obtain rfl : r = q := Option.some.inj (answer.symm.trans hq)
        exact ⟨by rw [block], arenas⟩

/-- After the gap is freed, a request that fits in it is served from it. -/
theorem reuse_before_growth_gap : ∃ l, FreeListExact Session.gap.state l ∧
    ReuseFirst .fixedBase Session.gap.state 0 5990 6000 l :=
  reuse_before_growth Session.gap_routed (by decide) (by decide) (by decide) (by decide) (by decide)

end CustomAllocator
