import CustomAllocator.Layout.Malloc

/-!
# Refused allocations

When the general path returns null, for payload sizes of any magnitude, wrapped ones
included: exactly when no listed block is large enough, the newest arena has no room and the
kernel refuses another. The refusal leaves no trace but in the kernel's log.
-/

namespace CustomAllocator
open CustomAllocator.Base

/-- Nothing can serve a payload of `n` bytes that takes `needed` bytes to carve. -/
structure Exhausted (c : Config) (s : State) (n needed : Nat) : Prop where
  listed : ∀ ts order, Represents s.mem s.freeHead ts order → ∀ x ∈ order, getSize s.mem x < n
  newest : ∀ a ∈ s.arenas.getLast?, a.hasRoom needed = false
  refused : (osAcquire c s.toMachine (arenaRequest s.arenaSize needed)).2 = none

variable {c : Config} {s s' : State} {ts : List Carved} {order : List Nat} {n r : Nat}

theorem any_getLast? {a : Arena → Bool} {l : List Arena} :
    l.getLast?.any a = false ↔ ∀ x ∈ l.getLast?, a x = false := by
  cases l.getLast? <;> simp

private theorem request_lt (hsize : s.arenaSize < 2 ^ 64) (n : Nat) :
    arenaRequest s.arenaSize (neededBytes n) < 2 ^ 64 := by
  have := add64_lt (add64 sizeofBlockHeader n) sizeofBlockFooter
  unfold arenaRequest neededBytes
  split <;> omega

/-- A free-list walk that finds nothing. -/
theorem Represents.findFirstFit_none (R : Represents s.mem s.freeHead ts order) :
    FreeList.findFirstFit c s.mem s.freeHead n = .ok 0 ↔ ∀ x ∈ order, getSize s.mem x < n := by
  rw [R.findFirstFit c n]
  constructor
  · intro h x hx
    by_contra hle
    cases hfind : order.find? fun x ↦ decide (n ≤ getSize s.mem x) with
    | none => exact absurd (List.find?_eq_none.mp hfind x hx) (by simpa using hle)
    | some y =>
      rw [hfind] at h
      obtain ⟨b, hb, rfl, -⟩ := R.listed y (List.mem_of_find?_eq_some hfind)
      have := (R.placed.block_bounds hb).1
      simp only [Option.getD_some, Except.ok.injEq] at h
      omega
  · intro h
    have hnone : order.find? (fun x ↦ decide (n ≤ getSize s.mem x)) = none :=
      List.find?_eq_none.mpr fun x hx ↦ by simpa using h x hx
    rw [hnone]
    rfl

/-- An exhausted heap refuses and changes only the kernel's log. -/
theorem Exhausted.refuses (E : Exhausted c s n (neededBytes n))
    (R : Represents s.mem s.freeHead ts order) (hsize : s.arenaSize < 2 ^ 64) :
    ∃ os, allocatePayload c s n = .ok ({ s with os := os }, 0) ∧ os.mapped = s.os.mapped := by
  have hfind := (R.findFirstFit_none (c := c)).mpr (E.listed ts order R)
  have hroom : ¬ s.arenas.getLast?.any (·.hasRoom (neededBytes n)) = true := by
    rw [any_getLast?.mpr E.newest]
    simp
  have href := E.refused
  have hlt := request_lt hsize n
  simp only [allocatePayload, hfind, ok_bind, if_true, arenaWithRoom, hroom,
    Bool.false_eq_true, if_false]
  generalize arenaRequest s.arenaSize (neededBytes n) = request at href hlt
  rcases osAcquire_cases c s.toMachine hlt with ⟨hn, hmem, hmapped⟩ | ⟨q, hq, -⟩
  · rcases hos : osAcquire c s.toMachine request with ⟨k, res⟩
    rw [hos] at hn hmem hmapped
    obtain rfl : res = none := hn
    refine ⟨k.os, ?_, hmapped⟩
    dsimp only at hmem
    simp only [State.setMachine]
    rw [← hmem]
  · rw [href] at hq
    exact absurd hq (by simp)

private theorem payload_ok {m : Mem} {block p : Nat} (h : payload c m block = .ok p) :
    p = dataAddress block := by
  obtain ⟨_, -, h⟩ := bind_eq_ok.mp h
  exact (Except.ok.inj h).symm

private theorem dataAddress_ne_zero {block : Nat} (h : block + 4096 ≤ 2 ^ 64) :
    dataAddress block ≠ 0 := by
  rw [dataAddress_eq (by omega)]
  omega

/-- A reused block is returned by its data address, with the kernel untouched. -/
theorem reuseBlock_ok {m : Mem} {head block : Nat} {out : (Mem × Nat) × Nat}
    (h : reuseBlock c m head block n = .ok out) : out.2 = dataAddress block := by
  unfold reuseBlock at h
  obtain ⟨_, -, h⟩ := bind_eq_ok.mp h
  obtain ⟨_, -, h⟩ := bind_eq_ok.mp h
  obtain ⟨p, hp, h⟩ := bind_eq_ok.mp h
  simp only [Except.ok.injEq] at h
  rw [← h]
  exact payload_ok hp

/-- A carved block is returned by its data address, with the kernel untouched. -/
theorem carveBlock_ok {i : Nat} (h : carveBlock c s i n = .ok (s', r)) :
    ∃ a m arenas, s.arenas[i]? = some a ∧ s' = { s with mem := m, arenas := arenas } ∧
      r = dataAddress (add64 a.base a.used) := by
  cases ha : s.arenas[i]? with
  | none => simp [carveBlock, ha] at h
  | some a =>
    simp only [carveBlock, ha, bind_eq_ok, Except.ok.injEq, Prod.mk.injEq] at h
    obtain ⟨p, hp, hs, hr⟩ := h
    exact ⟨a, _, _, rfl, hs.symm, hr ▸ payload_ok hp⟩

/-- Whatever the size, an allocation that completes has either found the heap exhausted or
returns a pointer, and maps only well-formed regions. -/
theorem GeneralHeap.allocatePayload_ok
    (H : GeneralHeap s.mem s.freeHead s.arenas ts order) (hsize : s.arenaSize < 2 ^ 64)
    (hrun : CustomAllocator.allocatePayload c s n = .ok (s', r)) :
    (r = 0 ∧ Exhausted c s n (neededBytes n)) ∨
      r ≠ 0 ∧ ∀ q ∈ s'.os.mapped, q ∈ s.os.mapped ∨ q.WF := by
  have harena : ∀ a ∈ s.arenas, dataAddress (add64 a.base a.used) ≠ 0 := by
    intro a ha
    rw [H.arenas_eq] at ha
    obtain ⟨t, ht, rfl⟩ := List.mem_map.mp ha
    have hw := H.rep.wf t ht
    have := hw.used_le
    have := hw.stop_le
    rw [add64_of_lt (by omega)]
    exact dataAddress_ne_zero (by omega)
  unfold CustomAllocator.allocatePayload at hrun
  obtain ⟨reused, hfind, hrun⟩ := bind_eq_ok.mp hrun
  by_cases h0 : reused = 0
  · subst h0
    have hnone := H.rep.findFirstFit_none.mp hfind
    rw [if_pos rfl, CustomAllocator.arenaWithRoom] at hrun
    by_cases hroom : s.arenas.getLast?.any (·.hasRoom (neededBytes n)) = true
    · rw [if_pos hroom] at hrun
      obtain ⟨a, m, arenas, ha, rfl, rfl⟩ := carveBlock_ok hrun
      exact .inr ⟨harena a (List.mem_of_getElem? ha), fun q hq ↦ .inl hq⟩
    · rw [if_neg hroom] at hrun
      have hlt := request_lt hsize n
      rcases hos : osAcquire c s.toMachine (arenaRequest s.arenaSize (neededBytes n)) with ⟨k, res⟩
      rw [hos] at hrun
      cases res with
      | none =>
        obtain ⟨-, rfl⟩ := Prod.mk.inj (Except.ok.inj hrun)
        refine .inl ⟨rfl, fun ts' order' R x hx ↦ ?_,
          any_getLast?.mp (Bool.eq_false_iff.mpr hroom), by rw [hos]⟩
        exact (R.findFirstFit_none (c := c)).mp hfind x hx
      | some q =>
        rcases osAcquire_cases c s.toMachine hlt with ⟨hn, -⟩ | ⟨q', hq', -, hwf, -, -, hmapped⟩
        · rw [hos] at hn
          exact absurd hn (by simp)
        · rw [hos] at hq' hmapped
          obtain rfl : q = q' := Option.some.inj hq'
          obtain ⟨a, m, arenas, ha, rfl, rfl⟩ := carveBlock_ok hrun
          right
          refine ⟨?_, fun p hp ↦ ?_⟩
          · simp only [List.getElem?_concat_length, Option.some.injEq] at ha
            subst ha
            have := hwf.base_ge
            have := hwf.stop_le
            dsimp only
            rw [add64_of_lt (by omega)]
            exact dataAddress_ne_zero (by omega)
          · dsimp only [State.setMachine] at hp hmapped
            rw [hmapped] at hp
            rcases List.mem_cons.mp hp with rfl | hp
            · exact .inr hwf
            · exact .inl hp
  · rw [if_neg h0] at hrun
    obtain ⟨out, hout, hrun⟩ := bind_eq_ok.mp hrun
    obtain ⟨rfl, rfl⟩ := Prod.mk.inj (Except.ok.inj hrun)
    rw [reuseBlock_ok hout]
    refine .inr ⟨?_, fun q hq ↦ .inl hq⟩
    rw [H.rep.findFirstFit c n] at hfind
    cases hf : order.find? fun x ↦ decide (n ≤ getSize s.mem x) with
    | none => rw [hf] at hfind; exact absurd (Except.ok.inj hfind).symm h0
    | some x =>
      rw [hf] at hfind
      obtain ⟨b, hb, rfl, -⟩ := H.rep.listed x (List.mem_of_find?_eq_some hf)
      have := H.rep.placed.block_bounds hb
      rw [← Except.ok.inj hfind]
      exact dataAddress_ne_zero (by dsimp only [Option.getD_some]; omega)

end CustomAllocator
