import CustomAllocator.Concurrent.Runs

/-!
# Where every slot is, in every interleaving

A slot carved by a pool is on its pool's chain, on one thread's cache, in one thread's batch or
live, and in one of these places only. A pointer that was handed out is handed out again only
after it was freed.
-/

namespace CustomAllocator
open CustomAllocator.Base

/-- The slots `sh` names at a spot are those that memory and the ledger show there. -/
def System.Shows (y : System) (sh : Shelves) : Spot → Prop
  | .pool i => Chain (read64 y.state.mem) 0 (y.state.pools i).freeHead (sh (.pool i))
  | .cache t i => Chain (read64 y.state.mem) 0 (y.state.caches t i).head (sh (.cache t i))
  | .transit t i => Chain (read64 y.state.mem) 0 ((y.phase t).batch i) (sh (.transit t i))
  | .live i => ∀ x, x ∈ sh (.live i) ↔ ∃ g ∈ y.live, g.origin = some i ∧ g.ptr = x + 16

/-- The slots of pool `i` so far. -/
def System.Carved (y : System) (i : Fin numSizeClasses) (x : Nat) : Prop :=
  CarvedFrom (classSize i + sizeofPoolSlotHeader) (y.state.pools i).arenas x

/-- Every carved slot is in one place, once. -/
structure SlotPartition (y : System) (sh : Shelves) : Prop where
  shows : ∀ S, y.Shows sh S
  once : ∀ S, (sh S).Nodup
  place : ∀ i x, y.Carved i x → ∃ S, S.cls = i ∧ x ∈ sh S ∧ ∀ S', x ∈ sh S' → S' = S
  carved : ∀ S, ∀ x ∈ sh S, y.Carved S.cls x
  one_entry : (y.live.map Grant.ptr).Nodup

/-- Some thread's `my_malloc` comes to hold `p` for its caller. -/
def HandsOut (y y' : System) (p : Nat) : Prop :=
  p ≠ 0 ∧ ∃ t, (y'.phase t).handed = p ∧ y'.phase t ≠ y.phase t

/-- Some thread's `my_free` gives `p` back. -/
def GivesBack (c : Config) (y y' : System) (p : Nat) : Prop :=
  ∃ t tag sequel, y.phase t = .tagged p tag sequel ∧ y.advance c t = .ok y'

variable {c : Config} {y y' y₁ y₂ y₃ : System} {t : Tid} {ts ts' : List Carved}
  {order order' : List Nat} {sh sh' : Shelves} {p : Nat}

/-- The live spot of a class lists the slots of its grants. -/
theorem mem_live_iff (C : Consistent c y ts order sh) (i : Fin numSizeClasses) (x : Nat) :
    x ∈ sh (.live i) ↔ ∃ g ∈ y.live, g.origin = some i ∧ g.ptr = x + 16 := by
  constructor
  · exact C.booked.slots i x
  · rintro ⟨g, hg, ho, hp⟩
    obtain ⟨z, hz, hzp, -⟩ := C.booked.pooled g hg i ho
    obtain rfl : x = z := by omega
    exact hz

/-- A consistent system has its slots in place. -/
theorem Consistent.slotPartition (C : Consistent c y ts order sh) : SlotPartition y sh where
  shows S := by
    have h := C.booked.coherent.shelved.linked S
    cases S with
    | pool i => exact h
    | cache t i => exact h.1
    | transit t i => exact h
    | live i => exact mem_live_iff C i
  once S := by
    have h := C.booked.coherent.shelved.linked S
    cases S with
    | pool i => exact Chain.nodup h
    | cache t i => exact Chain.nodup h.1
    | transit t i => exact Chain.nodup h
    | live i => exact h.1
  place i x hx := by
    obtain ⟨S, hS, hxS⟩ := C.booked.coherent.carved i x hx
    exact ⟨S, hS, hxS, fun S' hx' ↦ C.booked.coherent.shelved.apart S' S x hx' hxS⟩
  carved S x hx := by
    rcases C.booked.coherent.slots S.cls x ⟨S, rfl, hx⟩ with h | ⟨d, hd, rfl⟩
    · exact h
    · exact absurd ⟨S, rfl, hx⟩ (C.uncaptured d hd S.cls)
  one_entry := C.booked.nodup

/-- A pointer stays live until it is given back. -/
theorem Acted.live_stays {a : Action} (legal : a.Legal c y) (hact : y.act c a = .ok y')
    (A : Acted c y sh (a.actor y) y' ts' order' sh') (hp : p ∈ y.live.map Grant.ptr)
    (hkeep : ¬ GivesBack c y y' p) : p ∈ y'.live.map Grant.ptr := by
  have L := A.ledger
  generalize hph : y.phase (a.actor y) = ph at L
  generalize hph' : y'.phase (a.actor y) = ph' at L
  generalize hlive : y'.live = live' at L
  cases L with
  | still quiet sized => exact hp
  | grant fresh general sized => exact List.mem_cons_of_mem _ hp
  | @takeBack _ ptr tag sequel quiet sized =>
    have hne : p ≠ ptr := by
      rintro rfl
      have ha := legal.of_busy (by rw [hph]; exact id)
      refine hkeep ⟨a.actor y, tag, sequel, hph, ?_⟩
      rw [ha] at hact
      exact hact
    obtain ⟨g, hg, rfl⟩ := List.mem_map.mp hp
    exact List.mem_map_of_mem (mem_without.mpr ⟨hg, hne⟩)
  | renew sized =>
    rw [map_ptr_renewed]
    exact hp

/-- A pointer that is handed out was not live and is now. -/
theorem Acted.handsOut (A : Acted c y sh t y' ts' order' sh') (h : HandsOut y y' p) :
    p ∉ y.live.map Grant.ptr ∧ p ∈ y'.live.map Grant.ptr := by
  obtain ⟨h0, u, hp, hne⟩ := h
  obtain rfl : u = t := by
    by_contra hu
    exact hne (A.undisturbed.phase u hu)
  have L := A.ledger
  generalize hph : y.phase u = ph at L hne
  generalize hph' : y'.phase u = ph' at L hp hne
  generalize hlive : y'.live = live' at L
  cases L with
  | still quiet sized =>
    rcases quiet with h | h
    · exact absurd (hp.symm.trans h) h0
    · exact absurd h hne
  | @grant _ size q use fresh general sized =>
    obtain rfl : q = p := hp
    refine ⟨fun hm ↦ ?_, List.mem_cons_self⟩
    obtain ⟨g, hg, hgp⟩ := List.mem_map.mp hm
    exact fresh g hg hgp
  | takeBack quiet sized => exact absurd (hp.symm.trans quiet) h0
  | renew sized => exact absurd hp.symm h0

/-- What was handed out stays live while it is not given back. -/
theorem live_of_run (h : System.Reachable c y₁) (hp : p ∈ y₁.live.map Grant.ptr)
    (hrun : Relation.ReflTransGen (fun a b ↦ System.Step c a b ∧ ¬ GivesBack c a b p) y₁ y₂) :
    System.Reachable c y₂ ∧ p ∈ y₂.live.map Grant.ptr := by
  induction hrun with
  | refl => exact ⟨h, hp⟩
  | tail _ hstep ih =>
    obtain ⟨hreach, hlive⟩ := ih
    obtain ⟨a, _, _, _, _, _, _, legal, hact, -, A⟩ := hreach.acted hstep.1
    exact ⟨hreach.step hstep.1, A.live_stays legal hact hlive hstep.2⟩

/-- No slot is lost, shared or handed out twice, in any interleaving: a pointer that one
`my_malloc` has handed out is not handed out again before it was given back. -/
theorem slots_partitioned (h : System.Reachable c y) :
    (∃ sh, SlotPartition y sh) ∧
      ∀ {y₁ y₂ y₃ : System} {p : Nat}, System.Step c y y₁ → HandsOut y y₁ p →
        Relation.ReflTransGen (fun a b ↦ System.Step c a b ∧ ¬ GivesBack c a b p) y₁ y₂ →
        System.Step c y₂ y₃ → ¬ HandsOut y₂ y₃ p := by
  constructor
  · obtain ⟨ts, order, sh, C⟩ := h.consistent
    exact ⟨sh, C.slotPartition⟩
  · intro y₁ y₂ y₃ p hstep hout hrun hstep' hout'
    obtain ⟨_, _, _, _, _, _, _, -, -, -, A⟩ := h.acted hstep
    obtain ⟨hreach, hlive⟩ := live_of_run (h.step hstep) (A.handsOut hout).2 hrun
    obtain ⟨_, _, _, _, _, _, _, -, -, -, A'⟩ := hreach.acted hstep'
    exact (A'.handsOut hout').1 hlive

theorem slots_partitioned_handover : ∃ sh, SlotPartition .handover sh ∧
    0x808f70 ∈ sh (.live 3) := by
  obtain ⟨⟨sh, P⟩, -⟩ := slots_partitioned System.handover_reachable
  exact ⟨sh, P, (P.shows (.live 3) _).mpr ⟨.small, by decide +kernel, rfl, rfl⟩⟩

end CustomAllocator
