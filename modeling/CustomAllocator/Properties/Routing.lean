import CustomAllocator.Properties.SlotPartition

/-!
# Routing

The word before a pointer is compared with the addresses of the nine pools. It is exact as long
as no general block comes to have a pool's address for its size, which depends on the sizes
clients ask for and on where the program's static objects are.
-/

namespace CustomAllocator
open CustomAllocator.Base

/-- The word before every live pointer names the pool whose slot it is, and no pool otherwise. -/
def ExactlyRouted (c : Config) (y : System) : Prop :=
  ∀ g ∈ y.live, (isKnownPool c (tagOf y.state.mem g.ptr) = true ↔ g.origin.isSome = true) ∧
    ∀ i, g.origin = some i → tagOf y.state.mem g.ptr = c.poolAddr i ∧
      ∃ x, y.Carved i x ∧ g.ptr = x + 16

/-! ### The sizes blocks get -/

/-- The payload that a block of `available` bytes keeps when `wanted` are asked for: all of it
when the rest is too small for a block. -/
def keptSize (available wanted : Nat) : Nat :=
  if available < wanted + minBlockSize then available else wanted

/-- The payload of the block that serves a general request of `wanted` rounded bytes: just
these, or what is kept of the first listed block that fits. -/
def servedSize (c : Config) (s : State) (wanted : Nat) : Nat :=
  match FreeList.findFirstFit c s.mem s.freeHead wanted with
  | .ok reused => if reused = 0 then wanted else keptSize (getSize s.mem reused) wanted
  | .error _ => wanted

/-- The payload of a general block after the first locked section of a reallocation to `wanted`
rounded bytes: unchanged, or what is kept after growing over a free right neighbour. -/
def inPlaceSize (c : Config) (s : State) (header wanted : Nat) : Nat :=
  if wanted ≤ getSize s.mem header then getSize s.mem header
  else
    match rightNeighborIfFree c s.arenas s.mem header with
    | .ok right =>
      if right = 0 then getSize s.mem header
      else if wanted ≤ combinedPayloadSize s.mem header right then
        keptSize (combinedPayloadSize s.mem header right) wanted
      else getSize s.mem header
    | .error _ => getSize s.mem header

/-- No general block gets a pool's address for its size: neither from the locked section of a
general allocation, nor from the first one of a general reallocation. -/
def SizeClear (c : Config) (y : System) : Action → Prop
  | .advance t =>
    match y.phase t with
    | .malloc size _ => originOf size = none →
      isKnownPool c (servedSize c y.state (alignUp size)) = false
    | .retagged ptr newSize tag => isKnownPool c tag = false →
        isKnownPool c (inPlaceSize c y.state (headerOf ptr) (alignUp newSize)) = false
    | _ => True
  | _ => True

/-- What clients may do, whatever their pointers are routed to. -/
def Action.Permitted (c : Config) (y : System) : Action → Prop
  | .call t request => (∃ r, y.phase t = .idle r) ∧ request.Fits ∧ (request.argument = 0 ∨
      ∃ g ∈ y.live, g.ptr = request.argument ∧ y.owner g.ptr = t)
  | a => a.Legal c y

/-- The systems of all interleavings of permitted actions that `allowed` admits. -/
def System.Permits (c : Config) (allowed : System → Action → Prop) (y : System) : Prop :=
  ∃ mem offers arenaSize, arenaSize < 2 ^ 64 ∧
    Relation.ReflTransGen (fun y y' ↦ ∃ a : Action, a.Permitted c y ∧ allowed y a ∧
      y.act c a = .ok y') (System.start mem offers arenaSize) y

variable {c : Config} {y y' : System} {t : Tid} {ts ts' : List Carved}
  {order order' : List Nat} {sh sh' : Shelves} {g : Grant} {b r k : Block} {a : Action}
  {s s' : State} {n size newSize ptr tag : Nat} {use : Purpose}

/-! ### Reading the sizes off the heap -/

/-- Fitting a block keeps the size `keptSize` names. -/
theorem Block.fit_keptSize (b : Block) (n : Nat) : (b.fit n).size = keptSize b.size n := by
  unfold Block.fit keptSize
  split <;> rfl

/-- The size of the block that serves a general request. -/
theorem Served.servedSize_eq (h : Served c s ts order n s' ts' order' k)
    (H : GeneralHeap s.mem s.freeHead s.arenas ts order) : servedSize c s n = k.size := by
  unfold servedSize
  rw [H.rep.findFirstFit c n]
  dsimp only
  cases h with
  | reused b mem free first size block rest listed os arenas =>
    have hb := H.rep.placed.block_bounds mem
    have hsize := ((H.rep.tagged b mem).header free).getSize (H.rep.placed.block_wf mem)
    rw [show order.find? _ = _ from first, Option.getD_some, if_neg (by omega), hsize, block]
    exact (Block.fit_keptSize b n).symm
  | bumped init a unlisted newest room block listed os arenas =>
    rw [show order.find? _ = _ from unlisted, Option.getD_none, if_pos rfl, block]
  | grown r unlisted full answer room block listed os arenas =>
    rw [show order.find? _ = _ from unlisted, Option.getD_none, if_pos rfl, block]

/-- What a block's right side looks like in memory: no free block, or the one that follows. -/
theorem GeneralHeap.rightSide (c : Config) (H : GeneralHeap s.mem s.freeHead s.arenas ts order)
    (hb : Allocated ts b) (hh : Headed s.mem b) :
    (rightNeighborIfFree c s.arenas s.mem b.addr = .ok 0 ∧
      ∀ r, Follows ts b r → r.free = false) ∨
    ∃ r, Follows ts b r ∧ r.free = true ∧ r.addr ≠ 0 ∧
      rightNeighborIfFree c s.arenas s.mem b.addr = .ok r.addr ∧
      combinedPayloadSize s.mem b.addr r.addr = (b.join r).size := by
  obtain ⟨z, rfl, I⟩ := H.hold hb hh
  have hright := I.rep.rightNeighbor c I.headed
  rw [← I.arenas_eq] at hright
  cases hz : z.after with
  | nil =>
    rw [hz] at hright
    exact .inl ⟨hright, fun r hr ↦ absurd hr (H.rep.placed.not_follows hz)⟩
  | cons r after =>
    rw [hz] at hright
    have hfol := H.rep.placed.follows_right hz
    have hrm : r ∈ blocksOf (z.fill [b]) := Site.mem_fill.mpr (.inl (by simp [Site.others, hz]))
    have hbd := I.rep.placed.block_bounds hrm
    cases hf : r.free with
    | false =>
      refine .inl ⟨by rw [hright]; simp [freeAddr, hf], fun q hq ↦ ?_⟩
      rw [hq.right_unique hfol H.rep.placed]
      exact hf
    | true =>
      obtain ⟨hcomb, -⟩ := I.absorbRight c hz hf
      exact .inr ⟨r, hfol, hf, by omega, by rw [hright]; simp [freeAddr, hf], hcomb⟩

/-- The size of a block after the first locked section of a reallocation that leaves it alone. -/
theorem Hemmed.inPlaceSize_eq (h : Hemmed ts b n)
    (H : GeneralHeap s.mem s.freeHead s.arenas ts order) (hb : Allocated ts b)
    (hh : Headed s.mem b) : inPlaceSize c s b.addr n = b.size := by
  obtain ⟨hlt, hhem⟩ := h
  have hsize := hh.getSize (H.rep.placed.block_wf hb.1)
  unfold inPlaceSize
  rw [hsize, if_neg (by omega)]
  rcases H.rightSide c hb hh with ⟨hright, -⟩ | ⟨r, hfol, hf, h0, hright, hcomb⟩
  · rw [hright]
    exact if_pos rfl
  · have hjoin := hhem r hfol hf
    rw [hright]
    dsimp only
    rw [if_neg h0, hcomb, if_neg (by omega)]

/-- The size of a block after the first locked section of a reallocation that keeps it. -/
theorem Widened.inPlaceSize_eq (h : Widened ts order b n ts' order' k)
    (H : GeneralHeap s.mem s.freeHead s.arenas ts order) (hb : Allocated ts b)
    (hh : Headed s.mem b) : inPlaceSize c s b.addr n = k.size := by
  have hsize := hh.getSize (H.rep.placed.block_wf hb.1)
  unfold inPlaceSize
  rw [hsize]
  cases h with
  | fits size heap listed block => rw [if_pos size, block]
  | grown r size follows free room block rest listed =>
    rw [if_neg (by omega)]
    rcases H.rightSide c hb hh with ⟨-, hnone⟩ | ⟨q, hfol, -, h0, hright, hcomb⟩
    · exact absurd (hnone r follows) (by simp [free])
    · obtain rfl : q = r := hfol.right_unique follows H.rep.placed
      rw [hright]
      dsimp only
      rw [if_neg h0, hcomb, if_pos room, block]
      exact (Block.fit_keptSize _ n).symm

/-! ### One step -/

/-- Routing is exact when no general block has a pool's address for its size. -/
theorem Consistent.exactlyRouted_iff (C : Consistent c y ts order sh) :
    ExactlyRouted c y ↔
      ∀ g ∈ y.live, g.origin = none → isKnownPool c (usable y.state g) = false := by
  constructor
  · intro h g hg ho
    apply (C.booked.routed_iff hg).mp _ ho
    have := (h g hg).1
    unfold Routed
    rw [Bool.eq_iff_iff]
    exact this
  · intro h g hg
    constructor
    · rw [← Bool.eq_iff_iff]
      exact (C.booked.routed_iff hg).mpr (h g hg)
    · intro i ho
      obtain ⟨x, hx, hp, -⟩ := C.booked.pooled g hg i ho
      exact ⟨C.booked.tag_pooled hg ho, x, C.slotPartition.carved (.live i) x hx, hp⟩

/-- Exact routing makes every permitted action legal. -/
theorem ExactlyRouted.legal (h : ExactlyRouted c y) (permitted : a.Permitted c y) :
    a.Legal c y := by
  cases a with
  | call t request =>
    obtain ⟨hidle, hfits, harg⟩ := permitted
    refine ⟨hidle, hfits, harg.imp_right ?_⟩
    rintro ⟨g, hg, hp, ho⟩
    refine ⟨g, hg, hp, ho, ?_⟩
    unfold Routed
    rw [Bool.eq_iff_iff]
    exact (h g hg).1
  | _ => exact permitted

/-- The usable size depends on the pointer and its origin alone. -/
theorem usable_congr {g' : Grant} (hp : g'.ptr = g.ptr) (ho : g'.origin = g.origin) :
    usable s g' = usable s g := by
  unfold usable
  rw [hp, ho]

/-- The block of a general allocation is as long as `servedSize` says. -/
theorem Consistent.served_size (C : Consistent c y ts order sh)
    (hph : y.phase t = .malloc size use) (ho : originOf size = none)
    (hact : y.advance c t = .ok y') :
    y'.phase t = .got size 0 use ∨ ∃ p, y'.phase t = .got size p use ∧
      ⟨p, size, originOf size⟩ ∈ y'.live ∧
      usable y'.state ⟨p, size, originOf size⟩ = servedSize c y.state (alignUp size) := by
  have hok : PhaseOk c y sh t (.malloc size use) := hph ▸ C.phases t
  have A := C.booked.coherent
  have hlo := originOf_eq_none.mp ho
  unfold System.advance at hact
  simp only [hph, ho] at hact
  rcases A.heap.mallocGeneral c (fun a ha ↦ A.regions.arena_mapped ha) A.arenaSize_lt hlo hok.1
    with ⟨os, hrun, -⟩ | ⟨s', ts', order', k, hrun, hadd, hserved⟩
  · rw [hrun, ok_bind, Except.ok.injEq] at hact
    rw [← hact]
    exact .inl (System.setPhase_same _ _ _)
  · rw [hrun, ok_bind, Except.ok.injEq] at hact
    obtain ⟨B, -⟩ := C.booked.grantBlock hadd hlo
    have hk : k.addr + 16 ≠ 0 := by omega
    have hown : OwnsBlock s'.mem ts' ⟨k.addr + 16, size, originOf size⟩ k :=
      ⟨(hadd.allocated k).mpr (.inl rfl), rfl, hadd.headed, hadd.size_le⟩
    rw [System.handOut, if_neg hk] at hact
    rw [← hact]
    refine .inr ⟨k.addr + 16, System.setPhase_same _ _ _, List.mem_cons_self, ?_⟩
    rw [hserved.servedSize_eq A.heap]
    exact B.usable_general ho hown

/-- The block that a reallocation worked on in place is as long as `inPlaceSize` says. -/
theorem Consistent.resized (C : Consistent c y ts order sh)
    (hph : y.phase t = .retagged ptr newSize tag) (htag : isKnownPool c tag = false)
    (hact : y.advance c t = .ok y') :
    ∃ g ∈ y'.live, g.ptr = ptr ∧ g.origin = none ∧
      usable y'.state g = inPlaceSize c y.state (headerOf ptr) (alignUp newSize) := by
  obtain ⟨-, ⟨g, rfl, hg⟩, -, rfl⟩ :
    PhaseOk c y sh t (.retagged ptr newSize tag) := hph ▸ C.phases t
  have H := C.booked.coherent.heap
  have ho : g.origin = none := by
    have hrouted := hg.routed
    rw [Routed, htag] at hrouted
    exact Option.not_isSome_iff_eq_none.mp (by simp [← hrouted])
  obtain ⟨b, hb, hn⟩ := C.booked.general g hg.live ho
  have hu := C.booked.usable_general ho hb
  have hheader := hb.headerOf_eq H.rep.placed
  unfold System.advance at hact
  simp only [hph, htag, Bool.false_eq_true, if_false, hheader] at hact
  rw [hheader]
  rcases H.reallocInPlace c hb.allocated hb.headed newSize with
    ⟨hrun, hhem⟩ | ⟨m', head', ts', order', b', hrun, H', haddr, hh, -, hgrow, halloc, hframe, -,
      hwide⟩
  · rw [hrun, ok_bind, Except.ok.injEq] at hact
    rw [← hact]
    exact ⟨g, hg.live, rfl, ho, by
      rw [hhem.inPlaceSize_eq H hb.allocated hb.headed, ← hu]
      exact usable_congr rfl rfl⟩
  · obtain ⟨-, -, hu'⟩ :=
      C.booked.growBlock (m', head') hg.live ho hb hn H' haddr hh hgrow halloc hframe
    rw [hrun, ok_bind, Except.ok.injEq] at hact
    rw [← hact]
    exact ⟨_, mem_renewed.mpr ⟨g, hg.live, .inl ⟨rfl, rfl⟩⟩, rfl, ho, by
      rw [hwide.inPlaceSize_eq H hb.allocated hb.headed, ← hu']
      exact usable_congr rfl rfl⟩

/-- Routing stays exact across an action that is clear, and is lost in one that is not, unless the
kernel refused the memory. -/
theorem Acted.routing (A : Acted c y sh (a.actor y) y' ts' order' sh')
    (C : Consistent c y ts order sh) (hexact : ExactlyRouted c y) (legal : a.Legal c y)
    (hact : y.act c a = .ok y') :
    (SizeClear c y a → ExactlyRouted c y') ∧
      (¬ SizeClear c y a → ExactlyRouted c y' →
        ∃ size use, y'.phase (a.actor y) = .got size 0 use) := by
  have hold := C.exactlyRouted_iff.mp hexact
  constructor
  · intro hclear
    rw [A.consistent.exactlyRouted_iff]
    intro g hg ho
    have hlive : ∀ {kept : List Grant}, SameSize y.state y'.state kept → g ∈ y.live → g ∈ kept →
        isKnownPool c (usable y'.state g) = false := fun hsized hmem hkept ↦ by
      rw [hsized g hkept]
      exact hold g hmem ho
    have L := A.ledger
    generalize hph : y.phase (a.actor y) = ph at L
    generalize hph' : y'.phase (a.actor y) = ph' at L
    generalize hl : y'.live = live' at L hg
    cases L with
    | still quiet sized => exact hlive sized hg hg
    | @grant _ size p use fresh general sized =>
      rcases List.mem_cons.mp hg with rfl | hg
      · have hmalloc := general ho
        have ha := legal.of_busy (by rw [hph, hmalloc]; exact id)
        rw [ha] at hclear hact
        simp only [SizeClear, hph, hmalloc] at hclear
        rcases C.served_size (hph.trans hmalloc) ho hact with h | ⟨q, hq, -, hsize⟩
        · rw [hph', Phase.got.injEq] at h
          have := A.consistent.booked.ptr_aligned (hl ▸ List.mem_cons_self)
          dsimp only at this
          omega
        · rw [hph', Phase.got.injEq] at hq
          obtain ⟨-, rfl, -⟩ := hq
          rw [hsize]
          exact hclear ho
      · exact hlive sized hg hg
    | @takeBack _ ptr tag sequel quiet sized =>
      exact hlive sized (mem_without.mp hg).1 hg
    | @renew ptr newSize tag sized =>
      obtain ⟨h, hh, ⟨hp, rfl⟩ | ⟨hp, rfl⟩⟩ := mem_renewed.mp hg
      · have ha := legal.of_busy (by rw [hph]; exact id)
        obtain ⟨-, -, -, htag⟩ : PhaseOk c y sh (a.actor y) (.retagged ptr newSize tag) :=
          hph ▸ C.phases (a.actor y)
        have hnot : isKnownPool c tag = false := by
          have hiff := (hexact h hh).1
          rw [hp, ← htag] at hiff
          rw [Bool.eq_false_iff]
          intro hknown
          have := hiff.mp hknown
          rw [show h.origin = none from ho] at this
          exact absurd this (by decide)
        rw [ha] at hclear hact
        simp only [SizeClear, hph] at hclear
        obtain ⟨q, hq, hqp, hqo, hsize⟩ := C.resized hph hnot hact
        rw [← hsize] at hclear
        have hsame : usable y'.state ⟨h.ptr, newSize, h.origin⟩ = usable y'.state q :=
          usable_congr (hp.trans hqp.symm) ((show h.origin = none from ho).trans hqo.symm)
        rw [hsame]
        exact hclear hnot
      · exact hlive sized hh (mem_without.mpr ⟨hh, hp⟩)
  · intro hclear hexact'
    have hnew := A.consistent.exactlyRouted_iff.mp hexact'
    cases a with
    | advance t =>
      cases hph : y.phase t with
      | malloc size use =>
        simp only [SizeClear, hph] at hclear
        by_cases ho : originOf size = none
        · rcases C.served_size hph ho hact with h | ⟨p, -, hmem, hsize⟩
          · exact ⟨size, use, h⟩
          · exact absurd (fun _ ↦ hsize ▸ hnew _ hmem ho) hclear
        · exact absurd (fun h ↦ absurd h ho) hclear
      | retagged ptr newSize tag =>
        simp only [SizeClear, hph] at hclear
        by_cases htag : isKnownPool c tag = false
        · obtain ⟨g, hg, -, ho, hsize⟩ := C.resized hph htag hact
          exact absurd (fun _ ↦ hsize ▸ hnew g hg ho) hclear
        · exact absurd (fun h ↦ absurd h htag) hclear
      | _ => exact absurd (by simp only [SizeClear, hph]) hclear
    | _ => exact absurd trivial hclear

/-! ### Whole runs -/

/-- While every action is clear, the run stays among those whose pointers are routed. -/
theorem System.Permits.exact (h : System.Permits c (SizeClear c) y) :
    System.Reachable c y ∧ ExactlyRouted c y := by
  obtain ⟨mem, offers, arenaSize, hsize, hrun⟩ := h
  have hstart : System.Reachable c (System.start mem offers arenaSize) :=
    ⟨mem, offers, arenaSize, hsize, .refl⟩
  induction hrun with
  | refl => exact ⟨hstart, fun g hg ↦ by simp [System.start] at hg⟩
  | tail _ hstep ih =>
    obtain ⟨hreach, hexact⟩ := ih
    obtain ⟨a, permitted, hclear, hact⟩ := hstep
    have legal := hexact.legal permitted
    obtain ⟨ts, order, sh, C⟩ := hreach.consistent
    obtain ⟨z, _, _, _, hz, A⟩ := C.act legal
    obtain rfl : z = _ := by simpa using hz.symm.trans hact
    exact ⟨hreach.step ⟨a, legal, hact⟩, (A.routing C hexact legal hact).1 hclear⟩

/-- In every run whose steps give no general block a pool's address for its size, routing is exact
in every system reached and every slot is in place; the first step that is not clear breaks it,
unless the kernel refuses the memory. -/
theorem routing_exact (h : System.Permits c (SizeClear c) y) :
    ExactlyRouted c y ∧ (∃ sh, SlotPartition y sh) ∧
      ∀ a : Action, a.Permitted c y → ∃ y', y.act c a = .ok y' ∧
        (SizeClear c y a → ExactlyRouted c y') ∧
        (¬ SizeClear c y a → ExactlyRouted c y' →
          ∃ size use, y'.phase (a.actor y) = .got size 0 use) := by
  obtain ⟨hreach, hexact⟩ := h.exact
  obtain ⟨ts, order, sh, C⟩ := hreach.consistent
  refine ⟨hexact, ⟨sh, C.slotPartition⟩, fun a permitted ↦ ?_⟩
  have legal := hexact.legal permitted
  obtain ⟨y', _, _, _, hact, A⟩ := C.act legal
  exact ⟨y', hact, A.routing C hexact legal hact⟩

/-- A thread about to have `size` bytes allocated. -/
def System.asking (size : Nat) : System :=
  (System.start (fun _ ↦ 0xab) [some 0x800000] 65536).run .fixedBase
    [.start 0, .call 0 (.malloc size)]

theorem System.asking_permits (allowed : System → Action → Prop)
    (hstart : ∀ y, allowed y (.start 0)) (hcall : ∀ y request, allowed y (.call 0 request))
    {size : Nat} (hfits : size ≤ sizeMax - 47) :
    System.Permits .fixedBase allowed (.asking size) := by
  refine ⟨_, _, _, by decide, (Relation.ReflTransGen.refl.tail
    ⟨.start 0, rfl, hstart _, rfl⟩).tail ⟨.call 0 (.malloc size), ?_, hcall _ _, rfl⟩⟩
  exact ⟨⟨0, rfl⟩, hfits, .inl rfl⟩

theorem System.asking_phase (size : Nat) :
    (System.asking size).phase 0 = .malloc size .malloc := rfl

/-- The thread can go on. -/
theorem System.asking_permitted (size : Nat) :
    (Action.advance 0).Permitted .fixedBase (System.asking size) := by
  show ¬ ((System.asking size).phase 0).AtRest
  rw [System.asking_phase]
  exact id

/-- A request of 5000 bytes is clear of the pools' addresses, and so is its block. -/
theorem routing_exact_asking : ∃ y', (System.asking 5000).act .fixedBase (.advance 0) = .ok y' ∧
    ExactlyRouted .fixedBase y' := by
  have hrun := System.asking_permits (SizeClear .fixedBase) (fun _ ↦ trivial) (fun _ _ ↦ trivial)
    (show 5000 ≤ sizeMax - 47 by decide)
  obtain ⟨-, -, hstep⟩ := routing_exact hrun
  obtain ⟨y', hact, hclear, -⟩ := hstep (.advance 0) (System.asking_permitted 5000)
  have hserved : isKnownPool .fixedBase
      (servedSize .fixedBase (System.asking 5000).state 5000) = false := by decide +kernel
  refine ⟨y', hact, hclear ?_⟩
  simp only [SizeClear, System.asking_phase]
  exact fun _ ↦ hserved

/-- A block of 0x404100 bytes is taken for a slot of the pool object at that address. -/
theorem general_block_misrouted :
    ∃ y, System.Permits .fixedBase (fun _ _ ↦ True) y ∧ ¬ ExactlyRouted .fixedBase y := by
  have hrun := System.asking_permits (fun _ _ ↦ True) (fun _ ↦ trivial) (fun _ _ ↦ trivial)
    (show 0x404100 ≤ sizeMax - 47 by decide)
  have hlive : (((System.asking 0x404100).act .fixedBase (.advance 0)).toOption.map fun y ↦
      decide (⟨0x800010, 0x404100, none⟩ ∈ y.live ∧
        isKnownPool .fixedBase (tagOf y.state.mem 0x800010) = true)) = some true := by
    decide +kernel
  obtain ⟨mem, offers, arenaSize, hsize, hsteps⟩ := hrun
  cases hact : (System.asking 0x404100).act .fixedBase (.advance 0) with
  | error e =>
    rw [hact] at hlive
    cases hlive
  | ok y =>
    rw [hact, Except.toOption, Option.map_some, Option.some.injEq, decide_eq_true_eq] at hlive
    obtain ⟨hg, hknown⟩ := hlive
    have hpermits := hsteps.tail ⟨_, System.asking_permitted _, trivial, hact⟩
    refine ⟨y, ⟨mem, offers, arenaSize, hsize, hpermits⟩, ?_⟩
    intro hexact
    have hnone := (hexact _ hg).1.mp hknown
    cases hnone

end CustomAllocator
