import CustomAllocator.Pool.Supply
import Mathlib.Data.List.Induction

/-!
# Batched pool operations

`Pool::allocate_batch` and `Pool::deallocate_batch` against `allocate` and `deallocate` on one
slot at a time, for a pool object on its own. Its owners take and return slots in any order,
and whatever lies outside the slots on its free chain may change in between.
-/

namespace CustomAllocator
open CustomAllocator.Base

/-- Successive calls of `allocate`, up to `n` or the first null. -/
def Pool.allocateEach (c : Config) (self : Nat) : Nat → Machine → Pool →
    Except Fault (Machine × Pool × List Nat)
  | 0, k, p => .ok (k, p, [])
  | n + 1, k, p => do
    let (k, p, ptr) ← p.allocate c self k
    if ptr = 0 then .ok (k, p, [])
    else
      let (k, p, ptrs) ← allocateEach c self n k p
      .ok (k, p, ptr :: ptrs)

/-- `deallocate` on each pointer in turn. -/
def Pool.deallocateEach : Mem → Pool → List Nat → Except Fault (Mem × Pool)
  | m, p, [] => .ok (m, p)
  | m, p, ptr :: ptrs => do
    let (m, p) ← p.deallocate m ptr
    deallocateEach m p ptrs

/-- The states of a pool with payload size `payload` at address `self`, with the slots that its
owners hold. -/
inductive PoolReached (c : Config) (self payload : Nat) : Machine → Pool → List Nat → Prop
  | init (k : Machine) : PoolReached c self payload k (Pool.init payload) []
  | allocate {k k' : Machine} {p p' : Pool} {held : List Nat} {ptr : Nat}
      (h : PoolReached c self payload k p held)
      (run : p.allocate c self k = .ok (k', p', ptr)) :
      PoolReached c self payload k' p'
        (if ptr = 0 then held else (ptr - sizeofPoolSlotHeader) :: held)
  | deallocate {k : Machine} {m : Mem} {p p' : Pool} {held : List Nat} {x : Nat}
      (h : PoolReached c self payload k p held) (owned : x ∈ held)
      (run : p.deallocate k.mem (x + sizeofPoolSlotHeader) = .ok (m, p')) :
      PoolReached c self payload { k with mem := m } p' (held.erase x)
  | allocateBatch {k k' : Machine} {p p' : Pool} {held taken : List Nat} {n : Nat} {b : SlotBatch}
      (h : PoolReached c self payload k p held)
      (run : p.allocateBatch c k n = .ok (k', p', b))
      (chain : Chain (read64 k'.mem) 0 b.head taken) :
      PoolReached c self payload k' p' (taken ++ held)
  | deallocateBatch {k : Machine} {m : Mem} {p p' : Pool} {held xs : List Nat} {hd t : Nat}
      (h : PoolReached c self payload k p held) (owned : ∀ y ∈ xs ++ [t], y ∈ held)
      (chain : Chain (read64 k.mem) 0 hd (xs ++ [t]))
      (run : p.deallocateBatch k.mem hd t = .ok (m, p')) :
      PoolReached c self payload { k with mem := m } p' (held.filter (· ∉ xs ++ [t]))
  | releaseAllArenas {k : Machine} {p : Pool} {held : List Nat}
      (h : PoolReached c self payload k p held) :
      PoolReached c self payload (p.releaseAllArenas k).1 (p.releaseAllArenas k).2 []
  /-- Owners write to the slots they hold; other code writes elsewhere, maps and unmaps regions. -/
  | outside {k k' : Machine} {p : Pool} {held : List Nat}
      (h : PoolReached c self payload k p held)
      (links : ∀ x, CarvedFrom p.slotTotalSize p.arenas x → x ∉ held →
        read64 k'.mem x = read64 k.mem x)
      (regions : ∀ r ∈ p.arenas, r ∈ k'.os.mapped) : PoolReached c self payload k' p held

/-- Where the slots of a pool are: each on the free chain `l` or with an owner. -/
structure PoolOwned (k : Machine) (p : Pool) (held l : List Nat) : Prop where
  free : FreeSlots k p l
  nodup : held.Nodup
  apart : ∀ y ∈ held, y ∉ l
  carved : ∀ x, CarvedFrom p.slotTotalSize p.arenas x ↔ x ∈ l ∨ x ∈ held
  regions : ∀ r ∈ p.arenas, r ∈ k.os.mapped ∧ r.WF
  pairwise : p.arenas.Pairwise OsRegion.Apart

variable {c : Config} {self payload : Nat} {k k' : Machine} {p p' : Pool} {held l : List Nat}

namespace PoolOwned

/-- A held slot is a slot address in mapped memory. -/
theorem slot (O : PoolOwned k p held l) {x : Nat} (hx : CarvedFrom p.slotTotalSize p.arenas x) :
    SlotAddr x ∧ InMapped k.os.mapped x := by
  have hge := O.free.sized.payload_ge
  have hmod := O.free.sized.payload_aligned
  have ht := O.free.sized.total_eq
  refine ⟨hx.slotAddr (fun r hr ↦ (O.regions r hr).2) (by omega) (by omega), ?_⟩
  obtain ⟨r, hr, hlo, hhi⟩ := hx.bounds
  exact ⟨r, (O.regions r hr).1, hlo, by omega⟩

/-- A pool that grows passes its slots to the chain and to the holders of `xs`. -/
theorem grow (O : PoolOwned k p held l) {ws : List Nat} {rs : List OsRegion} {xs l' : List Nat}
    (hg : PoolGrown c ws rs k p k' p') (hf : FreeSlots k' p' l')
    (hsup : xs ++ l' = supply p.slotTotalSize l rs) (hn : xs.Nodup) (hx : ∀ y ∈ xs, y ∉ l') :
    PoolOwned k' p' (xs ++ held) l' := by
  have hmem : ∀ y, y ∈ xs ∨ y ∈ l' ↔ y ∈ l ∨ CarvedFrom p.slotTotalSize rs y := fun y ↦ by
    rw [← List.mem_append, hsup, mem_supply]
  -- Slots of new regions were never carved before.
  have hnew : ∀ y ∈ held, y ∉ l ∧ ¬ CarvedFrom p.slotTotalSize rs y := by
    intro y hy
    refine ⟨O.apart y hy, fun h ↦ ?_⟩
    obtain ⟨r, hr, hlo, hhi⟩ := h.bounds
    have := (O.slot ((O.carved y).mpr (.inr hy))).2.out hg.regions hr
    have := O.free.sized.total_eq
    omega
  have hold : ∀ y ∈ held, ¬ (y ∈ xs ∨ y ∈ l') := fun y hy h ↦
    ((hmem y).mp h).elim (hnew y hy).1 (hnew y hy).2
  refine ⟨hf, ?_, fun y hy ↦ ?_, fun y ↦ ?_, fun r hr ↦ ?_, ?_⟩
  · exact List.nodup_append.mpr ⟨hn, O.nodup, fun a ha b hb he ↦ hold b hb (.inl (he ▸ ha))⟩
  · exact (List.mem_append.mp hy).elim (hx y) fun h h' ↦ hold y h (.inr h')
  · rw [hg.total_eq, hg.arenas_eq, CarvedFrom.append, O.carved, List.mem_append]
    have := hmem y
    grind
  · rw [hg.arenas_eq, List.mem_append] at hr
    rcases hr with hr | hr
    · rw [hg.regions.mapped_eq]
      exact ⟨List.mem_append_right _ (O.regions r hr).1, (O.regions r hr).2⟩
    · exact ⟨hg.regions.mem_new hr, hg.regions.wf r hr⟩
  · rw [hg.arenas_eq, List.pairwise_append]
    exact ⟨O.pairwise, hg.regions.pairwise, fun r hr q hq ↦
      (hg.regions.apart q hq r (O.regions r hr).1).symm⟩

/-- Slots taken back by the chain. -/
theorem shrink (O : PoolOwned k p held l) {k' : Machine} {p' : Pool} {xs held' : List Nat}
    (hf : FreeSlots k' p' (xs ++ l)) (hos : k'.os = k.os) (ha : p'.arenas = p.arenas)
    (ht : p'.slotTotalSize = p.slotTotalSize) (hn : held'.Nodup)
    (hh : ∀ y, y ∈ held' ↔ y ∈ held ∧ y ∉ xs) (hx : ∀ y ∈ xs, y ∈ held) :
    PoolOwned k' p' held' (xs ++ l) where
  free := hf
  nodup := hn
  apart y hy := by
    obtain ⟨hy, hyx⟩ := (hh y).mp hy
    simp [hyx, O.apart y hy]
  carved x := by
    have := hh x
    have := hx x
    rw [ht, ha, O.carved, List.mem_append]
    grind
  regions := by
    rw [ha, hos]
    exact O.regions
  pairwise := ha ▸ O.pairwise

/-- Changes outside the chain. -/
theorem outside (O : PoolOwned k p held l)
    (hl : ∀ x, CarvedFrom p.slotTotalSize p.arenas x → x ∉ held →
      read64 k'.mem x = read64 k.mem x)
    (hr : ∀ r ∈ p.arenas, r ∈ k'.os.mapped) : PoolOwned k' p held l where
  free := {
    sized := O.free.sized
    chain := Path.congr O.free.chain fun y hy ↦
      hl y ((O.carved y).mpr (.inl hy)) fun h ↦ O.apart y h hy
    addr := O.free.addr
    mapped := fun y hy ↦ by
      have hge := O.free.sized.payload_ge
      have ht := O.free.sized.total_eq
      obtain ⟨r, hr', hlo, hhi⟩ := ((O.carved y).mpr (.inl hy)).bounds
      exact ⟨r, hr r hr', hlo, by omega⟩ }
  nodup := O.nodup
  apart := O.apart
  carved := O.carved
  regions r h := ⟨hr r h, (O.regions r h).2⟩
  pairwise := O.pairwise

end PoolOwned

/-- A fresh pool, or one whose regions have all been released. -/
theorem Pool.Sized.owned_nil (hs : p.Sized) (ha : p.arenas = []) (hh : p.freeHead = 0) :
    PoolOwned k p [] [] where
  free := ⟨hs, hh, by simp, by simp⟩
  nodup := .nil
  apart := by simp
  carved x := by simp [CarvedFrom, ha]
  regions := by simp [ha]
  pairwise := by simp [ha]

/-- In every reachable state the free chain is a list of slots that, with the slots held,
partitions everything carved. -/
theorem PoolReached.owned (hself : self < 2 ^ 64) (hs : (Pool.init payload).Sized)
    (H : PoolReached c self payload k p held) : ∃ l, PoolOwned k p held l := by
  induction H with
  | init k => exact ⟨[], hs.owned_nil rfl rfl⟩
  | allocate _ run ih =>
    obtain ⟨l, O⟩ := ih
    rcases O.free.allocate (c := c) hself with
      ⟨os, -, h, rfl, hos⟩ | ⟨k', p', rs, x, l', -, -, -, h, hg, hf, hn, hxa, -, -, hsup, -⟩
    · cases h.symm.trans run
      rw [if_pos rfl]
      exact ⟨[], O.outside (fun _ _ _ ↦ rfl) fun r hr ↦ by
        simpa only [hos] using (O.regions r hr).1⟩
    · cases h.symm.trans run
      rw [if_neg (by omega), show x + 16 - sizeofPoolSlotHeader = x from Nat.add_sub_cancel x 16]
      have hsup' : [x] ++ l' = supply _ l rs := hsup
      exact ⟨l', O.grow hg hf hsup' (by simp) (by simpa using hn)⟩
  | @deallocate k m p p' held x _ owned run ih =>
    obtain ⟨l, O⟩ := ih
    obtain ⟨hxa, hxm⟩ := O.slot ((O.carved x).mpr (.inr owned))
    obtain ⟨h, hf⟩ := O.free.deallocate hxa hxm (O.apart x owned)
    cases h.symm.trans run
    have hf' : FreeSlots _ _ ([x] ++ l) := hf
    refine ⟨x :: l, O.shrink hf' rfl rfl rfl (O.nodup.erase x) (fun y ↦ ?_) (by simpa using owned)⟩
    rw [O.nodup.mem_erase_iff, List.mem_singleton, and_comm]
  | @allocateBatch _ _ _ _ _ _ n _ _ run chain ih =>
    obtain ⟨l, O⟩ := ih
    obtain ⟨k', p', b', rs, taken, l', h, hg, hf, hb, -, hd, hsup, -⟩ :=
      O.free.allocateBatch (c := c) n
    cases h.symm.trans run
    obtain rfl := hb.chain.unique chain
    exact ⟨l', O.grow hg hf hsup hb.chain.nodup hd⟩
  | @deallocateBatch k m p p' held xs hd t _ owned chain run ih =>
    obtain ⟨l, O⟩ := ih
    have hslot := fun y hy ↦ O.slot ((O.carved y).mpr (.inr (owned y hy)))
    obtain ⟨h, hf⟩ := O.free.deallocateBatch chain (fun y hy ↦ (hslot y hy).1)
      (fun y hy ↦ (hslot y hy).2) fun y hy ↦ O.apart y (owned y hy)
    cases h.symm.trans run
    exact ⟨_, O.shrink hf rfl rfl rfl (O.nodup.filter _) (fun y ↦ by simp) owned⟩
  | @releaseAllArenas k p held _ ih =>
    obtain ⟨l, O⟩ := ih
    obtain ⟨hge, hmod, ht, hfits⟩ := O.free.sized
    exact ⟨[], Pool.Sized.owned_nil ⟨hge, hmod, ht, hfits⟩ rfl rfl⟩
  | outside _ links regions ih =>
    obtain ⟨l, O⟩ := ih
    exact ⟨l, O.outside links regions⟩

/-! ### Agreement -/

/-- Two pools with the same chain, regions and kernel; the rest of memory may differ. -/
structure AlikePools (k : Machine) (p : Pool) (k₂ : Machine) (p₂ : Pool) (l : List Nat) : Prop where
  free : FreeSlots k₂ p₂ l
  os_eq : k₂.os = k.os
  arenas_eq : p₂.arenas = p.arenas
  total_eq : p₂.slotTotalSize = p.slotTotalSize

/-- Alike pools are ready alike. -/
theorem AlikePools.ready (H : FreeSlots k p l) {k₂ : Machine} {p₂ : Pool}
    (S : AlikePools k p k₂ p₂ l) :
    (p₂.ready c k₂).2.2 = (p.ready c k).2.2 ∧ (p₂.ready c k₂).1.os = (p.ready c k).1.os ∧
      (p₂.ready c k₂).2.1.arenas = (p.ready c k).2.1.arenas := by
  have hiff : p₂.freeHead = 0 ↔ p.freeHead = 0 :=
    S.free.chain.head_eq_nil_iff.trans H.chain.head_eq_nil_iff.symm
  unfold Pool.ready
  by_cases hz : p.freeHead = 0
  · rw [if_pos hz, if_pos (hiff.mpr hz)]
    unfold Pool.expand
    rw [S.total_eq]
    obtain ⟨hos, hans⟩ := osAcquire_os c S.os_eq (mul64 p.slotTotalSize slotsPerArena)
    generalize osAcquire c k (mul64 p.slotTotalSize slotsPerArena) = a at hos hans ⊢
    generalize osAcquire c k₂ (mul64 p.slotTotalSize slotsPerArena) = a₂ at hos hans ⊢
    rcases a with ⟨k', _ | r⟩
    · obtain ⟨k₂', _⟩ := a₂
      cases hans
      exact ⟨rfl, hos, S.arenas_eq⟩
    · obtain ⟨k₂', _⟩ := a₂
      cases hans
      exact ⟨rfl, hos, congrArg (· ++ [r]) S.arenas_eq⟩
  · rw [if_neg hz, if_neg (mt hiff.mp hz)]
    exact ⟨rfl, S.os_eq, S.arenas_eq⟩

/-- The loop of `allocate_batch` on one pool and successive `allocate` calls on an alike pool
take the same slots in the same order. -/
theorem Gathering.agrees (hself : self < 2 ^ 64) (n : Nat) {b : SlotBatch} {bs : List Nat}
    {k₂ : Machine} {p₂ : Pool} (G : Gathering k p b l bs) (S : AlikePools k p k₂ p₂ l) :
    ∃ k' p' b' k₂' p₂' taken l', Pool.gather c n k p b = .ok (k', p', b') ∧
      Pool.allocateEach c self n k₂ p₂ = .ok (k₂', p₂', taken.map (· + sizeofPoolSlotHeader)) ∧
      Gathering k' p' b' l' (bs ++ taken) ∧ AlikePools k' p' k₂' p₂' l' := by
  induction n generalizing k p b bs l k₂ p₂ with
  | zero => exact ⟨k, p, b, k₂, p₂, [], l, rfl, rfl, by simpa using G, S⟩
  | succ n ih =>
    obtain ⟨hready, hos, harenas⟩ := S.ready (c := c) G.free
    rcases G.step (c := c) with
      ⟨os, hr, rfl, hmapped, hrun⟩ | ⟨k₁, p₁, b₁, rs, x, l₁, hr, hos₁, ha₁, hrun, hg, G₁, hsup, -⟩
    · -- The loop ends here, and `allocate` returns null.
      rw [hr] at hready hos harenas
      rcases S.free.allocate (c := c) hself with
        ⟨os₂, hr₂, h₂, -, -⟩ | ⟨_, _, _, _, _, hr₂, -⟩
      · rw [hr₂] at hos harenas
        have hnew : NewRegions k.os.mapped [] os.mapped := hmapped ▸ .nil _
        have hnew₂ : NewRegions k₂.os.mapped [] os₂.mapped := by
          rw [S.os_eq, show os₂ = os from hos]
          exact hnew
        refine ⟨⟨k.mem, os⟩, p, b, ⟨k₂.mem, os₂⟩, p₂, [], [], hrun n, ?_,
          ⟨G.free.congr (.refl [] _ _) hnew (by simp) (by simp), by simpa using G.batch,
            fun y hy ↦ (G.mapped y (by simpa using hy)).mono hnew, by simp⟩,
          ⟨S.free.congr (.refl [] _ _) hnew₂ (by simp) (by simp), hos, S.arenas_eq, S.total_eq⟩⟩
        rw [Pool.allocateEach, h₂, ok_bind]
        rfl
      · exact absurd (hready.symm.trans hr₂) (by simp)
    · rcases S.free.allocate (c := c) hself with
        ⟨_, hr₂, -⟩ | ⟨k₃, p₃, rs₃, x₃, l₃, hr₂, hos₃, ha₃, h₃, hg₃, hf₃, -, hx₃, -, -, hsup₃, -⟩
      · rw [hr₂] at hready
        exact absurd (hready.trans hr) (by simp)
      -- The same regions are acquired, so the supplies agree.
      have ha : p₃.arenas = p₁.arenas := ha₃.trans (harenas.trans ha₁.symm)
      have hrs : rs₃ = rs := by
        rw [hg₃.arenas_eq, hg.arenas_eq, S.arenas_eq] at ha
        exact List.append_cancel_left ha
      rw [hrs, S.total_eq, ← hsup] at hsup₃
      obtain ⟨rfl, rfl⟩ := List.cons.inj hsup₃
      have S₃ : AlikePools k₁ p₁ k₃ p₃ l₃ :=
        ⟨hf₃, hos₃.trans (hos.trans hos₁.symm), ha,
          hg₃.total_eq.trans (S.total_eq.trans hg.total_eq.symm)⟩
      obtain ⟨k', p', b', k₂', p₂', taken, l', hrun', heach, G', S'⟩ := ih G₁ S₃
      refine ⟨k', p', b', k₂', p₂', x₃ :: taken, l', (hrun n).trans hrun', ?_, ?_, S'⟩
      · rw [Pool.allocateEach, h₃, ok_bind]
        simp only [heach, ok_bind]
        rw [if_neg (by omega)]
        rfl
      · rwa [List.append_assoc, List.singleton_append] at G'

/-- Returning slots that are already linked, last one first, writes nothing new. -/
theorem Pool.deallocateEach_linked {m : Mem} {hd : Nat} {xs : List Nat} (p : Pool)
    (hp : Base.Path (read64 m) 0 hd xs p.freeHead) (ha : ∀ y ∈ xs, SlotAddr y) :
    Pool.deallocateEach m p (xs.reverse.map (· + sizeofPoolSlotHeader)) =
      .ok (m, { p with freeHead := hd }) := by
  induction xs using List.reverseRecOn generalizing p with
  | nil =>
    have hhead : hd = p.freeHead := hp
    rw [hhead]
    rfl
  | append_singleton xs y ih =>
    obtain ⟨z, hxs, hzy, -, hy⟩ := Path.append_iff.mp hp
    obtain rfl : z = y := hzy
    have hza := ha z (by simp)
    have hsub : sub64 (z + sizeofPoolSlotHeader) sizeofPoolSlotHeader = z := by
      rw [sub64_of_le (by unfold sizeofPoolSlotHeader; omega) hza.2.2]
      exact Nat.add_sub_cancel z _
    rw [List.reverse_append, List.reverse_singleton, List.singleton_append, List.map_cons,
      Pool.deallocateEach]
    have hstep : p.deallocate m (z + sizeofPoolSlotHeader) = .ok (m, { p with freeHead := z }) := by
      simp only [Pool.deallocate, hsub, storeWord_ok hza, ok_bind]
      rw [← show read64 m z = p.freeHead from hy, write64_read64]
    rw [hstep, ok_bind]
    exact ih { p with freeHead := z } hxs fun y hy ↦ ha y (by simp [hy])

/-- Splicing a batch is returning its slots one at a time from the last to the first. -/
theorem Pool.deallocateEach_batch {m : Mem} {hd t : Nat} {xs : List Nat} (p : Pool)
    (hc : Chain (read64 m) 0 hd (xs ++ [t])) (ha : ∀ y ∈ xs ++ [t], SlotAddr y) :
    Pool.deallocateEach m p ((xs ++ [t]).reverse.map (· + sizeofPoolSlotHeader)) =
      p.deallocateBatch m hd t := by
  have hta := ha t (by simp)
  have hxt : ∀ y ∈ xs, y ≠ t := fun y hy ↦
    (List.nodup_append.mp hc.nodup).2.2 y hy t (by simp)
  have hsub : sub64 (t + sizeofPoolSlotHeader) sizeofPoolSlotHeader = t := by
    rw [sub64_of_le (by unfold sizeofPoolSlotHeader; omega) hta.2.2]
    exact Nat.add_sub_cancel t _
  rw [List.reverse_append, List.reverse_singleton, List.singleton_append, List.map_cons,
    Pool.deallocateEach]
  have hstep : p.deallocate m (t + sizeofPoolSlotHeader) =
      .ok (write64 m t p.freeHead, { p with freeHead := t }) := by
    simp only [Pool.deallocate, hsub, storeWord_ok hta, ok_bind]
  have hpath : Base.Path (read64 (write64 m t p.freeHead)) 0 hd xs t := by
    obtain ⟨_, hxs, rfl, -⟩ := Path.append_iff.mp hc
    refine Path.congr hxs fun y hy ↦ ?_
    have := (ha y (by simp [hy])).2.1
    have := hta.2.1
    exact read64_write64_of_ne _ _ (by omega) (by omega) (hxt y hy)
  rw [hstep, ok_bind]
  simp only [Pool.deallocateBatch, storeWord_ok hta, ok_bind]
  exact Pool.deallocateEach_linked { p with freeHead := t } hpath fun y hy ↦ ha y (by simp [hy])

/-! ### Every reachable pool -/

/-- `allocate_batch(n)` against `n` successive `allocate` calls on the same pool. -/
def BatchAgrees (c : Config) (self n : Nat) (k : Machine) (p : Pool) : Prop :=
  ∃ k₁ p₁ b k₂ p₂ taken rest, p.allocateBatch c k n = .ok (k₁, p₁, b) ∧
    Pool.allocateEach c self n k p = .ok (k₂, p₂, taken.map (· + sizeofPoolSlotHeader)) ∧
    Chain (read64 k₁.mem) 0 b.head taken ∧ b.tail = taken.getLastD 0 ∧ b.count = taken.length ∧
    (b.head = 0 ↔ b.count = 0) ∧ (b.tail = 0 ↔ b.count = 0) ∧ b.count ≤ n ∧
    Chain (read64 k₁.mem) 0 p₁.freeHead rest ∧ Chain (read64 k₂.mem) 0 p₂.freeHead rest ∧
    p₂.arenas = p₁.arenas ∧ k₂.os = k₁.os

/-- `deallocate_batch` on the chain `xs ++ [t]` of slots against `deallocate` on each of them from
last to first. -/
def ReturnAgrees (k : Machine) (p : Pool) (l : List Nat) (hd : Nat) (xs : List Nat) (t : Nat) :
    Prop :=
  ∃ m p', p.deallocateBatch k.mem hd t = .ok (m, p') ∧
    Chain (read64 m) 0 p'.freeHead (xs ++ [t] ++ l) ∧
    Pool.deallocateEach k.mem p ((xs ++ [t]).reverse.map (· + sizeofPoolSlotHeader)) =
      .ok (m, p')

/-- Giving back what `allocate_batch(n)` took restores the chain `l` when no region was added;
none is as long as the chain suffices. -/
def BatchRestores (c : Config) (n : Nat) (k : Machine) (p : Pool) (l : List Nat) : Prop :=
  ∃ k' p' b, p.allocateBatch c k n = .ok (k', p', b) ∧
    (0 < n → n ≤ l.length → b.head ≠ 0 ∧ p'.arenas = p.arenas) ∧
    (b.head ≠ 0 → p'.arenas = p.arenas →
      ∃ m p'', p'.deallocateBatch k'.mem b.head b.tail = .ok (m, p'') ∧
        Chain (read64 m) 0 p''.freeHead l)

/-- The carved slots are aligned, inside a region of the pool, and share no byte. -/
structure CarvedApart (p : Pool) : Prop where
  aligned : ∀ x, CarvedFrom p.slotTotalSize p.arenas x → x % 16 = 0
  inside : ∀ x, CarvedFrom p.slotTotalSize p.arenas x →
    ∃ r ∈ p.arenas, r.base ≤ x ∧ x + p.slotTotalSize ≤ r.stop
  disjoint : ∀ x y, CarvedFrom p.slotTotalSize p.arenas x →
    CarvedFrom p.slotTotalSize p.arenas y → x ≠ y →
    x + p.slotTotalSize ≤ y ∨ y + p.slotTotalSize ≤ x

/-- The head and the tail of a batch are null exactly when it is empty. -/
theorem SlotList.null_iff {m : Mem} {head tail count : Nat} (B : SlotList m head tail count l) :
    (head = 0 ↔ count = 0) ∧ (tail = 0 ↔ count = 0) := by
  rw [B.chain.head_eq_nil_iff, B.tail_eq, B.count_eq, List.length_eq_zero_iff]
  refine ⟨Iff.rfl, ?_, fun h ↦ by simp [h]⟩
  intro h
  rcases List.eq_nil_or_concat l with rfl | ⟨zs, z, rfl⟩
  · rfl
  · have := (B.addr z (by simp)).1
    simp at h
    omega

namespace PoolOwned

theorem batchAgrees (O : PoolOwned k p held l) (hself : self < 2 ^ 64) (n : Nat) :
    BatchAgrees c self n k p := by
  obtain ⟨k₁, p₁, b, k₂, p₂, taken, rest, hrun, heach, G, S⟩ :=
    O.free.gathering.agrees (c := c) hself n ⟨O.free, rfl, rfl, rfl⟩
  obtain ⟨_, _, b', _, taken', _, hrun', -, -, hb', -, -, -, hlen, -⟩ :=
    O.free.allocateBatch (c := c) n
  cases hrun.symm.trans hrun'
  rw [List.nil_append] at G
  have htaken : taken' = taken := hb'.chain.unique G.batch.chain
  refine ⟨k₁, p₁, b, k₂, p₂, taken, rest, hrun, heach, G.batch.chain, G.batch.tail_eq,
    G.batch.count_eq, G.batch.null_iff.1, G.batch.null_iff.2, ?_, G.free.chain, S.free.chain,
    S.arenas_eq, S.os_eq⟩
  rw [G.batch.count_eq, ← htaken]
  exact hlen

theorem returnAgrees (O : PoolOwned k p held l) {hd t : Nat} {xs : List Nat}
    (hc : Chain (read64 k.mem) 0 hd (xs ++ [t])) (hx : ∀ y ∈ xs ++ [t], y ∈ held) :
    ReturnAgrees k p l hd xs t := by
  have hslot := fun y hy ↦ O.slot ((O.carved y).mpr (.inr (hx y hy)))
  obtain ⟨hrun, hf⟩ := O.free.deallocateBatch hc (fun y hy ↦ (hslot y hy).1)
    (fun y hy ↦ (hslot y hy).2) fun y hy ↦ O.apart y (hx y hy)
  refine ⟨_, _, hrun, hf.chain, ?_⟩
  rw [Pool.deallocateEach_batch p hc fun y hy ↦ (hslot y hy).1, hrun]

theorem batchRestores (O : PoolOwned k p held l) (n : Nat) : BatchRestores c n k p l := by
  obtain ⟨k', p', b, rs, taken, rest, hrun, hg, hf, hb, hm, hd, hsup, hlen, hneed, hstop, -⟩ :=
    O.free.allocateBatch (c := c) n
  have hnone : p'.arenas = p.arenas → taken ++ rest = l := by
    intro ha
    rw [hg.arenas_eq] at ha
    rw [hsup, List.append_cancel_left (ha.trans (List.append_nil _).symm)]
    simp [supply]
  refine ⟨k', p', b, hrun, fun hn hle ↦ ?_, fun hne ha ↦ ?_⟩
  · have hrs : rs = [] := by
      rcases List.eq_nil_or_concat rs with rfl | ⟨zs, z, rfl⟩
      · rfl
      · have := hneed zs z List.concat_eq_append
        simp only [supply, List.length_append] at this
        omega
    subst hrs
    refine ⟨fun h ↦ ?_, by simp [hg.arenas_eq]⟩
    obtain rfl := hb.chain.head_eq_nil_iff.mp h
    rw [hstop hn] at hsup
    have := congrArg List.length hsup
    simp [supply] at this
    omega
  · rcases List.eq_nil_or_concat taken with rfl | ⟨xs, t, rfl⟩
    · exact absurd hb.chain hne
    rw [List.concat_eq_append] at hb hm hd hnone
    have htail : b.tail = t := by simpa using hb.tail_eq
    obtain ⟨hret, hf'⟩ := hf.deallocateBatch hb.chain hb.addr hm hd
    rw [htail]
    exact ⟨_, _, hret, hnone ha ▸ hf'.chain⟩

theorem carvedApart (O : PoolOwned k p held l) : CarvedApart p where
  aligned _ hx := (O.slot hx).1.2.1
  inside _ hx := hx.bounds
  disjoint _ _ hx hy hne := hx.apart hy O.pairwise hne

end PoolOwned

/-- The batched operations of a reachable pool do what the single ones do. -/
theorem batches_agree (hpos : 0 < payload) (hmod : payload % 16 = 0)
    (hfits : (payload + sizeofPoolSlotHeader) * slotsPerArena < 2 ^ 64) (hself : self < 2 ^ 64)
    (H : PoolReached c self payload k p held) :
    ∃ l, Chain (read64 k.mem) 0 p.freeHead l ∧
      (∀ n, BatchAgrees c self n k p) ∧
      (∀ hd xs t, Chain (read64 k.mem) 0 hd (xs ++ [t]) → (∀ y ∈ xs ++ [t], y ∈ held) →
        ReturnAgrees k p l hd xs t) ∧
      (∀ n, BatchRestores c n k p l) ∧ CarvedApart p := by
  have hs : (Pool.init payload).Sized := by
    have htotal : (Pool.init payload).slotTotalSize = payload + sizeofPoolSlotHeader := by
      rw [Pool.init, add64_of_lt, Nat.add_comm]
      unfold sizeofPoolSlotHeader slotsPerArena at *
      omega
    refine ⟨?_, hmod, htotal, htotal ▸ hfits⟩
    change 16 ≤ payload
    omega
  obtain ⟨l, O⟩ := H.owned hself hs
  exact ⟨l, O.free.chain, fun n ↦ O.batchAgrees hself n, fun hd xs t hc hx ↦ O.returnAgrees hc hx,
    fun n ↦ O.batchRestores n, O.carvedApart⟩

/-- A second batch from a pool of 32-byte slots that has handed out one already. -/
theorem batches_agree_twice : ∃ k p held,
    PoolReached .fixedBase 0x404100 32 k p held ∧ BatchAgrees .fixedBase 0x404100 300 k p ∧
      CarvedApart p := by
  have run₀ : PoolReached .fixedBase 0x404100 32
      ⟨fun _ ↦ 0, ⟨[], [some 0x10000, none, some 0x20000], []⟩⟩ (Pool.init 32) [] := .init _
  obtain ⟨-, -, hbatch, -⟩ :=
    batches_agree (by decide) (by decide) (by decide) (by decide) run₀
  obtain ⟨k₁, p₁, b, _, _, taken, _, hrun, -, hchain, -⟩ := hbatch 40
  have run₁ := run₀.allocateBatch hrun hchain
  obtain ⟨-, -, hbatch₁, -, -, hapart⟩ :=
    batches_agree (by decide) (by decide) (by decide) (by decide) run₁
  exact ⟨k₁, p₁, taken ++ [], run₁, hbatch₁ 300, hapart⟩

end CustomAllocator
