import CustomAllocator.Pool.Cells

/-!
# Taking slots from a pool

Specifications of `Pool::expand`, `Pool::allocate`, `Pool::deallocate` and of the two batch
operations, over the pool's free chain as a list of slots. A pool that runs dry acquires a
region and threads its slots; what it then hands out comes from the old chain or from
that region, and nothing changes when the kernel refuses.
-/

namespace CustomAllocator
open CustomAllocator.Base

/-- The sizes of a pool of class `i`. -/
structure Pool.Shape (p : Pool) (i : Fin numSizeClasses) : Prop where
  payload_eq : p.slotPayloadSize = classSize i
  total_eq : p.slotTotalSize = classSize i + 16

/-- Size classes are multiples of sixteen from 16 to 4096. -/
theorem classSize_bounds (i : Fin numSizeClasses) :
    16 ≤ classSize i ∧ classSize i ≤ 4096 ∧ classSize i % 16 = 0 := by
  revert i
  decide

theorem Pool.init_shape (i : Fin numSizeClasses) : (Pool.init (classSize i)).Shape i := by
  have := classSize_bounds i
  refine ⟨rfl, ?_⟩
  simp only [Pool.init, sizeofPoolSlotHeader]
  rw [add64_of_lt (by omega)]
  omega

/-- Sizes a pool works with: slots keep their payloads aligned and the request for a region does
not wrap. -/
structure Pool.Sized (p : Pool) : Prop where
  payload_ge : 16 ≤ p.slotPayloadSize
  payload_aligned : p.slotPayloadSize % 16 = 0
  total_eq : p.slotTotalSize = p.slotPayloadSize + 16
  fits : p.slotTotalSize * slotsPerArena < 2 ^ 64

/-- A pool together with the list of slots its free chain visits. -/
structure FreeSlots (k : Machine) (p : Pool) (l : List Nat) : Prop where
  sized : p.Sized
  chain : Chain (read64 k.mem) 0 p.freeHead l
  addr : ∀ y ∈ l, SlotAddr y
  mapped : ∀ y ∈ l, InMapped k.os.mapped y

/-- The same for a pool of class `i`. -/
structure PoolHolds (k : Machine) (p : Pool) (i : Fin numSizeClasses) (l : List Nat) : Prop where
  shape : p.Shape i
  chain : Chain (read64 k.mem) 0 p.freeHead l
  addr : ∀ y ∈ l, SlotAddr y
  mapped : ∀ y ∈ l, InMapped k.os.mapped y

/-- The bytes `expand` asks for, in whole pages. -/
def arenaBytes (c : Config) (total : Nat) : Nat := roundUpToPage c (total * slotsPerArena)

/-- One arena's worth of slots. -/
def arenaSlots (c : Config) (total : Nat) : Nat := arenaBytes c total / total

/-- A pool may have grown by the slots of the regions `rs`; memory changed in these regions and
in the words of `ws` only. -/
structure PoolGrown (c : Config) (ws : List Nat) (rs : List OsRegion) (k : Machine) (p : Pool)
    (k' : Machine) (p' : Pool) : Prop where
  regions : NewRegions k.os.mapped rs k'.os.mapped
  arenas_eq : p'.arenas = p.arenas ++ rs
  payload_eq : p'.slotPayloadSize = p.slotPayloadSize
  total_eq : p'.slotTotalSize = p.slotTotalSize
  words : WordsChanged ws rs k.mem k'.mem
  sizes : ∀ r ∈ rs, r.size = arenaBytes c p.slotTotalSize

/-- The slots of a fresh region in the order `expand` chains them. -/
def freshSlots (total : Nat) (r : OsRegion) : List Nat :=
  (slotAddrs r.base total (r.size / total)).reverse

/-- The free chain `l` followed by the slots of the regions `rs`, in the order they are taken. -/
def supply (total : Nat) (l : List Nat) (rs : List OsRegion) : List Nat :=
  l ++ rs.flatMap (freshSlots total)

/-- Regions are acquired only when nothing else is left: what then remains on the chain is part
of one of them. -/
def Frugal (c : Config) (total : Nat) (rs : List OsRegion) (l : List Nat) : Prop :=
  rs = [] ∨ l.length ≤ arenaSlots c total

variable {c : Config} {k k' : Machine} {p p' : Pool} {i : Fin numSizeClasses} {l : List Nat}
  {ws : List Nat} {rs : List OsRegion}

/-- A pool of a size class has sizes it works with. -/
theorem Pool.Shape.sized (h : p.Shape i) : p.Sized := by
  have hcls := classSize_bounds i
  obtain ⟨hpay, htotal⟩ := h
  refine ⟨by omega, by omega, by omega, ?_⟩
  unfold slotsPerArena
  omega

theorem PoolHolds.free (H : PoolHolds k p i l) : FreeSlots k p l :=
  ⟨H.shape.sized, H.chain, H.addr, H.mapped⟩

/-- A pool that has grown is still of its class. -/
theorem PoolGrown.holds (h : PoolGrown c ws rs k p k' p') (hp : p.Shape i)
    (H : FreeSlots k' p' l) : PoolHolds k' p' i l :=
  ⟨⟨h.payload_eq.trans hp.payload_eq, h.total_eq.trans hp.total_eq⟩, H.chain, H.addr, H.mapped⟩

theorem mem_freshSlots {total : Nat} {r : OsRegion} {y : Nat} :
    y ∈ freshSlots total r ↔ CarvedFrom total [r] y := by
  simp only [freshSlots, List.mem_reverse, CarvedFrom, List.mem_singleton, exists_eq_left]

theorem mem_supply {total : Nat} {y : Nat} :
    y ∈ supply total l rs ↔ y ∈ l ∨ CarvedFrom total rs y := by
  simp only [supply, List.mem_append, List.mem_flatMap, freshSlots, List.mem_reverse, CarvedFrom]

theorem supply_append {total : Nat} {rs' : List OsRegion} :
    supply total (supply total l rs) rs' = supply total l (rs ++ rs') := by
  simp [supply]

/-- Taking more than the supply held before its last region leaves at most that region. -/
theorem Frugal.of_supply {total : Nat} {taken l' : List Nat}
    (hs : taken ++ l' = supply total l rs)
    (hneed : ∀ rs₁ r, rs = rs₁ ++ [r] → (supply total l rs₁).length < taken.length)
    (hsize : ∀ r ∈ rs, r.size = arenaBytes c total) : Frugal c total rs l' := by
  rcases List.eq_nil_or_concat rs with rfl | ⟨rs₁, r, rfl⟩
  · exact .inl rfl
  rw [List.concat_eq_append] at hs hneed hsize ⊢
  have hlt := hneed rs₁ r rfl
  rw [← supply_append] at hs
  have hlen := congrArg List.length hs
  rw [List.length_append, supply, List.length_append] at hlen
  simp only [List.flatMap_singleton, freshSlots, List.length_reverse, slotAddrs, List.length_map,
    List.length_range, hsize r (by simp)] at hlen
  exact .inr (by unfold arenaSlots; omega)

/-- The slots of fresh regions are slot addresses inside them. -/
theorem CarvedFrom.fresh (hp : p.Sized) {mapped mapped' rs : List OsRegion}
    (h : NewRegions mapped rs mapped') {y : Nat} (hy : CarvedFrom p.slotTotalSize rs y) :
    SlotAddr y ∧ InMapped mapped' y := by
  have hge := hp.payload_ge
  have hmod := hp.payload_aligned
  have ht := hp.total_eq
  refine ⟨hy.slotAddr h.wf (by omega) (by omega), ?_⟩
  obtain ⟨r, hr, hlo, hhi⟩ := hy.bounds
  exact ⟨r, h.mem_new hr, hlo, by omega⟩

namespace FreeSlots

/-- `expand` on an empty chain either fails without a trace or supplies the slots of one region. -/
theorem expand (H : FreeSlots k p []) :
    (∃ os, p.expand c k = (⟨k.mem, os⟩, p, false) ∧ os.mapped = k.os.mapped) ∨
    ∃ k' p' r x l', p.expand c k = (k', p', true) ∧ PoolGrown c [] [r] k p k' p' ∧
      FreeSlots k' p' (x :: l') ∧ x :: l' = freshSlots p.slotTotalSize r := by
  have hge := H.sized.payload_ge
  have hmod := H.sized.payload_aligned
  have ht := H.sized.total_eq
  have hfits := H.sized.fits
  have hsize : mul64 p.slotTotalSize slotsPerArena = p.slotTotalSize * slotsPerArena :=
    mul64_of_lt hfits
  unfold Pool.expand
  rw [hsize]
  rcases osAcquire_cases c k hfits with
    ⟨hn, hmem, hmapped⟩ | ⟨r, hr, hle, hwf, hok, hmem, hmapped⟩
  · left
    rcases hos : osAcquire c k (p.slotTotalSize * slotsPerArena) with ⟨k', res⟩
    rw [hos] at hn hmem hmapped
    obtain rfl : res = none := hn
    refine ⟨k'.os, ?_, hmapped⟩
    rw [← show k'.mem = k.mem from hmem]
  right
  rcases hos : osAcquire c k (p.slotTotalSize * slotsPerArena) with ⟨k', res⟩
  rw [hos] at hr hmem hmapped
  obtain rfl : res = some r := hr
  have hbytes : r.size = arenaBytes c p.slotTotalSize :=
    osAcquire_size (k := k) (by rw [hos])
  have hnew : NewRegions k.os.mapped [r] k'.os.mapped := by
    rw [show k'.os.mapped = r :: k.os.mapped from hmapped]
    exact .singleton hwf hok
  have hbase := hwf.base_ge
  have hstop := hwf.stop_le
  have hdiv := Nat.div_mul_le_self r.size p.slotTotalSize
  have hhead : p.freeHead = 0 := H.chain
  obtain ⟨hchain, hout⟩ := carveSlots_spec hwf.base_aligned (by omega)
    (show p.slotTotalSize % 16 = 0 by omega) (by omega) (r.size / p.slotTotalSize) (i := 0)
    (by rw [Nat.zero_add]; omega) (show Chain (read64 k'.mem) 0 p.freeHead [] from hhead)
    (by simp) (by simp)
  rw [Nat.zero_mul, Nat.zero_add] at hout
  rw [List.append_nil, ← List.range_eq_range'] at hchain
  have hmany : slotsPerArena ≤ r.size / p.slotTotalSize :=
    (Nat.le_div_iff_mul_le (by omega)).mpr (by rw [Nat.mul_comm]; exact hle)
  have hfresh : freshSlots p.slotTotalSize r = ((List.range (r.size / p.slotTotalSize)).map
      fun n ↦ r.base + n * p.slotTotalSize).reverse := rfl
  rw [← hfresh] at hchain
  have hlen : (freshSlots p.slotTotalSize r).length = r.size / p.slotTotalSize := by
    rw [hfresh, List.length_reverse, List.length_map, List.length_range]
  cases hl' : freshSlots p.slotTotalSize r with
  | nil =>
    rw [hl', List.length_nil] at hlen
    unfold slotsPerArena at hmany
    omega
  | cons x l' =>
    have hmem' : ∀ y ∈ x :: l', CarvedFrom p.slotTotalSize [r] y := fun y hy ↦
      mem_freshSlots.mp (hl' ▸ hy)
    rw [hl'] at hchain
    refine ⟨_, _, r, x, l', rfl,
      ⟨hnew, rfl, rfl, rfl, fun a _ ha ↦ ?_, fun q hq ↦ List.mem_singleton.mp hq ▸ hbytes⟩,
      ⟨⟨hge, hmod, ht, hfits⟩, hchain, fun y hy ↦ ((hmem' y hy).fresh H.sized hnew).1,
        fun y hy ↦ ((hmem' y hy).fresh H.sized hnew).2⟩, hl'.symm⟩
    have := ha r (by simp)
    unfold OsRegion.stop at this
    refine (hout a (by omega)).trans ?_
    rw [show k'.mem = fill k.mem r.base 0 r.size from hmem, fill_of_out _ _ (by omega)]

/-- A pool is ready to hand out a slot unless its chain is empty and the kernel refuses. -/
theorem ready (H : FreeSlots k p l) :
    (∃ os, p.ready c k = (⟨k.mem, os⟩, p, false) ∧ l = [] ∧ os.mapped = k.os.mapped) ∨
    ∃ k' p' rs x l', p.ready c k = (k', p', true) ∧ PoolGrown c [] rs k p k' p' ∧
      FreeSlots k' p' (x :: l') ∧ x :: l' = supply p.slotTotalSize l rs ∧ rs.length ≤ 1 ∧
      (l ≠ [] → rs = [] ∧ k' = k ∧ p' = p) := by
  unfold Pool.ready
  cases l with
  | nil =>
    have hhead : p.freeHead = 0 := H.chain
    rw [if_pos hhead]
    rcases H.expand (c := c) with ⟨os, hrun, hos⟩ | ⟨k', p', r, x, l', hrun, hg, hh, hl⟩
    · exact .inl ⟨os, hrun, rfl, hos⟩
    · exact .inr ⟨k', p', [r], x, l', hrun, hg, hh, by simpa [supply] using hl, by simp, by simp⟩
  | cons x l' =>
    have hhead : p.freeHead ≠ 0 := fun h ↦ by simpa using H.chain.head_eq_nil_iff.mp h
    rw [if_neg hhead]
    exact .inr ⟨k, p, [], x, l', rfl, ⟨.nil _, by simp, rfl, rfl, .refl _ _ _, by simp⟩, H,
      by simp [supply], by simp, fun _ ↦ ⟨rfl, rfl, rfl⟩⟩

end FreeSlots

/-! ### Single slots -/

/-- Growth steps compose. -/
theorem PoolGrown.trans {rs' : List OsRegion} {k'' : Machine} {p'' : Pool}
    (h : PoolGrown c ws rs k p k' p') (h' : PoolGrown c ws rs' k' p' k'' p'') :
    PoolGrown c ws (rs ++ rs') k p k'' p'' where
  regions := h.regions.trans h'.regions
  arenas_eq := by rw [h'.arenas_eq, h.arenas_eq, List.append_assoc]
  payload_eq := h'.payload_eq.trans h.payload_eq
  total_eq := h'.total_eq.trans h.total_eq
  words := (h.words.mono (fun _ h ↦ h) (by simp_all)).trans
    (h'.words.mono (fun _ h ↦ h) (by simp_all))
  sizes r hr := (List.mem_append.mp hr).elim (h.sizes r) fun hr' ↦
    h.total_eq ▸ h'.sizes r hr'

theorem PoolGrown.mono {ws' : List Nat} (h : PoolGrown c ws rs k p k' p')
    (hw : ∀ x ∈ ws, x ∈ ws') : PoolGrown c ws' rs k p k' p' :=
  { h with words := h.words.mono hw fun _ h ↦ h }

/-- The null check of a slot access passes. -/
theorem loadNext_ok {m : Mem} {x : Nat} (h : SlotAddr x) : loadNext m x = .ok (read64 m x) :=
  if_neg (Nat.ne_of_gt h.1)

theorem storeWord_ok {m : Mem} {x v : Nat} (h : SlotAddr x) :
    storeWord m x v = .ok (write64 m x v) :=
  if_neg (Nat.ne_of_gt h.1)

/-- Storing the word of a slot leaves chains through other slots alone. -/
theorem chain_write {m : Mem} {h x v : Nat} {l : List Nat} (hc : Chain (read64 m) 0 h l)
    (hl : ∀ y ∈ l, SlotAddr y) (hx : SlotAddr x) (hn : x ∉ l) :
    Chain (read64 (write64 m x v)) 0 h l :=
  Path.congr hc fun y hy ↦ by
    have hya := (hl y hy).2.1
    have hxa := hx.2.1
    exact read64_write64_of_ne _ _ (by omega) (by omega) fun he ↦ hn (he ▸ hy)

namespace FreeSlots

/-- Taking the first slot off the chain and using its word for something else. -/
theorem pop {x : Nat} (H : FreeSlots k p (x :: l)) (v : Nat) :
    p.freeHead = x ∧ x ∉ l ∧ SlotAddr x ∧ InMapped k.os.mapped x ∧
      FreeSlots { k with mem := write64 k.mem x v } { p with freeHead := read64 k.mem x } l := by
  have hnd := List.nodup_cons.mp H.chain.nodup
  have hx := H.addr x (by simp)
  have hl : ∀ y ∈ l, SlotAddr y := fun y hy ↦ H.addr y (by simp [hy])
  obtain ⟨hhead, -, htail⟩ := H.chain
  exact ⟨hhead, hnd.1, hx, H.mapped x (by simp),
    ⟨⟨H.sized.payload_ge, H.sized.payload_aligned, H.sized.total_eq, H.sized.fits⟩,
      chain_write htail hl hx hnd.1, hl, fun y hy ↦ H.mapped y (by simp [hy])⟩⟩

/-- `allocate` either fails without a trace or hands out the next slot of the supply, tagged
with the pool. -/
theorem allocate (H : FreeSlots k p l) {self : Nat} (hself : self < 2 ^ 64) :
    (∃ os, p.ready c k = (⟨k.mem, os⟩, p, false) ∧ p.allocate c self k = .ok (⟨k.mem, os⟩, p, 0) ∧
      l = [] ∧ os.mapped = k.os.mapped) ∨
    ∃ k' p' rs x l', (p.ready c k).2.2 = true ∧ k'.os = (p.ready c k).1.os ∧
      p'.arenas = (p.ready c k).2.1.arenas ∧ p.allocate c self k = .ok (k', p', x + 16) ∧
      PoolGrown c [x] rs k p k' p' ∧ FreeSlots k' p' l' ∧ x ∉ l' ∧ SlotAddr x ∧
      InMapped k'.os.mapped x ∧ read64 k'.mem x = self ∧
      x :: l' = supply p.slotTotalSize l rs ∧ Frugal c p.slotTotalSize rs l' := by
  unfold Pool.allocate
  rcases H.ready (c := c) with
    ⟨os, hrun, hl, hos⟩ | ⟨k', p', rs, x, l', hrun, hg, hh, hm, hone, hkeep⟩
  · exact .inl ⟨os, hrun, by rw [hrun], hl, hos⟩
  right
  obtain ⟨hhead, hx, hxa, hxm, hh'⟩ := hh.pop self
  rw [hrun]
  refine ⟨{ k' with mem := write64 k'.mem x self }, { p' with freeHead := read64 k'.mem x }, rs, x,
    l', rfl, rfl, rfl, ?_, ⟨hg.regions, hg.arenas_eq, hg.payload_eq, hg.total_eq, ?_, hg.sizes⟩,
    hh', hx, hxa, hxm, read64_write64_same _ _ hself, hm,
    .of_supply (show [x] ++ l' = _ from hm) (fun rs₁ r hrs ↦ ?_) hg.sizes⟩
  · simp only [hhead, loadNext_ok hxa, storeWord_ok hxa, ok_bind]
    rw [add64_of_lt (show x + sizeofPoolSlotHeader < 2 ^ 64 from hxa.2.2)]
  · exact (hg.words.mono (by simp) fun _ h ↦ h).trans (.write (by simp) _)
  · have hl : l = [] := by
      by_contra hne
      have h0 := (hkeep hne).1
      rw [hrs] at h0
      simp at h0
    have hrs₁ : rs₁ = [] := by
      rw [hrs, List.length_append, List.length_singleton] at hone
      exact List.length_eq_zero_iff.mp (by omega)
    simp [supply, hl, hrs₁]

/-- A returned slot becomes the first of the chain. -/
theorem deallocate (H : FreeSlots k p l) {x : Nat} (hx : SlotAddr x)
    (hxm : InMapped k.os.mapped x) (hn : x ∉ l) :
    p.deallocate k.mem (x + 16) =
        .ok (write64 k.mem x p.freeHead, { p with freeHead := x }) ∧
      FreeSlots { k with mem := write64 k.mem x p.freeHead } { p with freeHead := x }
        (x :: l) := by
  have hsub : sub64 (x + 16) sizeofPoolSlotHeader = x := by
    rw [sub64_of_le (by unfold sizeofPoolSlotHeader; omega) hx.2.2]
    simp
  have hhead := chain_head_lt H.chain H.addr
  refine ⟨?_, ⟨⟨H.sized.payload_ge, H.sized.payload_aligned, H.sized.total_eq, H.sized.fits⟩,
    (chain_write H.chain H.addr hx hn).push (Nat.ne_of_gt hx.1)
      (read64_write64_same _ _ hhead) fun _ _ ↦ rfl, fun y hy ↦ ?_, fun y hy ↦ ?_⟩⟩
  · simp only [Pool.deallocate, hsub, storeWord_ok hx, ok_bind]
  · rcases List.mem_cons.mp hy with rfl | hy
    · exact hx
    · exact H.addr y hy
  · rcases List.mem_cons.mp hy with rfl | hy
    · exact hxm
    · exact H.mapped y hy

end FreeSlots

/-! ### Batches -/

/-- A chain of slots with its head, tail and length: a cache or a batch. -/
structure SlotList (m : Mem) (head tail count : Nat) (l : List Nat) : Prop where
  chain : Chain (read64 m) 0 head l
  tail_eq : tail = l.getLastD 0
  count_eq : count = l.length
  addr : ∀ y ∈ l, SlotAddr y

/-- Appending a detached slot to a batch. -/
theorem Pool.appendSlot_spec {m : Mem} {b : SlotBatch} {bs : List Nat} {x : Nat}
    (B : SlotList m b.head b.tail b.count bs) (hx : SlotAddr x) (hn : x ∉ bs)
    (hx0 : read64 m x = 0) :
    ∃ m' b', Pool.appendSlot m b x = .ok (m', b') ∧
      SlotList m' b'.head b'.tail b'.count (bs ++ [x]) ∧ WordsChanged bs [] m m' := by
  have haddr : ∀ y ∈ bs ++ [x], SlotAddr y := by
    intro y hy
    rcases List.mem_append.mp hy with hy | hy
    · exact B.addr y hy
    · exact List.mem_singleton.mp hy ▸ hx
  have hone : Chain (read64 m) 0 x [x] := ⟨rfl, Nat.ne_of_gt hx.1, hx0⟩
  unfold Pool.appendSlot
  rcases List.eq_nil_or_concat bs with rfl | ⟨zs, z, rfl⟩
  · rw [if_pos (show b.tail = 0 from B.tail_eq)]
    exact ⟨m, _, rfl, ⟨hone, rfl, by simp [B.count_eq], haddr⟩, .refl _ _ _⟩
  · rw [List.concat_eq_append] at B hn haddr ⊢
    have hz : b.tail = z := by simpa using B.tail_eq
    have hza := B.addr z (by simp)
    have hnd := B.chain.nodup
    have hzzs : z ∉ zs := fun h ↦ (List.nodup_append.mp hnd).2.2 z h z (by simp) rfl
    have hne : ∀ y ∈ zs ++ [x], y ≠ z := by
      intro y hy he
      rcases List.mem_append.mp hy with hy | hy
      · exact hzzs (he ▸ hy)
      · rw [← List.mem_singleton.mp hy, he] at hn
        exact hn (by simp)
    have hread : ∀ y ∈ zs ++ [x], read64 (write64 m z x) y = read64 m y := fun y hy ↦ by
      have hya : SlotAddr y := haddr y (by
        rcases List.mem_append.mp hy with h | h <;> simp_all)
      have := hya.2.1
      have := hza.2.1
      exact read64_write64_of_ne _ _ (by omega) (by omega) (hne y hy)
    rw [hz, if_neg (Nat.ne_of_gt hza.1), storeWord_ok hza, ok_bind]
    refine ⟨_, _, rfl, ⟨?_, by simp, by simp [B.count_eq], haddr⟩, .write (by simp) _⟩
    exact B.chain.splice hone (read64_write64_same _ _ (by have := hx.2.2; omega))
      (fun y hy ↦ hread y (by simp [hy])) fun y hy ↦ hread y (by simp_all)

/-- A batch survives any change that spares its words. -/
theorem SlotList.congr {m m' : Mem} {head tail count : Nat} (B : SlotList m head tail count l)
    (h : WordsChanged ws rs m m') (hws : ∀ x ∈ ws, x % 16 = 0) (hlw : ∀ y ∈ l, y ∉ ws)
    (hlr : ∀ y ∈ l, ∀ r ∈ rs, y + 16 ≤ r.base ∨ r.stop ≤ y) : SlotList m' head tail count l where
  chain := h.chain hws B.chain (fun y hy ↦ (B.addr y hy).2.1) hlw fun y hy r hr ↦ by
    have := hlr y hy r hr
    omega
  tail_eq := B.tail_eq
  count_eq := B.count_eq
  addr := B.addr

namespace FreeSlots

/-- A pool's chain survives any change that spares its words. -/
theorem congr {m' : Mem} {os' : Os} (H : FreeSlots k p l) (h : WordsChanged ws rs k.mem m')
    (hr : NewRegions k.os.mapped rs os'.mapped) (hws : ∀ x ∈ ws, x % 16 = 0)
    (hlw : ∀ y ∈ l, y ∉ ws) : FreeSlots ⟨m', os'⟩ p l where
  sized := H.sized
  chain := h.chain hws H.chain (fun y hy ↦ (H.addr y hy).2.1) hlw fun y hy r hrs ↦ by
    have := (H.mapped y hy).out hr hrs
    omega
  addr := H.addr
  mapped y hy := (H.mapped y hy).mono hr

end FreeSlots

/-- The state of the loop of `allocate_batch`: the chain `l` left in the pool and the slots `bs`
gathered so far. -/
structure Gathering (k : Machine) (p : Pool) (b : SlotBatch) (l bs : List Nat) : Prop where
  free : FreeSlots k p l
  batch : SlotList k.mem b.head b.tail b.count bs
  mapped : ∀ y ∈ bs, InMapped k.os.mapped y
  apart : ∀ y ∈ bs, y ∉ l

/-- An empty batch. -/
theorem FreeSlots.gathering (H : FreeSlots k p l) : Gathering k p ⟨0, 0, 0⟩ l [] :=
  ⟨H, ⟨rfl, rfl, rfl, by simp⟩, by simp, by simp⟩

/-- One round of the loop ends it, or moves the next slot of the supply to the end of the batch. -/
theorem Gathering.step {b : SlotBatch} {bs : List Nat} (G : Gathering k p b l bs) :
    (∃ os, p.ready c k = (⟨k.mem, os⟩, p, false) ∧ l = [] ∧ os.mapped = k.os.mapped ∧
      ∀ n, Pool.gather c (n + 1) k p b = .ok (⟨k.mem, os⟩, p, b)) ∨
    ∃ k' p' b' rs x l', (p.ready c k).2.2 = true ∧ k'.os = (p.ready c k).1.os ∧
      p'.arenas = (p.ready c k).2.1.arenas ∧
      (∀ n, Pool.gather c (n + 1) k p b = Pool.gather c n k' p' b') ∧
      PoolGrown c (x :: bs) rs k p k' p' ∧ Gathering k' p' b' l' (bs ++ [x]) ∧
      x :: l' = supply p.slotTotalSize l rs ∧ rs.length ≤ 1 ∧
      (l ≠ [] → rs = [] ∧ k'.os = k.os) := by
  obtain ⟨H, B, hbm, hbl⟩ := G
  rcases H.ready (c := c) with
    ⟨os, hrun, hl, hos⟩ | ⟨k₁, p₁, rs, x, l', hrun, hg, hh, hsup, hone, hkeep⟩
  · exact .inl ⟨os, hrun, hl, hos, fun n ↦ by rw [Pool.gather, hrun]⟩
  right
  obtain ⟨hhead, hx, hxa, hxm, hh₁⟩ := hh.pop 0
  have hold : ∀ y ∈ bs, y ∉ x :: l' := by
    intro y hy hyl
    rw [hsup, mem_supply] at hyl
    rcases hyl with h | h
    · exact hbl y hy h
    · obtain ⟨r, hr, hlo, hhi⟩ := h.bounds
      have := (hbm y hy).out hg.regions hr
      have := H.sized.total_eq
      omega
  have hxb : x ∉ bs := fun h ↦ hold x h (by simp)
  -- The batch is not touched by the growth of the pool, nor by detaching `x`.
  have B₁ : SlotList (write64 k₁.mem x 0) b.head b.tail b.count bs :=
    (B.congr hg.words (by simp) (by simp) fun y hy r hr ↦ (hbm y hy).out hg.regions hr).congr
      (.write_one x 0) (by simpa using hxa.2.1)
      (fun y hy h ↦ hxb (List.mem_singleton.mp h ▸ hy)) (by simp)
  obtain ⟨m', b', happ, B', hw⟩ := Pool.appendSlot_spec B₁ hxa hxb
    (read64_write64_same _ _ (by decide))
  have hbs16 : ∀ y ∈ bs, y % 16 = 0 := fun y hy ↦ (B.addr y hy).2.1
  refine ⟨⟨m', k₁.os⟩, { p₁ with freeHead := read64 k₁.mem x }, b', rs, x, l', by rw [hrun],
    by rw [hrun], by rw [hrun], fun n ↦ ?_,
    ⟨hg.regions, hg.arenas_eq, hg.payload_eq, hg.total_eq, ?_, hg.sizes⟩,
    ⟨hh₁.congr hw (.nil _) hbs16 fun y hy h ↦ hold y h (by simp [hy]), B', fun y hy ↦ ?_,
      fun y hy h ↦ ?_⟩, hsup, hone, fun hl ↦ ?_⟩
  · rw [Pool.gather, hrun]
    simp only [hhead, loadNext_ok hxa, storeWord_ok hxa, ok_bind, happ]
  · refine ((hg.words.mono (by simp) fun _ h ↦ h).trans (.write (x := x) (by simp) 0)).trans ?_
    exact hw.mono (fun y hy ↦ by simp [hy]) (by simp)
  · rcases List.mem_append.mp hy with h | h
    · exact (hbm y h).mono hg.regions
    · exact List.mem_singleton.mp h ▸ hxm
  · rcases List.mem_append.mp hy with hb | hb
    · exact hold y hb (by simp [h])
    · exact hx (List.mem_singleton.mp hb ▸ h)
  · obtain ⟨hrs, rfl, -⟩ := hkeep hl
    exact ⟨hrs, rfl⟩

/-- The loop of `allocate_batch` moves slots from the front of the supply to the end of the
batch; it asks for a region only when it has used up everything else, and stops early only when
nothing is left. -/
theorem Gathering.run (n : Nat) {b : SlotBatch} {bs : List Nat} (G : Gathering k p b l bs) :
    ∃ k' p' b' rs taken l', Pool.gather c n k p b = .ok (k', p', b') ∧
      PoolGrown c (bs ++ taken) rs k p k' p' ∧ Gathering k' p' b' l' (bs ++ taken) ∧
      taken ++ l' = supply p.slotTotalSize l rs ∧ taken.length ≤ n ∧
      (∀ rs₁ r, rs = rs₁ ++ [r] → (supply p.slotTotalSize l rs₁).length < taken.length) ∧
      (taken.length < n → l' = []) ∧ (taken = [] → k'.mem = k.mem ∧ p' = p) ∧
      (n ≤ l.length → k'.os = k.os) := by
  induction n generalizing k p b bs l with
  | zero =>
    exact ⟨k, p, b, [], [], l, rfl, ⟨.nil _, by simp, rfl, rfl, .refl _ _ _, by simp⟩,
      by simpa using G, by simp [supply], Nat.le_refl _, by simp, by simp,
      fun _ ↦ ⟨rfl, rfl⟩, fun _ ↦ rfl⟩
  | succ n ih =>
    rcases G.step (c := c) with
      ⟨os, -, hl, hos, hrun⟩ | ⟨k₁, p₁, b₁, rs₁, x, l₁, -, -, -, hrun, hg₁, G₁, hm₁, hone, hkeep⟩
    · subst hl
      have hnew : NewRegions k.os.mapped [] os.mapped := hos ▸ .nil _
      refine ⟨⟨k.mem, os⟩, p, b, [], [], [], hrun n,
        ⟨hnew, by simp, rfl, rfl, .refl _ _ _, by simp⟩,
        ⟨G.free.congr (.refl [] _ _) hnew (by simp) (by simp), by simpa using G.batch,
          fun y hy ↦ (G.mapped y (by simpa using hy)).mono hnew, by simp⟩, by simp [supply],
        by simp, by simp, fun _ ↦ rfl, fun _ ↦ ⟨rfl, rfl⟩, by simp⟩
    obtain ⟨k', p', b', rs, taken, l', hrun', hg', G', hsup, hlen, hneed, hstop, -, hos'⟩ := ih G₁
    rw [List.append_assoc, List.singleton_append] at hg' G'
    have htotal : p₁.slotTotalSize = p.slotTotalSize := hg₁.total_eq
    rw [htotal] at hsup hneed
    have hsup' : ∀ qs, x :: supply p.slotTotalSize l₁ qs =
        supply p.slotTotalSize l (rs₁ ++ qs) := by
      intro qs
      rw [← supply_append, ← hm₁]
      rfl
    refine ⟨k', p', b', rs₁ ++ rs, x :: taken, l', (hrun n).trans hrun',
      (hg₁.mono fun y hy ↦ ?_).trans hg', G', ?_, by simpa using hlen, fun qs r hqs ↦ ?_,
      fun h ↦ hstop (by simpa using h), fun h ↦ absurd h (by simp), fun hn ↦ ?_⟩
    · rcases List.mem_cons.mp hy with rfl | hy
      · simp
      · simp [hy]
    · rw [List.cons_append, hsup, hsup']
    · -- The last region was acquired in the rest of the loop, or right now on an empty chain.
      rcases List.eq_nil_or_concat rs with rfl | ⟨zs, z, rfl⟩
      · rw [List.append_nil] at hqs
        have hl : l = [] := by
          by_contra hne
          rw [(hkeep hne).1] at hqs
          simp at hqs
        have hqs0 : qs = [] := by
          rw [hqs, List.length_append, List.length_singleton] at hone
          exact List.length_eq_zero_iff.mp (by omega)
        subst hl hqs0
        simp [supply]
      · rw [List.concat_eq_append] at hqs hneed
        rw [← List.append_assoc] at hqs
        obtain ⟨rfl, -⟩ := List.append_inj' hqs rfl
        have := hneed zs z rfl
        rw [← hsup', List.length_cons, List.length_cons]
        omega
    · have hne : l ≠ [] := by
        rintro rfl
        simp at hn
      obtain ⟨rfl, hos₁⟩ := hkeep hne
      have := congrArg List.length hm₁
      simp only [supply, List.flatMap_nil, List.append_nil, List.length_cons] at this
      exact (hos' (by omega)).trans hos₁

namespace FreeSlots

/-- `allocate_batch` takes up to `n` slots from the front of the supply. It asks for a region only
when the supply so far is used up, and returns fewer slots only when nothing is left. -/
theorem allocateBatch (n : Nat) (H : FreeSlots k p l) :
    ∃ k' p' b' rs taken l', p.allocateBatch c k n = .ok (k', p', b') ∧
      PoolGrown c taken rs k p k' p' ∧ FreeSlots k' p' l' ∧
      SlotList k'.mem b'.head b'.tail b'.count taken ∧
      (∀ y ∈ taken, InMapped k'.os.mapped y) ∧ (∀ y ∈ taken, y ∉ l') ∧
      taken ++ l' = supply p.slotTotalSize l rs ∧ taken.length ≤ n ∧
      (∀ rs₁ r, rs = rs₁ ++ [r] → (supply p.slotTotalSize l rs₁).length < taken.length) ∧
      (taken.length < n → l' = []) ∧ (taken = [] → k'.mem = k.mem ∧ p' = p) ∧
      (n ≤ l.length → k'.os = k.os) := by
  obtain ⟨k', p', b', rs, taken, l', h, hg, G, hrest⟩ := H.gathering.run (c := c) n
  exact ⟨k', p', b', rs, taken, l', h, hg, G.free, G.batch, G.mapped, G.apart, hrest⟩

/-- A returned batch is spliced in front of the chain. -/
theorem deallocateBatch (H : FreeSlots k p l) {hd t : Nat} {xs : List Nat}
    (hc : Chain (read64 k.mem) 0 hd (xs ++ [t])) (ha : ∀ y ∈ xs ++ [t], SlotAddr y)
    (hm : ∀ y ∈ xs ++ [t], InMapped k.os.mapped y) (hn : ∀ y ∈ xs ++ [t], y ∉ l) :
    p.deallocateBatch k.mem hd t =
        .ok (write64 k.mem t p.freeHead, { p with freeHead := hd }) ∧
      FreeSlots { k with mem := write64 k.mem t p.freeHead } { p with freeHead := hd }
        (xs ++ [t] ++ l) := by
  have ht := ha t (by simp)
  have hnd := hc.nodup
  have hxt : ∀ y ∈ xs, y ≠ t := fun y hy ↦ (List.nodup_append.mp hnd).2.2 y hy t (by simp)
  have hread : ∀ y, y ∈ xs ++ [t] ∨ y ∈ l → y ≠ t →
      read64 (write64 k.mem t p.freeHead) y = read64 k.mem y := by
    intro y hy hne
    have hya : SlotAddr y := hy.elim (ha y) (H.addr y)
    have := hya.2.1
    have := ht.2.1
    exact read64_write64_of_ne _ _ (by omega) (by omega) hne
  refine ⟨?_, ⟨⟨H.sized.payload_ge, H.sized.payload_aligned, H.sized.total_eq, H.sized.fits⟩, ?_,
    fun y hy ↦ ?_, fun y hy ↦ ?_⟩⟩
  · simp only [Pool.deallocateBatch, storeWord_ok ht, ok_bind]
  · refine hc.splice H.chain (read64_write64_same _ _ (chain_head_lt H.chain H.addr))
      (fun y hy ↦ hread y (.inl (by simp [hy])) (hxt y hy)) fun y hy ↦ hread y (.inr hy) ?_
    rintro rfl
    exact hn y (by simp) hy
  · exact (List.mem_append.mp hy).elim (ha y) (H.addr y)
  · exact (List.mem_append.mp hy).elim (hm y) (H.mapped y)

end FreeSlots

/-! ### Pools of a size class -/

/-- `allocate` on a pool of class `i`. -/
theorem Pool.allocate_spec (H : PoolHolds k p i l) {self : Nat} (hself : self < 2 ^ 64) :
    (∃ os, p.allocate c self k = .ok (⟨k.mem, os⟩, p, 0) ∧ l = [] ∧ os.mapped = k.os.mapped) ∨
    ∃ k' p' rs x l', p.allocate c self k = .ok (k', p', x + 16) ∧
      PoolGrown c [x] rs k p k' p' ∧ PoolHolds k' p' i l' ∧ x ∉ l' ∧ SlotAddr x ∧
      InMapped k'.os.mapped x ∧ read64 k'.mem x = self ∧
      (∀ y, y ∈ x :: l' ↔ y ∈ l ∨ CarvedFrom p.slotTotalSize rs y) ∧
      Frugal c p.slotTotalSize rs l' := by
  rcases H.free.allocate (c := c) hself with
    ⟨os, -, h, hl, hos⟩ | ⟨k', p', rs, x, l', -, -, -, h, hg, hh, hn, hx, hm, hr, hs, hfew⟩
  · exact .inl ⟨os, h, hl, hos⟩
  · exact .inr ⟨k', p', rs, x, l', h, hg, hg.holds H.shape hh, hn, hx, hm, hr, fun y ↦ by
      rw [hs, mem_supply], hfew⟩

/-- `deallocate` on a pool of class `i`. -/
theorem Pool.deallocate_spec (H : PoolHolds k p i l) {x : Nat} (hx : SlotAddr x)
    (hxm : InMapped k.os.mapped x) (hn : x ∉ l) :
    p.deallocate k.mem (x + 16) =
        .ok (write64 k.mem x p.freeHead, { p with freeHead := x }) ∧
      PoolHolds { k with mem := write64 k.mem x p.freeHead } { p with freeHead := x } i
        (x :: l) := by
  obtain ⟨h, hh⟩ := H.free.deallocate hx hxm hn
  exact ⟨h, ⟨H.shape.payload_eq, H.shape.total_eq⟩, hh.chain, hh.addr, hh.mapped⟩

/-- A batch allocation moves up to `n` slots out of the pool; an empty batch means that nothing
changed. -/
theorem Pool.allocateBatch_spec {n : Nat} (hn : 0 < n) (H : PoolHolds k p i l) :
    ∃ k' p' b' rs taken l', p.allocateBatch c k n = .ok (k', p', b') ∧
      PoolGrown c taken rs k p k' p' ∧ PoolHolds k' p' i l' ∧
      SlotList k'.mem b'.head b'.tail b'.count taken ∧
      (∀ y ∈ taken, InMapped k'.os.mapped y) ∧ (∀ y ∈ taken, y ∉ l') ∧
      (∀ y, (y ∈ taken ∨ y ∈ l') ↔ y ∈ l ∨ CarvedFrom p.slotTotalSize rs y) ∧
      taken.length ≤ n ∧ Frugal c p.slotTotalSize rs l' ∧
      (taken = [] → l = [] ∧ k'.mem = k.mem ∧ p' = p ∧ k'.os.mapped = k.os.mapped) := by
  obtain ⟨k', p', b', rs, taken, l', h, hg, hh, hb, hm, hd, hs, hlen, hneed, hstop, hkeep, -⟩ :=
    H.free.allocateBatch (c := c) n
  refine ⟨k', p', b', rs, taken, l', h, hg, hg.holds H.shape hh, hb, hm, hd, fun y ↦ ?_, hlen,
    .of_supply hs hneed hg.sizes, fun ht ↦ ?_⟩
  · rw [← List.mem_append, hs, mem_supply]
  · subst ht
    have hrs : rs = [] := by
      rcases List.eq_nil_or_concat rs with rfl | ⟨zs, z, rfl⟩
      · rfl
      · exact absurd (hneed zs z List.concat_eq_append) (by simp)
    subst hrs
    rw [hstop hn] at hs
    exact ⟨by simpa [supply] using hs.symm, (hkeep rfl).1, (hkeep rfl).2, hg.regions.mapped_eq⟩

/-- A batch returned to a pool of class `i`. -/
theorem Pool.deallocateBatch_spec (H : PoolHolds k p i l) {hd t : Nat} {xs : List Nat}
    (hc : Chain (read64 k.mem) 0 hd (xs ++ [t])) (ha : ∀ y ∈ xs ++ [t], SlotAddr y)
    (hm : ∀ y ∈ xs ++ [t], InMapped k.os.mapped y) (hn : ∀ y ∈ xs ++ [t], y ∉ l) :
    p.deallocateBatch k.mem hd t =
        .ok (write64 k.mem t p.freeHead, { p with freeHead := hd }) ∧
      PoolHolds { k with mem := write64 k.mem t p.freeHead } { p with freeHead := hd } i
        (xs ++ [t] ++ l) := by
  obtain ⟨h, hh⟩ := H.free.deallocateBatch hc ha hm hn
  exact ⟨h, ⟨H.shape.payload_eq, H.shape.total_eq⟩, hh.chain, hh.addr, hh.mapped⟩

end CustomAllocator
