import Mathlib.Data.List.Perm.Basic
import Mathlib.Data.List.FinRange
import CustomAllocator.Layout.Malloc
import CustomAllocator.Pool.Pooled

/-!
# General heap and pools together

The two halves of the allocator share one memory and one kernel. `Coherent` says that they
stand side by side: every mapped region belongs to exactly one arena or pool, and every slot
was carved by its pool, except that an allocated block may have been taken for a slot. Each
half keeps the other: general steps spare the words of slots, and pooled steps spare free
blocks, footers and the evenness of headers.
-/

namespace CustomAllocator
open CustomAllocator.Base

/-! ### The regions in use -/

/-- Every region the allocator keeps: those of the arenas, then those of each pool. -/
def regionsOf (s : State) : List OsRegion :=
  s.arenas.map Arena.region ++
    (List.finRange numSizeClasses).flatMap fun i ↦ (s.pools i).arenas

/-- The kernel has mapped exactly the regions the allocator keeps, pairwise apart. -/
structure Regions (s : State) : Prop where
  held : s.os.mapped.Perm (regionsOf s)
  wf : ∀ r ∈ s.os.mapped, r.WF
  apart : s.os.mapped.Pairwise OsRegion.Apart

/-- Extending one member's list adds its new elements to the concatenation. -/
theorem flatMap_perm_of_extend {α β : Type} [DecidableEq α] {f g : α → List β} {a : α}
    {new : List β} (ha : g a = f a ++ new) (h : ∀ b, b ≠ a → g b = f b) {l : List α}
    (hd : l.Nodup) (hm : a ∈ l) : (l.flatMap g).Perm (new ++ l.flatMap f) := by
  obtain ⟨xs, ys, rfl⟩ := List.append_of_mem hm
  rw [List.nodup_append, List.nodup_cons] at hd
  have hxs : xs.flatMap g = xs.flatMap f :=
    List.flatMap_congr fun b hb ↦ h b fun he ↦ hd.2.2 b hb a (by simp) he
  have hys : ys.flatMap g = ys.flatMap f :=
    List.flatMap_congr fun b hb ↦ h b fun he ↦ hd.2.1.1 (he ▸ hb)
  rw [List.flatMap_append, List.flatMap_append, List.flatMap_cons, List.flatMap_cons, hxs, hys, ha]
  calc xs.flatMap f ++ (f a ++ new ++ ys.flatMap f)
      = (xs.flatMap f ++ f a) ++ (new ++ ys.flatMap f) := by simp
    _ |>.Perm ((new ++ ys.flatMap f) ++ (xs.flatMap f ++ f a)) := List.perm_append_comm
    _ = new ++ (ys.flatMap f ++ (xs.flatMap f ++ f a)) := by simp
    _ |>.Perm (new ++ ((xs.flatMap f ++ f a) ++ ys.flatMap f)) :=
        List.perm_append_comm.append_left new
    _ = new ++ (xs.flatMap f ++ (f a ++ ys.flatMap f)) := by simp

namespace Regions

variable {s s' : State}

/-- The regions an allocator keeps lie apart. -/
theorem kept (R : Regions s) : (regionsOf s).Pairwise OsRegion.Apart :=
  (R.held.pairwise_iff fun h ↦ h.symm).mp R.apart

theorem arena_mapped (R : Regions s) {a : Arena} (ha : a ∈ s.arenas) : a.region ∈ s.os.mapped :=
  R.held.mem_iff.mpr (List.mem_append_left _ (List.mem_map_of_mem ha))

theorem mem_pools {i : Fin numSizeClasses} {r : OsRegion} (h : r ∈ (s.pools i).arenas) :
    r ∈ (List.finRange numSizeClasses).flatMap fun i ↦ (s.pools i).arenas :=
  List.mem_flatMap.mpr ⟨i, List.mem_finRange i, h⟩

theorem pool_mapped (R : Regions s) {i : Fin numSizeClasses} {r : OsRegion}
    (h : r ∈ (s.pools i).arenas) : r ∈ s.os.mapped :=
  R.held.mem_iff.mpr (List.mem_append_right _ (mem_pools h))

/-- Arenas and pools own different regions. -/
theorem arena_pool (R : Regions s) {a : Arena} (ha : a ∈ s.arenas) {i : Fin numSizeClasses}
    {r : OsRegion} (h : r ∈ (s.pools i).arenas) : a.region.Apart r :=
  (List.pairwise_append.mp R.kept).2.2 _ (List.mem_map_of_mem ha) _ (mem_pools h)

/-- The regions of one pool lie apart. -/
theorem pool_pairwise (R : Regions s) (i : Fin numSizeClasses) :
    (s.pools i).arenas.Pairwise OsRegion.Apart :=
  (List.pairwise_flatMap.mp (List.pairwise_append.mp R.kept).2.1).1 i (List.mem_finRange i)

/-- Different pools own different regions. -/
theorem pool_pool (R : Regions s) {i j : Fin numSizeClasses} (hij : i ≠ j) {r q : OsRegion}
    (hr : r ∈ (s.pools i).arenas) (hq : q ∈ (s.pools j).arenas) : r.Apart q := by
  have hp := (List.pairwise_flatMap.mp (List.pairwise_append.mp R.kept).2.1).2
  have : Std.Symm fun i j ↦ ∀ r ∈ (s.pools i).arenas, ∀ q ∈ (s.pools j).arenas, r.Apart q :=
    ⟨fun _ _ h r hr q hq ↦ (h q hq r hr).symm⟩
  exact hp.forall (List.mem_finRange i) (List.mem_finRange j) hij r hr q hq

/-- A general allocation may add one arena. -/
theorem grow {c : Config} (R : Regions s) (h : ArenaGrowth c s s') (hp : s'.pools = s.pools) :
    Regions s' := by
  rcases h with ⟨hos, hr⟩ | ⟨r, hw, hok, hm, hr⟩
  · exact ⟨by simpa only [hos, regionsOf, hr, hp] using R.held, hos ▸ R.wf, hos ▸ R.apart⟩
  · refine ⟨?_, fun q hq ↦ ?_, ?_⟩
    · rw [hm, regionsOf, hr, hp, List.append_assoc]
      exact (R.held.cons r).trans List.perm_middle.symm
    · rw [hm] at hq
      rcases List.mem_cons.mp hq with rfl | hq
      · exact hw
      · exact R.wf q hq
    · rw [hm]
      exact List.pairwise_cons.mpr ⟨hok.2.2.2.2.1, R.apart⟩

/-- A pooled step may add regions to one pool. -/
theorem extend (R : Regions s) {i : Fin numSizeClasses} {rs : List OsRegion}
    (hn : NewRegions s.os.mapped rs s'.os.mapped) (ha : s'.arenas = s.arenas)
    (hi : (s'.pools i).arenas = (s.pools i).arenas ++ rs)
    (hj : ∀ j, j ≠ i → (s'.pools j).arenas = (s.pools j).arenas) : Regions s' := by
  refine ⟨?_, fun q hq ↦ ?_, ?_⟩
  · have hpools := flatMap_perm_of_extend hi hj (List.nodup_finRange numSizeClasses)
      (List.mem_finRange i)
    rw [hn.mapped_eq, regionsOf, ha]
    calc rs.reverse ++ s.os.mapped
        |>.Perm (rs ++ regionsOf s) := (List.reverse_perm rs).append R.held
      _ |>.Perm (s.arenas.map Arena.region ++ (rs ++
          (List.finRange numSizeClasses).flatMap fun i ↦ (s.pools i).arenas)) := by
        rw [regionsOf, ← List.append_assoc, ← List.append_assoc]
        exact List.perm_append_comm.append_right _
      _ |>.Perm _ := hpools.symm.append_left _
  · rw [hn.mapped_eq] at hq
    rcases List.mem_append.mp hq with hq | hq
    · exact hn.wf q (List.mem_reverse.mp hq)
    · exact R.wf q hq
  · rw [hn.mapped_eq, List.pairwise_append]
    refine ⟨?_, R.apart, fun r hr q hq ↦ hn.apart r (List.mem_reverse.mp hr) q hq⟩
    exact ((List.reverse_perm rs).pairwise_iff fun h ↦ h.symm).mpr hn.pairwise

end Regions

/-! ### Blocks and slots -/

/-- The general heap and the shelves stand side by side in one state. -/
structure Coherent (c : Config) (s : State) (tr : Transit) (ts : List Carved) (order : List Nat)
    (sh : Shelves) : Prop where
  heap : GeneralHeap s.mem s.freeHead s.arenas ts order
  shelved : Shelved c s tr sh
  regions : Regions s
  arenaSize_lt : s.arenaSize < 2 ^ 64
  slots : ∀ i x, Stands sh i x → CarvedFrom (classSize i + 16) (s.pools i).arenas x ∨
    ∃ b, Allocated ts b ∧ b.addr = x
  carved : ∀ i x, CarvedFrom (classSize i + 16) (s.pools i).arenas x → Stands sh i x

namespace Coherent

variable {c : Config} {s s' : State} {tr : Transit} {ts ts' : List Carved}
  {order order' : List Nat} {sh sh' : Shelves} {i j : Fin numSizeClasses} {x y : Nat} {b : Block}

theorem slotAddr (C : Coherent c s tr ts order sh) (hx : Stands sh i x) : SlotAddr x := by
  obtain ⟨S, -, hS⟩ := hx
  exact C.shelved.addr S x hS

/-- Every block lies in the region of an arena. -/
theorem block_region (C : Coherent c s tr ts order sh) (hb : b ∈ blocksOf ts) :
    ∃ a ∈ s.arenas, a.base ≤ b.addr ∧ b.stop ≤ a.base + a.size := by
  obtain ⟨t, ht, hlo, hhi, hle⟩ := C.heap.rep.placed.block_in_region hb
  refine ⟨t.arena, ?_, hlo, by omega⟩
  rw [C.heap.arenas_eq]
  exact List.mem_map_of_mem ht

/-- A carved slot shares no byte with a block. -/
theorem carved_block (C : Coherent c s tr ts order sh)
    (hx : CarvedFrom (classSize i + 16) (s.pools i).arenas x) (hb : b ∈ blocksOf ts) :
    x + (classSize i + 16) ≤ b.addr ∨ b.stop ≤ x := by
  obtain ⟨r, hr, hlo, hhi⟩ := hx.bounds
  obtain ⟨a, ha, hba, hbs⟩ := C.block_region hb
  have := C.regions.arena_pool ha hr
  simp only [OsRegion.Apart, Arena.region, OsRegion.stop] at this hhi
  omega

/-- A slot and a block share bytes only when the slot is the block itself, allocated. -/
theorem slot_block (C : Coherent c s tr ts order sh) (hx : Stands sh i x) (hb : b ∈ blocksOf ts) :
    x + (classSize i + 16) ≤ b.addr ∨ b.stop ≤ x ∨ b.addr = x ∧ b.free = false := by
  rcases C.slots i x hx with h | ⟨d, hd, rfl⟩
  · have := C.carved_block h hb
    omega
  · by_cases hdb : d = b
    · exact .inr (.inr ⟨by rw [hdb], hdb ▸ hd.2⟩)
    · have := C.heap.rep.placed.block_apart hd.1 hb hdb
      have := C.heap.large d hd.1 hd.2
      have := classSize_bounds i
      unfold Block.stop at *
      omega

/-- Distinct slots share no byte. -/
theorem slot_slot (C : Coherent c s tr ts order sh) (hx : Stands sh i x) (hy : Stands sh j y)
    (hne : x ≠ y) : x + (classSize i + 16) ≤ y ∨ y + (classSize j + 16) ≤ x := by
  have hci := classSize_bounds i
  have hcj := classSize_bounds j
  rcases C.slots i x hx with h | ⟨d, hd, rfl⟩
  · rcases C.slots j y hy with h' | ⟨e, he, rfl⟩
    · by_cases hij : i = j
      · subst hij
        exact h.apart h' (C.regions.pool_pairwise i) hne
      · obtain ⟨r, hr, hlo, hhi⟩ := h.bounds
        obtain ⟨q, hq, hlo', hhi'⟩ := h'.bounds
        have := C.regions.pool_pool hij hr hq
        unfold OsRegion.Apart at this
        omega
    · have := C.slot_block hx he.1
      have := C.heap.large e he.1 he.2
      unfold Block.stop at *
      omega
  · have := C.slot_block hy hd.1
    have := C.heap.large d hd.1 hd.2
    unfold Block.stop at *
    omega

end Coherent

/-! ### Each half spares the other -/

/-- The general heap survives every write that spares free blocks and footers and leaves the
headers of allocated blocks even. -/
theorem GeneralHeap.congr {m m' : Mem} {head : Nat} {arenas : List Arena} {ts : List Carved}
    {order : List Nat} (H : GeneralHeap m head arenas ts order)
    (hfree : ∀ b ∈ blocksOf ts, b.free = true → ∀ x, b.Covers x → m' x = m x)
    (hfoot : ∀ b, Allocated ts b →
      read64 m' (b.addr + 16 + b.size) = read64 m (b.addr + 16 + b.size))
    (heven : ∀ b, Allocated ts b → read64 m' b.addr % 2 = 0) :
    GeneralHeap m' head arenas ts order :=
  { H with
    rep := H.rep.congr hfree (fun b hb hf ↦ hfoot b ⟨hb, hf⟩) fun b hb hf ↦ heven b ⟨hb, hf⟩ }

namespace Coherent

variable {c : Config} {s s' : State} {tr tr' : Transit} {ts ts' : List Carved}
  {order order' : List Nat} {sh sh' : Shelves} {i : Fin numSizeClasses}

/-- Writes that spare free blocks, headers, footers and slot words change nothing else. -/
theorem write (C : Coherent c s tr ts order sh) {m' : Mem}
    (hfree : ∀ b ∈ blocksOf ts, b.free = true → ∀ x, b.Covers x → m' x = s.mem x)
    (hfoot : ∀ b, Allocated ts b →
      read64 m' (b.addr + 16 + b.size) = read64 s.mem (b.addr + 16 + b.size))
    (hhead : ∀ b, Allocated ts b → read64 m' b.addr = read64 s.mem b.addr)
    (hslots : ∀ i x, Stands sh i x → read64 m' x = read64 s.mem x) :
    Coherent c { s with mem := m' } tr ts order sh where
  heap := C.heap.congr hfree hfoot fun b hb ↦ by
    rw [hhead b hb]
    exact (C.heap.rep.tagged b hb.1).even hb.2
  shelved := C.shelved.congr rfl rfl (fun _ h ↦ h) fun S x hx ↦ hslots S.cls x ⟨S, rfl, hx⟩
  regions := ⟨C.regions.held, C.regions.wf, C.regions.apart⟩
  arenaSize_lt := C.arenaSize_lt
  slots := C.slots
  carved := C.carved

/-- A step of the general path changes no byte of a slot, unless it is the block at `a`. -/
theorem slot_kept (C : Coherent c s tr ts order sh) {a : Nat}
    (harenas : s'.arenas = ts'.map Carved.arena) (frame : HeapFrame ts ts' a s.mem s'.mem)
    (R' : Regions s') (hpools : s'.pools = s.pools) {x : Nat} (hx : Stands sh i x) (hne : x ≠ a)
    {y : Nat} (hlo : x ≤ y) (hhi : y < x + (classSize i + 16)) : s'.mem y = s.mem y := by
  rcases C.slots i x hx with h | ⟨d, hd, rfl⟩
  · refine frame.outside _ fun t ht ↦ ?_
    obtain ⟨r, hr, hrlo, hrhi⟩ := h.bounds
    rw [← hpools] at hr
    have := R'.arena_pool (a := t.arena) (by rw [harenas]; exact List.mem_map_of_mem ht) hr
    simp only [OsRegion.Apart, Arena.region, OsRegion.stop] at this hrhi
    omega
  · have := C.heap.large d hd.1 hd.2
    have := classSize_bounds i
    exact frame.allocated d hd hne _ ⟨hlo, by unfold Block.stop; omega⟩

/-- A step of the general path keeps the shelves: it changes at most the block at `a`, which is
no slot, free blocks and uncarved parts of arenas. -/
theorem general (C : Coherent c s tr ts order sh) {a : Nat} (ha : ∀ i, ¬ Stands sh i a)
    (heap : GeneralHeap s'.mem s'.freeHead s'.arenas ts' order')
    (frame : HeapFrame ts ts' a s.mem s'.mem)
    (keep : ∀ d, Allocated ts d → d.addr ≠ a → Allocated ts' d) (growth : ArenaGrowth c s s')
    (hpools : s'.pools = s.pools) (hcaches : s'.caches = s.caches)
    (hsize : s'.arenaSize = s.arenaSize) : Coherent c s' tr ts' order' sh := by
  have R' := C.regions.grow growth hpools
  have hmapped : ∀ q ∈ s.os.mapped, q ∈ s'.os.mapped := by
    intro q hq
    rcases growth with ⟨hos, -⟩ | ⟨r, -, -, hm, -⟩
    · rwa [hos]
    · rw [hm]
      exact List.mem_cons_of_mem _ hq
  have hword : ∀ i x, Stands sh i x → read64 s'.mem x = read64 s.mem x := fun i x hx ↦
    read64_congr fun k hk ↦ C.slot_kept heap.arenas_eq frame R' hpools hx
      (fun h ↦ ha i (h ▸ hx)) (by omega) (by omega)
  refine ⟨heap, C.shelved.congr hpools hcaches hmapped fun S x hx ↦ hword S.cls x ⟨S, rfl, hx⟩,
    R', hsize ▸ C.arenaSize_lt, fun i x hx ↦ ?_, ?_⟩
  · rw [hpools]
    rcases C.slots i x hx with h | ⟨d, hd, rfl⟩
    · exact .inl h
    · exact .inr ⟨d, keep d hd fun h ↦ ha i (h ▸ hx), rfl⟩
  · rw [hpools]
    exact C.carved

/-- The words a pooled step writes are apart from a block, unless the block is that slot. -/
theorem spares (C : Coherent c s tr ts order sh) {rs : List OsRegion} {extra : List Nat}
    (step : SlotStep i rs extra s sh s' sh')
    (hextra : ∀ x ∈ extra, Stands sh i x ∨ ∃ d, Allocated ts d ∧ d.addr = x) {b : Block}
    (hb : b ∈ blocksOf ts) {x : Nat} (hx : b.Covers x)
    (hown : x < b.addr + 8 → ¬ (Stands sh' i b.addr ∧ b.free = false)) : s'.mem x = s.mem x := by
  obtain ⟨a, ha, hba, hbs⟩ := C.block_region hb
  have hfar : ∀ r ∈ rs, b.stop ≤ r.base ∨ r.stop ≤ b.addr := by
    intro r hr
    have := step.regions.apart r hr _ (C.regions.arena_mapped ha)
    simp only [OsRegion.Apart, Arena.region, OsRegion.stop] at this ⊢
    omega
  have hcov := hx
  simp only [Block.Covers] at hcov
  refine step.words x (fun y hy hyx ↦ ?_) fun r hr hlo ↦ ?_
  · have hcls := classSize_bounds i
    rcases (step.stands i y).mp hy with h | ⟨-, h | h⟩
    · rcases C.slot_block h hb with h | h | ⟨rfl, hf⟩
      · omega
      · omega
      · by_contra hlt
        exact hown (by omega) ⟨hy, hf⟩
    · obtain ⟨r, hr, hlo, hhi⟩ := h.bounds
      have := hfar r hr
      omega
    · by_contra hlt
      rcases hextra y h with h | ⟨d, hd, rfl⟩
      · rcases C.slot_block h hb with h | h | ⟨rfl, hf⟩
        · omega
        · omega
        · exact hown (by omega) ⟨hy, hf⟩
      · have hdb : d = b := C.heap.rep.placed.block_eq hd.1 hb
          ⟨hyx, by have := C.heap.large d hd.1 hd.2; unfold Block.stop; omega⟩ hx
        exact hown (by rw [← hdb]; omega) ⟨hdb ▸ hy, hdb ▸ hd.2⟩
  · have := hfar r hr
    omega

/-- A pooled step keeps the general heap. A slot that newly stands was carved just now, or is
an allocated block. -/
theorem slot (C : Coherent c s tr ts order sh) {rs : List OsRegion} {extra : List Nat}
    (step : SlotStep i rs extra s sh s' sh') (shelved : Shelved c s' tr' sh')
    (hextra : ∀ x ∈ extra, Stands sh i x ∨ ∃ d, Allocated ts d ∧ d.addr = x) :
    Coherent c s' tr' ts order sh' where
  heap := by
    rw [step.general.1, step.general.2.1]
    refine C.heap.congr (fun b hb hf x hx ↦ ?_) (fun b hb ↦ read64_congr fun k hk ↦ ?_)
      fun b hb ↦ ?_
    · exact C.spares step hextra hb hx fun _ h ↦ by simp [h.2] at hf
    · exact C.spares step hextra hb.1 ⟨by omega, by unfold Block.stop; omega⟩ fun h ↦ by omega
    · by_cases hst : Stands sh' i b.addr
      · obtain ⟨S, -, hS⟩ := hst
        exact shelved.word_even hS
      · rw [read64_congr fun k hk ↦ C.spares step hextra hb.1
          ⟨by omega, by unfold Block.stop; omega⟩ fun _ h ↦ hst h.1]
        exact (C.heap.rep.tagged b hb.1).even hb.2
  shelved := shelved
  regions := C.regions.extend step.regions step.general.1 step.pool_arenas step.other_arenas
  arenaSize_lt := step.general.2.2 ▸ C.arenaSize_lt
  slots j x hx := by
    rcases (step.stands j x).mp hx with h | ⟨rfl, h | h⟩
    · rcases C.slots j x h with h | h
      · by_cases hj : j = i
        · subst hj
          rw [step.pool_arenas]
          exact .inl (CarvedFrom.append.mpr (.inl h))
        · rw [step.other_arenas j hj]
          exact .inl h
      · exact .inr h
    · rw [step.pool_arenas]
      exact .inl (CarvedFrom.append.mpr (.inr h))
    · rcases hextra x h with h | h
      · rcases C.slots j x h with h | h
        · rw [step.pool_arenas]
          exact .inl (CarvedFrom.append.mpr (.inl h))
        · exact .inr h
      · exact .inr h
  carved j x hx := by
    refine (step.stands j x).mpr ?_
    by_cases hj : j = i
    · subst hj
      rw [step.pool_arenas] at hx
      rcases CarvedFrom.append.mp hx with h | h
      · exact .inl (C.carved j x h)
      · exact .inr ⟨rfl, .inl h⟩
    · rw [step.other_arenas j hj] at hx
      exact .inl (C.carved j x hx)

end Coherent

end CustomAllocator
