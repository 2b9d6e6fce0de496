import CustomAllocator.Properties.FreeOrder

/-!
# Freeing undoes allocating

A general allocation of a routed session followed at once by the free of its pointer. Served
from the free list, the heap is the one before. Served at the bump pointer, the arena has one
free block more, merged with its last block if that was free.
-/

namespace CustomAllocator
open CustomAllocator.Base

/-- The header `b` is that of a free block of the given size with a matching footer. -/
structure FreeAs (m : Mem) (b size : Nat) : Prop where
  free : isFree m b = true
  size_eq : getSize m b = size
  footer : read64 m (footer m b) = size

/-- The arena after `n` payload bytes were carved from it. -/
def Arena.bump (a : Arena) (n : Nat) : Arena := { a with used := a.used + (n + 32) }

/-- The walk through the arena has grown by one free block of `n` bytes, or its last block was
free and has grown by as much. -/
inductive Arena.Extended (a : Arena) (m m' : Mem) (n : Nat) : Prop where
  | merged (front : List Nat) (d : Nat) (walk : a.Walk m (front ++ [d]))
      (free : isFree m d = true) (walk' : (a.bump n).Walk m' (front ++ [d]))
      (same : SameTags m m' front) (last : FreeAs m' d (getSize m d + 32 + n))
  | appended (l : List Nat) (walk : a.Walk m l) (free : ∀ d ∈ l.getLast?, isFree m d = false)
      (walk' : (a.bump n).Walk m' (l ++ [a.base + a.used])) (same : SameTags m m' l)
      (last : FreeAs m' (a.base + a.used) n)

/-- What is left in `s'` after `p` was allocated in `s` with `n` payload bytes and freed. -/
inductive Undone (s s' : State) (p n : Nat) : Prop where
  /-- Served from the free list. -/
  | reused (l : List Nat) (listed : FreeListExact s l) (source : headerOf p ∈ l)
      (same : SameHeap s s')
  /-- Served at the bump pointer of the newest arena, or of a fresh one. -/
  | bumped (init : List Arena) (a : Arena)
      (newest : s.arenas = init ++ [a] ∨ s.arenas = init ∧ a.used = 0)
      (source : p = dataAddress (a.base + a.used)) (arenas : s'.arenas = init ++ [a.bump n])
      (others : ∀ b ∈ init, b.SameBlocks s.mem s'.mem) (extended : a.Extended s.mem s'.mem n)

variable {c : Config} {t : Tid} {w : Session} {s s' s₁ : State} {ts ts' : List Carved}
  {order order' : List Nat} {size n p : Nat} {m' : Mem}

/-- A free block of a tiling. -/
theorem Tiled.freeAs (T : Tiled s ts order) {b : Block} (hb : b ∈ blocksOf ts)
    (hf : b.free = true) : FreeAs s.mem b.addr b.size := by
  have hbd := T.heap.rep.placed.block_bounds hb
  refine ⟨(T.free_eq hb).trans hf, T.size_eq hb, ?_⟩
  rw [footer_eq (T.size_eq hb) (by omega)]
  exact (T.heap.rep.tagged b hb).footer

/-- An arena that carved `n + 32` bytes more without a new allocated block. -/
theorem Tiled.extended (T' : Tiled s' ts' order') {a : Arena} {bs : List Block}
    (htile : Tiling Block.addr Block.stop a.base (a.base + a.used) bs) (hsep : Separated bs)
    (hwalk : a.Walk s.mem (bs.map Block.addr))
    (hread : ∀ b ∈ bs, isFree s.mem b.addr = b.free ∧ getSize s.mem b.addr = b.size)
    (hsame : ∀ ds : List Block, (∀ d ∈ ds, d ∈ bs ∧ d ∈ blocksOf ts') →
      SameTags s.mem s'.mem (ds.map Block.addr)) {u : Carved} (hu : u ∈ ts')
    (ha : u.arena = a.bump n) (halloc : ∀ d, d.free = false → (d ∈ bs ↔ d ∈ u.blocks)) :
    a.Extended s.mem s'.mem n := by
  have hblocks := Carved.WF.blocks_extended htile hsep (T'.heap.rep.wf u hu) ha
    (T'.heap.separated u hu) halloc
  have hwalk' := T'.walk hu
  have hmem : ∀ d ∈ u.blocks, d ∈ blocksOf ts' := fun d hd ↦ mem_blocksOf.mpr ⟨u, hu, hd⟩
  rw [ha, hblocks] at hwalk'
  rw [hblocks] at hmem
  rcases List.eq_nil_or_concat bs with rfl | ⟨front, d, rfl⟩
  · refine .appended [] hwalk (by simp) (by simpa [appendFree] using hwalk')
      (hsame [] (by simp)) ?_
    exact T'.freeAs (b := ⟨a.base + a.used, n, true⟩) (hmem _ (by simp [appendFree])) rfl
  rw [List.concat_eq_append] at htile hwalk hread hsame hmem hwalk'
  simp only [appendFree, List.getLast?_concat, List.dropLast_concat] at hmem hwalk'
  have hd := hread d (by simp)
  cases hf : d.free with
  | true =>
    simp only [hf, if_true] at hmem hwalk'
    refine .merged (front.map Block.addr) d.addr (by simpa using hwalk) (hd.1.trans hf)
      (by simpa [Block.join] using hwalk') (hsame front fun e he ↦ ⟨by simp [he], hmem e ?_⟩) ?_
    · exact List.mem_append_left _ he
    · rw [hd.2]
      exact T'.freeAs (b := d.join ⟨a.base + a.used, n, true⟩) (hmem _ (by simp)) hf
  | false =>
    simp only [hf, Bool.false_eq_true, if_false] at hmem hwalk'
    refine .appended _ hwalk (fun x hx ↦ ?_) (by simpa using hwalk')
      (hsame (front ++ [d]) fun e he ↦ ⟨he, hmem e (List.mem_append_left _ he)⟩) ?_
    · obtain rfl : d.addr = x := by simpa using hx
      exact hd.1.trans hf
    · exact T'.freeAs (b := ⟨a.base + a.used, n, true⟩) (hmem _ (by simp)) rfl

/-- The last arena of a list of carved arenas, and the others. -/
private theorem exists_last {ts : List Carved} {init : List Arena} {a : Arena}
    (h : ts.map Carved.arena = init ++ [a]) :
    ∃ us u, ts = us ++ [u] ∧ us.map Carved.arena = init ∧ u.arena = a := by
  obtain ⟨us, vs, rfl, hus, hvs⟩ := List.map_eq_append_iff.mp h
  obtain ⟨u, ws, rfl, hu, hws⟩ := List.map_eq_cons_iff.mp hvs
  exact ⟨us, u, by simp [List.map_eq_nil_iff.mp hws], hus, hu⟩

/-- Two tiled heaps with the same allocated blocks whose arenas differ in the last one only,
which carved `n + 32` bytes more. -/
theorem Tiled.undone (T : Tiled s ts order) (T' : Tiled s' ts' order') {init : List Arena}
    {a : Arena} (hnewest : s.arenas = init ++ [a] ∨ s.arenas = init ∧ a.used = 0)
    (harenas : s'.arenas = init ++ [a.bump n]) (halloc : ∀ d, Allocated ts' d ↔ Allocated ts d) :
    (∀ b ∈ init, b.SameBlocks s.mem s'.mem) ∧ a.Extended s.mem s'.mem n := by
  have P := T.heap.rep.placed
  have P' := T'.heap.rep.placed
  obtain ⟨us', u', rfl, hus', hu'⟩ := exists_last (T'.heap.arenas_eq.symm.trans harenas)
  have hmem' : u' ∈ us' ++ [u'] := by simp
  have hinit : ∀ b ∈ init, b ∈ s.arenas := by
    intro b hb
    rcases hnewest with h | ⟨h, -⟩ <;> simp [h, hb]
  refine ⟨fun b hb ↦ ?_, ?_⟩
  · have hbs := hinit b hb
    rw [T.heap.arenas_eq] at hbs
    obtain ⟨v, hv, rfl⟩ := List.mem_map.mp hbs
    obtain ⟨v', hv', ha⟩ := List.mem_map.mp (hus' ▸ hb)
    have hv'' : v' ∈ us' ++ [u'] := by simp [hv']
    have hblocks := T.heap.blocks_eq T'.heap hv hv'' ha.symm fun d _ ↦ (halloc d).symm
    have heq : v = v' := by
      rcases v with ⟨x, xs⟩
      rcases v' with ⟨y, ys⟩
      simp only at ha hblocks
      rw [ha, hblocks]
    exact T.sameBlocks T' hv (heq ▸ hv'')
  · rcases hnewest with hnew | ⟨hnew, hused⟩
    · -- The newest arena is carved in both heaps.
      obtain ⟨us, u, rfl, -, rfl⟩ := exists_last (T.heap.arenas_eq.symm.trans hnew)
      have hmem : u ∈ us ++ [u] := by simp
      have hblock : ∀ b ∈ u.blocks, b ∈ blocksOf (us ++ [u]) := fun b hb ↦
        mem_blocksOf.mpr ⟨u, hmem, hb⟩
      have hregion : u.arena.region = u'.arena.region := by
        rw [hu']
        rfl
      refine T'.extended (P.wf u hmem).tiling (T.heap.separated u hmem) (T.walk hmem)
        (fun b hb ↦ ⟨T.free_eq (hblock b hb), T.size_eq (hblock b hb)⟩)
        (fun ds hds ↦ T.sameTags T' fun d hd ↦ ⟨hblock d (hds d hd).1, (hds d hd).2⟩) hmem' hu'
        fun d hf ↦ ⟨fun hd ↦ ?_, fun hd ↦ ?_⟩
      · exact P.mem_region P' hmem hmem' hregion hd
          ((halloc d).mpr ⟨hblock d hd, hf⟩).1
      · exact P'.mem_region P hmem' hmem hregion.symm hd
          ((halloc d).mp ⟨mem_blocksOf.mpr ⟨u', hmem', hd⟩, hf⟩).1
    · -- The newest arena is fresh, so an allocated block in it would lie in no old arena.
      have hempty : Tiling Block.addr Block.stop a.base (a.base + a.used) [] := by
        rw [Tiling.nil_iff, hused]
        rfl
      refine T'.extended hempty (by simp [Separated])
        (by simp [Arena.Walk, CustomAllocator.Walk, hused]) (by simp)
        (fun ds hds ↦ T.sameTags T' fun d hd ↦ absurd (hds d hd).1 (by simp)) hmem' hu'
        fun d hf ↦ ⟨fun hd ↦ absurd hd (by simp), fun hd ↦ ?_⟩
      obtain ⟨hd', -⟩ := (halloc d).mp ⟨mem_blocksOf.mpr ⟨u', hmem', hd⟩, hf⟩
      obtain ⟨v, hv, hdv⟩ := mem_blocksOf.mp hd'
      obtain ⟨v', hv', ha⟩ := List.mem_map.mp
        ((hus'.trans (hnew.symm.trans T.heap.arenas_eq)) ▸ List.mem_map_of_mem hv :
          v.arena ∈ us'.map Carved.arena)
      have hsame := P.mem_region P' hv (List.mem_append_left [u'] hv') (by rw [ha]) hdv
        (mem_blocksOf.mpr ⟨u', hmem', hd⟩)
      have hap := List.pairwise_append.mp (List.pairwise_map.mp P'.apart)
      have hfar := hap.2.2 v' hv' u' (by simp)
      have hbv := (P'.wf v' (List.mem_append_left _ hv')).bounds hsame
      have hbu := (P'.wf u' hmem').bounds hd
      have hlv := (P'.wf v' (List.mem_append_left _ hv')).used_le
      have hlu := (P'.wf u' hmem').used_le
      simp only [OsRegion.Apart, OsRegion.stop, Arena.region] at hfar
      omega

/-- In every routed session, a general allocation whose pointer is freed at once, whatever the
client wrote to it in between, leaves the heap of before or one free block more. -/
theorem split_coalesce_inverse (h : Reachable c t (routedCall c) w) (hlo : 4096 < size)
    (hhi : size ≤ sizeMax - 47) (hn : n % 16 = 0) (hle : size ≤ n) (hlt : n < size + 16)
    (hrun : myMalloc c w.state t size = .ok (s₁, p)) (hp : p ≠ 0)
    (hwrite : ∀ x, m' x ≠ s₁.mem x → InPayload s₁ ⟨p, size, none⟩ x)
    (hr : Routed c { s₁ with mem := m' } ⟨p, size, none⟩) :
    ∃ s₂, myFree c { s₁ with mem := m' } t p = .ok s₂ ∧ Undone w.state s₂ p n := by
  obtain ⟨ts, order, sh, A, hun⟩ := h.routed
  unfold sizeMax at hhi
  obtain rfl := alignUp_eq (by omega) hn hle hlt
  have T := A.tiled hun
  have ho : originOf size = none := originOf_eq_none.mpr hlo
  rcases A.mallocBlock t hlo (by omega) with
    ⟨os, hnull, -⟩ | ⟨s', ts₁, order₁, k, hmalloc, G, hadd, hserved⟩
  · exact absurd (Prod.mk.inj (Except.ok.inj (hnull.symm.trans hrun))).2.symm hp
  obtain ⟨rfl, rfl⟩ := Prod.mk.inj (Except.ok.inj (hmalloc.symm.trans hrun))
  have A₁ := G.accounted
  rw [ho] at A₁
  have hg : (⟨k.addr + 16, size, none⟩ : Grant) ∈
      (⟨k.addr + 16, size, none⟩ :: w.live : List Grant) := List.mem_cons_self
  obtain ⟨A₂, -⟩ := A₁.write m' fun x hx ↦ ⟨_, hg, hwrite x hx⟩
  obtain ⟨d, hd, hdn⟩ := A₂.general _ hg rfl
  have hk : ¬ isKnownPool c d.size = true := by
    unfold Routed at hr
    rw [A₂.tag_general hd] at hr
    simp [hr]
  have hk₁ : Allocated ts₁ k := (hadd.allocated k).mpr (.inl rfl)
  obtain rfl : d = k := A₁.coherent.heap.rep.placed.block_eq_of_addr hd.allocated.1 hk₁.1
    (by have := hd.ptr_eq; dsimp only at this; omega)
  obtain ⟨heap, ts₂, order₂, f, hfree, hret, F⟩ := A₂.freeBlock t hg hd hdn hk
  have T₂ := hret.accounted.tiled fun e he j ↦ G.uncaptured hun e ((F.allocated e).mp he).1 j
  have halloc : ∀ e, Allocated ts₂ e ↔ Allocated ts e := by
    intro e
    rw [F.allocated, hadd.allocated]
    constructor
    · rintro ⟨he | he, hne⟩
      · exact absurd he hne
      · exact he
    · intro he
      exact ⟨.inr he, fun hed ↦ hadd.fresh (hed ▸ he.1)⟩
  have hdb := A₁.coherent.heap.rep.placed.block_bounds hd.allocated.1
  have hdata : dataAddress d.addr = d.addr + 16 := dataAddress_eq (by omega)
  refine ⟨_, hfree, ?_⟩
  cases hserved with
  | reused b hb hf first hfit block rest listed os arenas =>
    have hsame : (State.setHeap { s' with mem := m' } heap).arenas = w.state.arenas := arenas
    obtain ⟨rfl, -⟩ := T.canonical T₂ hsame fun e ↦ (halloc e).symm
    refine .reused order T.freeListExact ?_ (T.sameHeap T₂ hsame)
    have hhead : headerOf (d.addr + 16) = d.addr := headerOf_add (by omega)
    rw [hhead, block, Block.taken_addr]
    exact T.heap.complete b hb hf
  | bumped init a unlisted newest room block listed os arenas =>
    obtain ⟨hothers, hext⟩ := T.undone T₂ (.inl newest) arenas halloc
    exact .bumped init a (.inl newest) (by rw [← hdata, block]) arenas hothers hext
  | grown r unlisted full answer room block listed os arenas =>
    have harenas : s'.arenas =
        w.state.arenas ++ [Arena.bump ⟨r.base, r.size, 0⟩ (alignUp size)] := by
      rw [arenas, Arena.bump, Nat.zero_add]
    obtain ⟨hothers, hext⟩ := T.undone T₂ (.inr ⟨rfl, rfl⟩) harenas halloc
    exact .bumped w.state.arenas ⟨r.base, r.size, 0⟩ (.inr ⟨rfl, rfl⟩)
      (by rw [← hdata, block, Nat.add_zero]) harenas hothers hext

/-- Requesting `size` bytes in the session with a gap and freeing them is undone. -/
def UndoneInGap (size : Nat) : Prop :=
  ∃ s₁ p s₂, myMalloc .fixedBase Session.gap.state 0 size = .ok (s₁, p) ∧
    myFree .fixedBase s₁ 0 p = .ok s₂ ∧
    Undone Session.gap.state s₂ p ((size + 15) / 16 * 16)

/-- A request served from the gap and one served at the bump pointer. -/
theorem split_coalesce_inverse_gap : UndoneInGap 5000 ∧ UndoneInGap 6500 := by
  have hsome : ∀ size ∈ [5000, 6500], ((myMalloc .fixedBase Session.gap.state 0 size).toOption.map
      fun out ↦ decide (out.2 ≠ 0 ∧ Routed .fixedBase out.1 ⟨out.2, size, none⟩)) = some true := by
    decide +kernel
  have hundone : ∀ size ∈ [5000, 6500], UndoneInGap size := by
    intro size hsize
    have hok := hsome size hsize
    simp only [List.mem_cons, List.not_mem_nil, or_false] at hsize
    cases hrun : myMalloc .fixedBase Session.gap.state 0 size with
    | error e => simp [hrun, Except.toOption] at hok
    | ok out =>
      obtain ⟨s₁, p⟩ := out
      simp only [hrun, Except.toOption, Option.map_some, Option.some.injEq,
        decide_eq_true_eq] at hok
      have hlo : 4096 < size := by omega
      have hhi : size ≤ sizeMax - 47 := by
        unfold sizeMax
        omega
      have hmult : (size + 15) / 16 * 16 % 16 = 0 := by omega
      have hge : size ≤ (size + 15) / 16 * 16 := by omega
      have hlt : (size + 15) / 16 * 16 < size + 16 := by omega
      obtain ⟨s₂, hfree, hundone⟩ := split_coalesce_inverse Session.gap_routed hlo hhi
        hmult hge hlt hrun hok.1 (fun x hx ↦ absurd rfl hx) hok.2
      exact ⟨s₁, p, s₂, hrun, hfree, hundone⟩
  exact ⟨hundone 5000 (by simp), hundone 6500 (by simp)⟩

end CustomAllocator
