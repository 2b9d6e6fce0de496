import CustomAllocator.Layout.Operations

/-!
# General allocation

The body of a general `my_malloc`: first fit from the free list, else a block carved at the
bump pointer of the newest arena or of a fresh one. It either changes nothing but the
kernel's log, or adds exactly one allocated block.
-/

namespace CustomAllocator
open CustomAllocator.Base

variable {s : State} {ts init : List Carved} {order : List Nat} {t : Carved}

/-- How an allocation may change the arenas' regions: not at all, or by one fresh region. -/
def ArenaGrowth (c : Config) (s s' : State) : Prop :=
  (s'.os = s.os ∧ s'.arenas.map Arena.region = s.arenas.map Arena.region) ∨
  ∃ r : OsRegion, r.WF ∧ Mappable c s.os.mapped r ∧ s'.os.mapped = r :: s.os.mapped ∧
    s'.arenas.map Arena.region = s.arenas.map Arena.region ++ [r]

/-- The sum of header, payload and footer is exact while it does not wrap. -/
theorem neededBytes_eq {n : Nat} (h : n + 32 < 2 ^ 64) : neededBytes n = n + 32 := by
  unfold neededBytes sizeofBlockHeader sizeofBlockFooter
  rw [add64_of_lt (a := 16) (by omega), add64_of_lt (by omega)]
  omega

/-- A freshly granted region as an empty arena. -/
theorem GeneralHeap.addArena {m m' : Mem} {head : Nat} {arenas : List Arena}
    (H : GeneralHeap m head arenas ts order) {r : OsRegion} (hr : r.WF)
    (hap : ∀ a ∈ arenas, r.Apart a.region) (hm : ∀ x, (r.base ≤ x → r.stop ≤ x) → m' x = m x) :
    GeneralHeap m' head (arenas ++ [⟨r.base, r.size, 0⟩]) (ts ++ [⟨⟨r.base, r.size, 0⟩, []⟩])
      order := by
  have hblocks : blocksOf (ts ++ [⟨⟨r.base, r.size, 0⟩, []⟩]) = blocksOf ts := by
    simp [blocksOf]
  refine ⟨H.rep.addArena hr (fun t ht ↦ hap _ ?_) hm, by simp [H.arenas_eq], ?_,
    fun t ht ↦ ?_, ?_⟩
  · rw [H.arenas_eq]
    exact List.mem_map_of_mem ht
  · rw [hblocks]
    exact H.complete
  · rcases List.mem_append.mp ht with ht | ht
    · exact H.separated t ht
    · rw [List.mem_singleton.mp ht]
      exact List.IsChain.nil
  · rw [hblocks]
    exact H.large

/-- The memory after a block has been written at the bump pointer. -/
theorem carved_words (m : Mem) {n : Nat} (t : Carved) (hn : n % 16 = 0)
    (hlt : t.arena.base + t.arena.used + n + 32 < 2 ^ 64) :
    let m' := syncFooter (constructHeader m (t.fresh n).addr n false) (t.fresh n).addr
    Headed m' (t.fresh n) ∧ read64 m' (t.arena.base + t.arena.used + 16 + n) = n ∧
      ∀ x, ¬ (t.fresh n).Covers x → m' x = m x := by
  intro m'
  have hword : headerWord n false < 2 ^ 64 := headerWord_lt false (by omega) (by omega)
  have hread : read64 (write64 m (t.arena.base + t.arena.used) (headerWord n false))
      (t.arena.base + t.arena.used) = headerWord n false := read64_write64_same _ _ hword
  have hm' : m' = write64 (write64 m (t.arena.base + t.arena.used) (headerWord n false))
      (t.arena.base + t.arena.used + 16 + n) n := by
    simp only [m', Carved.fresh]
    rw [constructHeader_eq _ _ false (by omega) (by omega),
      syncFooter_eq (getSize_of_header (by omega) hread) (by omega)]
  rw [hm']
  refine ⟨?_, read64_write64_same _ _ (by omega), fun x hx ↦ ?_⟩
  · exact (read64_write64_of_disjoint _ _ (.inl (by simp only [Carved.fresh]; omega))).trans hread
  · simp only [Block.Covers, Block.stop, Carved.fresh] at hx
    rw [write64_of_out _ _ (by omega), write64_of_out _ _ (by omega)]

/-- Carving at the bump pointer of the newest arena adds one allocated block. -/
theorem GeneralHeap.carveBlock (c : Config)
    (H : GeneralHeap s.mem s.freeHead s.arenas (init ++ [t]) order) {n : Nat}
    (hn16 : n % 16 = 0) (hn : 4096 < n) (hroom : t.arena.used + (n + 32) ≤ t.arena.size) :
    ∃ m', carveBlock c s init.length n =
        .ok ({ s with mem := m', arenas := (init ++ [t.bump n]).map Carved.arena },
          (t.fresh n).addr + 16) ∧
      GeneralHeap m' s.freeHead ((init ++ [t.bump n]).map Carved.arena) (init ++ [t.bump n]) order ∧
      Headed m' (t.fresh n) ∧
      ∀ x, ¬ (t.fresh n).Covers x → m' x = s.mem x := by
  have hw := H.rep.wf t (by simp)
  have hused := hw.used_le
  have hstop := hw.stop_le
  have harenas : s.arenas = init.map Carved.arena ++ [t.arena] := by
    rw [H.arenas_eq]
    simp
  obtain ⟨hh, hf, hout⟩ := carved_words s.mem t hn16 (by omega)
  have hget : s.arenas[init.length]? = some t.arena := by
    rw [harenas, List.getElem?_append_right (by simp)]
    simp
  have hblock : add64 t.arena.base t.arena.used = (t.fresh n).addr := add64_of_lt (by omega)
  have hneed : neededBytes n = n + 32 := neededBytes_eq (by omega)
  have hadd : add64 t.arena.used (n + 32) = t.arena.used + (n + 32) := add64_of_lt (by omega)
  generalize hm' : syncFooter (constructHeader s.mem (t.fresh n).addr n false) (t.fresh n).addr =
    m' at hh hf hout
  have hpay : payload c m' (t.fresh n).addr = .ok ((t.fresh n).addr + 16) := by
    have hfr : isFree m' (t.fresh n).addr = false := by
      refine isFree_of_even ?_
      have : read64 m' (t.fresh n).addr = n + 0 := hh
      omega
    unfold payload
    simp only [hfr, Bool.not_false, assert_true, ok_bind,
      dataAddress_eq (show (t.fresh n).addr + 16 < 2 ^ 64 by simp only [Carved.fresh]; omega)]
  refine ⟨m', ?_, ⟨H.rep.bump hn16 (by omega) hroom hh hf hout, rfl, fun b hb hfb ↦ ?_,
    fun u hu ↦ ?_, fun b hb hfb ↦ ?_⟩, hh, hout⟩
  · simp only [CustomAllocator.carveBlock, hget, hblock, hm', hneed, hadd, hpay, ok_bind]
    rw [harenas, List.set_append_right _ _ (by simp)]
    simp [Carved.bump]
  · rcases mem_bump.mp hb with hb | rfl
    · exact H.complete b hb hfb
    · exact absurd hfb (by simp [Carved.fresh])
  · rcases List.mem_append.mp hu with hu | hu
    · exact H.separated u (by simp [hu])
    · have hold := H.separated t (by simp)
      rw [List.mem_singleton.mp hu]
      unfold Separated at hold ⊢
      simp only [Carved.bump]
      rw [List.isChain_append]
      refine ⟨hold, List.isChain_singleton _, fun a _ b hb h ↦ ?_⟩
      simp only [List.head?_cons, Option.mem_some_iff] at hb
      simp [← hb] at h
  · rcases mem_bump.mp hb with hb | rfl
    · exact H.large b hb hfb
    · exact hn

/-- What a successful general allocation adds: the allocated block `k` and nothing else. -/
structure Added (c : Config) (s s' : State) (ts : List Carved) (size : Nat) (ts' : List Carved)
    (order' : List Nat) (k : Block) : Prop where
  heap : GeneralHeap s'.mem s'.freeHead s'.arenas ts' order'
  headed : Headed s'.mem k
  size_le : size ≤ k.size
  allocated : ∀ d, Allocated ts' d ↔ d = k ∨ Allocated ts d
  fresh : k ∉ blocksOf ts
  frame : HeapFrame ts ts' 0 s.mem s'.mem
  growth : ArenaGrowth c s s'
  pools_eq : s'.pools = s.pools
  caches_eq : s'.caches = s.caches
  arenaSize_eq : s'.arenaSize = s.arenaSize
  occupied : ∀ a ∈ s'.arenas, a ∈ s.arenas ∨ 0 < a.used

/-- The kernel's answer to the request `arena_with_room` makes for `needed` bytes. -/
def arenaAnswer (c : Config) (s : State) (needed : Nat) : Machine × Option OsRegion :=
  osAcquire c s.toMachine (arenaRequest s.arenaSize needed)

/-- Where the room for a carved block is: in the newest arena, or in one just granted. -/
def RoomAt (c : Config) (s : State) (ts : List Carved) (needed : Nat) (s₁ : State)
    (init : List Carved) (t : Carved) : Prop :=
  (s.arenas.getLast?.any (·.hasRoom needed) = true ∧ s₁ = s ∧ ts = init ++ [t]) ∨
  s.arenas.getLast?.any (·.hasRoom needed) = false ∧
    ∃ r, (arenaAnswer c s needed).2 = some r ∧ s₁.os = (arenaAnswer c s needed).1.os ∧
      init = ts ∧ t = ⟨⟨r.base, r.size, 0⟩, []⟩

/-- Finding room leaves an arena with room at the end of the list, or fails without a trace in
memory, arenas and mappings. -/
theorem GeneralHeap.arenaWithRoom (c : Config)
    (H : GeneralHeap s.mem s.freeHead s.arenas ts order)
    (hmap : ∀ a ∈ s.arenas, a.region ∈ s.os.mapped) (hsize : s.arenaSize < 2 ^ 64)
    {needed : Nat} (hneed : needed < 2 ^ 64) (hpos : 0 < needed) :
    (∃ os, arenaWithRoom c s needed = ({ s with os := os }, none) ∧ os.mapped = s.os.mapped ∧
      s.arenas.getLast?.any (·.hasRoom needed) = false ∧ (arenaAnswer c s needed).2 = none ∧
      os = (arenaAnswer c s needed).1.os) ∨
    ∃ s₁ init t, arenaWithRoom c s needed = (s₁, some init.length) ∧
      RoomAt c s ts needed s₁ init t ∧
      GeneralHeap s₁.mem s₁.freeHead s₁.arenas (init ++ [t]) order ∧
      t.arena.used + needed ≤ t.arena.size ∧
      blocksOf (init ++ [t]) = blocksOf ts ∧ ArenaGrowth c s s₁ ∧
      s₁ = { s with mem := s₁.mem, os := s₁.os, arenas := s₁.arenas } ∧
      ∀ x, (∀ u ∈ init ++ [t], x < u.arena.base ∨ u.arena.base + u.arena.size ≤ x) ∨
        (∃ d ∈ blocksOf ts, d.Covers x) → s₁.mem x = s.mem x := by
  unfold CustomAllocator.arenaWithRoom
  by_cases hlast : s.arenas.getLast?.any (·.hasRoom needed)
  · right
    rw [if_pos hlast]
    rcases List.eq_nil_or_concat ts with rfl | ⟨init, t, rfl⟩
    · simp [H.arenas_eq] at hlast
    rw [List.concat_eq_append] at H ⊢
    have hw := H.rep.wf t (by simp)
    have hused := hw.used_le
    have hstop := hw.stop_le
    have hroom : needed ≤ t.arena.size - t.arena.used := by
      have hsub : sub64 t.arena.size t.arena.used = t.arena.size - t.arena.used :=
        sub64_of_le hused (by omega)
      simpa [H.arenas_eq, Arena.hasRoom, hsub] using hlast
    refine ⟨s, init, t, ?_, .inl ⟨hlast, rfl, rfl⟩, H, by omega, rfl, .inl ⟨rfl, rfl⟩, rfl,
      fun x _ ↦ rfl⟩
    simp [H.arenas_eq]
  rw [if_neg hlast]
  unfold RoomAt arenaAnswer
  have hreq : arenaRequest s.arenaSize needed < 2 ^ 64 ∧
      needed ≤ arenaRequest s.arenaSize needed := by
    unfold arenaRequest
    split <;> omega
  generalize arenaRequest s.arenaSize needed = request at hreq
  rcases osAcquire_cases c s.toMachine hreq.1 with
    ⟨hn, hmem, hmapped⟩ | ⟨r, hr, hle, hwf, hok, hmem, hmapped⟩
  · left
    rcases hos : osAcquire c s.toMachine request with ⟨k, res⟩
    rw [hos] at hn hmem hmapped
    obtain rfl : res = none := hn
    refine ⟨k.os, ?_, hmapped, Bool.eq_false_iff.mpr hlast, rfl, rfl⟩
    dsimp only at hmem
    simp only [State.setMachine]
    rw [← hmem]
  · right
    rcases hos : osAcquire c s.toMachine request with ⟨k, res⟩
    rw [hos] at hr hmem hmapped
    obtain rfl : res = some r := hr
    dsimp only at hmem hmapped
    have hap : ∀ a ∈ s.arenas, r.Apart a.region := fun a ha ↦ hok.2.2.2.2.1 _ (hmap a ha)
    have hout : ∀ x, (r.base ≤ x → r.stop ≤ x) → k.mem x = s.mem x := by
      intro x hx
      rw [hmem, fill_of_out _ _ (by unfold OsRegion.stop at hx; omega)]
    refine ⟨{ s.setMachine k with arenas := s.arenas ++ [⟨r.base, r.size, 0⟩] }, ts,
      ⟨⟨r.base, r.size, 0⟩, []⟩, ?_, .inr ⟨Bool.eq_false_iff.mpr hlast, r, rfl, rfl, rfl, rfl⟩,
      H.addArena hwf hap hout, ?_, ?_, .inr ⟨r, hwf, hok, hmapped, ?_⟩, rfl,
      fun x hx ↦ hout x fun hbx ↦ ?_⟩
    · simp [State.setMachine, H.arenas_eq]
    · dsimp only
      omega
    · simp [blocksOf]
    · simp [Arena.region]
    · by_contra hlt
      unfold OsRegion.stop at hlt
      rcases hx with hx | ⟨d, hd, hdx⟩
      · have := hx ⟨⟨r.base, r.size, 0⟩, []⟩ (by simp)
        dsimp only at this
        omega
      · obtain ⟨u, hu, hlo, hhi, hused⟩ := H.rep.placed.block_in_region hd
        have hau := hap u.arena (by rw [H.arenas_eq]; exact List.mem_map_of_mem hu)
        simp only [OsRegion.Apart, OsRegion.stop, Arena.region] at hau
        simp only [Block.Covers] at hdx
        omega

/-- The first listed block that holds `n` bytes, by address. -/
def firstFit (s : State) (order : List Nat) (n : Nat) : Option Nat :=
  order.find? fun x ↦ decide (n ≤ getSize s.mem x)

/-- How a general allocation of `n` payload bytes was served. -/
inductive Served (c : Config) (s : State) (ts : List Carved) (order : List Nat) (n : Nat)
    (s' : State) (ts' : List Carved) (order' : List Nat) (k : Block) : Prop where
  /-- From the first listed block that is large enough, whose remainder is listed. -/
  | reused (b : Block) (mem : b ∈ blocksOf ts) (free : b.free = true)
      (first : firstFit s order n = some b.addr) (size : n ≤ b.size) (block : k = b.taken n)
      (rest : ∀ d ∈ b.leftover n, d ∈ blocksOf ts')
      (listed : order' = (b.leftover n).map Block.addr ++ b.outside order)
      (os : s'.os = s.os) (arenas : s'.arenas = s.arenas)
  /-- At the bump pointer of the newest arena. -/
  | bumped (init : List Arena) (a : Arena) (unlisted : firstFit s order n = none)
      (newest : s.arenas = init ++ [a]) (room : a.used + (n + 32) ≤ a.size)
      (block : k = ⟨a.base + a.used, n, false⟩) (listed : order' = order) (os : s'.os = s.os)
      (arenas : s'.arenas = init ++ [{ a with used := a.used + (n + 32) }])
  /-- At the start of a fresh arena. -/
  | grown (r : OsRegion) (unlisted : firstFit s order n = none)
      (full : s.arenas.getLast?.any (·.hasRoom (n + 32)) = false)
      (answer : (arenaAnswer c s (n + 32)).2 = some r) (room : n + 32 ≤ r.size)
      (block : k = ⟨r.base, n, false⟩) (listed : order' = order)
      (os : s'.os = (arenaAnswer c s (n + 32)).1.os)
      (arenas : s'.arenas = s.arenas ++ [⟨r.base, r.size, n + 32⟩])

/-- Why a general allocation of `n` payload bytes was refused, and what the kernel kept of it. -/
structure Unserved (c : Config) (s : State) (order : List Nat) (n : Nat) (os : Os) : Prop where
  unlisted : firstFit s order n = none
  full : s.arenas.getLast?.any (·.hasRoom (n + 32)) = false
  refused : (arenaAnswer c s (n + 32)).2 = none
  os_eq : os = (arenaAnswer c s (n + 32)).1.os

/-- Allocating a rounded payload larger than every size class either fails and changes only the
kernel's log, or adds one allocated block that is large enough. -/
theorem GeneralHeap.allocatePayload (c : Config)
    (H : GeneralHeap s.mem s.freeHead s.arenas ts order)
    (hmap : ∀ a ∈ s.arenas, a.region ∈ s.os.mapped) (hsize : s.arenaSize < 2 ^ 64) {n : Nat}
    (hmod : n % 16 = 0) (hlo : 4096 < n) (hlt : n + 32 < 2 ^ 64) :
    (∃ os, allocatePayload c s n = .ok ({ s with os := os }, 0) ∧ os.mapped = s.os.mapped ∧
      Unserved c s order n os) ∨
    ∃ s' ts' order' k, allocatePayload c s n = .ok (s', k.addr + 16) ∧
      Added c s s' ts n ts' order' k ∧ Served c s ts order n s' ts' order' k := by
  unfold CustomAllocator.allocatePayload
  simp only [H.rep.findFirstFit c n, ok_bind, neededBytes_eq hlt]
  cases hfind : order.find? fun x ↦ decide (n ≤ getSize s.mem x) with
  | some x =>
    right
    obtain ⟨b, hb, rfl, hf⟩ := H.rep.listed x (List.mem_of_find?_eq_some hfind)
    have hbw := H.rep.placed.block_wf hb
    have hbd := H.rep.placed.block_bounds hb
    have hfit : n ≤ b.size := by
      have := List.find?_some hfind
      rw [((H.rep.tagged b hb).header hf).getSize hbw] at this
      simpa using this
    have haddr : (b.taken n).addr = b.addr := Block.fit_addr b n
    have hks : n ≤ (b.taken n).size := (Block.fit_size hfit).1
    obtain ⟨m', head', ts', hrun, H', hhead, hrest, halloc, hfresh, hframe⟩ :=
      H.reuseBlock c hb hf hmod (by omega) hfit
    refine ⟨s.setHeap (m', head'), ts', _, b.taken n, ?_, ⟨H', hhead, hks, halloc, hfresh,
      ⟨fun d hd _ x hx ↦ hframe.allocated d hd (fun hda ↦ ?_) x hx, hframe.outside⟩,
      .inl ⟨rfl, rfl⟩, rfl, rfl, rfl, fun a ha ↦ .inl ha⟩,
      .reused b hb hf hfind hfit rfl hrest rfl rfl rfl⟩
    · have hne : b.addr ≠ 0 := by omega
      simp only [Option.getD_some, if_neg hne, hrun, ok_bind, haddr]
    · have := H.rep.placed.block_eq_of_addr hd.1 hb hda
      exact absurd (this ▸ hd.2) (by simp [hf])
  | none =>
    simp only [Option.getD_none, if_true]
    rcases H.arenaWithRoom c hmap hsize hlt (by omega) with
      ⟨os, hrun, hos, hfull, hrefused, heq⟩ |
      ⟨s₁, init, t, hrun, hat, H₁, hroom, hblocks, hgrow, hs₁, hkeep⟩
    · exact .inl ⟨os, by rw [hrun], hos, hfind, hfull, hrefused, heq⟩
    right
    obtain ⟨m', hcarve, H', hhead, hout⟩ := H₁.carveBlock c hmod (by omega) hroom
    have hregions : ((init ++ [t.bump n]).map Carved.arena).map Arena.region =
        s₁.arenas.map Arena.region := by
      rw [H₁.arenas_eq]
      simp [Carved.bump, Arena.region]
    have hcover : ∀ x, (∃ d ∈ blocksOf ts, d.Covers x) → ¬ (t.fresh n).Covers x := by
      rintro x ⟨d, hd, hdx⟩ hx
      have := H₁.rep.placed.fresh_apart hroom (hblocks ▸ hd) hdx
      simp only [Block.Covers, Block.stop, Carved.fresh] at hx
      omega
    refine ⟨{ s₁ with mem := m', arenas := (init ++ [t.bump n]).map Carved.arena },
      init ++ [t.bump n], order, t.fresh n, ?_, ⟨?_, hhead, Nat.le_refl _, fun d ↦ ?_,
      fun hk ↦ ?_, ⟨fun d hd _ x hx ↦ ?_, fun x hx ↦ ?_⟩, ?_, ?_, ?_, ?_, fun a ha ↦ ?_⟩, ?_⟩
    · rw [hrun]
      exact hcarve
    · exact H'
    · simp only [Allocated, mem_bump, hblocks]
      constructor
      · rintro ⟨hd | rfl, hf⟩
        · exact .inr ⟨hd, hf⟩
        · exact .inl rfl
      · rintro (rfl | ⟨hd, hf⟩)
        · exact ⟨.inr rfl, rfl⟩
        · exact ⟨.inl hd, hf⟩
    · refine hcover (t.fresh n).addr ⟨_, hk, ?_⟩ ?_ <;>
        exact ⟨Nat.le_refl _, by unfold Block.stop; omega⟩
    · exact (hout x (hcover x ⟨d, hd.1, hx⟩)).trans (hkeep x (.inr ⟨d, hd.1, hx⟩))
    · have hbump := hx (t.bump n) (by simp)
      simp only [Carved.bump] at hbump
      refine (hout x fun hxf ↦ ?_).trans (hkeep x (.inl fun u hu ↦ ?_))
      · simp only [Block.Covers, Block.stop, Carved.fresh] at hxf
        omega
      · rcases List.mem_append.mp hu with hu | hu
        · exact hx u (by simp [hu])
        · rw [List.mem_singleton.mp hu]
          exact hbump
    · rcases hgrow with ⟨hos, hreg⟩ | ⟨r, hr, hok, hmapped, hreg⟩
      · exact .inl ⟨hos, hregions.trans hreg⟩
      · exact .inr ⟨r, hr, hok, hmapped, hregions.trans hreg⟩
    · rw [hs₁]
    · rw [hs₁]
    · rw [hs₁]
    · obtain ⟨u, hu, rfl⟩ := List.mem_map.mp ha
      rcases List.mem_append.mp hu with hu | hu
      · rcases hat with ⟨-, -, rfl⟩ | ⟨-, -, -, -, rfl, -⟩
        · exact .inl (H.arenas_eq ▸ List.mem_map_of_mem (List.mem_append_left _ hu))
        · exact .inl (H.arenas_eq ▸ List.mem_map_of_mem hu)
      · rw [List.mem_singleton.mp hu]
        exact .inr (by simp only [Carved.bump]; omega)
    · rcases hat with ⟨-, rfl, rfl⟩ | ⟨hfull, r, hr, hos, rfl, rfl⟩
      · exact .bumped (init.map Carved.arena) t.arena hfind (by rw [H.arenas_eq]; simp) hroom rfl
          rfl rfl (by simp [Carved.bump])
      · refine .grown r hfind hfull hr (by simpa using hroom) ?_ rfl hos ?_
        · simp [Carved.fresh]
        · simp [Carved.bump, H.arenas_eq]

/-- A general allocation of more than the largest size class and at most `SIZE_MAX - 47` bytes
either fails and changes only the kernel's log, or adds one allocated block that is large
enough. -/
theorem GeneralHeap.mallocGeneral (c : Config)
    (H : GeneralHeap s.mem s.freeHead s.arenas ts order)
    (hmap : ∀ a ∈ s.arenas, a.region ∈ s.os.mapped) (hsize : s.arenaSize < 2 ^ 64) {size : Nat}
    (hlo : 4096 < size) (hhi : size + 47 < 2 ^ 64) :
    (∃ os, mallocGeneral c s size = .ok ({ s with os := os }, 0) ∧ os.mapped = s.os.mapped ∧
      Unserved c s order (alignUp size) os) ∨
    ∃ s' ts' order' k, mallocGeneral c s size = .ok (s', k.addr + 16) ∧
      Added c s s' ts size ts' order' k ∧
      Served c s ts order (alignUp size) s' ts' order' k := by
  obtain ⟨hle, hlt⟩ := alignUp_spec (show size + 16 ≤ 2 ^ 64 by omega)
  have hmod := alignUp_mod size
  rcases H.allocatePayload c hmap hsize hmod (by omega) (by omega) with
    h | ⟨s', ts', order', k, hrun, hadd, hserved⟩
  · exact .inl h
  · exact .inr ⟨s', ts', order', k, hrun,
      { hadd with size_le := Nat.le_trans hle hadd.size_le }, hserved⟩

end CustomAllocator
