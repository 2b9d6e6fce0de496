import CustomAllocator.Layout.Determined
import CustomAllocator.Stages.Outline

/-!
# Two builds side by side

Two builds of one program, for instance in different stages, that have served the same client:
their sessions have the same outline, and ledgers that differ only in which slot of a pool a
pointer names. Every call keeps this, and returns null in both or in neither.
-/

namespace CustomAllocator
open CustomAllocator.Base

/-- The memory of the nine `Pool` objects. -/
def Config.poolObjects (c : Config) : OsRegion := ⟨c.poolsBase, numSizeClasses * c.poolSize⟩

/-- Two builds on pages of one size that the kernel gives the same answers: a region at an address
it will offer is clear of the `Pool` objects in both builds or in neither. -/
structure Peers (c c' : Config) (offers : List (Option Nat)) : Prop where
  page : c'.page = c.page
  clear : ∀ base, some base ∈ offers → ∀ size,
    OsRegion.Apart ⟨base, size⟩ c'.poolObjects ↔ OsRegion.Apart ⟨base, size⟩ c.poolObjects

/-- Two builds that differ at most in the stage and in assertions. -/
structure Siblings (c c' : Config) : Prop where
  page : c'.page = c.page
  poolsBase : c'.poolsBase = c.poolsBase
  poolSize : c'.poolSize = c.poolSize

/-- Two pointers that the same request was answered with. -/
structure Counterpart (g g' : Grant) : Prop where
  requested : g'.requested = g.requested
  origin : g'.origin = g.origin
  ptr : g.origin = none → g'.ptr = g.ptr

/-- Two sessions with the same outline and ledgers alike, in builds that will be answered alike. -/
structure Paired (c c' : Config) (t : Tid) (w w' : Session) (v : Outline) (sh sh' : Shelves) :
    Prop where
  peers : Peers c c' v.os.offers
  left : Outlined c t w v sh
  right : Outlined c' t w' v sh'
  ledger : List.Forall₂ Counterpart w.live w'.live

/-- Sessions of two builds that no client can tell apart by null answers, nor the kernel by its
requests. -/
def Twins (c c' : Config) (t : Tid) (w w' : Session) : Prop :=
  ∃ v sh sh', Paired c c' t w w' v sh sh'

variable {c c' : Config} {t : Tid} {w w' : Session} {v : Outline} {sh sh' : Shelves}
  {i : Fin numSizeClasses} {g g' : Grant} {s s' : State} {n : Nat} {live live' : List Grant}

/-! ### Builds -/

namespace Peers

variable {offers offers' : List (Option Nat)} {os : Os}

theorem symm (h : Peers c c' offers) : Peers c' c offers :=
  ⟨h.page.symm, fun base hb size ↦ (h.clear base hb size).symm⟩

/-- Fewer offers are left. -/
theorem later (h : Peers c c' offers) (hsub : offers' ⊆ offers) : Peers c c' offers' :=
  ⟨h.page, fun base hb ↦ h.clear base (hsub hb)⟩

theorem roundUpToPage (h : Peers c c' offers) (size : Nat) :
    roundUpToPage c' size = CustomAllocator.roundUpToPage c size := by
  unfold CustomAllocator.roundUpToPage
  rw [h.page]

theorem mmap (h : Peers c c' os.offers) (length : Nat) :
    mmap c' os length = CustomAllocator.mmap c os length := by
  have hmappable : ∀ base, some base ∈ os.offers →
      (Mappable c' os.mapped ⟨base, length⟩ ↔ Mappable c os.mapped ⟨base, length⟩) := by
    intro base hb
    have hclear := h.clear base hb length
    unfold Config.poolObjects at hclear
    unfold Mappable
    rw [h.page, hclear]
  unfold CustomAllocator.mmap
  split
  · rfl
  · rcases hoffers : os.offers with _ | ⟨_ | base, rest⟩
    · rfl
    · rfl
    · simp only [hmappable base (by simp [hoffers])]

/-- The kernel cannot tell the builds apart. -/
theorem osAcquire {k : Machine} (h : Peers c c' k.os.offers) (size : Nat) :
    osAcquire c' k size = CustomAllocator.osAcquire c k size := by
  unfold CustomAllocator.osAcquire
  simp only [h.roundUpToPage, h.mmap]

theorem osAnswer (h : Peers c c' os.offers) (size : Nat) :
    osAnswer c' os size = CustomAllocator.osAnswer c os size := by
  have hacquire : CustomAllocator.osAcquire c' ⟨fun _ ↦ 0, os⟩ size =
      CustomAllocator.osAcquire c ⟨fun _ ↦ 0, os⟩ size :=
    Peers.osAcquire h size
  unfold CustomAllocator.osAnswer
  rw [hacquire]

theorem arenaSlots (h : Peers c c' offers) (total : Nat) :
    arenaSlots c' total = CustomAllocator.arenaSlots c total := by
  unfold CustomAllocator.arenaSlots arenaBytes
  rw [h.roundUpToPage]

theorem wholeBatches (h : Peers c c' offers) (hwhole : WholeBatches c) : WholeBatches c' := by
  intro i
  rw [h.arenaSlots]
  exact hwhole i

/-- The builds take from equal stocks alike. -/
theorem draw (h : Peers c c' os.offers) (i : Fin numSizeClasses) (k : Stock) :
    k.draw c' i os = k.draw c i os := by
  unfold Stock.draw Stock.take
  rw [h.osAnswer, h.arenaSlots]

/-- Taking from a stock leaves the builds answered alike. -/
theorem drawn (h : Peers c c' os.offers) (i : Fin numSizeClasses) (k : Stock) :
    Peers c c' (k.draw c i os).1.offers :=
  h.later (k.take_offers c (classSize i + 16) os)

end Peers

namespace Siblings

theorem peers (h : Siblings c c') (offers : List (Option Nat)) : Peers c c' offers := by
  refine ⟨h.page, fun base _ size ↦ ?_⟩
  unfold Config.poolObjects
  rw [h.poolsBase, h.poolSize]

theorem isKnownPool (h : Siblings c c') (candidate : Nat) :
    isKnownPool c' candidate = CustomAllocator.isKnownPool c candidate := by
  unfold CustomAllocator.isKnownPool Config.poolAddr
  rw [h.poolsBase, h.poolSize]

end Siblings

/-! ### Ledgers -/

/-- The ledger without the entry at place `n`. -/
theorem without_eq_eraseIdx (hnd : (live.map Grant.ptr).Nodup) (hg : live[n]? = some g) :
    without live g.ptr = live.eraseIdx n := by
  induction live generalizing n with
  | nil => simp at hg
  | cons h live ih =>
    obtain ⟨hh, hnd⟩ := List.nodup_cons.mp hnd
    cases n with
    | zero =>
      obtain rfl : h = g := by simpa using hg
      have hall : ∀ d ∈ live, decide (d.ptr ≠ h.ptr) = true := fun d hd ↦
        decide_eq_true fun he ↦ hh (List.mem_map.mpr ⟨d, hd, he⟩)
      rw [without, List.filter_cons_of_neg (by simp), List.filter_eq_self.mpr hall]
      rfl
    | succ n =>
      rw [List.getElem?_cons_succ] at hg
      have hne : h.ptr ≠ g.ptr := fun he ↦
        hh (List.mem_map.mpr ⟨g, List.mem_of_getElem? hg, he.symm⟩)
      rw [without, List.filter_cons_of_pos (by simpa using hne), List.eraseIdx_cons_succ]
      exact congrArg (h :: ·) (ih hnd hg)

/-- The ledger with a new size at place `n`. -/
theorem renewed_eq_set (hnd : (live.map Grant.ptr).Nodup) (hg : live[n]? = some g) (size : Nat) :
    renewed live g.ptr size = live.set n { g with requested := size } := by
  induction live generalizing n with
  | nil => simp at hg
  | cons h live ih =>
    obtain ⟨hh, hnd⟩ := List.nodup_cons.mp hnd
    cases n with
    | zero =>
      obtain rfl : h = g := by simpa using hg
      have hall : ∀ d ∈ live, (if d.ptr = h.ptr then { d with requested := size } else d) = d :=
        fun d hd ↦ if_neg fun he ↦ hh (List.mem_map.mpr ⟨d, hd, he⟩)
      rw [renewed, List.map_cons, if_pos rfl, List.map_congr_left hall, List.map_id']
      rfl
    | succ n =>
      rw [List.getElem?_cons_succ] at hg
      have hne : h.ptr ≠ g.ptr := fun he ↦
        hh (List.mem_map.mpr ⟨g, List.mem_of_getElem? hg, he.symm⟩)
      rw [renewed, List.map_cons, if_neg hne, List.set_cons_succ]
      exact congrArg (h :: ·) (ih hnd hg)

/-- Entries at the same place are related. -/
theorem forall₂_getElem {α β : Type} {R : α → β → Prop} {l : List α} {l' : List β}
    (h : List.Forall₂ R l l') {a : α} (ha : l[n]? = some a) : ∃ b, l'[n]? = some b ∧ R a b := by
  induction h generalizing n with
  | nil => simp at ha
  | @cons x y _ _ hxy _ ih =>
    cases n with
    | zero =>
      obtain rfl : x = a := by simpa using ha
      exact ⟨y, rfl, hxy⟩
    | succ n => exact ih ha

theorem forall₂_eraseIdx {α β : Type} {R : α → β → Prop} {l : List α} {l' : List β}
    (h : List.Forall₂ R l l') (n : Nat) : List.Forall₂ R (l.eraseIdx n) (l'.eraseIdx n) := by
  induction h generalizing n with
  | nil => exact .nil
  | cons hxy hrest ih =>
    cases n with
    | zero => exact hrest
    | succ n => exact .cons hxy (ih n)

theorem forall₂_set {α β : Type} {R : α → β → Prop} {l : List α} {l' : List β} {a : α} {b : β}
    (h : List.Forall₂ R l l') (hab : R a b) (n : Nat) :
    List.Forall₂ R (l.set n a) (l'.set n b) := by
  induction h generalizing n with
  | nil => exact .nil
  | cons hxy hrest ih =>
    cases n with
    | zero => exact .cons hab hrest
    | succ n => exact .cons hxy (ih n)

/-! ### What twins have in common -/

namespace Paired

theorem symm (P : Paired c c' t w w' v sh sh') : Paired c' c t w' w v sh' sh := by
  refine ⟨P.peers.symm, P.right, P.left,
    P.ledger.flip.imp fun g g' E ↦ ⟨E.requested.symm, E.origin.symm, ?_⟩⟩
  intro ho
  exact (E.ptr (E.origin.symm.trans ho)).symm

theorem twins (P : Paired c c' t w w' v sh sh') : Twins c c' t w w' := ⟨v, sh, sh', P⟩

/-- Pointers at the same place of the ledgers are alike. -/
theorem alike (P : Paired c c' t w w' v sh sh') (hg : w.live[n]? = some g)
    (hg' : w'.live[n]? = some g') : Counterpart g g' := by
  obtain ⟨d, hd, E⟩ := forall₂_getElem P.ledger hg
  cases hg'.symm.trans hd
  exact E

/-- A general pointer is the same in both builds, and so is its block. -/
theorem block (P : Paired c c' t w w' v sh sh') (hg : g ∈ w.live) (hg' : g' ∈ w'.live)
    (E : Counterpart g g') (ho : g.origin = none) :
    ∃ b, OwnsBlock w.state.mem v.ts g b ∧ OwnsBlock w'.state.mem v.ts g' b ∧
      (∀ i, ¬ Stands sh i b.addr) ∧ ∀ i, ¬ Stands sh' i b.addr := by
  obtain ⟨b, hb, hn⟩ := P.left.accounted.general g hg ho
  obtain ⟨d, hd, hn'⟩ := P.right.accounted.general g' hg' (E.origin.trans ho)
  have hptr := E.ptr ho
  rw [hb.ptr_eq, hd.ptr_eq] at hptr
  obtain rfl := P.left.accounted.coherent.heap.rep.placed.block_eq_of_addr hd.allocated.1
    hb.allocated.1 (Nat.add_right_cancel hptr)
  exact ⟨d, hb, hd, hn, hn'⟩

/-- Pointers alike have the same usable bytes. -/
theorem usable_eq (P : Paired c c' t w w' v sh sh') (hg : g ∈ w.live) (hg' : g' ∈ w'.live)
    (E : Counterpart g g') : usable w'.state g' = usable w.state g := by
  cases ho : g.origin with
  | none =>
    obtain ⟨b, hb, hb', -⟩ := P.block hg hg' E ho
    rw [P.left.accounted.usable_general ho hb,
      P.right.accounted.usable_general (E.origin.trans ho) hb']
  | some i =>
    rw [P.left.accounted.usable_pooled ho, P.right.accounted.usable_pooled (E.origin.trans ho)]

/-- Pointers alike are routed alike. -/
theorem routed_iff (h : Siblings c c') (P : Paired c c' t w w' v sh sh') (hg : g ∈ w.live)
    (hg' : g' ∈ w'.live) (E : Counterpart g g') : Routed c' w'.state g' ↔ Routed c w.state g := by
  rw [P.left.accounted.routed_iff hg, P.right.accounted.routed_iff hg', E.origin,
    P.usable_eq hg hg' E, h.isKnownPool]

/-- A general allocation cannot tell the builds apart. -/
theorem sameHeap (P : Paired c c' t w w' v sh sh') :
    HeapsAlike c c' w.state w'.state v.order := by
  have hos : w'.state.os = w.state.os := P.right.os.trans P.left.os.symm
  have hpeers : Peers c c' w'.state.toMachine.os.offers := P.right.os.symm ▸ P.peers
  have hanswer : ∀ n, (arenaAnswer c' w'.state n).2 = (arenaAnswer c w.state n).2 ∧
      (arenaAnswer c' w'.state n).1.os = (arenaAnswer c w.state n).1.os := by
    intro n
    unfold arenaAnswer
    rw [hpeers.osAcquire, P.right.arenaSize, P.left.arenaSize]
    exact (osAcquire_os c hos _).symm
  refine ⟨P.left.accounted.coherent.heap.firstFit_eq P.right.accounted.coherent.heap, hos, ?_,
    fun n ↦ (hanswer n).1, fun n ↦ (hanswer n).2⟩
  rw [P.left.arenas_eq, P.right.arenas_eq]

end Paired

/-! ### Allocating -/

/-- Two calls return null together, or pointers alike, to sessions that are twins again. -/
def Matched (c c' : Config) (t : Tid) (live live' : Nat → List Grant)
    (run run' : Except Fault (State × Nat)) : Prop :=
  ∃ s r s' r', run = .ok (s, r) ∧ run' = .ok (s', r') ∧ (r = 0 ↔ r' = 0) ∧
    Twins c c' t ⟨s, live r⟩ ⟨s', live' r'⟩

namespace Paired

/-- An allocation of a size class draws from equal stocks. -/
theorem mallocPooled (hwhole : WholeBatches c) (P : Paired c c' t w w' v sh sh') {size : Nat}
    (ho : originOf size = some i) :
    Matched c c' t (ledgerAfter w.live (.malloc size)) (ledgerAfter w'.live (.malloc size))
      (myMalloc c w.state t size) (myMalloc c' w'.state t size) := by
  obtain ⟨s, r, sh₁, hrun, hnull, O⟩ := P.left.mallocPooled hwhole ho
  obtain ⟨s', r', sh₁', hrun', hnull', O'⟩ := P.right.mallocPooled (P.peers.wholeBatches hwhole) ho
  have hdrawn := P.peers.drawn i (v.stock i)
  rw [P.peers.draw] at hnull' O'
  generalize (v.stock i).draw c i v.os = d at hnull hnull' O O' hdrawn
  have hiff : r = 0 ↔ r' = 0 := hnull.trans hnull'.symm
  refine ⟨s, r, s', r', hrun, hrun', hiff, v.setStock i d.1 d.2.1, sh₁, sh₁', hdrawn, O, O', ?_⟩
  simp only [ledgerAfter]
  by_cases hr : r = 0
  · rw [if_pos hr, if_pos (hiff.mp hr)]
    exact P.ledger
  · rw [if_neg hr, if_neg fun hr' ↦ hr (hiff.mpr hr')]
    refine .cons ⟨rfl, rfl, fun hnone ↦ ?_⟩ P.ledger
    rw [ho] at hnone
    cases hnone

/-- A general allocation is served from the same block or refused alike. -/
theorem mallocGeneral (P : Paired c c' t w w' v sh sh') {size : Nat} (hlo : 4096 < size)
    (hsize : size + 47 < 2 ^ 64) :
    Matched c c' t (ledgerAfter w.live (.malloc size)) (ledgerAfter w'.live (.malloc size))
      (myMalloc c w.state t size) (myMalloc c' w'.state t size) := by
  have H := P.left.accounted.coherent.heap
  have E := P.sameHeap
  have hpeers : Peers c c' w.state.os.offers := P.left.os.symm ▸ P.peers
  have hasked : ∀ n, Peers c c' (arenaAnswer c w.state n).1.os.offers := by
    intro n
    unfold arenaAnswer
    exact hpeers.later (osAcquire_offers c w.state.toMachine (arenaRequest w.state.arenaSize n))
  rcases P.left.accounted.mallocBlock t hlo hsize with
    ⟨os, hrun, hmapped, U⟩ | ⟨s, ts, order, k, hrun, G, D, S⟩
  · rcases P.right.accounted.mallocBlock t hlo hsize with
      ⟨os', hrun', hmapped', U'⟩ | ⟨_, _, _, _, -, -, -, S'⟩
    · obtain rfl : os' = os := U.unique E U'
      have hrefused : Peers c c' os'.offers := by
        rw [U.os_eq]
        exact hasked _
      exact ⟨_, 0, _, 0, hrun, hrun', Iff.rfl, { v with os := os' }, sh, sh', hrefused,
        P.left.refused hmapped, P.right.refused hmapped', P.ledger⟩
    · exact absurd S' (U.not_served H E)
  · rcases P.right.accounted.mallocBlock t hlo hsize with
      ⟨_, -, -, U'⟩ | ⟨s', ts', order', k', hrun', G', D', S'⟩
    · exact absurd S (U'.not_served P.right.accounted.coherent.heap P.symm.sameHeap)
    obtain ⟨rfl, rfl, hos, harenas⟩ := S.unique H E S'
    obtain rfl : ts' = ts := D.heap.tiling_eq D'.heap harenas fun d ↦ by
      rw [D.allocated, D'.allocated]
    have hne : k'.addr + 16 ≠ 0 := by omega
    have hserved : Peers c c' s.os.offers := by
      cases S with
      | reused b mem free first size block rest listed os arenas => rwa [os]
      | bumped init a unlisted newest room block listed os arenas => rwa [os]
      | grown r unlisted full answer room block listed os arenas =>
        rw [os]
        exact hasked _
    refine ⟨s, k'.addr + 16, s', k'.addr + 16, hrun, hrun', Iff.rfl,
      { v with os := s.os, ts := ts', order := order' }, sh, sh', hserved, ?_, ?_, ?_⟩
    · simp only [ledgerAfter, if_neg hne]
      exact P.left.general G.accounted (G.uncaptured P.left.uncaptured) rfl D.pools_eq
        D.arenaSize_eq
    · simp only [ledgerAfter, if_neg hne]
      exact P.right.general G'.accounted (G'.uncaptured P.right.uncaptured) hos D'.pools_eq
        D'.arenaSize_eq
    · simp only [ledgerAfter, if_neg hne]
      exact .cons ⟨rfl, rfl, fun _ ↦ rfl⟩ P.ledger

end Paired

/-- `my_malloc` keeps twins. -/
theorem Twins.malloc (hwhole : WholeBatches c) (T : Twins c c' t w w') {size : Nat}
    (hsize : size + 47 < 2 ^ 64) :
    Matched c c' t (ledgerAfter w.live (.malloc size)) (ledgerAfter w'.live (.malloc size))
      (myMalloc c w.state t size) (myMalloc c' w'.state t size) := by
  obtain ⟨v, sh, sh', P⟩ := T
  cases ho : originOf size with
  | none => exact P.mallocGeneral (originOf_eq_none.mp ho) hsize
  | some i => exact P.mallocPooled hwhole ho

/-! ### Freeing -/

/-- `my_free` of pointers alike keeps twins. -/
theorem Twins.free (T : Twins c c' t w w') (hg : w.live[n]? = some g)
    (hg' : w'.live[n]? = some g') (hr : Routed c w.state g) (hr' : Routed c' w'.state g') :
    ∃ s s', myFree c w.state t g.ptr = .ok s ∧ myFree c' w'.state t g'.ptr = .ok s' ∧
      Twins c c' t ⟨s, without w.live g.ptr⟩ ⟨s', without w'.live g'.ptr⟩ := by
  obtain ⟨v, sh, sh', P⟩ := T
  have hm := List.mem_of_getElem? hg
  have hm' := List.mem_of_getElem? hg'
  have E := P.alike hg hg'
  have A := P.left.accounted
  have A' := P.right.accounted
  have hledger : List.Forall₂ Counterpart (without w.live g.ptr) (without w'.live g'.ptr) := by
    rw [without_eq_eraseIdx A.nodup hg, without_eq_eraseIdx A'.nodup hg']
    exact forall₂_eraseIdx P.ledger n
  cases ho : g.origin with
  | some i =>
    obtain ⟨s, sh₁, hrun, O⟩ := P.left.freePooled hm ho
    obtain ⟨s', sh₁', hrun', O'⟩ := P.right.freePooled hm' (E.origin.trans ho)
    exact ⟨s, s', hrun, hrun', v.setStock i v.os (v.stock i).put, sh₁, sh₁', P.peers, O, O',
      hledger⟩
  | none =>
    have ho' := E.origin.trans ho
    obtain ⟨b, hb, hb', hn, hn'⟩ := P.block hm hm' E ho
    have hk : ¬ isKnownPool c b.size = true := by
      have := (A.routed_iff hm).mp hr ho
      rw [A.usable_general ho hb] at this
      simp [this]
    have hk' : ¬ isKnownPool c' b.size = true := by
      have := (A'.routed_iff hm').mp hr' ho'
      rw [A'.usable_general ho' hb'] at this
      simp [this]
    obtain ⟨heap, ts, order, k, hrun, R, F⟩ := A.freeBlock t hm hb hn hk
    obtain ⟨heap', ts', order', k', hrun', R', F'⟩ := A'.freeBlock t hm' hb' hn' hk'
    have harenas : w'.state.arenas = w.state.arenas := P.sameHeap.arenas
    obtain rfl : ts' = ts := R.accounted.coherent.heap.tiling_eq R'.accounted.coherent.heap harenas
      fun d ↦ by rw [F.allocated, F'.allocated]
    have hlarge := A.coherent.heap.large b hb.allocated.1 hb.allocated.2
    obtain rfl := F.unique F' R.accounted.coherent.heap.rep.placed (by omega)
    have hun : ∀ d, Allocated ts' d → Allocated v.ts d := fun d hd ↦ ((F.allocated d).mp hd).1
    exact ⟨_, _, hrun, hrun', { v with os := v.os, ts := ts', order := order' }, sh, sh', P.peers,
      P.left.general R.accounted (fun d hd ↦ P.left.uncaptured d (hun d hd)) P.left.os rfl rfl,
      P.right.general R'.accounted (fun d hd ↦ P.right.uncaptured d (hun d hd)) P.right.os rfl rfl,
      hledger⟩

/-! ### Writing -/

/-- What clients and copies write into payloads keeps twins. -/
theorem Twins.write (T : Twins c c' t w w') {m m' : Mem}
    (hm : ∀ x, m x ≠ w.state.mem x → ∃ g ∈ w.live, InPayload w.state g x)
    (hm' : ∀ x, m' x ≠ w'.state.mem x → ∃ g ∈ w'.live, InPayload w'.state g x) :
    Twins c c' t ⟨{ w.state with mem := m }, w.live⟩ ⟨{ w'.state with mem := m' }, w'.live⟩ := by
  obtain ⟨v, sh, sh', P⟩ := T
  exact ⟨v, sh, sh', P.peers, P.left.write m hm, P.right.write m' hm', P.ledger⟩

/-- Writes to the first `n` bytes of a payload are writes into payloads. -/
theorem inPayload_of_write {m : Mem} (hg : g ∈ live) (hn : n ≤ usable s g)
    (hm : ∀ x, (g.ptr ≤ x → g.ptr + n ≤ x) → m x = s.mem x) {x : Nat} (hx : m x ≠ s.mem x) :
    ∃ g ∈ live, InPayload s g x := by
  refine ⟨g, hg, ?_⟩
  by_contra hout
  apply hx
  apply hm
  intro hlo
  unfold InPayload at hout
  omega

/-- `my_calloc` keeps twins. -/
theorem Twins.calloc (hwhole : WholeBatches c) (T : Twins c c' t w w') {count size : Nat}
    (hfits : (Call.calloc count size).Fits) :
    Matched c c' t (ledgerAfter w.live (.calloc count size))
      (ledgerAfter w'.live (.calloc count size))
      (myCalloc c w.state t count size) (myCalloc c' w'.state t count size) := by
  by_cases hover : sizeMax < count * size
  · exact ⟨_, 0, _, 0, calloc_overflow c w.state t hover, calloc_overflow c' w'.state t hover,
      Iff.rfl, T⟩
  have hfit := hfits.resolve_right hover
  have hguard : ¬ (size ≠ 0 ∧ sizeMax / size < count) := fun hg ↦
    hover ((calloc_guard count size).mp hg)
  have htotal : mul64 count size = count * size := mul64_of_lt (by unfold sizeMax at hfit; omega)
  obtain ⟨s, r, s', r', hrun, hrun', hiff, T₁⟩ :=
    T.malloc hwhole (show count * size + 47 < 2 ^ 64 by unfold sizeMax at hfit; omega)
  unfold myCalloc
  simp only [if_neg hguard, htotal, hrun, hrun', ok_bind]
  by_cases hr : r = 0
  · obtain rfl := hr
    obtain rfl := hiff.mp rfl
    exact ⟨s, 0, s', 0, rfl, rfl, Iff.rfl, T₁⟩
  · have hr' : r' ≠ 0 := fun he ↦ hr (hiff.mpr he)
    simp only [ledgerAfter, if_neg hr, if_neg hr'] at T₁
    refine ⟨_, r, _, r', if_neg hr, if_neg hr', hiff, ?_⟩
    simp only [ledgerAfter, if_neg hr, if_neg hr']
    obtain ⟨v, sh, sh', P⟩ := T₁
    have hm := P.left.accounted.requested_le List.mem_cons_self
    have hm' := P.right.accounted.requested_le List.mem_cons_self
    exact P.twins.write
      (fun x hx ↦ inPayload_of_write List.mem_cons_self hm
        (fun y hy ↦ fill_of_out _ _ (by dsimp only at hy; omega)) hx)
      fun x hx ↦ inPayload_of_write List.mem_cons_self hm'
        (fun y hy ↦ fill_of_out _ _ (by dsimp only at hy; omega)) hx

/-! ### Reallocating -/

/-- The ledger after a reallocation that was refused, answered in place, or moved. -/
theorem ledgerAfter_refused (live : List Grant) (p size : Nat) :
    ledgerAfter live (.realloc p size) 0 = live := by
  simp only [ledgerAfter, if_true]

theorem ledgerAfter_kept {p : Nat} (hp : p ≠ 0) (live : List Grant) (size : Nat) :
    ledgerAfter live (.realloc p size) p = renewed live p size := by
  simp only [ledgerAfter, if_neg hp, if_true]

theorem ledgerAfter_moved {p r : Nat} (hp : p ≠ 0) (hr : r ≠ 0) (hne : r ≠ p) (live : List Grant)
    (size : Nat) : ledgerAfter live (.realloc p size) r =
      ⟨r, size, originOf size⟩ :: without live p := by
  simp only [ledgerAfter, if_neg hp, if_neg hr, if_neg hne]

/-- The first half of a move: a new grant with the bytes of the old one, which is still held and
still routed. -/
theorem Accounted.copied {ts : List Carved} {order : List Nat} {s₁ : State} {q size copySize : Nat}
    (A : Accounted c s live ts order sh) (hg : g ∈ live) (hr : Routed c s g)
    (hsize : size + 47 < 2 ^ 64) (hcopy : copySize ≤ size)
    (hrun : myMalloc c s t size = .ok (s₁, q)) (hq : q ≠ 0) :
    q ≠ g.ptr ∧ Routed c { s₁ with mem := copy s₁.mem q g.ptr copySize } g ∧
      ∀ x, copy s₁.mem q g.ptr copySize x ≠ s₁.mem x →
        ∃ h ∈ (⟨q, size, originOf size⟩ :: live : List Grant), InPayload s₁ h x := by
  rcases A.malloc t hsize with ⟨os, hrun', -⟩ | ⟨s₂, p, ts', order', sh', hrun', G⟩
  · cases hrun.symm.trans hrun'
    exact absurd rfl hq
  cases hrun.symm.trans hrun'
  have hout : ∀ x, (q ≤ x → q + size ≤ x) → copy s₁.mem q g.ptr copySize x = s₁.mem x :=
    fun x hx ↦ copy_of_out _ (by omega)
  have G' := G.write _ hout
  refine ⟨fun he ↦ G.ptr_new.2 g hg he.symm, ?_, fun x hx ↦ ?_⟩
  · rw [G'.accounted.routed_iff (List.mem_cons_of_mem _ hg), (G'.spared g hg).1]
    exact (A.routed_iff hg).mp hr
  · exact inPayload_of_write List.mem_cons_self (G.accounted.requested_le List.mem_cons_self)
      hout hx

/-- Allocating, copying and freeing keeps twins. -/
theorem Twins.moveTo (hwhole : WholeBatches c) (T : Twins c c' t w w') (hg : w.live[n]? = some g)
    (hg' : w'.live[n]? = some g') (hr : Routed c w.state g) (hr' : Routed c' w'.state g')
    {size copySize : Nat} (hsize : size + 47 < 2 ^ 64) (hcopy : copySize ≤ size) :
    Matched c c' t (ledgerAfter w.live (.realloc g.ptr size))
      (ledgerAfter w'.live (.realloc g'.ptr size))
      (moveTo c w.state t g.ptr size copySize) (moveTo c' w'.state t g'.ptr size copySize) := by
  obtain ⟨s, r, s', r', hrun, hrun', hiff, T₁⟩ := T.malloc hwhole hsize
  unfold CustomAllocator.moveTo
  simp only [hrun, hrun', ok_bind]
  by_cases hr0 : r = 0
  · obtain rfl := hr0
    obtain rfl := hiff.mp rfl
    refine ⟨s, 0, s', 0, rfl, rfl, Iff.rfl, ?_⟩
    rw [ledgerAfter_refused, ledgerAfter_refused]
    exact T₁
  have hr0' : r' ≠ 0 := fun he ↦ hr0 (hiff.mpr he)
  rw [if_neg hr0, if_neg hr0']
  simp only [ledgerAfter, if_neg hr0, if_neg hr0'] at T₁
  obtain ⟨v, sh, sh', P⟩ := T
  have hm := List.mem_of_getElem? hg
  have hm' := List.mem_of_getElem? hg'
  obtain ⟨hne, hrouted, hpay⟩ := P.left.accounted.copied hm hr hsize hcopy hrun hr0
  obtain ⟨hne', hrouted', hpay'⟩ := P.right.accounted.copied hm' hr' hsize hcopy hrun' hr0'
  have T₂ := T₁.write hpay hpay'
  obtain ⟨s₁, s₁', hfree, hfree', T₃⟩ := T₂.free (n := n + 1) (g := g) hg hg' hrouted hrouted'
  have hptr := (P.left.accounted.ptr_aligned hm).2.1
  have hptr' := (P.right.accounted.ptr_aligned hm').2.1
  refine ⟨s₁, r, s₁', r', ?_, ?_, hiff, ?_⟩
  · simp only [hfree, ok_bind]
  · simp only [hfree', ok_bind]
  · rw [ledgerAfter_moved (by omega) hr0 hne, ledgerAfter_moved (by omega) hr0' hne']
    rwa [without, List.filter_cons_of_pos (by simpa using hne), without,
      List.filter_cons_of_pos (by simpa using hne')] at T₃

/-- Asking for a new size at the same place keeps ledgers alike. -/
theorem Paired.renewed (P : Paired c c' t w w' v sh sh') (hg : w.live[n]? = some g)
    (hg' : w'.live[n]? = some g') (size : Nat) :
    List.Forall₂ Counterpart (renewed w.live g.ptr size) (renewed w'.live g'.ptr size) := by
  have E := P.alike hg hg'
  have E' : Counterpart { g with requested := size } { g' with requested := size } :=
    ⟨rfl, E.origin, E.ptr⟩
  rw [renewed_eq_set P.left.accounted.nodup hg, renewed_eq_set P.right.accounted.nodup hg']
  exact forall₂_set P.ledger E' n

/-- `my_realloc` of a slot answers in place as long as the class is large enough. -/
theorem Booked.reallocSlot {tr : Transit} {ts : List Carved} {order : List Nat}
    (A : Booked c s tr live ts order sh) (t : Tid) (hg : g ∈ live) (ho : g.origin = some i)
    (size : Nat) : myRealloc c s t g.ptr size =
      if size ≤ classSize i then .ok (s, g.ptr) else moveTo c s t g.ptr size (classSize i) := by
  have hptr := (A.ptr_aligned hg).2.1
  have hpay := (A.coherent.shelved.shape i).payload_eq
  unfold myRealloc
  rw [if_neg (by omega), A.tag_pooled hg ho, if_pos (isKnownPool_iff.mpr ⟨i, rfl⟩), poolAt_poolAddr,
    ok_bind]
  simp only [hpay]

/-- `my_realloc` of slots alike keeps twins. -/
theorem Twins.reallocSlot (hwhole : WholeBatches c) (T : Twins c c' t w w')
    (hg : w.live[n]? = some g) (hg' : w'.live[n]? = some g') (ho : g.origin = some i)
    {size : Nat} (hsize : size + 47 < 2 ^ 64) :
    Matched c c' t (ledgerAfter w.live (.realloc g.ptr size))
      (ledgerAfter w'.live (.realloc g'.ptr size))
      (myRealloc c w.state t g.ptr size) (myRealloc c' w'.state t g'.ptr size) := by
  have hm := List.mem_of_getElem? hg
  have hm' := List.mem_of_getElem? hg'
  obtain ⟨v, sh, sh', P⟩ := T
  have A := P.left.accounted
  have A' := P.right.accounted
  have ho' := (P.alike hg hg').origin.trans ho
  rw [A.reallocSlot t hm ho, A'.reallocSlot t hm' ho']
  by_cases hfit : size ≤ classSize i
  · have hptr := (A.ptr_aligned hm).2.1
    have hptr' := (A'.ptr_aligned hm').2.1
    rw [if_pos hfit, if_pos hfit]
    refine ⟨_, g.ptr, _, g'.ptr, rfl, rfl, by omega, v, sh, sh', P.peers, ?_, ?_, ?_⟩
    · rw [ledgerAfter_kept (by omega)]
      refine P.left.relabel ⟨A.toBooked.renew fun d hd he ↦ ?_, A.settled⟩
      rw [A.grant_eq hd hm he, A.usable_pooled ho]
      exact hfit
    · rw [ledgerAfter_kept (by omega)]
      refine P.right.relabel ⟨A'.toBooked.renew fun d hd he ↦ ?_, A'.settled⟩
      rw [A'.grant_eq hd hm' he, A'.usable_pooled ho']
      exact hfit
    · rw [ledgerAfter_kept (by omega), ledgerAfter_kept (by omega)]
      exact P.renewed hg hg' size
  · rw [if_neg hfit, if_neg hfit]
    exact P.twins.moveTo hwhole hg hg' (A.routed_pooled hm ho) (A'.routed_pooled hm' ho') hsize
      (by omega)

/-- `my_realloc` of a block answers in place in both builds, or moves in both. -/
theorem Twins.reallocBlock (hwhole : WholeBatches c) (T : Twins c c' t w w')
    (hg : w.live[n]? = some g) (hg' : w'.live[n]? = some g') (ho : g.origin = none)
    (hr : Routed c w.state g) (hr' : Routed c' w'.state g') {size : Nat}
    (hsize : size + 47 < 2 ^ 64) :
    Matched c c' t (ledgerAfter w.live (.realloc g.ptr size))
      (ledgerAfter w'.live (.realloc g'.ptr size))
      (myRealloc c w.state t g.ptr size) (myRealloc c' w'.state t g'.ptr size) := by
  have hm := List.mem_of_getElem? hg
  have hm' := List.mem_of_getElem? hg'
  obtain ⟨v, sh, sh', P⟩ := T
  have A := P.left.accounted
  have A' := P.right.accounted
  have E := P.alike hg hg'
  have ho' := E.origin.trans ho
  have hptr := (A.ptr_aligned hm).2.1
  have hptr' := (A'.ptr_aligned hm').2.1
  obtain ⟨b, hb, hb', hn, hn'⟩ := P.block hm hm' E ho
  have hk₁ : ¬ isKnownPool c (tagOf w.state.mem g.ptr) = true := by
    unfold Routed at hr
    rw [hr, ho]
    decide
  have hk₂ : ¬ isKnownPool c' (tagOf w'.state.mem g'.ptr) = true := by
    unfold Routed at hr'
    rw [hr', ho']
    decide
  rcases A.reallocBlock t hm ho hb hn hk₁ hsize with
    ⟨hhem, hmove⟩ | ⟨heap, ts, order, k, hrun, R, -, -, -, haddr, halloc, W⟩
  · rcases A'.reallocBlock t hm' ho' hb' hn' hk₂ hsize with
      ⟨-, hmove'⟩ | ⟨_, _, _, _, -, -, -, -, -, -, -, W'⟩
    · rw [hmove, hmove']
      exact P.twins.moveTo hwhole hg hg' hr hr' hsize (Nat.min_le_right _ _)
    · exact absurd W' hhem.not_widened
  · rcases A'.reallocBlock t hm' ho' hb' hn' hk₂ hsize with
      ⟨hhem', -⟩ | ⟨heap', ts', order', k', hrun', R', -, -, -, haddr', halloc', W'⟩
    · exact absurd W hhem'.not_widened
    obtain ⟨rfl, rfl⟩ := W.unique A.coherent.heap.rep.placed W'
    have harenas : w'.state.arenas = w.state.arenas := P.sameHeap.arenas
    obtain rfl : ts' = ts := R.coherent.heap.tiling_eq R'.coherent.heap harenas fun d ↦ by
      rw [halloc, halloc']
    have hun : ∀ {sh : Shelves}, (∀ i, ¬ Stands sh i b.addr) → Uncaptured v.ts sh →
        Uncaptured ts' sh := by
      intro sh hn hun d hd j
      rcases (halloc d).mp hd with rfl | ⟨hd, -⟩
      · rw [haddr]
        exact hn j
      · exact hun d hd j
    refine ⟨_, g.ptr, _, g'.ptr, hrun, hrun', by omega,
      { v with os := v.os, ts := ts', order := order' }, sh, sh', P.peers, ?_, ?_, ?_⟩
    · rw [ledgerAfter_kept (by omega)]
      exact P.left.general R (hun hn P.left.uncaptured) P.left.os rfl rfl
    · rw [ledgerAfter_kept (by omega)]
      exact P.right.general R' (hun hn' P.right.uncaptured) P.right.os rfl rfl
    · rw [ledgerAfter_kept (by omega), ledgerAfter_kept (by omega)]
      exact P.renewed hg hg' size

/-- `my_realloc` of pointers alike keeps twins. -/
theorem Twins.realloc (hwhole : WholeBatches c) (T : Twins c c' t w w')
    (hg : w.live[n]? = some g) (hg' : w'.live[n]? = some g') (hr : Routed c w.state g)
    (hr' : Routed c' w'.state g') {size : Nat} (hsize : size + 47 < 2 ^ 64) :
    Matched c c' t (ledgerAfter w.live (.realloc g.ptr size))
      (ledgerAfter w'.live (.realloc g'.ptr size))
      (myRealloc c w.state t g.ptr size) (myRealloc c' w'.state t g'.ptr size) := by
  cases ho : g.origin with
  | none => exact T.reallocBlock hwhole hg hg' ho hr hr' hsize
  | some i => exact T.reallocSlot hwhole hg hg' ho hsize

end CustomAllocator
