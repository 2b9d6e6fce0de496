import CustomAllocator.Base.AtomicHeap
import CustomAllocator.Concurrent.Flow

/-!
# What the clients see

The view of a system forgets everything but the blocks that clients hold, the bytes in them,
and which call each thread waits for. A block that `my_calloc` is still zeroing or `my_realloc`
is still copying into is not in view yet.
-/

namespace CustomAllocator
open CustomAllocator.Base

/-- The `n` bytes at `p`. -/
def bytesAt (m : Mem) (p n : Nat) : List UInt8 := (List.range n).map fun k ↦ m (p + k)

/-- What `my_malloc(size)` was called for. -/
def Purpose.request (size : Nat) : Purpose → Request
  | malloc => .alloc size
  | calloc => .zeroed size
  | realloc ptr _ => .resize ptr size

/-- The size a reallocation asks for. -/
def Call.newSize : Call → Nat
  | .realloc _ newSize => newSize
  | _ => 0

/-- What `my_free(ptr)` was called for. -/
def Sequel.request (ptr newSize : Nat) : Sequel → Request
  | free => .release ptr
  | realloc _ _ => .resize ptr newSize

/-- A call is served when its block comes into view or goes out of it. -/
def Phase.status (call : Call) : Phase → Status
  | unborn => .unborn
  | exited => .exited
  | idle r => .idle r
  | malloc size use | refilled size _ _ use | stocked size _ use => .pending (use.request size)
  | got _ p .malloc => .served p
  | got size p use => if p = 0 then .served 0 else .pending (use.request size)
  | free ptr sequel | tagged ptr _ sequel => .pending (sequel.request ptr call.newSize)
  | pushed _ sequel | detached _ _ _ sequel => .served sequel.result
  | realloc ptr newSize | retagged ptr newSize _ => .pending (.resize ptr newSize)

/-- The block that a thread holds but has not been given yet. -/
def Phase.hidden : Phase → Nat
  | got _ _ .malloc => 0
  | got _ p _ => p
  | free _ (.realloc newPtr _) | tagged _ _ (.realloc newPtr _) => newPtr
  | _ => 0

/-- The blocks in view. -/
def System.holding (y : System) : Holdings Tid UInt8 := fun p ↦
  (y.live.find? fun g ↦ decide (g.ptr = p)).bind fun g ↦
    if (y.phase (y.owner p)).hidden = p then none
    else some ⟨y.owner p, bytesAt y.state.mem p (usable y.state g)⟩

/-- The blocks in view and the calls that wait. -/
def System.view (y : System) : Atomic Tid UInt8 :=
  ⟨y.holding, fun t ↦ (y.phase t).status (y.began t).1⟩

variable {c : Config} {y y' : System} {t u : Tid} {ts ts' : List Carved} {order order' : List Nat}
  {sh sh' : Shelves} {g : Grant} {p q n k : Nat} {m : Mem} {live : List Grant} {st : Status}

theorem System.view_status (y : System) (t : Tid) :
    y.view.status t = (y.phase t).status (y.began t).1 := rfl

/-- While a request waits for `my_malloc`, nothing is hidden and nothing is being changed. -/
theorem Phase.wanted_waits {ph : Phase} {size : Nat} {use : Purpose} (call : Call)
    (h : ph.wanted = some (size, use)) :
    ph.status call = .pending (use.request size) ∧ ph.hidden = 0 ∧ ph.target = 0 := by
  cases ph with
  | malloc n v =>
    obtain ⟨rfl, rfl⟩ : n = size ∧ v = use := by simpa [Phase.wanted] using h
    exact ⟨rfl, rfl, rfl⟩
  | refilled n i b v =>
    obtain ⟨rfl, rfl⟩ : n = size ∧ v = use := by simpa [Phase.wanted] using h
    exact ⟨rfl, rfl, rfl⟩
  | stocked n i v =>
    obtain ⟨rfl, rfl⟩ : n = size ∧ v = use := by simpa [Phase.wanted] using h
    exact ⟨rfl, rfl, rfl⟩
  | _ => cases h

/-! ### Bytes -/

@[simp] theorem length_bytesAt : (bytesAt m p n).length = n := by
  simp [bytesAt]

theorem getElem?_bytesAt (h : k < n) : (bytesAt m p n)[k]? = some (m (p + k)) := by
  simp [bytesAt, h]

/-- Bytes are the same where memory is. -/
theorem bytesAt_congr {m' : Mem} (h : ∀ x, p ≤ x → x < p + n → m' x = m x) :
    bytesAt m' p n = bytesAt m p n := by
  apply List.map_congr_left
  intro k hk
  exact h _ (Nat.le_add_right p k) (Nat.add_lt_add_left (List.mem_range.mp hk) p)

/-- A stored byte. -/
theorem bytesAt_write8 (v : UInt8) :
    bytesAt (write8 m (p + k) v) p n = (bytesAt m p n).set k v := by
  apply List.ext_getElem
  · simp
  · intro j hj hj'
    rw [List.getElem_set]
    by_cases hkj : k = j
    · subst hkj
      simp [bytesAt, write8]
    · have hne : p + j ≠ p + k := by omega
      simp [bytesAt, write8_of_ne m v hne, hkj]

/-! ### Finding a grant -/

/-- A pointer has at most one grant. -/
theorem find_of_mem (hnd : (live.map Grant.ptr).Nodup) (hg : g ∈ live) :
    (live.find? fun h ↦ decide (h.ptr = g.ptr)) = some g := by
  cases hf : live.find? fun h ↦ decide (h.ptr = g.ptr) with
  | none =>
    have := List.find?_eq_none.mp hf g hg
    simp at this
  | some h =>
    have hptr : h.ptr = g.ptr := by simpa using List.find?_some hf
    rw [List.inj_on_of_nodup_map hnd (List.mem_of_find?_eq_some hf) hg hptr]

theorem find_without (hq : q ≠ p) : (without live p).find? (fun g ↦ decide (g.ptr = q)) =
    live.find? fun g ↦ decide (g.ptr = q) := by
  induction live with
  | nil => rfl
  | cons g live ih =>
    by_cases hp : g.ptr = p
    · have hgq : g.ptr ≠ q := fun h ↦ hq (h.symm.trans hp)
      simpa [without, hp, hgq, hq.symm] using ih
    · simp only [without, List.filter_cons, hp, ne_eq, not_false_eq_true, decide_true, if_true,
        List.find?_cons] at ih ⊢
      rw [ih]

theorem find_renewed (hq : q ≠ p) : (renewed live p n).find? (fun g ↦ decide (g.ptr = q)) =
    live.find? fun g ↦ decide (g.ptr = q) := by
  induction live with
  | nil => rfl
  | cons g live ih =>
    by_cases hp : g.ptr = p
    · have hgq : g.ptr ≠ q := fun h ↦ hq (h.symm.trans hp)
      simpa [renewed, hp, hgq, hq.symm] using ih
    · simp only [renewed, List.map_cons, hp, if_false, List.find?_cons] at ih ⊢
      rw [ih]

/-! ### Blocks in view -/

/-- A granted block is in view unless its owner has not been given it yet. -/
theorem System.holding_of_mem (hnd : (y.live.map Grant.ptr).Nodup) (hg : g ∈ y.live) :
    y.holding g.ptr = if (y.phase (y.owner g.ptr)).hidden = g.ptr then none
      else some ⟨y.owner g.ptr, bytesAt y.state.mem g.ptr (usable y.state g)⟩ := by
  rw [System.holding, find_of_mem hnd hg]
  rfl

/-- Nothing is in view where nothing was granted. -/
theorem System.holding_none (h : ∀ g ∈ y.live, g.ptr ≠ p) : y.holding p = none := by
  have hf : (y.live.find? fun g ↦ decide (g.ptr = p)) = none :=
    List.find?_eq_none.mpr fun g hg ↦ by simpa using h g hg
  rw [System.holding, hf]
  rfl

/-- Every block in view was granted. -/
theorem System.holding_some {b : Holding Tid UInt8} (h : y.holding p = some b) :
    ∃ g ∈ y.live, g.ptr = p ∧ b = ⟨y.owner p, bytesAt y.state.mem p (usable y.state g)⟩ := by
  unfold System.holding at h
  cases hf : y.live.find? fun g ↦ decide (g.ptr = p) with
  | none =>
    rw [hf] at h
    cases h
  | some g =>
    rw [hf, Option.bind_some] at h
    split at h
    · cases h
    · exact ⟨g, List.mem_of_find?_eq_some hf, by simpa using List.find?_some hf,
        (Option.some.inj h).symm⟩

/-- A step of `t` leaves a block in view as it is when it spares the block. -/
theorem Consistent.holding_same (C : Consistent c y ts order sh)
    (hphase : ∀ u, u ≠ t → y'.phase u = y.phase u)
    (hfind : (y'.live.find? fun g ↦ decide (g.ptr = q)) =
      y.live.find? fun g ↦ decide (g.ptr = q))
    (howner : y'.owner q = y.owner q)
    (hhidden : q ≠ 0 → ((y'.phase t).hidden = q ↔ (y.phase t).hidden = q))
    (hspared : ∀ g ∈ y.live, g.ptr = q → usable y'.state g = usable y.state g ∧
      ∀ x, InPayload y.state g x → y'.state.mem x = y.state.mem x) :
    y'.holding q = y.holding q := by
  unfold System.holding
  rw [hfind]
  cases hf : y.live.find? fun g ↦ decide (g.ptr = q) with
  | none => rfl
  | some g =>
    have hg := List.mem_of_find?_eq_some hf
    obtain rfl : g.ptr = q := by simpa using List.find?_some hf
    obtain ⟨husable, hbytes⟩ := hspared g hg rfl
    have hne : g.ptr ≠ 0 := by
      have := (C.booked.ptr_aligned hg).2.1
      omega
    have hsame : (y'.phase (y.owner g.ptr)).hidden = g.ptr ↔
        (y.phase (y.owner g.ptr)).hidden = g.ptr := by
      by_cases hu : y.owner g.ptr = t
      · rw [hu]
        exact hhidden hne
      · rw [hphase _ hu]
    rw [Option.bind_some, Option.bind_some, howner, husable]
    congr 1
    · exact propext hsame
    · rw [bytesAt_congr fun x hlo hhi ↦ hbytes x ⟨hlo, hhi⟩]

/-- A step of `t` that leaves the ledger alone and spares every block leaves the view of the
blocks as it is. -/
theorem Consistent.holding_quiet (C : Consistent c y ts order sh)
    (hphase : ∀ u, u ≠ t → y'.phase u = y.phase u)
    (hlive : y'.live = y.live) (howner : y'.owner = y.owner)
    (hhidden : (y'.phase t).hidden = (y.phase t).hidden)
    (hspared : Spared y.state y'.state y.live) : y'.holding = y.holding := by
  funext q
  apply C.holding_same hphase
  · rw [hlive]
  · rw [howner]
  · intro _
    rw [hhidden]
  · intro g hg _
    exact hspared g hg

/-- Steps without a target spare every block. -/
theorem Advanced.spared_all (A : Advanced c y sh t y' ts' order' sh')
    (C : Consistent c y ts order sh) (h : (y.phase t).target = 0) :
    Spared y.state y'.state y.live := by
  intro g hg
  apply A.spared
  rw [h, mem_without]
  have := (C.booked.ptr_aligned hg).2.1
  exact ⟨hg, by omega⟩

end CustomAllocator
