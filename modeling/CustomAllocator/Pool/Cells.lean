import Mathlib.Data.List.Pairwise
import CustomAllocator.Base.Linked
import CustomAllocator.Pool.Pool

/-!
# Slot words

A slot takes part in the pools through one aligned word. Writing the word of one slot
leaves the words of all others alone, so a chain of slots survives any change that spares
its own words. Regions acquired along the way are accounted for as one list.
-/

namespace CustomAllocator
open CustomAllocator.Base

/-- An address that can name a slot: aligned, not null, with room for its header. -/
def SlotAddr (x : Nat) : Prop := 0 < x ∧ x % 16 = 0 ∧ x + 16 < 2 ^ 64

/-- Memory changes only in the words of the given slots and inside the given regions. -/
def WordsChanged (ws : List Nat) (rs : List OsRegion) (m m' : Mem) : Prop :=
  ∀ a, (∀ x ∈ ws, x ≤ a → x + 8 ≤ a) → (∀ r ∈ rs, r.base ≤ a → r.stop ≤ a) → m' a = m a

namespace WordsChanged

variable {ws ws' : List Nat} {rs rs' : List OsRegion} {m m' m'' : Mem}

theorem refl (ws : List Nat) (rs : List OsRegion) (m : Mem) : WordsChanged ws rs m m :=
  fun _ _ _ ↦ rfl

/-- Changes of more words in more regions. -/
theorem mono (h : WordsChanged ws rs m m') (hw : ∀ x ∈ ws, x ∈ ws') (hr : ∀ r ∈ rs, r ∈ rs') :
    WordsChanged ws' rs' m m' :=
  fun a hwa hra ↦ h a (fun x hx ↦ hwa x (hw x hx)) fun r h ↦ hra r (hr r h)

/-- Changes compose. -/
theorem trans (h : WordsChanged ws rs m m') (h' : WordsChanged ws rs m' m'') :
    WordsChanged ws rs m m'' := fun a hw hr ↦ (h' a hw hr).trans (h a hw hr)

/-- Storing the word of one slot. -/
theorem write {x : Nat} (hx : x ∈ ws) (v : Nat) : WordsChanged ws rs m (write64 m x v) := by
  intro a ha _
  have := ha x hx
  exact write64_of_out _ _ (by omega)

/-- Storing one word changes that word only. -/
theorem write_one (x v : Nat) : WordsChanged [x] [] m (write64 m x v) :=
  .write (by simp) v

/-- The word of a slot that is not written and lies outside the regions is unchanged. -/
theorem read64 (h : WordsChanged ws rs m m') (hws : ∀ x ∈ ws, x % 16 = 0) {y : Nat}
    (hy : y % 16 = 0) (hyw : y ∉ ws) (hyr : ∀ r ∈ rs, y + 8 ≤ r.base ∨ r.stop ≤ y) :
    Base.read64 m' y = Base.read64 m y := by
  refine read64_congr fun k hk ↦ h _ (fun x hx hle ↦ ?_) fun r hr hle ↦ ?_
  · have := hws x hx
    have hne : x ≠ y := fun he ↦ hyw (he ▸ hx)
    omega
  · have := hyr r hr
    omega

/-- A chain none of whose words changes is the same chain. -/
theorem chain (h : WordsChanged ws rs m m') (hws : ∀ x ∈ ws, x % 16 = 0) {hd : Nat}
    {l : List Nat} (hc : Chain (Base.read64 m) 0 hd l) (hl : ∀ y ∈ l, y % 16 = 0)
    (hlw : ∀ y ∈ l, y ∉ ws) (hlr : ∀ y ∈ l, ∀ r ∈ rs, y + 8 ≤ r.base ∨ r.stop ≤ y) :
    Chain (Base.read64 m') 0 hd l :=
  Path.congr hc fun y hy ↦ h.read64 hws (hl y hy) (hlw y hy) (hlr y hy)

end WordsChanged

/-- Regions `rs` were acquired one after another over `mapped`. -/
structure NewRegions (mapped : List OsRegion) (rs : List OsRegion) (mapped' : List OsRegion) :
    Prop where
  mapped_eq : mapped' = rs.reverse ++ mapped
  wf : ∀ r ∈ rs, r.WF
  apart : ∀ r ∈ rs, ∀ q ∈ mapped, r.Apart q
  pairwise : rs.Pairwise OsRegion.Apart

namespace NewRegions

variable {mapped mapped' mapped'' rs rs' : List OsRegion}

theorem nil (mapped : List OsRegion) : NewRegions mapped [] mapped := ⟨rfl, by simp, by simp, .nil⟩

/-- One granted region. -/
theorem singleton {c : Config} {r : OsRegion} (hw : r.WF) (hm : Mappable c mapped r) :
    NewRegions mapped [r] (r :: mapped) :=
  ⟨rfl, by simpa using hw, by simpa using hm.2.2.2.2.1, List.pairwise_singleton _ _⟩

/-- Acquisitions compose. -/
theorem trans (h : NewRegions mapped rs mapped') (h' : NewRegions mapped' rs' mapped'') :
    NewRegions mapped (rs ++ rs') mapped'' where
  mapped_eq := by
    rw [h'.mapped_eq, h.mapped_eq]
    simp
  wf r hr := by
    rcases List.mem_append.mp hr with hr | hr
    · exact h.wf r hr
    · exact h'.wf r hr
  apart r hr q hq := by
    rcases List.mem_append.mp hr with hr | hr
    · exact h.apart r hr q hq
    · exact h'.apart r hr q (by simp [h.mapped_eq, hq])
  pairwise := by
    rw [List.pairwise_append]
    refine ⟨h.pairwise, h'.pairwise, fun r hr q hq ↦ (h'.apart q hq r ?_).symm⟩
    simp [h.mapped_eq, hr]

/-- Old regions stay mapped. -/
theorem mem_of_mem (h : NewRegions mapped rs mapped') {q : OsRegion} (hq : q ∈ mapped) :
    q ∈ mapped' := by
  simp [h.mapped_eq, hq]

theorem mem_new (h : NewRegions mapped rs mapped') {r : OsRegion} (hr : r ∈ rs) :
    r ∈ mapped' := by
  simp [h.mapped_eq, hr]

end NewRegions

/-- The header word of `x` lies in some mapped region. -/
def InMapped (mapped : List OsRegion) (x : Nat) : Prop :=
  ∃ q ∈ mapped, q.base ≤ x ∧ x + 16 ≤ q.stop

theorem InMapped.mono {mapped mapped' rs : List OsRegion} (h : NewRegions mapped rs mapped')
    {x : Nat} (hx : InMapped mapped x) : InMapped mapped' x := by
  obtain ⟨q, hq, hx⟩ := hx
  exact ⟨q, h.mem_of_mem hq, hx⟩

/-- A word that lies in a mapped region lies outside every region acquired later. -/
theorem InMapped.out {mapped mapped' rs : List OsRegion} (h : NewRegions mapped rs mapped')
    {x : Nat} (hx : InMapped mapped x) {r : OsRegion} (hr : r ∈ rs) :
    x + 16 ≤ r.base ∨ r.stop ≤ x := by
  obtain ⟨q, hq, hlo, hhi⟩ := hx
  have := h.apart r hr q hq
  unfold OsRegion.Apart at this
  omega

/-! ### The slots of a region -/

/-- The first `n` slot addresses from `base`. -/
def slotAddrs (base total n : Nat) : List Nat := (List.range n).map fun k ↦ base + k * total

/-- Slot `x` was carved from one of the regions `rs`. -/
def CarvedFrom (total : Nat) (rs : List OsRegion) (x : Nat) : Prop :=
  ∃ r ∈ rs, x ∈ slotAddrs r.base total (r.size / total)

theorem mem_slotAddrs {base total n x : Nat} :
    x ∈ slotAddrs base total n ↔ ∃ k < n, x = base + k * total := by
  simp [slotAddrs, eq_comm]

/-- Carved slots keep their header and payload inside the region. -/
theorem CarvedFrom.bounds {total : Nat} {rs : List OsRegion} {x : Nat}
    (h : CarvedFrom total rs x) : ∃ r ∈ rs, r.base ≤ x ∧ x + total ≤ r.stop := by
  obtain ⟨r, hr, hx⟩ := h
  obtain ⟨k, hk, rfl⟩ := mem_slotAddrs.mp hx
  have hmul : (k + 1) * total ≤ r.size / total * total := Nat.mul_le_mul_right _ hk
  have hdiv := Nat.div_mul_le_self r.size total
  rw [Nat.succ_mul] at hmul
  exact ⟨r, hr, by omega, by unfold OsRegion.stop; omega⟩

theorem CarvedFrom.append {total : Nat} {rs rs' : List OsRegion} {x : Nat} :
    CarvedFrom total (rs ++ rs') x ↔ CarvedFrom total rs x ∨ CarvedFrom total rs' x := by
  simp only [CarvedFrom, List.mem_append, or_and_right, exists_or]

/-- Distinct slots carved from separate regions share no byte. -/
theorem CarvedFrom.apart {total : Nat} {rs : List OsRegion} {x y : Nat}
    (hx : CarvedFrom total rs x) (hy : CarvedFrom total rs y) (hrs : rs.Pairwise OsRegion.Apart)
    (hne : x ≠ y) : x + total ≤ y ∨ y + total ≤ x := by
  obtain ⟨r, hr, hxr⟩ := hx
  obtain ⟨q, hq, hyq⟩ := hy
  by_cases hrq : r = q
  · subst hrq
    obtain ⟨k, -, rfl⟩ := mem_slotAddrs.mp hxr
    obtain ⟨l, -, rfl⟩ := mem_slotAddrs.mp hyq
    rcases Nat.lt_trichotomy k l with h | rfl | h
    · have := Nat.mul_le_mul_right total (Nat.succ_le_of_lt h)
      rw [Nat.succ_mul] at this
      omega
    · exact absurd rfl hne
    · have := Nat.mul_le_mul_right total (Nat.succ_le_of_lt h)
      rw [Nat.succ_mul] at this
      omega
  · have : Std.Symm OsRegion.Apart := ⟨fun _ _ h ↦ h.symm⟩
    have hap := hrs.forall hr hq hrq
    obtain ⟨_, hr', hlo, hhi⟩ := CarvedFrom.bounds ⟨r, List.mem_singleton_self r, hxr⟩
    obtain ⟨_, hq', hlo', hhi'⟩ := CarvedFrom.bounds ⟨q, List.mem_singleton_self q, hyq⟩
    rw [List.mem_singleton.mp hr'] at hlo hhi
    rw [List.mem_singleton.mp hq'] at hlo' hhi'
    unfold OsRegion.Apart at hap
    omega

/-- Slots carved from well-formed regions are slot addresses. -/
theorem CarvedFrom.slotAddr {total : Nat} {rs : List OsRegion} {x : Nat}
    (h : CarvedFrom total rs x) (hw : ∀ r ∈ rs, r.WF) (ht : total % 16 = 0) (hpos : 0 < total) :
    SlotAddr x := by
  obtain ⟨r, hr, hx⟩ := h
  obtain ⟨q, hq, hlo, hhi⟩ := CarvedFrom.bounds ⟨r, hr, hx⟩
  have hqw := hw q hq
  have hqb := hqw.base_ge
  have hqs := hqw.stop_le
  obtain ⟨k, -, rfl⟩ := mem_slotAddrs.mp hx
  have hmul : k * total % 16 = 0 := by rw [Nat.mul_mod, ht, Nat.mul_zero]
  have hra := (hw r hr).base_aligned
  unfold OsRegion.stop at hhi
  exact ⟨by omega, by omega, by omega⟩

/-- A chain of slots begins with a word. -/
theorem chain_head_lt {next : Nat → Nat} {h : Nat} {l : List Nat} (hc : Chain next 0 h l)
    (hl : ∀ y ∈ l, SlotAddr y) : h < 2 ^ 64 := by
  cases l with
  | nil =>
    rw [show h = 0 from hc]
    decide
  | cons y ys =>
    have := (hl y (by simp)).2.2
    rw [hc.1]
    omega

/-- The loop of `expand` threads the new slots, last one first, in front of the old chain. -/
theorem carveSlots_spec {base total : Nat} (hb : base % 16 = 0) (hb0 : 0 < base)
    (ht : total % 16 = 0) (ht16 : 16 < total) (n : Nat) {i head : Nat} {m : Mem} {l : List Nat}
    (hlt : base + (i + n) * total < 2 ^ 64) (hc : Chain (read64 m) 0 head l)
    (hl : ∀ y ∈ l, SlotAddr y)
    (hout : ∀ y ∈ l, y < base + i * total ∨ base + (i + n) * total ≤ y) :
    Chain (read64 (carveSlots base total i n m head).1) 0 (carveSlots base total i n m head).2
        (((List.range' i n).map fun k ↦ base + k * total).reverse ++ l) ∧
      ∀ a, (base + i * total ≤ a → base + (i + n) * total ≤ a) →
        (carveSlots base total i n m head).1 a = m a := by
  induction n generalizing i head m l with
  | zero => exact ⟨hc, fun a _ ↦ rfl⟩
  | succ n ih =>
    have hle : (i + 1) * total ≤ (i + (n + 1)) * total := Nat.mul_le_mul_right _ (by omega)
    have hnext : (i + 1) * total = i * total + total := Nat.succ_mul i total
    have hnum : i + 1 + n = i + (n + 1) := by omega
    have hmul : i * total % 16 = 0 := by rw [Nat.mul_mod, ht, Nat.mul_zero]
    have hslot : add64 base (mul64 i total) = base + i * total := by
      rw [mul64_of_lt (by omega), add64_of_lt (by omega)]
    have hne : ∀ y ∈ l, y ≠ base + i * total := fun y hy ↦ by
      have := hout y hy
      omega
    have hpush : Chain (read64 (write64 m (base + i * total) head)) 0 (base + i * total)
        ((base + i * total) :: l) :=
      hc.push (by omega) (read64_write64_same _ _ (chain_head_lt hc hl)) fun y hy ↦
        read64_write64_of_ne _ _ (by have := (hl y hy).2.1; omega) (by omega) (hne y hy)
    simp only [carveSlots, hslot]
    have hih := ih (i := i + 1) (by rw [hnum]; exact hlt) hpush ?_ ?_
    · refine ⟨?_, fun a ha ↦ ?_⟩
      · rw [List.range'_succ]
        simpa using hih.1
      · rw [hih.2 a (by rw [hnum]; omega), write64_of_out _ _ (by omega)]
    · intro y hy
      rcases List.mem_cons.mp hy with rfl | hy
      · exact ⟨by omega, by omega, by omega⟩
      · exact hl y hy
    · intro y hy
      rw [hnum]
      rcases List.mem_cons.mp hy with rfl | hy
      · omega
      · have := hout y hy
        omega

end CustomAllocator
