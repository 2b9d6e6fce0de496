import CustomAllocator.Base.Word

/-!
# Byte-addressed memory with little-endian words

A memory is a total function from addresses to bytes. Nats of eight bytes are
read and written at any address; the frame laws separate a write from the reads
it cannot affect, first by disjoint byte ranges and then by alignment.
-/

namespace CustomAllocator.Base

/-- Byte contents of the address space. -/
abbrev Mem := Nat → UInt8

/-- The little-endian word stored in the eight bytes from `a`. -/
def read64 (m : Mem) (a : Nat) : Nat :=
  (m a).toNat + (m (a + 1)).toNat * 2 ^ 8 + (m (a + 2)).toNat * 2 ^ 16 +
    (m (a + 3)).toNat * 2 ^ 24 + (m (a + 4)).toNat * 2 ^ 32 + (m (a + 5)).toNat * 2 ^ 40 +
    (m (a + 6)).toNat * 2 ^ 48 + (m (a + 7)).toNat * 2 ^ 56

/-- Store a word in the eight bytes from `a`, least significant byte first. -/
def write64 (m : Mem) (a : Nat) (v : Nat) : Mem := fun x ↦
  if a ≤ x ∧ x < a + 8 then UInt8.ofNat (v / 2 ^ (8 * (x - a))) else m x

/-- Store one byte. -/
def write8 (m : Mem) (a : Nat) (v : UInt8) : Mem := fun x ↦ if x = a then v else m x

/-- Set the `n` bytes from `a` to `v`. -/
def fill (m : Mem) (a : Nat) (v : UInt8) (n : Nat) : Mem := fun x ↦
  if a ≤ x ∧ x < a + n then v else m x

/-- Copy the `n` bytes from `src` to the `n` bytes from `dst`. -/
def copy (m : Mem) (dst src : Nat) (n : Nat) : Mem := fun x ↦
  if dst ≤ x ∧ x < dst + n then m (src + (x - dst)) else m x

/-- A stored word is below `2 ^ 64`. -/
theorem read64_lt (m : Mem) (a : Nat) : read64 m a < 2 ^ 64 := by
  have h0 := (m a).toNat_lt
  have h1 := (m (a + 1)).toNat_lt
  have h2 := (m (a + 2)).toNat_lt
  have h3 := (m (a + 3)).toNat_lt
  have h4 := (m (a + 4)).toNat_lt
  have h5 := (m (a + 5)).toNat_lt
  have h6 := (m (a + 6)).toNat_lt
  have h7 := (m (a + 7)).toNat_lt
  unfold read64
  omega

/-- A word read depends on its eight bytes only. -/
theorem read64_congr {m m' : Mem} {a : Nat} (h : ∀ k, k < 8 → m' (a + k) = m (a + k)) :
    read64 m' a = read64 m a := by
  have h0 : m' a = m a := h 0 (by decide)
  simp only [read64, h0, h 1 (by decide), h 2 (by decide), h 3 (by decide), h 4 (by decide),
    h 5 (by decide), h 6 (by decide), h 7 (by decide)]

/-- Reading back a stored word. -/
theorem read64_write64_same (m : Mem) (a : Nat) {v : Nat} (hv : v < 2 ^ 64) :
    read64 (write64 m a v) a = v := by
  simp [read64, write64]
  omega

/-- A word write changes its own eight bytes only. -/
theorem write64_of_out (m : Mem) {a x : Nat} (v : Nat) (h : x < a ∨ a + 8 ≤ x) :
    write64 m a v x = m x := by
  unfold write64
  rw [if_neg (by omega)]

/-- Storing a word over itself changes nothing. -/
theorem write64_read64 (m : Mem) (a : Nat) : write64 m a (read64 m a) = m := by
  funext x
  by_cases hx : a ≤ x ∧ x < a + 8
  · obtain ⟨i, rfl⟩ : ∃ i, x = a + i := ⟨x - a, by omega⟩
    simp only [write64, if_pos hx, Nat.add_sub_cancel_left]
    apply UInt8.toNat_inj.mp
    have h0 := (m a).toNat_lt
    have h1 := (m (a + 1)).toNat_lt
    have h2 := (m (a + 2)).toNat_lt
    have h3 := (m (a + 3)).toNat_lt
    have h4 := (m (a + 4)).toNat_lt
    have h5 := (m (a + 5)).toNat_lt
    have h6 := (m (a + 6)).toNat_lt
    have h7 := (m (a + 7)).toNat_lt
    rw [UInt8.toNat_ofNat', read64]
    have hi : i = 0 ∨ i = 1 ∨ i = 2 ∨ i = 3 ∨ i = 4 ∨ i = 5 ∨ i = 6 ∨ i = 7 := by omega
    rcases hi with rfl | rfl | rfl | rfl | rfl | rfl | rfl | rfl
    · change _ = (m a).toNat
      omega
    all_goals omega
  · exact write64_of_out m _ (by omega)

/-- A word write does not change a word that shares no byte with it. -/
theorem read64_write64_of_disjoint (m : Mem) {a b : Nat} (v : Nat)
    (h : a + 8 ≤ b ∨ b + 8 ≤ a) : read64 (write64 m b v) a = read64 m a :=
  read64_congr fun _ _ ↦ write64_of_out m v (by omega)

/-- Distinct aligned words share no byte. -/
theorem read64_write64_of_ne (m : Mem) {a b : Nat} (v : Nat) (ha : a % 8 = 0) (hb : b % 8 = 0)
    (h : a ≠ b) : read64 (write64 m b v) a = read64 m a :=
  read64_write64_of_disjoint m v (by omega)

/-- A byte write leaves every other byte unchanged. -/
theorem write8_of_ne (m : Mem) {a x : Nat} (v : UInt8) (h : x ≠ a) : write8 m a v x = m x :=
  if_neg h

/-- Filling leaves bytes outside the range unchanged. -/
theorem fill_of_out (m : Mem) {a x : Nat} (v : UInt8) {n : Nat} (h : x < a ∨ a + n ≤ x) :
    fill m a v n x = m x := by
  unfold fill
  rw [if_neg (by omega)]

/-- Copying leaves bytes outside the destination unchanged. -/
theorem copy_of_out (m : Mem) {dst src x : Nat} {n : Nat} (h : x < dst ∨ dst + n ≤ x) :
    copy m dst src n x = m x := by
  unfold copy
  rw [if_neg (by omega)]

/-- Each destination byte is the corresponding source byte. -/
theorem copy_apply (m : Mem) (dst src : Nat) {n i : Nat} (h : i < n) :
    copy m dst src n (dst + i) = m (src + i) := by
  unfold copy
  rw [if_pos (by omega), Nat.add_sub_cancel_left]

end CustomAllocator.Base
