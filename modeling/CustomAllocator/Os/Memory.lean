import CustomAllocator.Os.Config

/-!
# The operating-system boundary

`src/os_memory.cpp` over a kernel that answers each mapping request as it likes
within the contract of `mmap`: it may refuse, and what it grants is page-aligned,
zeroed, inside the address space and disjoint from every region still mapped and from
the program's own `Pool` objects. The kernel's choices are a list of offered bases;
an offer outside the contract counts as a refusal.
-/

namespace CustomAllocator
open CustomAllocator.Base

/-- `OsRegion`; `include/os_memory.hpp:35–39`. -/
structure OsRegion where
  base : Nat
  size : Nat
  deriving DecidableEq, Repr

/-- The first address past a region. -/
def OsRegion.stop (r : OsRegion) : Nat := r.base + r.size

/-- Two regions share no address. -/
def OsRegion.Apart (r q : OsRegion) : Prop := r.stop ≤ q.base ∨ q.stop ≤ r.base

instance (r q : OsRegion) : Decidable (r.Apart q) := inferInstanceAs (Decidable (_ ∨ _))

/-- What crossed the boundary, in order. -/
inductive OsCall where
  | acquire (size : Nat) (answer : Option OsRegion)
  | release (base size : Nat)
  deriving DecidableEq, Repr

/-- The kernel's side: regions mapped now, bases it will offer, and the calls so far. -/
structure Os where
  mapped : List OsRegion
  offers : List (Option Nat)
  log : List OsCall

/-- Memory together with the kernel behind it. -/
structure Machine where
  mem : Mem
  os : Os

/-- The contract of a successful `mmap` of `r` while `mapped` is mapped. -/
def Mappable (c : Config) (mapped : List OsRegion) (r : OsRegion) : Prop :=
  0 < r.base ∧ 0 < r.size ∧ r.base % c.page = 0 ∧ r.stop < 2 ^ 64 ∧
    (∀ q ∈ mapped, r.Apart q) ∧ r.Apart ⟨c.poolsBase, numSizeClasses * c.poolSize⟩

instance (c : Config) (mapped : List OsRegion) (r : OsRegion) : Decidable (Mappable c mapped r) :=
  inferInstanceAs (Decidable (_ ∧ _))

/-- `mmap(nullptr, length, ...)`: a zero length fails, any other asks the kernel. -/
def mmap (c : Config) (os : Os) (length : Nat) : Os × Option Nat :=
  if length = 0 then (os, none)
  else
    match os.offers with
    | [] => (os, none)
    | none :: rest => ({ os with offers := rest }, none)
    | some base :: rest =>
      if Mappable c os.mapped ⟨base, length⟩ then
        ({ os with mapped := ⟨base, length⟩ :: os.mapped, offers := rest }, some base)
      else ({ os with offers := rest }, none)

/-- `round_up_to_page`; `src/os_memory.cpp:17–20`. -/
def roundUpToPage (c : Config) (size : Nat) : Nat :=
  mul64 (sub64 (add64 size c.page) 1 / c.page) c.page

/-- `os_acquire`; `src/os_memory.cpp:24–37`. A granted region arrives zeroed. -/
def osAcquire (c : Config) (k : Machine) (size : Nat) : Machine × Option OsRegion :=
  if size = 0 then
    ({ k with os := { k.os with log := k.os.log ++ [.acquire size none] } }, none)
  else
    let rounded := roundUpToPage c size
    match mmap c k.os rounded with
    | (os, none) => ({ k with os := { os with log := os.log ++ [.acquire size none] } }, none)
    | (os, some addr) =>
      ({ mem := fill k.mem addr 0 rounded,
         os := { os with log := os.log ++ [.acquire size (some ⟨addr, rounded⟩)] } },
        some ⟨addr, rounded⟩)

/-- `os_release`; `src/os_memory.cpp:39–41`, with a `munmap` that succeeds on a region mapped
with exactly this base and length. -/
def osRelease (k : Machine) (base size : Nat) : Machine × Bool :=
  ({ k with os := { k.os with
      mapped := k.os.mapped.erase ⟨base, size⟩,
      log := k.os.log ++ [.release base size] } },
    decide (⟨base, size⟩ ∈ k.os.mapped))

/-- Page rounding either covers the request with whole pages or has wrapped to zero. -/
theorem roundUpToPage_spec (c : Config) {size : Nat} (h : size < 2 ^ 64) :
    (size ≤ roundUpToPage c size ∧ roundUpToPage c size % c.page = 0) ∨
      roundUpToPage c size = 0 := by
  have hp := c.page_pos
  have hlt := c.page_lt
  have hsum : sub64 (add64 size c.page) 1 = (size + c.page - 1) % 2 ^ 64 := by
    unfold sub64 add64
    omega
  unfold roundUpToPage
  rw [hsum]
  by_cases hw : size + c.page - 1 < 2 ^ 64
  · left
    rw [Nat.mod_eq_of_lt hw]
    have hdiv := Nat.div_add_mod (size + c.page - 1) c.page
    have hmod := Nat.mod_lt (size + c.page - 1) hp
    rw [Nat.mul_comm] at hdiv
    rw [mul64_of_lt (by omega)]
    exact ⟨by omega, Nat.mul_mod_left _ _⟩
  · right
    have hsmall : (size + c.page - 1) % 2 ^ 64 < c.page := by omega
    rw [Nat.div_eq_of_lt hsmall]
    simp [mul64]

/-- A region of whole 4 KiB pages, clear of the first and the last page of the address space. -/
structure OsRegion.WF (r : OsRegion) : Prop where
  base_ge : 4096 ≤ r.base
  base_aligned : r.base % 16 = 0
  stop_le : r.base + r.size + 4096 ≤ 2 ^ 64

/-- A granted region of whole pages is well formed. -/
theorem Mappable.wf {c : Config} {mapped : List OsRegion} {r : OsRegion}
    (h : Mappable c mapped r) (hs : r.size % c.page = 0) : r.WF := by
  obtain ⟨hpos, _, hpage, hlt, _⟩ := h
  have hdvd : 4096 ∣ c.page := Nat.dvd_of_mod_eq_zero c.page_dvd
  have hb : 4096 ∣ r.base := Nat.dvd_trans hdvd (Nat.dvd_of_mod_eq_zero hpage)
  have hsz : 4096 ∣ r.size := Nat.dvd_trans hdvd (Nat.dvd_of_mod_eq_zero hs)
  unfold OsRegion.stop at hlt
  exact ⟨by omega, by omega, by omega⟩

private theorem mmap_cases (c : Config) (os : Os) (length : Nat) :
    ((mmap c os length).2 = none ∧ (mmap c os length).1.mapped = os.mapped) ∨
    ∃ base, (mmap c os length).2 = some base ∧ Mappable c os.mapped ⟨base, length⟩ ∧
      (mmap c os length).1.mapped = ⟨base, length⟩ :: os.mapped := by
  unfold mmap
  by_cases hz : length = 0
  · simp [hz]
  rw [if_neg hz]
  rcases os.offers with _ | ⟨_ | base, rest⟩
  · simp
  · simp
  · by_cases hm : Mappable c os.mapped ⟨base, length⟩
    · simp only [if_pos hm]
      exact .inr ⟨base, rfl, hm, rfl⟩
    · simp [if_neg hm]

private theorem mmap_log (c : Config) (os : Os) (length : Nat) :
    (mmap c os length).1.log = os.log := by
  unfold mmap
  split
  · rfl
  · split
    · rfl
    · rfl
    · split <;> rfl

/-- Every call of `os_acquire` is logged once, with its answer. -/
theorem osAcquire_log (c : Config) (k : Machine) (size : Nat) :
    (osAcquire c k size).1.os.log = k.os.log ++ [.acquire size (osAcquire c k size).2] := by
  by_cases hz : size = 0
  · simp only [osAcquire, if_pos hz]
  have hlog := mmap_log c k.os (roundUpToPage c size)
  simp only [osAcquire, if_neg hz]
  generalize roundUpToPage c size = rounded at hlog
  rcases hmm : mmap c k.os rounded with ⟨os, _ | addr⟩
  · rw [hmm] at hlog
    exact congrArg (· ++ _) hlog
  · rw [hmm] at hlog
    exact congrArg (· ++ _) hlog

/-- An answer uses up an offer at most. -/
theorem osAcquire_offers (c : Config) (k : Machine) (size : Nat) :
    (osAcquire c k size).1.os.offers ⊆ k.os.offers := by
  have hmmap : ∀ length, (mmap c k.os length).1.offers ⊆ k.os.offers := by
    intro length
    unfold mmap
    split
    · exact List.Subset.refl _
    · split
      · exact List.Subset.refl _
      · next heq => exact heq ▸ List.subset_cons_self _ _
      · next heq =>
        split <;> exact heq ▸ List.subset_cons_self _ _
  by_cases hz : size = 0
  · simp only [osAcquire, if_pos hz]
    exact List.Subset.refl _
  have hoffers := hmmap (roundUpToPage c size)
  simp only [osAcquire, if_neg hz]
  generalize roundUpToPage c size = rounded at hoffers
  rcases hmm : mmap c k.os rounded with ⟨os, _ | addr⟩ <;> rwa [hmm] at hoffers

/-- What `os_acquire` can do: refuse and leave the memory and the mappings alone, or add one
zeroed region of at least the requested size. -/
theorem osAcquire_cases (c : Config) (k : Machine) {size : Nat} (h : size < 2 ^ 64) :
    ((osAcquire c k size).2 = none ∧ (osAcquire c k size).1.mem = k.mem ∧
      (osAcquire c k size).1.os.mapped = k.os.mapped) ∨
    ∃ r, (osAcquire c k size).2 = some r ∧ size ≤ r.size ∧ r.WF ∧ Mappable c k.os.mapped r ∧
      (osAcquire c k size).1.mem = fill k.mem r.base 0 r.size ∧
      (osAcquire c k size).1.os.mapped = r :: k.os.mapped := by
  by_cases hz : size = 0
  · exact .inl (by simp [osAcquire, hz])
  have hspec := roundUpToPage_spec c h
  have hdef : osAcquire c k size =
      match mmap c k.os (roundUpToPage c size) with
      | (os, none) => ({ k with os := { os with log := os.log ++ [.acquire size none] } }, none)
      | (os, some addr) =>
        ({ mem := fill k.mem addr 0 (roundUpToPage c size),
           os := { os with log := os.log ++ [.acquire size (some ⟨addr, roundUpToPage c size⟩)] } },
          some ⟨addr, roundUpToPage c size⟩) := if_neg hz
  rw [hdef]
  generalize roundUpToPage c size = rounded at hspec ⊢
  rcases mmap_cases c k.os rounded with ⟨hn, hm⟩ | ⟨base, hs, hok, hm⟩
  · left
    rcases hmm : mmap c k.os rounded with ⟨os, r⟩
    rw [hmm] at hn hm
    obtain rfl : r = none := hn
    exact ⟨rfl, rfl, hm⟩
  · right
    rcases hmm : mmap c k.os rounded with ⟨os, r⟩
    rw [hmm] at hs hm
    obtain rfl : r = some base := hs
    have hpos : 0 < rounded := hok.2.1
    have hcover : size ≤ rounded ∧ rounded % c.page = 0 := by
      rcases hspec with hs | hs
      · exact hs
      · omega
    exact ⟨⟨base, rounded⟩, rfl, hcover.1, hok.wf hcover.2, hok, rfl, hm⟩

/-- A granted region is as long as the request rounded up to whole pages. -/
theorem osAcquire_size {c : Config} {k : Machine} {size : Nat} {r : OsRegion}
    (h : (osAcquire c k size).2 = some r) : r.size = roundUpToPage c size := by
  by_cases hz : size = 0
  · simp [osAcquire, hz] at h
  · simp only [osAcquire, hz, if_false] at h
    generalize roundUpToPage c size = rounded at h ⊢
    rcases hmm : mmap c k.os rounded with ⟨os, answer⟩
    rw [hmm] at h
    cases answer with
    | none => cases h
    | some base =>
      cases h
      rfl

/-- What is granted becomes mapped, and nothing else changes there. -/
theorem osAcquire_mapped (c : Config) (k : Machine) (size : Nat) :
    (osAcquire c k size).1.os.mapped = (osAcquire c k size).2.toList ++ k.os.mapped := by
  by_cases hz : size = 0
  · simp [osAcquire, hz]
  simp only [osAcquire, if_neg hz]
  generalize roundUpToPage c size = rounded
  rcases hmm : mmap c k.os rounded with ⟨os, answer⟩
  rcases mmap_cases c k.os rounded with ⟨hn, hm⟩ | ⟨base, hs, -, hm⟩
  · rw [hmm] at hn hm
    obtain rfl : answer = none := hn
    exact hm
  · rw [hmm] at hs hm
    obtain rfl : answer = some base := hs
    exact hm

/-- Whether a region is granted, and which one, does not depend on the contents of memory. -/
theorem osAcquire_os (c : Config) {k k₂ : Machine} (h : k₂.os = k.os) (size : Nat) :
    (osAcquire c k₂ size).1.os = (osAcquire c k size).1.os ∧
      (osAcquire c k₂ size).2 = (osAcquire c k size).2 := by
  by_cases hz : size = 0
  · simp only [osAcquire, if_pos hz, h, and_self]
  simp only [osAcquire, if_neg hz, h]
  generalize roundUpToPage c size = rounded
  rcases mmap c k.os rounded with ⟨os, _ | addr⟩
  · exact ⟨rfl, rfl⟩
  · exact ⟨rfl, rfl⟩

end CustomAllocator
