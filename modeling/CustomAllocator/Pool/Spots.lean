import Mathlib.Data.List.Nodup
import CustomAllocator.Pool.Caches

/-!
# Where every slot is

A slot of a class is in one spot at a time: on its pool's free chain, on one thread's cache,
in one thread's batch between cache and pool, or live. `Shelved` says that memory realises
such a distribution. Every step of the pooled path moves slots between two spots of one
class; `Shelved.move` is the law all of them share.
-/

namespace CustomAllocator
open CustomAllocator.Base

/-- Where a slot can be. -/
inductive Spot where
  /-- On the free chain of pool `i`. -/
  | pool (i : Fin numSizeClasses)
  /-- On thread `t`'s class `i` cache. -/
  | cache (t : Tid) (i : Fin numSizeClasses)
  /-- In thread `t`'s class `i` batch, between a cache and the pool. -/
  | transit (t : Tid) (i : Fin numSizeClasses)
  /-- Handed out as a block of class `i`. -/
  | live (i : Fin numSizeClasses)
  deriving DecidableEq

/-- The class of the slots at a spot. -/
def Spot.cls : Spot → Fin numSizeClasses
  | pool i | cache _ i | transit _ i | live i => i

/-- The slots at every spot. -/
abbrev Shelves : Type := Spot → List Nat

/-- The first slot of every thread's batch in transit. -/
abbrev Transit : Type := Tid → Fin numSizeClasses → Nat

/-- No batch is in transit. -/
def noTransit : Transit := fun _ _ ↦ 0

/-- Slot `x` stands at some spot of class `i`. -/
def Stands (sh : Shelves) (i : Fin numSizeClasses) (x : Nat) : Prop :=
  ∃ S : Spot, S.cls = i ∧ x ∈ sh S

/-- The slots `l` are linked the way their spot requires: as the pool's chain, as the cache,
as the batch from its recorded start; live slots carry their pool's address. -/
def Linked (c : Config) (s : State) (tr : Transit) (l : List Nat) : Spot → Prop
  | .pool i => Chain (read64 s.mem) 0 (s.pools i).freeHead l
  | .cache t i => Chain (read64 s.mem) 0 (s.caches t i).head l ∧
      (s.caches t i).tail = l.getLastD 0 ∧ (s.caches t i).count = l.length
  | .transit t i => Chain (read64 s.mem) 0 (tr t i) l
  | .live i => l.Nodup ∧ ∀ x ∈ l, read64 s.mem x = c.poolAddr i

/-- What the allocator records about a spot is the same in both states. -/
def SameRecord (s : State) (tr : Transit) (s' : State) (tr' : Transit) : Spot → Prop
  | .pool i => (s'.pools i).freeHead = (s.pools i).freeHead
  | .cache t i => s'.caches t i = s.caches t i
  | .transit t i => tr' t i = tr t i
  | .live _ => True

/-- Memory and the allocator's records realise the shelves. -/
structure Shelved (c : Config) (s : State) (tr : Transit) (sh : Shelves) : Prop where
  shape : ∀ i, (s.pools i).Shape i
  linked : ∀ S, Linked c s tr (sh S) S
  apart : ∀ S S' x, x ∈ sh S → x ∈ sh S' → S = S'
  addr : ∀ S, ∀ x ∈ sh S, SlotAddr x
  mapped : ∀ S, ∀ x ∈ sh S, InMapped s.os.mapped x

/-- The shelves with the lists of two spots replaced. -/
def Shelves.move (sh : Shelves) (A : Spot) (a : List Nat) (B : Spot) (b : List Nat) : Shelves :=
  fun S ↦ if S = A then a else if S = B then b else sh S

section move

variable {c : Config} {s s' : State} {tr tr' : Transit} {sh : Shelves} {A B : Spot}
  {a b : List Nat} {new : Nat → Prop}

@[simp] theorem Shelves.move_fst : sh.move A a B b A = a := if_pos rfl

theorem Shelves.move_snd (h : A ≠ B) : sh.move A a B b B = b := by
  simp [Shelves.move, h.symm]

theorem Shelves.move_other {S : Spot} (hA : S ≠ A) (hB : S ≠ B) :
    sh.move A a B b S = sh S := by
  simp [Shelves.move, hA, hB]

/-- What stands after a move is what stood before and what is new. -/
theorem Shelves.stands_move (hAB : A ≠ B) (hcls : A.cls = B.cls)
    (hmem : ∀ x, x ∈ a ∨ x ∈ b ↔ (x ∈ sh A ∨ x ∈ sh B) ∨ new x) (j : Fin numSizeClasses)
    (x : Nat) : Stands (sh.move A a B b) j x ↔ Stands sh j x ∨ j = A.cls ∧ new x := by
  constructor
  · rintro ⟨S, rfl, hx⟩
    by_cases hSA : S = A
    · subst hSA
      rw [move_fst] at hx
      rcases (hmem x).mp (.inl hx) with (h | h) | h
      · exact .inl ⟨_, rfl, h⟩
      · exact .inl ⟨_, hcls.symm, h⟩
      · exact .inr ⟨rfl, h⟩
    by_cases hSB : S = B
    · subst hSB
      rw [move_snd hAB] at hx
      rcases (hmem x).mp (.inr hx) with (h | h) | h
      · exact .inl ⟨_, hcls, h⟩
      · exact .inl ⟨_, rfl, h⟩
      · exact .inr ⟨hcls.symm, h⟩
    rw [move_other hSA hSB] at hx
    exact .inl ⟨S, rfl, hx⟩
  · have hput : x ∈ a ∨ x ∈ b → Stands (sh.move A a B b) A.cls x := by
      rintro (h | h)
      · exact ⟨A, rfl, by rwa [move_fst]⟩
      · exact ⟨B, hcls.symm, by rwa [move_snd hAB]⟩
    rintro (⟨S, rfl, hx⟩ | ⟨rfl, hx⟩)
    · by_cases hSA : S = A
      · exact hSA ▸ hput ((hmem x).mpr (.inl (.inl (hSA ▸ hx))))
      by_cases hSB : S = B
      · rw [hSB, ← hcls]
        exact hput ((hmem x).mpr (.inl (.inr (hSB ▸ hx))))
      exact ⟨S, rfl, by rwa [move_other hSA hSB]⟩
    · exact hput ((hmem x).mpr (.inr hx))

/-- A spot none of whose slots is written, and whose record is kept, stays linked. -/
theorem Linked.congr {l : List Nat} {S : Spot} (h : Linked c s tr l S)
    (hsame : SameRecord s tr s' tr' S)
    (hread : ∀ x ∈ l, read64 s'.mem x = read64 s.mem x) : Linked c s' tr' l S := by
  cases S with
  | pool i =>
    simp only [Linked, SameRecord] at h hsame ⊢
    rw [hsame]
    exact Path.congr h hread
  | cache t i =>
    simp only [Linked, SameRecord] at h hsame ⊢
    rw [hsame]
    exact ⟨Path.congr h.1 hread, h.2⟩
  | transit t i =>
    simp only [Linked, SameRecord] at h hsame ⊢
    rw [hsame]
    exact Path.congr h hread
  | live i => exact ⟨h.1, fun x hx ↦ (hread x hx).trans (h.2 x hx)⟩

/-- Moving slots between two spots, with writes confined to the words of the slots at these
spots and to freshly acquired regions. -/
theorem Shelved.move (H : Shelved c s tr sh) (ws : List Nat) (rs : List OsRegion) (hAB : A ≠ B)
    (hw : WordsChanged ws rs s.mem s'.mem) (hr : NewRegions s.os.mapped rs s'.os.mapped)
    (hws : ∀ x ∈ ws, x ∈ a ∨ x ∈ b) (hshape : ∀ i, (s'.pools i).Shape i)
    (hother : ∀ S, S ≠ A → S ≠ B → SameRecord s tr s' tr' S)
    (hA : Linked c s' tr' a A) (hB : Linked c s' tr' b B)
    (hmem : ∀ x, x ∈ a ∨ x ∈ b ↔ (x ∈ sh A ∨ x ∈ sh B) ∨ new x) (hdis : ∀ x ∈ a, x ∉ b)
    (hnew : ∀ x, new x → SlotAddr x ∧ InMapped s'.os.mapped x ∧ ∀ S, x ∉ sh S) :
    Shelved c s' tr' (sh.move A a B b) := by
  -- A slot at a third spot is at neither end of the move.
  have hthird : ∀ S, S ≠ A → S ≠ B → ∀ x ∈ sh S, ¬ (x ∈ a ∨ x ∈ b) := by
    intro S hSA hSB x hx hab
    rcases (hmem x).mp hab with (h | h) | h
    · exact hSA (H.apart _ _ _ hx h)
    · exact hSB (H.apart _ _ _ hx h)
    · exact (hnew x h).2.2 S hx
  have hat : ∀ S x, x ∈ sh.move A a B b S →
      S = A ∧ x ∈ a ∨ S = B ∧ x ∈ b ∨ S ≠ A ∧ S ≠ B ∧ x ∈ sh S := by
    intro S x hx
    by_cases hSA : S = A
    · subst hSA
      rw [Shelves.move_fst] at hx
      exact .inl ⟨rfl, hx⟩
    by_cases hSB : S = B
    · subst hSB
      rw [Shelves.move_snd hAB] at hx
      exact .inr (.inl ⟨rfl, hx⟩)
    rw [Shelves.move_other hSA hSB] at hx
    exact .inr (.inr ⟨hSA, hSB, hx⟩)
  have hgood : ∀ x, x ∈ a ∨ x ∈ b → SlotAddr x ∧ InMapped s'.os.mapped x := by
    intro x hx
    rcases (hmem x).mp hx with (h | h) | h
    · exact ⟨H.addr _ x h, (H.mapped _ x h).mono hr⟩
    · exact ⟨H.addr _ x h, (H.mapped _ x h).mono hr⟩
    · exact ⟨(hnew x h).1, (hnew x h).2.1⟩
  refine ⟨hshape, fun S ↦ ?_, fun S S' x hx hx' ↦ ?_, fun S x hx ↦ ?_, fun S x hx ↦ ?_⟩
  · by_cases hSA : S = A
    · rw [hSA, Shelves.move_fst]
      exact hA
    by_cases hSB : S = B
    · rw [hSB, Shelves.move_snd hAB]
      exact hB
    rw [Shelves.move_other hSA hSB]
    refine (H.linked S).congr (hother S hSA hSB) fun x hx ↦ ?_
    refine hw.read64 (fun y hy ↦ (hgood y (hws y hy)).1.2.1) (H.addr S x hx).2.1
      (fun h ↦ hthird S hSA hSB x hx (hws x h)) fun r hr' ↦ ?_
    have := (H.mapped S x hx).out hr hr'
    omega
  · rcases hat S x hx with ⟨rfl, h⟩ | ⟨rfl, h⟩ | ⟨hSA, hSB, h⟩ <;>
      rcases hat S' x hx' with ⟨rfl, h'⟩ | ⟨rfl, h'⟩ | ⟨hSA', hSB', h'⟩
    · rfl
    · exact absurd h' (hdis x h)
    · exact absurd (.inl h) (hthird S' hSA' hSB' x h')
    · exact absurd h (hdis x h')
    · rfl
    · exact absurd (.inr h) (hthird S' hSA' hSB' x h')
    · exact absurd (.inl h') (hthird S hSA hSB x h)
    · exact absurd (.inr h') (hthird S hSA hSB x h)
    · exact H.apart S S' x h h'
  · rcases hat S x hx with ⟨rfl, h⟩ | ⟨rfl, h⟩ | ⟨hSA, hSB, h⟩
    · exact (hgood x (.inl h)).1
    · exact (hgood x (.inr h)).1
    · exact H.addr S x h
  · rcases hat S x hx with ⟨rfl, h⟩ | ⟨rfl, h⟩ | ⟨hSA, hSB, h⟩
    · exact (hgood x (.inl h)).2
    · exact (hgood x (.inr h)).2
    · exact (H.mapped S x h).mono hr

end move

/-! ### Reading the shelves -/

section read

variable {c : Config} {s : State} {tr : Transit} {sh : Shelves}

/-- The free chain of a pool, with its sizes. -/
theorem Shelved.poolHolds (H : Shelved c s tr sh) (i : Fin numSizeClasses) :
    PoolHolds s.toMachine (s.pools i) i (sh (.pool i)) :=
  ⟨H.shape i, H.linked (.pool i), H.addr _, H.mapped _⟩

/-- A thread's cache as a list of slots. -/
theorem Shelved.cacheHolds (H : Shelved c s tr sh) (t : Tid) (i : Fin numSizeClasses) :
    CacheHolds s.mem (s.caches t i) (sh (.cache t i)) :=
  have h := H.linked (.cache t i)
  ⟨h.1, h.2.1, h.2.2, H.addr _⟩

private theorem chain_word_even {h : Nat} {l : List Nat} {m : Mem}
    (hc : Chain (read64 m) 0 h l) (hl : ∀ x ∈ l, SlotAddr x) {x : Nat} (hx : x ∈ l) :
    read64 m x % 2 = 0 := by
  obtain ⟨xs, ys, rfl⟩ := List.append_of_mem hx
  obtain ⟨_, _, _, _, hys⟩ := Path.append_iff.mp hc
  cases ys with
  | nil => rw [show read64 m x = 0 from hys]
  | cons y ys =>
    have := (hl y (by simp)).2.1
    rw [hys.1]
    omega

/-- The word of a slot is even, whether it is a link or a tag. -/
theorem Shelved.word_even (H : Shelved c s tr sh) {S : Spot} {x : Nat} (hx : x ∈ sh S) :
    read64 s.mem x % 2 = 0 := by
  have hl := H.linked S
  cases S with
  | pool i => exact chain_word_even hl (H.addr _) hx
  | cache t i => exact chain_word_even hl.1 (H.addr _) hx
  | transit t i => exact chain_word_even hl (H.addr _) hx
  | live i =>
    rw [hl.2 x hx]
    exact (c.poolAddr_word i).2.1

/-- Shelves survive any change of memory that spares the words of slots. -/
theorem Shelved.congr (H : Shelved c s tr sh) {s' : State} (hp : s'.pools = s.pools)
    (hc : s'.caches = s.caches) (hm : ∀ q ∈ s.os.mapped, q ∈ s'.os.mapped)
    (hread : ∀ S, ∀ x ∈ sh S, read64 s'.mem x = read64 s.mem x) : Shelved c s' tr sh where
  shape := hp ▸ H.shape
  linked S := (H.linked S).congr (by cases S <;> simp [SameRecord, hp, hc]) (hread S)
  apart := H.apart
  addr := H.addr
  mapped S x hx := by
    obtain ⟨q, hq, h⟩ := H.mapped S x hx
    exact ⟨q, hm q hq, h⟩

end read

end CustomAllocator
