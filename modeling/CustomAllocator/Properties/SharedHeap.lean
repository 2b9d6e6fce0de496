import CustomAllocator.Concurrent.Runs
import CustomAllocator.Properties.BoundaryTags

/-!
# The general path in every interleaving

The critical sections of the general path keep the tiling and the free list exact whatever runs
between them, and no thread touches the header or the bytes of another thread's block. So a
reallocation may drop the lock between its sections: the size it read stays the block's size,
and what it returns holds the bytes both sizes share.
-/

namespace CustomAllocator
open CustomAllocator.Base

/-- The pointer that a reallocation moves away from and the number of bytes it copies, from the
end of its first locked section to its free. -/
def Phase.moving : Phase → Option (Nat × Nat)
  | malloc _ (.realloc ptr copySize) | refilled _ _ _ (.realloc ptr copySize)
  | stocked _ _ (.realloc ptr copySize) | got _ _ (.realloc ptr copySize) => some (ptr, copySize)
  | free ptr (.realloc _ copySize) | tagged ptr _ (.realloc _ copySize) => some (ptr, copySize)
  | _ => none

/-- The first header word, the usable size and the usable bytes of a grant stay. -/
structure LeftAlone (y y' : System) (g : Grant) : Prop where
  live : g ∈ y'.live
  header : tagOf y'.state.mem g.ptr = tagOf y.state.mem g.ptr
  usable_eq : usable y'.state g = usable y.state g
  bytes : ∀ x, InPayload y.state g x → y'.state.mem x = y.state.mem x

/-- Thread `t` still owns the block at `ptr`, and the size it copies is still what the block and
the request have in common. -/
def StillSized (y : System) (t : Tid) (ptr copySize : Nat) : Prop :=
  ∃ g ∈ y.live, g.ptr = ptr ∧ y.owner ptr = t ∧
    usable y.state g = usable (y.began t).2.state g ∧
    ∃ newSize, (y.began t).1 = .realloc ptr newSize ∧ copySize = min (usable y.state g) newSize

variable {c : Config} {y y' : System} {t u : Tid} {ts ts' : List Carved}
  {order order' : List Nat} {sh sh' : Shelves} {g : Grant} {ptr copySize : Nat}

/-- A claimed block that is being moved is still as long as it was. -/
theorem Claimed.stillSized (h : Claimed c y t g) {newSize : Nat}
    (hm : Moving y t g.ptr newSize copySize) : StillSized y t g.ptr copySize := by
  obtain ⟨hcall, g', hg', hp, hcopy⟩ := hm
  obtain rfl : g' = g := h.unique g' hg' hp
  refine ⟨g', h.live, rfl, h.owner, h.usable_eq, newSize, hcall, ?_⟩
  rw [h.usable_eq]
  exact hcopy

/-- A moving reallocation copies as much as its block still holds. -/
theorem Consistent.stillSized (C : Consistent c y ts order sh)
    (h : (y.phase t).moving = some (ptr, copySize)) : StillSized y t ptr copySize := by
  have hok := C.phases t
  have huse : ∀ {size : Nat}, PurposeOk c y t size (.realloc ptr copySize) →
      StillSized y t ptr copySize := by
    rintro size ⟨⟨g, rfl, hg⟩, hm⟩
    exact hg.stillSized hm
  have hseq : ∀ {newPtr : Nat}, (∃ g, g.ptr = ptr ∧ Claimed c y t g) →
      SequelOk y t (.realloc newPtr copySize) → (y.began t).1.argument = ptr →
      StillSized y t ptr copySize := by
    rintro newPtr ⟨g, rfl, hg⟩ ⟨ptr', newSize, hm, -⟩ harg
    rw [hm.call] at harg
    obtain rfl : ptr' = g.ptr := harg
    exact hg.stillSized hm
  generalize y.phase t = ph at h hok
  cases ph with
  | malloc size use =>
    cases use with
    | realloc p n =>
      obtain ⟨rfl, rfl⟩ : p = ptr ∧ n = copySize := by simpa [Phase.moving] using h
      exact huse hok.2
    | _ => simp [Phase.moving] at h
  | refilled size i b use =>
    cases use with
    | realloc p n =>
      obtain ⟨rfl, rfl⟩ : p = ptr ∧ n = copySize := by simpa [Phase.moving] using h
      exact huse hok.2.2.2.2.2
    | _ => simp [Phase.moving] at h
  | stocked size i use =>
    cases use with
    | realloc p n =>
      obtain ⟨rfl, rfl⟩ : p = ptr ∧ n = copySize := by simpa [Phase.moving] using h
      exact huse hok.2.2
    | _ => simp [Phase.moving] at h
  | got size q use =>
    cases use with
    | realloc p n =>
      obtain ⟨rfl, rfl⟩ : p = ptr ∧ n = copySize := by simpa [Phase.moving] using h
      exact huse hok.1
    | _ => simp [Phase.moving] at h
  | free p sequel =>
    cases sequel with
    | realloc q n =>
      obtain ⟨rfl, rfl⟩ : p = ptr ∧ n = copySize := by simpa [Phase.moving] using h
      exact hseq hok.1 hok.2.1 hok.2.2.2
    | _ => simp [Phase.moving] at h
  | tagged p tag sequel =>
    cases sequel with
    | realloc q n =>
      obtain ⟨rfl, rfl⟩ : p = ptr ∧ n = copySize := by simpa [Phase.moving] using h
      exact hseq hok.1 hok.2.1 hok.2.2.2.1
    | _ => simp [Phase.moving] at h
  | _ => simp [Phase.moving] at h

/-- An action touches no block of a thread other than the one that acts. -/
theorem Acted.leftAlone (A : Acted c y sh u y' ts' order' sh') (C : Consistent c y ts order sh)
    (hg : g ∈ y.live) (howner : y.owner g.ptr ≠ u) : LeftAlone y y' g := by
  have N := A.undisturbed.keeps (y.owner g.ptr) howner
  obtain ⟨hlive, -⟩ := N.owned g hg rfl trivial
  obtain ⟨husable, hbytes⟩ := N.spared g hg rfl trivial
  constructor
  · exact hlive
  · exact C.booked.tag_eq A.consistent.booked hg hlive husable
  · exact husable
  · exact hbytes

/-- In every interleaving the tiling and the free list stay exact, every action of a thread
completes and leaves the other threads' blocks alone, the size a reallocation read stays valid
until it frees the old block, and every reallocation keeps the bytes both sizes share. -/
theorem general_path_shared (h : System.Reachable c y) :
    (∀ a ∈ y.state.arenas, ∃ l, BoundaryTags y.state.mem y.live a l) ∧
    (∃ l, FreeListExact y.state l) ∧
    (∀ t ptr copySize, (y.phase t).moving = some (ptr, copySize) →
      StillSized y t ptr copySize) ∧
    ∀ a : Action, a.Legal c y → ∃ y', y.act c a = .ok y' ∧
      (∀ g ∈ y.live, y.owner g.ptr ≠ a.actor y → LeftAlone y y' g) ∧
      ∀ t r, a = .advance t → y'.phase t = .idle r → ContentsKept y' t r := by
  obtain ⟨ts, order, sh, C⟩ := h.consistent
  refine ⟨C.booked.boundaryTags C.uncaptured,
    ⟨order, (C.booked.tiled C.uncaptured).freeListExact⟩, fun t ptr copySize hm ↦ C.stillSized hm,
    fun a legal ↦ ?_⟩
  obtain ⟨y', ts', order', sh', hact, A⟩ := C.act legal
  refine ⟨y', hact, fun g hg howner ↦ A.leftAlone C hg howner, fun t r ha hidle ↦ ?_⟩
  subst ha
  obtain ⟨z, _, _, _, hz, A'⟩ := C.advance legal
  obtain rfl : z = y' := by simpa using hz.symm.trans hact
  exact A'.contentsKept r hidle

/-- The free of thread 1, which merges two blocks, completes in the middle of the move of thread 0
and leaves what is moved as it is. -/
theorem general_path_shared_contended : StillSized .contended 0 0x10010 5008 ∧
    ∃ y', System.contended.act .fixedBase (.advance 1) = .ok y' ∧
      LeftAlone .contended y' ⟨0x10010, 5000, none⟩ ∧
      getSize y'.state.mem 0x113b0 = 6000 + 32 + 7008 := by
  obtain ⟨-, -, hsized, hall⟩ := general_path_shared System.contended_reachable
  obtain ⟨y', hact, hleft, -⟩ := hall (.advance 1) (by decide +kernel)
  have hafter : System.contended.after .fixedBase (.advance 1) = y' := by rw [System.after, hact]
  exact ⟨hsized 0 _ _ (by decide +kernel), y', hact,
    hleft _ (by decide +kernel) (by decide +kernel), hafter ▸ by decide +kernel⟩

end CustomAllocator
