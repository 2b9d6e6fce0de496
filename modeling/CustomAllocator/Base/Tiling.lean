import Mathlib.Data.List.Chain

/-!
# Tilings of an address interval

A list of pieces tiles `[lo, hi)` when the pieces are nonempty and each begins
where its predecessor ends. `start` and `stop` give the two ends of a piece, so the
laws apply to any kind of piece. Pieces of a tiling never overlap and cover every
address; replacing a run of pieces by another tiling of the same span keeps a tiling.
A tiling whose gaps are never adjacent is determined by the pieces that are not gaps.
-/

namespace CustomAllocator.Base

variable {β : Type} {start stop : β → Nat}

/-- The pieces, in order, exactly fill `[lo, hi)`. -/
def Tiling (start stop : β → Nat) : Nat → Nat → List β → Prop
  | lo, hi, [] => lo = hi
  | lo, hi, b :: bs => start b = lo ∧ start b < stop b ∧ Tiling start stop (stop b) hi bs

namespace Tiling

/-- The empty tiling fills the empty interval. -/
theorem nil_iff {lo hi : Nat} : Tiling start stop lo hi [] ↔ lo = hi := Iff.rfl

/-- A tiling begins with a piece at `lo` and continues where that piece ends. -/
theorem cons_iff {lo hi : Nat} {b : β} {bs : List β} :
    Tiling start stop lo hi (b :: bs) ↔
      start b = lo ∧ start b < stop b ∧ Tiling start stop (stop b) hi bs := Iff.rfl

/-- A concatenation tiles an interval exactly when the halves tile its two parts. -/
theorem append_iff {lo hi : Nat} {xs ys : List β} :
    Tiling start stop lo hi (xs ++ ys) ↔
      ∃ mid, Tiling start stop lo mid xs ∧ Tiling start stop mid hi ys := by
  induction xs generalizing lo with
  | nil => simp [nil_iff]
  | cons x xs ih =>
    simp only [List.cons_append, cons_iff, ih]
    constructor
    · rintro ⟨hs, hlt, mid, hx, hy⟩
      exact ⟨mid, ⟨hs, hlt, hx⟩, hy⟩
    · rintro ⟨mid, ⟨hs, hlt, hx⟩, hy⟩
      exact ⟨hs, hlt, mid, hx, hy⟩

/-- The interval of a tiling is ordered. -/
theorem le {lo hi : Nat} {bs : List β} (h : Tiling start stop lo hi bs) : lo ≤ hi := by
  induction bs generalizing lo with
  | nil => exact Nat.le_of_eq h
  | cons b bs ih =>
    obtain ⟨hs, hlt, ht⟩ := h
    have := ih ht
    omega

/-- Every piece is nonempty and lies inside the interval. -/
theorem bounds {lo hi : Nat} {bs : List β} (h : Tiling start stop lo hi bs) {b : β}
    (hb : b ∈ bs) : lo ≤ start b ∧ start b < stop b ∧ stop b ≤ hi := by
  induction bs generalizing lo with
  | nil => simp at hb
  | cons c cs ih =>
    obtain ⟨hs, hlt, ht⟩ := h
    have hle := ht.le
    rcases List.mem_cons.mp hb with rfl | hb
    · omega
    · have := ih ht hb
      omega

/-- Two pieces that share an address are the same piece. -/
theorem eq_of_overlap {lo hi : Nat} {bs : List β} (h : Tiling start stop lo hi bs) {b c : β}
    (hb : b ∈ bs) (hc : c ∈ bs) (hbc : start b < stop c) (hcb : start c < stop b) : b = c := by
  induction bs generalizing lo with
  | nil => simp at hb
  | cons d ds ih =>
    obtain ⟨hs, hlt, ht⟩ := h
    rcases List.mem_cons.mp hb with rfl | hbs
    · rcases List.mem_cons.mp hc with rfl | hcs
      · rfl
      · have := ht.bounds hcs
        omega
    · rcases List.mem_cons.mp hc with rfl | hcs
      · have := ht.bounds hbs
        omega
      · exact ih ht hbs hcs

/-- Every address of the interval belongs to some piece. -/
theorem cover {lo hi : Nat} {bs : List β} (h : Tiling start stop lo hi bs) {x : Nat}
    (hlo : lo ≤ x) (hhi : x < hi) : ∃ b ∈ bs, start b ≤ x ∧ x < stop b := by
  induction bs generalizing lo with
  | nil =>
    have := nil_iff.mp h
    omega
  | cons b bs ih =>
    obtain ⟨hs, hlt, ht⟩ := h
    by_cases hx : x < stop b
    · exact ⟨b, by simp, by omega, hx⟩
    · obtain ⟨c, hc, hcx⟩ := ih ht (by omega)
      exact ⟨c, List.mem_cons_of_mem _ hc, hcx⟩

/-- Pieces of a tiling are pairwise distinct. -/
theorem nodup {lo hi : Nat} {bs : List β} (h : Tiling start stop lo hi bs) : bs.Nodup := by
  induction bs generalizing lo with
  | nil => exact List.nodup_nil
  | cons b bs ih =>
    obtain ⟨hs, hlt, ht⟩ := h
    refine List.nodup_cons.mpr ⟨?_, ih ht⟩
    intro hb
    have := ht.bounds hb
    omega

/-- A run of pieces may be replaced by any list that tiles the same spans. -/
theorem replace {lo hi : Nat} {pre mid mid' post : List β}
    (h : Tiling start stop lo hi (pre ++ mid ++ post))
    (hm : ∀ l r, Tiling start stop l r mid → Tiling start stop l r mid') :
    Tiling start stop lo hi (pre ++ mid' ++ post) := by
  obtain ⟨r, hpm, hpost⟩ := append_iff.mp h
  obtain ⟨l, hpre, hmid⟩ := append_iff.mp hpm
  exact append_iff.mpr ⟨r, append_iff.mpr ⟨l, hpre, hm l r hmid⟩, hpost⟩

/-- A piece begins where the tiling of its predecessors ends and hands over at its stop. -/
theorem split {lo hi : Nat} {b : β} {pre post : List β}
    (h : Tiling start stop lo hi (pre ++ b :: post)) :
    Tiling start stop lo (start b) pre ∧ start b < stop b ∧
      Tiling start stop (stop b) hi post := by
  obtain ⟨mid, hpre, hs, hlt, hpost⟩ := append_iff.mp h
  exact ⟨hs ▸ hpre, hlt, hpost⟩

/-- The last piece of a nonempty tiling ends at `hi`. -/
theorem stop_last {lo hi : Nat} {b : β} {pre : List β}
    (h : Tiling start stop lo hi (pre ++ [b])) : stop b = hi := h.split.2.2

/-- Appending a piece that begins at `hi` extends the interval to its stop. -/
theorem concat {lo hi : Nat} {b : β} {bs : List β} (h : Tiling start stop lo hi bs)
    (hs : start b = hi) (hlt : start b < stop b) :
    Tiling start stop lo (stop b) (bs ++ [b]) :=
  append_iff.mpr ⟨hi, h, hs, hlt, rfl⟩

/-! ### Canonical tilings -/

section canonical

variable {gap : β → Prop}

/-- A leading gap reaches at least as far as a leading gap of a tiling with the same solid
pieces: what follows it is solid. -/
theorem stop_le_of_gap {lo hi : Nat} {b c : β} {bs cs : List β}
    (hb : Tiling start stop lo hi (b :: bs)) (hc : Tiling start stop lo hi (c :: cs))
    (gb : gap b) (gc : gap c) (sep : (b :: bs).IsChain fun x y ↦ ¬ (gap x ∧ gap y))
    (solid : ∀ d, ¬ gap d → d ∈ b :: bs → d ∈ c :: cs) : stop c ≤ stop b := by
  cases bs with
  | nil =>
    have hlast := nil_iff.mp hb.2.2
    have := hc.bounds (b := c) (by simp)
    omega
  | cons d ds =>
    have hd : ¬ gap d := fun gd ↦ (List.isChain_cons_cons.mp sep).1 ⟨gb, gd⟩
    rcases List.mem_cons.mp (solid d hd (by simp)) with rfl | hmem
    · exact absurd gc hd
    · have := hc.2.2.bounds hmem
      have := hb.2.2.1
      omega

/-- Two tilings of one interval with the same solid pieces and no two gaps in a row are equal,
once a gap is determined by its ends. -/
theorem eq_of_solid {lo hi : Nat} {bs cs : List β} (hb : Tiling start stop lo hi bs)
    (hc : Tiling start stop lo hi cs) (sepb : bs.IsChain fun x y ↦ ¬ (gap x ∧ gap y))
    (sepc : cs.IsChain fun x y ↦ ¬ (gap x ∧ gap y))
    (ends : ∀ b c, gap b → gap c → start b = start c → stop b = stop c → b = c)
    (solid : ∀ d, ¬ gap d → (d ∈ bs ↔ d ∈ cs)) : bs = cs := by
  induction bs generalizing lo cs with
  | nil =>
    cases cs with
    | nil => rfl
    | cons c cs =>
      have := hc.bounds (b := c) (by simp)
      have := nil_iff.mp hb
      omega
  | cons b bs ih =>
    cases cs with
    | nil =>
      have := hb.bounds (b := b) (by simp)
      have := nil_iff.mp hc
      omega
    | cons c cs =>
      have hstart : start b = start c := hb.1.trans hc.1.symm
      have heq : b = c := by
        by_cases gb : gap b
        · by_cases gc : gap c
          · refine ends b c gb gc hstart (Nat.le_antisymm ?_ ?_)
            · exact hc.stop_le_of_gap hb gc gb sepc fun d hd ↦ (solid d hd).mpr
            · exact hb.stop_le_of_gap hc gb gc sepb fun d hd ↦ (solid d hd).mp
          · exact (hb.eq_of_overlap ((solid c gc).mpr (by simp)) (by simp)
              (by have := hb.2.1; omega) (by have := hc.2.1; omega)).symm
        · exact hc.eq_of_overlap ((solid b gb).mp (by simp)) (by simp)
            (by have := hc.2.1; omega) (by have := hb.2.1; omega)
      subst heq
      rw [ih hb.2.2 hc.2.2 sepb.tail sepc.tail fun d hd ↦ ?_]
      have hnb := List.nodup_cons.mp hb.nodup
      have hnc := List.nodup_cons.mp hc.nodup
      have hsolid := solid d hd
      simp only [List.mem_cons] at hsolid
      constructor
      · intro hmem
        exact (hsolid.mp (.inr hmem)).resolve_left fun h ↦ hnb.1 (h ▸ hmem)
      · intro hmem
        exact (hsolid.mpr (.inr hmem)).resolve_left fun h ↦ hnc.1 (h ▸ hmem)

end canonical

end Tiling

/-- Where no two neighbours both satisfy `p`, at most one element more does than does not. -/
theorem countP_le_of_isChain {p : β → Bool} : ∀ {bs : List β},
    (bs.IsChain fun a b ↦ ¬ (p a = true ∧ p b = true)) →
      bs.countP p ≤ (bs.countP fun b ↦ !p b) + 1
  | [], _ => Nat.zero_le _
  | [a], _ => by cases hp : p a <;> simp [hp]
  | a :: b :: bs, h => by
    have hne := (List.isChain_cons_cons.mp h).1
    have hrest := countP_le_of_isChain (List.isChain_cons_cons.mp h).2
    have htail := countP_le_of_isChain (List.isChain_cons_cons.mp h).2.tail
    simp only [List.countP_cons, List.tail_cons] at hrest htail ⊢
    cases ha : p a with
    | false =>
      simp only [Bool.false_eq_true, if_false, Bool.not_false, if_true]
      omega
    | true =>
      have hb : p b = false := Bool.eq_false_iff.mpr fun hb ↦ hne ⟨ha, hb⟩
      simp only [hb, Bool.not_false, Bool.not_true, Bool.false_eq_true, if_true, if_false]
      omega

end CustomAllocator.Base
