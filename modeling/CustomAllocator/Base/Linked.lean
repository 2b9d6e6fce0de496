/-!
# Intrusive linked lists over link functions

The nodes of an intrusive list hold their own links, so a list is a view of two
functions from nodes to nodes. `Path` is a forward walk through given nodes,
`Chain` a walk that ends at the null node, and `Dll` a chain whose back links
mirror it. Each law names the links an edit has to set and the links it has to keep.
-/

namespace CustomAllocator.Base

variable {α : Type} {next next' prev prev' : α → α} {nil : α}

/-- Following `next` from `h` visits `l` and arrives at `e`; no visited node is null. -/
def Path (next : α → α) (nil : α) : α → List α → α → Prop
  | h, [], e => h = e
  | h, x :: xs, e => h = x ∧ x ≠ nil ∧ Path next nil (next x) xs e

/-- Following `next` from `h` visits `l` and ends at the null node. -/
def Chain (next : α → α) (nil : α) (h : α) (l : List α) : Prop := Path next nil h l nil

/-- A chain from `h` whose back links mirror it; the first node points back to `p`. -/
def Dll (next prev : α → α) (nil : α) : α → α → List α → Prop
  | h, _, [] => h = nil
  | h, p, x :: xs => h = x ∧ x ≠ nil ∧ prev x = p ∧ Dll next prev nil (next x) x xs

namespace Path

/-- A walk through a concatenation passes through some node between the halves. -/
theorem append_iff {h e : α} {xs ys : List α} :
    Path next nil h (xs ++ ys) e ↔ ∃ y, Path next nil h xs y ∧ Path next nil y ys e := by
  induction xs generalizing h with
  | nil => simp [Path]
  | cons x xs ih =>
    simp only [List.cons_append, Path, ih]
    constructor
    · rintro ⟨hh, hx, y, h1, h2⟩
      exact ⟨y, ⟨hh, hx, h1⟩, h2⟩
    · rintro ⟨y, ⟨hh, hx, h1⟩, h2⟩
      exact ⟨hh, hx, y, h1, h2⟩

/-- A walk depends only on the links of the nodes it visits. -/
theorem congr {h e : α} {l : List α} (hp : Path next nil h l e)
    (hn : ∀ x ∈ l, next' x = next x) : Path next' nil h l e := by
  induction l generalizing h with
  | nil => exact hp
  | cons x xs ih =>
    obtain ⟨hh, hx, ht⟩ := hp
    refine ⟨hh, hx, ?_⟩
    rw [hn x (by simp)]
    exact ih ht fun y hy ↦ hn y (List.mem_cons_of_mem _ hy)

/-- Relinking the last node redirects the end of the walk. -/
theorem relink_last {h e e' t : α} {xs : List α} (hp : Path next nil h (xs ++ [t]) e)
    (hn : ∀ x ∈ xs, next' x = next x) (ht : next' t = e') :
    Path next' nil h (xs ++ [t]) e' := by
  obtain ⟨y, hxs, hy, hne, _⟩ := append_iff.mp hp
  exact append_iff.mpr ⟨y, hxs.congr hn, hy, hne, ht⟩

end Path

namespace Chain

/-- A chain is empty exactly when it begins at the null node. -/
theorem head_eq_nil_iff {h : α} {l : List α} (hc : Chain next nil h l) : h = nil ↔ l = [] := by
  cases l with
  | nil => exact ⟨fun _ ↦ rfl, fun _ ↦ hc⟩
  | cons x xs =>
    obtain ⟨rfl, hx, _⟩ := hc
    simp [hx]

/-- The start of a chain is determined by the nodes it visits. -/
theorem head_unique {h h' : α} {l : List α} (hc : Chain next nil h l)
    (hc' : Chain next' nil h' l) : h = h' := by
  cases l with
  | nil => exact hc.trans hc'.symm
  | cons x xs => exact hc.1.trans hc'.1.symm

/-- The nodes visited from a given start are determined. -/
theorem unique {h : α} {l l' : List α} (hc : Chain next nil h l) (hc' : Chain next nil h l') :
    l = l' := by
  induction l generalizing h l' with
  | nil => exact (hc'.head_eq_nil_iff.mp hc).symm
  | cons x xs ih =>
    cases l' with
    | nil => exact absurd (hc.head_eq_nil_iff.mp hc') (by simp)
    | cons y ys =>
      obtain ⟨rfl, _, ht⟩ := hc
      obtain ⟨rfl, _, ht'⟩ := hc'
      rw [ih ht ht']

/-- A chain visits no node twice: a repeated node would begin two chains of unequal length. -/
theorem nodup {h : α} {l : List α} (hc : Chain next nil h l) : l.Nodup := by
  induction l generalizing h with
  | nil => exact List.nodup_nil
  | cons x xs ih =>
    obtain ⟨_, _, ht⟩ := hc
    refine List.nodup_cons.mpr ⟨?_, ih ht⟩
    intro hx
    obtain ⟨pre, post, rfl⟩ := List.append_of_mem hx
    obtain ⟨y, _, rfl, _, hpost⟩ := Path.append_iff.mp ht
    have he := congrArg List.length (unique ht hpost)
    simp at he
    omega

/-- Pushing a node whose link is the old start. -/
theorem push {h x : α} {l : List α} (hc : Chain next nil h l) (hx : x ≠ nil)
    (hh : next' x = h) (hn : ∀ y ∈ l, next' y = next y) : Chain next' nil x (x :: l) := by
  refine ⟨rfl, hx, ?_⟩
  rw [hh]
  exact Path.congr hc hn

/-- Linking the last node of one chain to the start of another concatenates them. -/
theorem splice {h k t : α} {xs ys : List α} (hc : Chain next nil h (xs ++ [t]))
    (hk : Chain next nil k ys) (ht : next' t = k) (hx : ∀ x ∈ xs, next' x = next x)
    (hy : ∀ y ∈ ys, next' y = next y) : Chain next' nil h ((xs ++ [t]) ++ ys) :=
  Path.append_iff.mpr ⟨k, Path.relink_last hc hx ht, Path.congr hk hy⟩

/-- Cutting a chain after a node leaves two chains. -/
theorem cut {h t : α} {xs ys : List α} (hc : Chain next nil h ((xs ++ [t]) ++ ys))
    (ht : next' t = nil) (hx : ∀ x ∈ xs, next' x = next x) (hy : ∀ y ∈ ys, next' y = next y) :
    Chain next' nil h (xs ++ [t]) ∧ Chain next' nil (next t) ys := by
  obtain ⟨e, hp, hq⟩ := Path.append_iff.mp hc
  obtain ⟨_, _, _, _, rfl⟩ := Path.append_iff.mp hp
  exact ⟨Path.relink_last hp hx ht, Path.congr hq hy⟩

end Chain

namespace Dll

/-- Forgetting the back links leaves a chain. -/
theorem chain {h p : α} {l : List α} (hd : Dll next prev nil h p l) : Chain next nil h l := by
  induction l generalizing h p with
  | nil => exact hd
  | cons x xs ih =>
    obtain ⟨hh, hx, _, ht⟩ := hd
    exact ⟨hh, hx, ih ht⟩

/-- A doubly linked list depends only on the links of its nodes. -/
theorem congr {h p : α} {l : List α} (hd : Dll next prev nil h p l)
    (hn : ∀ x ∈ l, next' x = next x) (hp : ∀ x ∈ l, prev' x = prev x) :
    Dll next' prev' nil h p l := by
  induction l generalizing h p with
  | nil => exact hd
  | cons x xs ih =>
    obtain ⟨hh, hx, hpx, ht⟩ := hd
    refine ⟨hh, hx, (hp x (by simp)).trans hpx, ?_⟩
    rw [hn x (by simp)]
    exact ih ht (fun y hy ↦ hn y (List.mem_cons_of_mem _ hy))
      fun y hy ↦ hp y (List.mem_cons_of_mem _ hy)

/-- The back link of a node is the node visited just before it. -/
theorem prev_eq {h p x : α} {xs ys : List α} (hd : Dll next prev nil h p (xs ++ x :: ys)) :
    prev x = xs.getLastD p := by
  induction xs generalizing h p with
  | nil => exact hd.2.2.1
  | cons z zs ih =>
    rw [ih hd.2.2.2, List.getLastD_cons]

/-- Inserting a node at the front sets its links and the back link of the old front. -/
theorem insert {h x : α} {l : List α} (hd : Dll next prev nil h nil l) (hx : x ≠ nil)
    (hnx : next' x = h) (hpx : prev' x = nil) (hph : h ≠ nil → prev' h = x)
    (hn : ∀ y ∈ l, next' y = next y) (hp : ∀ y ∈ l, y ≠ h → prev' y = prev y) :
    Dll next' prev' nil x nil (x :: l) := by
  refine ⟨rfl, hx, hpx, ?_⟩
  rw [hnx]
  cases l with
  | nil => exact hd
  | cons y ys =>
    have hnd := hd.chain.nodup
    obtain ⟨rfl, hy, _, ht⟩ := hd
    refine ⟨rfl, hy, hph hy, ?_⟩
    rw [hn h (by simp)]
    refine ht.congr (fun z hz ↦ hn z (List.mem_cons_of_mem _ hz)) fun z hz ↦ ?_
    refine hp z (List.mem_cons_of_mem _ hz) ?_
    rintro rfl
    exact (List.nodup_cons.mp hnd).1 hz

private theorem remove_aux {h p x : α} {xs ys : List α}
    (hd : Dll next prev nil h p (xs ++ x :: ys)) (hnd : (xs ++ x :: ys).Nodup)
    (hnx : ∀ y ∈ xs, y = prev x → next' y = next x)
    (hxs : ∀ y ∈ xs, y ≠ prev x → next' y = next y)
    (hpx : ∀ y ∈ ys, y = next x → prev' y = prev x)
    (hys : ∀ y ∈ ys, y ≠ next x → prev' y = prev y)
    (hpxs : ∀ y ∈ xs, prev' y = prev y) (hnys : ∀ y ∈ ys, next' y = next y) :
    Dll next' prev' nil (if xs = [] then next x else h) p (xs ++ ys) := by
  induction xs generalizing h p with
  | nil =>
    obtain ⟨rfl, hx, hp, ht⟩ := hd
    cases ys with
    | nil => exact ht
    | cons y ys =>
      obtain ⟨hy, hyne, _, ht⟩ := ht
      refine ⟨hy, hyne, (hpx y (by simp) hy.symm).trans hp, ?_⟩
      rw [hnys y (by simp)]
      refine ht.congr (fun z hz ↦ hnys z (List.mem_cons_of_mem _ hz)) fun z hz ↦ ?_
      refine hys z (List.mem_cons_of_mem _ hz) ?_
      rintro rfl
      simp only [List.nil_append, List.nodup_cons] at hnd
      exact hnd.2.1 (hy ▸ hz)
  | cons z zs ih =>
    have hpr := hd.prev_eq
    obtain ⟨hh, hz, hp, ht⟩ := hd
    have hnd' := List.nodup_cons.mp hnd
    have hnz : next' z = if zs = [] then next x else next z := by
      cases zs with
      | nil => exact hnx z (by simp) (by simpa using hpr.symm)
      | cons w ws =>
        refine hxs z (by simp) ?_
        intro he
        have hmem : prev x ∈ w :: ws := by
          rw [hpr, List.getLastD_cons, List.getLastD_cons]
          exact List.getLastD_mem_cons
        exact hnd'.1 (List.mem_append_left _ (he ▸ hmem))
    refine ⟨by simpa using hh, hz, (hpxs z (by simp)).trans hp, ?_⟩
    rw [hnz]
    exact ih ht hnd'.2 (fun y hy ↦ hnx y (List.mem_cons_of_mem _ hy))
      (fun y hy ↦ hxs y (List.mem_cons_of_mem _ hy))
      (fun y hy ↦ hpxs y (List.mem_cons_of_mem _ hy))

/-- Removing a node links its two neighbours to each other. -/
theorem remove {h x : α} {xs ys : List α} (hd : Dll next prev nil h nil (xs ++ x :: ys))
    (hnx : ∀ y ∈ xs, y = prev x → next' y = next x)
    (hxs : ∀ y ∈ xs, y ≠ prev x → next' y = next y)
    (hpx : ∀ y ∈ ys, y = next x → prev' y = prev x)
    (hys : ∀ y ∈ ys, y ≠ next x → prev' y = prev y)
    (hpxs : ∀ y ∈ xs, prev' y = prev y) (hnys : ∀ y ∈ ys, next' y = next y) :
    Dll next' prev' nil (if xs = [] then next x else h) nil (xs ++ ys) :=
  remove_aux hd hd.chain.nodup hnx hxs hpx hys hpxs hnys

end Dll

end CustomAllocator.Base
