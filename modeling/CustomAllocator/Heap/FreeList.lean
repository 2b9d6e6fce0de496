import Mathlib.Data.List.Perm.Subperm
import CustomAllocator.Base.Linked
import CustomAllocator.Heap.Block

/-!
# The intrusive free list

`src/free_list.cpp` over memory and the list head. The links of a node lie in its first
two payload words, so the list is a `Dll` over `nextOf` and `prevOf`. Each operation is
specified by the list it leaves and by the link words it may change; it needs its nodes
to be free and far enough apart that no link word is another node's header.
-/

namespace CustomAllocator
open CustomAllocator.Base

/-- No chain of distinct 64-bit addresses visits more nodes than this. -/
abbrev addressCount : Nat := 2 ^ 64

namespace FreeList

/-- `FreeList::insert`; `src/free_list.cpp:7–18`. -/
def insert (c : Config) (m : Mem) (head block : Nat) : Except Fault (Mem × Nat) := do
  assert c (block != 0) "block != nullptr"
  assert c (isFree m block) "block->is_free()"
  let links ← freeListLinks c m block
  let m := setLinksPrev m links 0
  let m := setLinksNext m links head
  if head = 0 then .ok (m, block)
  else do
    let headLinks ← freeListLinks c m head
    .ok (setLinksPrev m headLinks block, block)

/-- The first half of `FreeList::remove`: the link that led to the node;
`src/free_list.cpp:26–31`. -/
def unlinkForward (c : Config) (m : Mem) (head links : Nat) : Except Fault (Mem × Nat) :=
  if linksPrev m links = 0 then .ok (m, linksNext m links)
  else do
    let before ← freeListLinks c m (linksPrev m links)
    .ok (setLinksNext m before (linksNext m links), head)

/-- The second half of `FreeList::remove`: the link back to the node; `src/free_list.cpp:33–35`. -/
def unlinkBackward (c : Config) (m : Mem) (links : Nat) : Except Fault Mem :=
  if linksNext m links = 0 then .ok m
  else do
    let after ← freeListLinks c m (linksNext m links)
    .ok (setLinksPrev m after (linksPrev m links))

/-- `FreeList::remove`; `src/free_list.cpp:20–39`. -/
def remove (c : Config) (m : Mem) (head block : Nat) : Except Fault (Mem × Nat) := do
  assert c (block != 0) "block != nullptr"
  assert c (isFree m block) "block->is_free()"
  let links ← freeListLinks c m block
  let (m, head) ← unlinkForward c m head links
  let m ← unlinkBackward c m links
  .ok (setLinksPrev (setLinksNext m links 0) links 0, head)

/-- The loop of `FreeList::find_first_fit` from `block`; `src/free_list.cpp:41–48`. -/
def findFrom (c : Config) (m : Mem) (size : Nat) : Nat → Nat → Except Fault Nat
  | 0, _ => .error .endlessWalk
  | fuel + 1, block =>
    if block = 0 then .ok 0
    else if size ≤ getSize m block then .ok block
    else do
      let links ← freeListLinks c m block
      findFrom c m size fuel (linksNext m links)

/-- `FreeList::find_first_fit`: the first listed block of at least `size` bytes, or null. -/
def findFirstFit (c : Config) (m : Mem) (head size : Nat) : Except Fault Nat :=
  findFrom c m size addressCount head

/-- `FreeList::empty`; `include/free_list.hpp:44`. -/
def empty (head : Nat) : Bool := head == 0

/-- The loop of `FreeList::size` from `block`; `src/free_list.cpp:50–56`. -/
def sizeFrom (c : Config) (m : Mem) : Nat → Nat → Nat → Except Fault Nat
  | 0, _, _ => .error .endlessWalk
  | fuel + 1, block, count =>
    if block = 0 then .ok count
    else do
      let links ← freeListLinks c m block
      sizeFrom c m fuel (linksNext m links) (add64 count 1)

/-- `FreeList::size`. -/
def size (c : Config) (m : Mem) (head : Nat) : Except Fault Nat := sizeFrom c m addressCount head 0

end FreeList

/-- The forward link of the node at `x`. -/
def nextOf (m : Mem) (x : Nat) : Nat := linksNext m (dataAddress x)

/-- The backward link of the node at `x`. -/
def prevOf (m : Mem) (x : Nat) : Nat := linksPrev m (dataAddress x)

/-- An address that can head a free block: aligned, not null, with room for its links. -/
def NodeAddr (x : Nat) : Prop := 0 < x ∧ x % 16 = 0 ∧ x + 32 < 2 ^ 64

/-- The nodes are free blocks, and distinct ones are at least a header and links apart. -/
structure FreeNodes (m : Mem) (l : List Nat) : Prop where
  addr : ∀ x ∈ l, NodeAddr x
  free : ∀ x ∈ l, isFree m x = true
  apart : ∀ x ∈ l, ∀ y ∈ l, x ≠ y → x + 32 ≤ y ∨ y + 32 ≤ x

/-- Memory changes only in the link words of the given nodes. -/
def LinksChanged (l : List Nat) (m m' : Mem) : Prop :=
  ∀ a, (∀ x ∈ l, x + 16 ≤ a → x + 32 ≤ a) → m' a = m a

section links

variable {m m' : Mem} {x y v : Nat}

private theorem prevWord_eq (hx : NodeAddr x) : add64 (dataAddress x) 8 = x + 24 := by
  obtain ⟨_, _, hlt⟩ := hx
  rw [dataAddress_eq (by omega), add64_of_lt (by omega)]

/-- The forward link lies right after the header. -/
theorem nextOf_eq (m : Mem) (hx : NodeAddr x) : nextOf m x = read64 m (x + 16) := by
  obtain ⟨_, _, hlt⟩ := hx
  rw [nextOf, linksNext, dataAddress_eq (by omega)]

/-- The backward link follows the forward link. -/
theorem prevOf_eq (m : Mem) (hx : NodeAddr x) : prevOf m x = read64 m (x + 24) := by
  rw [prevOf, linksPrev, prevWord_eq hx]

/-- Assigning a node's forward link. -/
theorem setLinksNext_eq (m : Mem) (hx : NodeAddr x) (v : Nat) :
    setLinksNext m (dataAddress x) v = write64 m (x + 16) v := by
  obtain ⟨_, _, hlt⟩ := hx
  rw [setLinksNext, dataAddress_eq (by omega)]

/-- Assigning a node's backward link. -/
theorem setLinksPrev_eq (m : Mem) (hx : NodeAddr x) (v : Nat) :
    setLinksPrev m (dataAddress x) v = write64 m (x + 24) v := by
  rw [setLinksPrev, prevWord_eq hx]

/-- A link is a word. -/
theorem nextOf_lt (m : Mem) (x : Nat) : nextOf m x < 2 ^ 64 := by
  unfold nextOf linksNext
  exact read64_lt _ _

/-- A back link is a word. -/
theorem prevOf_lt (m : Mem) (x : Nat) : prevOf m x < 2 ^ 64 := by
  unfold prevOf linksPrev
  exact read64_lt _ _

/-- Forward links are independent words. -/
theorem nextOf_write_next (hx : NodeAddr x) (hy : NodeAddr y) (hv : v < 2 ^ 64) :
    nextOf (write64 m (y + 16) v) x = if x = y then v else nextOf m x := by
  rw [nextOf_eq _ hx, nextOf_eq _ hx]
  obtain ⟨_, hxa, _⟩ := hx
  obtain ⟨_, hya, _⟩ := hy
  split
  · next h => rw [h, read64_write64_same _ _ hv]
  · next h => exact read64_write64_of_ne _ _ (by omega) (by omega) (by omega)

/-- A backward link is no forward link. -/
theorem nextOf_write_prev (hx : NodeAddr x) (hy : NodeAddr y) :
    nextOf (write64 m (y + 24) v) x = nextOf m x := by
  rw [nextOf_eq _ hx, nextOf_eq _ hx]
  obtain ⟨_, hxa, _⟩ := hx
  obtain ⟨_, hya, _⟩ := hy
  exact read64_write64_of_ne _ _ (by omega) (by omega) (by omega)

/-- Backward links are independent words. -/
theorem prevOf_write_prev (hx : NodeAddr x) (hy : NodeAddr y) (hv : v < 2 ^ 64) :
    prevOf (write64 m (y + 24) v) x = if x = y then v else prevOf m x := by
  rw [prevOf_eq _ hx, prevOf_eq _ hx]
  obtain ⟨_, hxa, _⟩ := hx
  obtain ⟨_, hya, _⟩ := hy
  split
  · next h => rw [h, read64_write64_same _ _ hv]
  · next h => exact read64_write64_of_ne _ _ (by omega) (by omega) (by omega)

/-- A forward link is no backward link. -/
theorem prevOf_write_next (hx : NodeAddr x) (hy : NodeAddr y) :
    prevOf (write64 m (y + 16) v) x = prevOf m x := by
  rw [prevOf_eq _ hx, prevOf_eq _ hx]
  obtain ⟨_, hxa, _⟩ := hx
  obtain ⟨_, hya, _⟩ := hy
  exact read64_write64_of_ne _ _ (by omega) (by omega) (by omega)

/-- A word outside the link words is unchanged when only links change. -/
theorem LinksChanged.read64 {l : List Nat} (h : LinksChanged l m m') {a : Nat}
    (ha : ∀ x ∈ l, x + 16 < a + 8 → x + 32 ≤ a) : read64 m' a = read64 m a := by
  refine read64_congr fun k hk ↦ h (a + k) fun x hx hxa ↦ ?_
  have := ha x hx (by omega)
  omega

/-- Link changes do not touch the headers of nodes that are apart. -/
theorem FreeNodes.header_eq {l l' : List Nat} (hf : FreeNodes m l) (h : LinksChanged l' m m')
    (hsub : ∀ z ∈ l', z ∈ l) (hx : x ∈ l) : Base.read64 m' x = Base.read64 m x := by
  refine h.read64 fun z hz hza ↦ ?_
  rcases Nat.lt_trichotomy z x with hlt | heq | hgt
  · have := hf.apart z (hsub z hz) x hx (by omega)
    omega
  · omega
  · have := hf.apart z (hsub z hz) x hx (by omega)
    omega

/-- Link changes keep the nodes free. -/
theorem FreeNodes.links {l l' : List Nat} (hf : FreeNodes m l) (h : LinksChanged l' m m')
    (hsub : ∀ z ∈ l', z ∈ l) : FreeNodes m' l where
  addr := hf.addr
  free x hx := by
    rw [← hf.free x hx]
    unfold isFree
    rw [hf.header_eq h hsub hx]
  apart := hf.apart

/-- Distinct nodes are fewer than there are addresses. -/
theorem FreeNodes.length_lt {l : List Nat} (hf : FreeNodes m l) (hd : l.Nodup) :
    l.length < addressCount := by
  have hsub : ∀ x ∈ l, x ∈ List.range (2 ^ 64 - 1) := fun x hx ↦ by
    have := (hf.addr x hx).2.2
    rw [List.mem_range]
    omega
  have hle := (hd.subperm hsub).length_le
  rw [List.length_range] at hle
  unfold addressCount
  omega

private theorem write_next_changed {l : List Nat} (hx : x ∈ l) (v : Nat) :
    LinksChanged l m (write64 m (x + 16) v) := by
  intro a ha
  have := ha x hx
  exact write64_of_out _ _ (by omega)

private theorem write_prev_changed {l : List Nat} (hx : x ∈ l) (v : Nat) :
    LinksChanged l m (write64 m (x + 24) v) := by
  intro a ha
  have := ha x hx
  exact write64_of_out _ _ (by omega)

/-- Link changes compose. -/
theorem LinksChanged.trans {l : List Nat} {m'' : Mem} (h : LinksChanged l m m')
    (h' : LinksChanged l m' m'') : LinksChanged l m m'' :=
  fun a ha ↦ (h' a ha).trans (h a ha)

/-- Changing the links of some nodes is a change of the links of more nodes. -/
theorem LinksChanged.mono {l l' : List Nat} (h : LinksChanged l m m')
    (hsub : ∀ z ∈ l, z ∈ l') : LinksChanged l' m m' :=
  fun a ha ↦ h a fun z hz ↦ ha z (hsub z hz)

end links

/-- Free nodes pass the assertion of `free_list_links()`. -/
theorem freeListLinks_ok {c : Config} {m : Mem} {x : Nat} (h : isFree m x = true) :
    freeListLinks c m x = .ok (dataAddress x) := by
  simp [freeListLinks, h]

namespace FreeList

/-- Insertion puts the node first and changes only its links and the old first node's. -/
theorem insert_spec (c : Config) {m : Mem} {head x : Nat} {l : List Nat}
    (hd : Dll (nextOf m) (prevOf m) 0 head 0 l) (hf : FreeNodes m (x :: l)) (hx : x ∉ l) :
    ∃ m', insert c m head x = .ok (m', x) ∧ Dll (nextOf m') (prevOf m') 0 x 0 (x :: l) ∧
      LinksChanged (x :: l.take 1) m m' := by
  have hxa : NodeAddr x := hf.addr x (by simp)
  have hx0 : x ≠ 0 := by have := hxa.1; omega
  have hnode : ∀ y ∈ l, NodeAddr y := fun y hy ↦ hf.addr y (by simp [hy])
  have hne : ∀ y ∈ l, y ≠ x := fun y hy he ↦ hx (he ▸ hy)
  have hhead : head < 2 ^ 64 := by
    cases l with
    | nil =>
      rw [show head = 0 from hd]
      decide
    | cons y ys =>
      rw [hd.1]
      exact Nat.lt_of_le_of_lt (Nat.le_add_right _ 32) (hnode y (by simp)).2.2
  let m₁ := write64 m (x + 24) 0
  let m₂ := write64 m₁ (x + 16) head
  have hch₁ : LinksChanged [x] m m₁ := write_prev_changed (by simp) 0
  have hch₂ : LinksChanged [x] m m₂ := hch₁.trans (write_next_changed (by simp) head)
  have hrun : insert c m head x =
      if head = 0 then .ok (m₂, x)
      else (do
        let headLinks ← freeListLinks c m₂ head
        .ok (setLinksPrev m₂ headLinks x, x)) := by
    simp only [insert, bne_iff_ne.mpr hx0, hf.free x (by simp),
      freeListLinks_ok (hf.free x (by simp)), assert_true, ok_bind, setLinksPrev_eq _ hxa,
      setLinksNext_eq _ hxa, m₁, m₂]
  have hnx₂ : nextOf m₂ x = head := by
    rw [nextOf_write_next hxa hxa hhead, if_pos rfl]
  have hpx₂ : prevOf m₂ x = 0 := by
    rw [prevOf_write_next hxa hxa, prevOf_write_prev hxa hxa (by decide), if_pos rfl]
  have hn₂ : ∀ y ∈ l, nextOf m₂ y = nextOf m y := fun y hy ↦ by
    rw [nextOf_write_next (hnode y hy) hxa hhead, if_neg (hne y hy),
      nextOf_write_prev (hnode y hy) hxa]
  have hp₂ : ∀ y ∈ l, prevOf m₂ y = prevOf m y := fun y hy ↦ by
    rw [prevOf_write_next (hnode y hy) hxa, prevOf_write_prev (hnode y hy) hxa (by decide),
      if_neg (hne y hy)]
  cases l with
  | nil =>
    have hh : head = 0 := hd
    refine ⟨m₂, by rw [hrun, if_pos hh], ?_, hch₂⟩
    exact hd.insert hx0 hnx₂ hpx₂ (fun h ↦ absurd hh h) hn₂ fun y hy ↦ by simp at hy
  | cons y ys =>
    have hhy : head = y := hd.1
    have hya : NodeAddr head := hhy ▸ hnode y (by simp)
    have hh0 : head ≠ 0 := by have := hya.1; omega
    have hfree : isFree m₂ head = true :=
      (hf.links hch₂ fun z hz ↦ by simp_all).free head (by simp [hhy])
    have hxlt : x < 2 ^ 64 := by have := hxa.2.2; omega
    refine ⟨write64 m₂ (head + 24) x, ?_, ?_, ?_⟩
    · rw [hrun, if_neg hh0, freeListLinks_ok hfree, ok_bind, setLinksPrev_eq _ hya]
    · refine hd.insert hx0 ?_ ?_ (fun _ ↦ ?_) (fun z hz ↦ ?_) fun z hz hzh ↦ ?_
      · rw [nextOf_write_prev hxa hya, hnx₂]
      · rw [prevOf_write_prev hxa hya hxlt, if_neg (hhy ▸ (hne y (by simp)).symm), hpx₂]
      · rw [prevOf_write_prev hya hya hxlt, if_pos rfl]
      · rw [nextOf_write_prev (hnode z hz) hya, hn₂ z hz]
      · rw [prevOf_write_prev (hnode z hz) hya hxlt, if_neg hzh, hp₂ z hz]
    · exact (hch₂.mono (by simp)).trans (write_prev_changed (by simp [hhy]) x)

/-- Removal links the two neighbours to each other and changes only the links of the node and of
these neighbours. -/
theorem remove_spec (c : Config) {m : Mem} {head x : Nat} {xs ys : List Nat}
    (hd : Dll (nextOf m) (prevOf m) 0 head 0 (xs ++ x :: ys))
    (hf : FreeNodes m (xs ++ x :: ys)) :
    ∃ m' head', remove c m head x = .ok (m', head') ∧
      Dll (nextOf m') (prevOf m') 0 head' 0 (xs ++ ys) ∧
      LinksChanged (x :: (xs.getLast?.toList ++ ys.take 1)) m m' := by
  have hnode : ∀ y ∈ xs ++ x :: ys, NodeAddr y := hf.addr
  have hxm : x ∈ xs ++ x :: ys := by simp
  have hxa := hnode x hxm
  have hx0 : x ≠ 0 := by have := hxa.1; omega
  have hnd := hd.chain.nodup
  have hprev : prevOf m x = xs.getLastD 0 := hd.prev_eq
  have hnext : nextOf m x = ys.headD 0 := by
    obtain ⟨_, _, _, _, hys⟩ := Path.append_iff.mp hd.chain
    cases ys with
    | nil => exact hys
    | cons y ys => exact hys.1
  -- The forward half: the node before `x`, or the head, now leads past `x`.
  obtain ⟨m₁, hrun₁, hch₁, hn₁, hp₁⟩ : ∃ m₁,
      unlinkForward c m head (dataAddress x) =
        .ok (m₁, if xs = [] then nextOf m x else head) ∧
      LinksChanged xs.getLast?.toList m m₁ ∧
      (∀ y ∈ xs ++ x :: ys, nextOf m₁ y = if y ∈ xs ∧ y = prevOf m x then nextOf m x
        else nextOf m y) ∧
      ∀ y ∈ xs ++ x :: ys, prevOf m₁ y = prevOf m y := by
    rcases List.eq_nil_or_concat xs with rfl | ⟨zs, z, rfl⟩
    · refine ⟨m, ?_, fun a _ ↦ rfl, fun y _ ↦ by simp, fun y _ ↦ rfl⟩
      rw [unlinkForward, show linksPrev m (dataAddress x) = 0 from hprev, if_pos rfl, if_pos rfl]
      rfl
    · have hz : prevOf m x = z := by simpa using hprev
      have hza := hnode z (by simp)
      have hz0 : z ≠ 0 := by have := hza.1; omega
      have hv := nextOf_lt m x
      refine ⟨write64 m (z + 16) (nextOf m x), ?_, ?_, fun y hy ↦ ?_, fun y hy ↦ ?_⟩
      · rw [unlinkForward, show linksPrev m (dataAddress x) = z from hz, if_neg hz0,
          freeListLinks_ok (hf.free z (by simp)), ok_bind, setLinksNext_eq _ hza,
          if_neg (by simp)]
        rfl
      · exact write_next_changed (by simp) _
      · rw [nextOf_write_next (hnode y hy) hza hv, hz]
        by_cases hyz : y = z <;> simp [hyz]
      · exact prevOf_write_next (hnode y hy) hza
  -- The backward half: the node after `x` now points back past `x`.
  have hxz : x ∉ xs := fun h ↦ (List.nodup_append.mp hnd).2.2 x h x (by simp) rfl
  have hnx₁ : nextOf m₁ x = nextOf m x := by rw [hn₁ x hxm, if_neg fun h ↦ hxz h.1]
  have hpx₁ : prevOf m₁ x = prevOf m x := hp₁ x hxm
  have hf₁ : FreeNodes m₁ (xs ++ x :: ys) := hf.links hch₁ fun z hz ↦ by
    have : z ∈ xs := List.mem_of_getLast? (by simpa using hz)
    simp [this]
  obtain ⟨m₂, hrun₂, hch₂, hn₂, hp₂⟩ : ∃ m₂,
      unlinkBackward c m₁ (dataAddress x) = .ok m₂ ∧ LinksChanged (ys.take 1) m₁ m₂ ∧
      (∀ y ∈ xs ++ x :: ys, nextOf m₂ y = nextOf m₁ y) ∧
      ∀ y ∈ xs ++ x :: ys, prevOf m₂ y = if y ∈ ys ∧ y = nextOf m x then prevOf m x
        else prevOf m₁ y := by
    cases ys with
    | nil =>
      refine ⟨m₁, ?_, fun a _ ↦ rfl, fun y _ ↦ rfl, fun y _ ↦ by simp⟩
      rw [unlinkBackward, show linksNext m₁ (dataAddress x) = 0 from hnx₁.trans hnext, if_pos rfl]
    | cons z zs =>
      have hz : nextOf m x = z := by simpa using hnext
      have hza := hnode z (by simp)
      have hz0 : z ≠ 0 := by have := hza.1; omega
      have hv := prevOf_lt m x
      refine ⟨write64 m₁ (z + 24) (prevOf m x), ?_, ?_, fun y hy ↦ ?_, fun y hy ↦ ?_⟩
      · rw [unlinkBackward, show linksNext m₁ (dataAddress x) = z from hnx₁.trans hz, if_neg hz0,
          freeListLinks_ok (hf₁.free z (by simp)), ok_bind, setLinksPrev_eq _ hza]
        rw [show linksPrev m₁ (dataAddress x) = prevOf m x from hpx₁]
      · exact write_prev_changed (by simp) _
      · exact nextOf_write_prev (hnode y hy) hza
      · rw [prevOf_write_prev (hnode y hy) hza hv, hz]
        by_cases hyz : y = z <;> simp [hyz]
  -- Clearing the links of `x` itself concerns no remaining node.
  refine ⟨write64 (write64 m₂ (x + 16) 0) (x + 24) 0, if xs = [] then nextOf m x else head,
    ?_, ?_, ?_⟩
  · simp only [remove, bne_iff_ne.mpr hx0, hf.free x hxm, freeListLinks_ok (hf.free x hxm),
      assert_true, ok_bind, hrun₁, hrun₂, setLinksNext_eq _ hxa, setLinksPrev_eq _ hxa]
  · have hsub : ∀ y ∈ xs ++ ys, y ∈ xs ++ x :: ys ∧ y ≠ x := by
      intro y hy
      refine ⟨by rcases List.mem_append.mp hy with h | h <;> simp [h], ?_⟩
      rintro rfl
      rcases List.mem_append.mp hy with h | h
      · exact hxz h
      · exact (List.nodup_cons.mp (List.nodup_append.mp hnd).2.1).1 h
    have hnf : ∀ y ∈ xs ++ ys, nextOf (write64 (write64 m₂ (x + 16) 0) (x + 24) 0) y =
        if y ∈ xs ∧ y = prevOf m x then nextOf m x else nextOf m y := fun y hy ↦ by
      have ⟨hm, hne⟩ := hsub y hy
      rw [nextOf_write_prev (hnode y hm) hxa, nextOf_write_next (hnode y hm) hxa (by decide),
        if_neg hne, hn₂ y hm, hn₁ y hm]
    have hpf : ∀ y ∈ xs ++ ys, prevOf (write64 (write64 m₂ (x + 16) 0) (x + 24) 0) y =
        if y ∈ ys ∧ y = nextOf m x then prevOf m x else prevOf m y := fun y hy ↦ by
      have ⟨hm, hne⟩ := hsub y hy
      rw [prevOf_write_prev (hnode y hm) hxa (by decide), if_neg hne,
        prevOf_write_next (hnode y hm) hxa, hp₂ y hm, hp₁ y hm]
    have hdisj : ∀ y ∈ xs, y ∉ ys := fun y hy hy' ↦
      (List.nodup_append.mp hnd).2.2 y hy y (by simp [hy']) rfl
    refine hd.remove (fun y hy he ↦ ?_) (fun y hy he ↦ ?_) (fun y hy he ↦ ?_)
      (fun y hy he ↦ ?_) (fun y hy ↦ ?_) fun y hy ↦ ?_
    · rw [hnf y (by simp [hy]), if_pos ⟨hy, he⟩]
    · rw [hnf y (by simp [hy]), if_neg fun h ↦ he h.2]
    · rw [hpf y (by simp [hy]), if_pos ⟨hy, he⟩]
    · rw [hpf y (by simp [hy]), if_neg fun h ↦ he h.2]
    · rw [hpf y (by simp [hy]), if_neg fun h ↦ hdisj y hy h.1]
    · rw [hnf y (by simp [hy]), if_neg fun h ↦ hdisj y h.1 hy]
  · refine LinksChanged.trans ?_ (write_prev_changed (by simp) 0)
    refine LinksChanged.trans ?_ (write_next_changed (by simp) 0)
    exact (hch₁.mono fun z hz ↦ by simp_all).trans (hch₂.mono fun z hz ↦ by simp_all)

/-- The walk from a listed node finds the first listed block that is large enough. -/
theorem findFrom_spec (c : Config) {m : Mem} (size : Nat) {l : List Nat} {fuel block : Nat}
    (hc : Chain (nextOf m) 0 block l) (hf : ∀ x ∈ l, isFree m x = true) (hl : l.length < fuel) :
    findFrom c m size fuel block =
      .ok ((l.find? fun x ↦ decide (size ≤ getSize m x)).getD 0) := by
  induction l generalizing fuel block with
  | nil =>
    obtain ⟨fuel, rfl⟩ : ∃ n, fuel = n + 1 := ⟨fuel - 1, by simp at hl; omega⟩
    have hb : block = 0 := hc
    simp [findFrom, hb]
  | cons x xs ih =>
    obtain ⟨fuel, rfl⟩ : ∃ n, fuel = n + 1 := ⟨fuel - 1, by simp at hl; omega⟩
    obtain ⟨rfl, hx, ht⟩ := hc
    rw [findFrom, if_neg hx]
    by_cases hs : size ≤ getSize m block
    · simp [hs]
    · rw [if_neg hs, freeListLinks_ok (hf block (by simp)), ok_bind]
      rw [show linksNext m (dataAddress block) = nextOf m block from rfl,
        ih ht (fun y hy ↦ hf y (by simp [hy])) (by simpa using hl)]
      simp [hs]

/-- The walk of `size` counts the nodes that are left. -/
theorem sizeFrom_spec (c : Config) {m : Mem} {l : List Nat} {fuel block count : Nat}
    (hc : Chain (nextOf m) 0 block l) (hf : ∀ x ∈ l, isFree m x = true) (hl : l.length < fuel)
    (hcount : count + l.length < 2 ^ 64) :
    sizeFrom c m fuel block count = .ok (count + l.length) := by
  induction l generalizing fuel block count with
  | nil =>
    obtain ⟨fuel, rfl⟩ : ∃ n, fuel = n + 1 := ⟨fuel - 1, by simp at hl; omega⟩
    have hb : block = 0 := hc
    rw [sizeFrom, if_pos hb, List.length_nil, Nat.add_zero]
  | cons x xs ih =>
    obtain ⟨fuel, rfl⟩ : ∃ n, fuel = n + 1 := ⟨fuel - 1, by simp at hl; omega⟩
    obtain ⟨rfl, hx, ht⟩ := hc
    rw [List.length_cons] at hl hcount ⊢
    rw [sizeFrom, if_neg hx, freeListLinks_ok (hf block (by simp)), ok_bind,
      show linksNext m (dataAddress block) = nextOf m block from rfl, add64_of_lt (by omega),
      ih ht (fun y hy ↦ hf y (by simp [hy])) (by omega) (by omega)]
    congr 1
    omega

end FreeList

end CustomAllocator
