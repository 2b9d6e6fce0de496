import CustomAllocator.Heap.FreeList

/-!
# The free list as a list

`FreeList` on its own: any sequence of insertions and removals over free blocks that share no
byte realises the list one gets by consing and erasing. The queries answer for that list, and
an operation writes nothing but the link words of its block and of the block's neighbours in
the list.
-/

namespace CustomAllocator
open CustomAllocator.Base

/-- `B` holds of headers of blocks: aligned, with room for links, and with storage, from the
header to the end of the footer, that shares no byte with another's. -/
structure BlockStore (m : Mem) (B : Nat → Prop) : Prop where
  addr : ∀ x, B x → 0 < x ∧ x % 16 = 0
  payload : ∀ x, B x → 16 ≤ getSize m x
  fits : ∀ x, B x → x + getSize m x + 32 ≤ 2 ^ 64
  apart : ∀ x y, B x → B y → x ≠ y →
    x + getSize m x + 32 ≤ y ∨ y + getSize m y + 32 ≤ x

/-- A change of the list. -/
inductive ListOp where
  | insert (block : Nat)
  | remove (block : Nat)
  deriving DecidableEq, Repr

/-- The code of a change. -/
def ListOp.exec (c : Config) (m : Mem) (head : Nat) : ListOp → Except Fault (Mem × Nat)
  | .insert block => FreeList.insert c m head block
  | .remove block => FreeList.remove c m head block

/-- The change as one of lists. -/
def ListOp.apply (l : List Nat) : ListOp → List Nat
  | .insert block => block :: l
  | .remove block => l.erase block

/-- A free block that is not listed may be inserted, a listed one removed. -/
def ListOp.Legal (m : Mem) (B : Nat → Prop) (l : List Nat) : ListOp → Prop
  | .insert block => B block ∧ isFree m block = true ∧ block ∉ l
  | .remove block => block ∈ l

/-- The block and its neighbours in the list: the old first one of an insertion, the one before
and the one after of a removal. -/
def ListOp.touched (l : List Nat) : ListOp → List Nat
  | .insert block => block :: l.take 1
  | .remove block => block :: ((l.takeWhile (· ≠ block)).getLast?.toList ++
      ((l.dropWhile (· ≠ block)).drop 1).take 1)

/-- The memory, head and abstract list after any sequence of legal changes of an empty list. -/
inductive ListRun (c : Config) (B : Nat → Prop) (m₀ : Mem) : Mem → Nat → List Nat → Prop
  | start : ListRun c B m₀ m₀ 0 []
  | step {m m' : Mem} {head head' : Nat} {l : List Nat} (op : ListOp)
      (run : ListRun c B m₀ m head l) (legal : op.Legal m B l)
      (exec : op.exec c m head = .ok (m', head')) : ListRun c B m₀ m' head' (op.apply l)

/-- What the code can tell about the list is what holds of `l`. -/
structure ListView (c : Config) (m : Mem) (head : Nat) (l : List Nat) : Prop where
  next : Chain (nextOf m) 0 head l
  mirrored : Dll (nextOf m) (prevOf m) 0 head 0 l
  size : FreeList.size c m head = .ok l.length
  empty : FreeList.empty head = true ↔ l = []
  first_fit : ∀ n, FreeList.findFirstFit c m head n =
    .ok ((l.find? fun x ↦ decide (n ≤ getSize m x)).getD 0)

/-- The boundary tags of every block are as before. -/
def SameBlockTags (B : Nat → Prop) (m m' : Mem) : Prop :=
  ∀ x, B x → read64 m' x = read64 m x ∧ getSize m' x = getSize m x ∧ isFree m' x = isFree m x ∧
    read64 m' (x + getSize m x + 16) = read64 m (x + getSize m x + 16)

variable {c : Config} {B : Nat → Prop} {m m' m₀ : Mem} {head head' : Nat} {l : List Nat}
  {op : ListOp}

theorem SameBlockTags.refl (B : Nat → Prop) (m : Mem) : SameBlockTags B m m :=
  fun _ _ ↦ ⟨rfl, rfl, rfl, rfl⟩

theorem SameBlockTags.trans {m'' : Mem} (h : SameBlockTags B m m') (h' : SameBlockTags B m' m'') :
    SameBlockTags B m m'' := by
  intro x hx
  obtain ⟨hhead, hsize, hfree, hfoot⟩ := h x hx
  obtain ⟨hhead', hsize', hfree', hfoot'⟩ := h' x hx
  rw [hsize] at hfoot'
  exact ⟨hhead'.trans hhead, hsize'.trans hsize, hfree'.trans hfree, hfoot'.trans hfoot⟩

/-- Blocks whose sizes stay are blocks still. -/
theorem BlockStore.congr (h : BlockStore m B) (hs : SameBlockTags B m m') : BlockStore m' B := by
  have hsize : ∀ x, B x → getSize m' x = getSize m x := fun x hx ↦ (hs x hx).2.1
  constructor
  · exact h.addr
  · intro x hx
    rw [hsize x hx]
    exact h.payload x hx
  · intro x hx
    rw [hsize x hx]
    exact h.fits x hx
  · intro x y hx hy hne
    rw [hsize x hx, hsize y hy]
    exact h.apart x y hx hy hne

/-- Link words lie inside their block, away from every header and footer. -/
theorem BlockStore.tags (h : BlockStore m B) {ws : List Nat} (hws : ∀ y ∈ ws, B y)
    (hlink : LinksChanged ws m m') : SameBlockTags B m m' := by
  intro x hx
  have hpx := h.payload x hx
  have hfar : ∀ y ∈ ws, y = x ∨ x + getSize m x + 32 ≤ y ∨ y + getSize m y + 32 ≤ x := by
    intro y hy
    by_cases hyx : y = x
    · exact .inl hyx
    · have := h.apart x y hx (hws y hy) (Ne.symm hyx)
      omega
  have hhead : read64 m' x = read64 m x := by
    apply hlink.read64
    intro y hy hyx
    have := hfar y hy
    have := h.payload y (hws y hy)
    omega
  have hsize : getSize m' x = getSize m x := by
    unfold getSize
    rw [hhead]
  have hfree : isFree m' x = isFree m x := by
    unfold isFree
    rw [hhead]
  refine ⟨hhead, hsize, hfree, ?_⟩
  apply hlink.read64
  intro y hy hyx
  have := hfar y hy
  have := h.payload y (hws y hy)
  omega

/-- Listed blocks are nodes the list operations can work on. -/
theorem BlockStore.freeNodes (h : BlockStore m B) (hl : ∀ x ∈ l, B x)
    (hfree : ∀ x ∈ l, isFree m x = true) : FreeNodes m l := by
  constructor
  · intro x hx
    obtain ⟨hpos, haligned⟩ := h.addr x (hl x hx)
    have := h.payload x (hl x hx)
    have := h.fits x (hl x hx)
    exact ⟨hpos, haligned, by omega⟩
  · exact hfree
  · intro x hx y hy hne
    have := h.apart x y (hl x hx) (hl y hy) hne
    omega

/-- A doubly linked list of free nodes answers every query. -/
theorem ListView.of_dll (c : Config) (hd : Dll (nextOf m) (prevOf m) 0 head 0 l)
    (hf : FreeNodes m l) : ListView c m head l := by
  have hfuel := hf.length_lt hd.chain.nodup
  unfold addressCount at hfuel
  constructor
  · exact hd.chain
  · exact hd
  · have hsize := FreeList.sizeFrom_spec c hd.chain hf.free hfuel
      (show 0 + l.length < 2 ^ 64 by omega)
    rwa [Nat.zero_add] at hsize
  · unfold FreeList.empty
    rw [beq_iff_eq]
    exact hd.chain.head_eq_nil_iff
  · intro n
    exact FreeList.findFrom_spec c n hd.chain hf.free hfuel

/-- The two halves of a list around one of its elements. -/
theorem touched_remove {x : Nat} {xs ys : List Nat} (hx : x ∉ xs) :
    (ListOp.remove x).touched (xs ++ x :: ys) =
      x :: (xs.getLast?.toList ++ ys.take 1) := by
  have hpos : ∀ y ∈ xs, decide (y ≠ x) = true := by
    intro y hy
    simp only [decide_eq_true_eq]
    rintro rfl
    exact hx hy
  simp only [ListOp.touched]
  rw [List.takeWhile_append_of_pos hpos, List.dropWhile_append_of_pos hpos]
  simp

/-- One legal change completes, leaves the abstract list changed the same way and writes link
words only. -/
theorem ListOp.exec_spec (c : Config) (op : ListOp) (hB : BlockStore m B) (hl : ∀ x ∈ l, B x)
    (hfree : ∀ x ∈ l, isFree m x = true) (hd : Dll (nextOf m) (prevOf m) 0 head 0 l)
    (hop : op.Legal m B l) :
    ∃ m' head', op.exec c m head = .ok (m', head') ∧
      Dll (nextOf m') (prevOf m') 0 head' 0 (op.apply l) ∧
      LinksChanged (op.touched l) m m' ∧ (∀ x ∈ op.touched l, B x) ∧
      ∀ x ∈ op.apply l, B x ∧ isFree m x = true := by
  have hf := hB.freeNodes hl hfree
  cases op with
  | insert block =>
    obtain ⟨hb, hbf, hn⟩ := hop
    have hall : ∀ x ∈ block :: l, B x ∧ isFree m x = true := by
      intro x hx
      rcases List.mem_cons.mp hx with rfl | hx
      · exact ⟨hb, hbf⟩
      · exact ⟨hl x hx, hfree x hx⟩
    have hnodes : FreeNodes m (block :: l) :=
      hB.freeNodes (fun x hx ↦ (hall x hx).1) fun x hx ↦ (hall x hx).2
    obtain ⟨m', hrun, hd', hlink⟩ := FreeList.insert_spec c hd hnodes hn
    refine ⟨m', block, hrun, hd', hlink, fun x hx ↦ ?_, hall⟩
    rcases List.mem_cons.mp hx with rfl | hx
    · exact hb
    · exact hl x (List.mem_of_mem_take hx)
  | remove block =>
    obtain ⟨xs, ys, rfl⟩ := List.append_of_mem hop
    have hnd := hd.chain.nodup
    have hx : block ∉ xs := fun h ↦
      (List.nodup_append.mp hnd).2.2 block h block (by simp) rfl
    obtain ⟨m', head', hrun, hd', hlink⟩ := FreeList.remove_spec c hd hf
    have herase : (ListOp.remove block).apply (xs ++ block :: ys) = xs ++ ys := by
      simp only [ListOp.apply]
      rw [List.erase_append_right _ hx, List.erase_cons_head]
    rw [touched_remove hx, herase]
    refine ⟨m', head', hrun, hd', hlink, fun x hx ↦ ?_, fun x hx ↦ ?_⟩
    · apply hl
      simp only [List.mem_cons, List.mem_append, Option.mem_toList] at hx ⊢
      rcases hx with rfl | hx | hx
      · exact .inr (.inl rfl)
      · exact .inl (List.mem_of_getLast? hx)
      · exact .inr (.inr (List.mem_of_mem_take hx))
    · have hmem : x ∈ xs ++ block :: ys := by
        rcases List.mem_append.mp hx with h | h <;> simp [h]
      exact ⟨hl x hmem, hfree x hmem⟩

/-- A run keeps every block's tags and lists free blocks in a doubly linked list. -/
theorem ListRun.invariant (hB : BlockStore m₀ B) (run : ListRun c B m₀ m head l) :
    SameBlockTags B m₀ m ∧ (∀ x ∈ l, B x ∧ isFree m x = true) ∧
      Dll (nextOf m) (prevOf m) 0 head 0 l := by
  induction run with
  | start =>
    refine ⟨.refl B m₀, ?_, rfl⟩
    simp
  | step op run legal exec ih =>
    obtain ⟨hsame, hl, hd⟩ := ih
    have hstore := hB.congr hsame
    obtain ⟨m₂, head₂, hrun, hd', hlink, htouched, hl'⟩ := op.exec_spec c hstore
      (fun x hx ↦ (hl x hx).1) (fun x hx ↦ (hl x hx).2) hd legal
    obtain ⟨rfl, rfl⟩ := Prod.mk.inj (Except.ok.inj (hrun.symm.trans exec))
    have htags := hstore.tags htouched hlink
    refine ⟨hsame.trans htags, fun x hx ↦ ?_, hd'⟩
    obtain ⟨hb, hf⟩ := hl' x hx
    exact ⟨hb, (htags x hb).2.2.1.trans hf⟩

/-- After any sequence of legal changes the list in memory is the abstract one, every query
answers for it, no block's tags have changed, and every further legal change completes and
writes only the link words of its block and the block's neighbours. -/
theorem free_list_refines (hB : BlockStore m₀ B) (run : ListRun c B m₀ m head l) :
    ListView c m head l ∧ SameBlockTags B m₀ m ∧
      ∀ op : ListOp, op.Legal m B l → ∃ m' head', op.exec c m head = .ok (m', head') ∧
        LinksChanged (op.touched l) m m' ∧ SameBlockTags B m m' ∧
        ListView c m' head' (op.apply l) := by
  obtain ⟨hsame, hl, hd⟩ := run.invariant hB
  have hstore := hB.congr hsame
  have hlB : ∀ x ∈ l, B x := fun x hx ↦ (hl x hx).1
  have hlf : ∀ x ∈ l, isFree m x = true := fun x hx ↦ (hl x hx).2
  refine ⟨.of_dll c hd (hstore.freeNodes hlB hlf), hsame, fun op hop ↦ ?_⟩
  obtain ⟨m', head', hrun, hd', hlink, htouched, hl'⟩ := op.exec_spec c hstore hlB hlf hd hop
  have htags := hstore.tags htouched hlink
  have hnodes : FreeNodes m' (op.apply l) :=
    (hstore.congr htags).freeNodes (fun x hx ↦ (hl' x hx).1) fun x hx ↦
      (htags x (hl' x hx).1).2.2.1.trans (hl' x hx).2
  exact ⟨m', head', hrun, hlink, htags, .of_dll c hd' hnodes⟩

/-- Memory in which a free header of 64 bytes stands at every multiple of 1024. -/
def stripedMem : Mem := fun x ↦ if x % 1024 = 0 then 0x41 else 0

/-- Three of these headers. -/
def threeBlocks (x : Nat) : Prop := x ∈ [1024, 2048, 3072]

instance : DecidablePred threeBlocks := fun x ↦ inferInstanceAs (Decidable (x ∈ [1024, 2048, 3072]))

theorem threeBlocks_store : BlockStore stripedMem threeBlocks := by
  have hall : ∀ x ∈ [1024, 2048, 3072], getSize stripedMem x = 64 := by decide +kernel
  have hmem : ∀ x, threeBlocks x → x = 1024 ∨ x = 2048 ∨ x = 3072 := by
    intro x hx
    simpa [threeBlocks] using hx
  constructor
  · intro x hx
    have := hmem x hx
    omega
  · intro x hx
    rw [hall x hx]
    decide
  · intro x hx
    have := hmem x hx
    rw [hall x hx]
    omega
  · intro x y hx hy hne
    have := hmem x hx
    have := hmem y hy
    rw [hall x hx, hall y hy]
    omega

/-- Two insertions and the removal of the block inserted first. -/
theorem free_list_refines_striped : ∃ m head,
    ListRun .fixedBase threeBlocks stripedMem m head [2048] ∧
      ListView .fixedBase m head [2048] := by
  have hfree : isFree stripedMem 1024 = true ∧ isFree stripedMem 2048 = true := by decide +kernel
  have run₀ : ListRun .fixedBase threeBlocks stripedMem stripedMem 0 [] := .start
  have hop₀ : (ListOp.insert 1024).Legal stripedMem threeBlocks [] :=
    ⟨by decide, hfree.1, by decide⟩
  obtain ⟨m₁, head₁, exec₁, -, htags₁, -⟩ := (free_list_refines threeBlocks_store run₀).2.2 _ hop₀
  have run₁ := run₀.step _ hop₀ exec₁
  have hop₁ : (ListOp.insert 2048).Legal m₁ threeBlocks [1024] :=
    ⟨by decide, ((htags₁ 2048 (by decide)).2.2.1).trans hfree.2, by decide⟩
  obtain ⟨m₂, head₂, exec₂, -⟩ := (free_list_refines threeBlocks_store run₁).2.2 _ hop₁
  have run₂ := run₁.step _ hop₁ exec₂
  have hop₂ : (ListOp.remove 1024).Legal m₂ threeBlocks [2048, 1024] := by
    simp [ListOp.Legal]
  obtain ⟨m₃, head₃, exec₃, -⟩ := (free_list_refines threeBlocks_store run₂).2.2 _ hop₂
  have run₃ := run₂.step _ hop₂ exec₃
  exact ⟨m₃, head₃, run₃, (free_list_refines threeBlocks_store run₃).1⟩

end CustomAllocator
