import CustomAllocator.Os.Memory

/-!
# Block headers, footers and the free-list overlay

`include/block.hpp`. A block is named by the address of its header. The header's word
packs the payload size with the free flag in bit 0, the footer repeats the size, and the
first two payload words of a free block are its list links. Addresses are computed with
wrapping arithmetic, as the pointer casts of the source are.
-/

namespace CustomAllocator
open CustomAllocator.Base

/-- `sizeof(BlockHeader)`. -/
abbrev sizeofBlockHeader : Nat := 16

/-- `sizeof(BlockFooter)`. -/
abbrev sizeofBlockFooter : Nat := 16

/-- `sizeof(FreeListLinks)`. -/
abbrev sizeofFreeListLinks : Nat := 16

/-- `BlockHeader::get_size`, `size_and_flags_ & ~1`; `include/block.hpp:130–132`. -/
def getSize (m : Mem) (block : Nat) : Nat := read64 m block / 2 * 2

/-- `BlockHeader::is_free`, `(size_and_flags_ & 1) != 0`; `include/block.hpp:140–142`. -/
def isFree (m : Mem) (block : Nat) : Bool := read64 m block % 2 == 1

/-- `BlockHeader::set_size`, `(size & ~1) | (size_and_flags_ & 1)`;
`include/block.hpp:134–138`. -/
def setSize (m : Mem) (block size : Nat) : Mem :=
  write64 m block (size / 2 * 2 + read64 m block % 2)

/-- `BlockHeader::set_free`; `include/block.hpp:144–150`. -/
def setFree (m : Mem) (block : Nat) (free : Bool) : Mem :=
  write64 m block (if free then read64 m block / 2 * 2 + 1 else read64 m block / 2 * 2)

/-- Placement construction `BlockHeader(size, free)`, whose member starts at zero;
`include/block.hpp:117–120`. -/
def constructHeader (m : Mem) (block size : Nat) (free : Bool) : Mem :=
  setFree (setSize (write64 m block 0) block size) block free

/-- `BlockHeader::data_address`; `include/block.hpp:260–262`. -/
def dataAddress (block : Nat) : Nat := add64 block sizeofBlockHeader

/-- `BlockHeader::payload`; `include/block.hpp:158–161`. -/
def payload (c : Config) (m : Mem) (block : Nat) : Except Fault Nat := do
  assert c (!isFree m block) "!is_free() && payload() called on a free block"
  .ok (dataAddress block)

/-- `BlockHeader::free_list_links`; `include/block.hpp:170–173`. -/
def freeListLinks (c : Config) (m : Mem) (block : Nat) : Except Fault Nat := do
  assert c (isFree m block) "is_free() && free_list_links() called on an allocated block"
  .ok (dataAddress block)

/-- `FreeListLinks::next` of the links at `links`. -/
def linksNext (m : Mem) (links : Nat) : Nat := read64 m links

/-- `FreeListLinks::prev` of the links at `links`. -/
def linksPrev (m : Mem) (links : Nat) : Nat := read64 m (add64 links 8)

/-- Assign `FreeListLinks::next`. -/
def setLinksNext (m : Mem) (links v : Nat) : Mem := write64 m links v

/-- Assign `FreeListLinks::prev`. -/
def setLinksPrev (m : Mem) (links v : Nat) : Mem := write64 m (add64 links 8) v

/-- `BlockHeader::footer`; `include/block.hpp:197–200`. -/
def footer (m : Mem) (block : Nat) : Nat :=
  add64 (add64 block sizeofBlockHeader) (getSize m block)

/-- `BlockHeader::sync_footer`; `include/block.hpp:214`. -/
def syncFooter (m : Mem) (block : Nat) : Mem := write64 m (footer m block) (getSize m block)

/-- `BlockHeader::footer_in_sync`; `include/block.hpp:224`. -/
def footerInSync (m : Mem) (block : Nat) : Bool := read64 m (footer m block) == getSize m block

/-- `BlockHeader::preceding_footer`; `include/block.hpp:231–233`. -/
def precedingFooter (block : Nat) : Nat := sub64 block sizeofBlockFooter

/-- `BlockHeader::next_physical_header`; `include/block.hpp:242–244`. -/
def nextPhysicalHeader (m : Mem) (block : Nat) : Nat := add64 (footer m block) sizeofBlockFooter

/-- `header_from_footer`; `include/block.hpp:303–306`. -/
def headerFromFooter (m : Mem) (foot : Nat) : Nat :=
  sub64 (sub64 foot (read64 m foot)) sizeofBlockHeader

/-- The header word of a block of payload `size`. -/
def headerWord (size : Nat) (free : Bool) : Nat := size + if free then 1 else 0

/-- A header word below the modulus keeps both its parts. -/
theorem headerWord_lt {size : Nat} (free : Bool) (hs : size % 2 = 0) (hlt : size < 2 ^ 64) :
    headerWord size free < 2 ^ 64 := by
  unfold headerWord
  split <;> omega

/-- The packed size is recovered from the header word. -/
theorem getSize_of_header {m : Mem} {block size : Nat} {free : Bool} (hs : size % 2 = 0)
    (h : read64 m block = headerWord size free) : getSize m block = size := by
  unfold getSize
  rw [h, headerWord]
  split <;> omega

/-- The free flag is recovered from the header word. -/
theorem isFree_of_header {m : Mem} {block size : Nat} {free : Bool} (hs : size % 2 = 0)
    (h : read64 m block = headerWord size free) : isFree m block = free := by
  unfold isFree
  rw [h, headerWord]
  cases free <;> simp <;> omega

/-- An even header word reads as allocated. -/
theorem isFree_of_even {m : Mem} {block : Nat} (h : read64 m block % 2 = 0) :
    isFree m block = false := by
  simp [isFree, h]

/-- `set_size` keeps the flag of a header word. -/
theorem setSize_of_header {m : Mem} {block size size' : Nat} {free : Bool} (hs : size % 2 = 0)
    (hs' : size' % 2 = 0) (h : read64 m block = headerWord size free) :
    setSize m block size' = write64 m block (headerWord size' free) := by
  unfold setSize
  rw [h]
  congr 1
  unfold headerWord
  split <;> omega

/-- `set_free` keeps the size of a header word. -/
theorem setFree_of_header {m : Mem} {block size : Nat} {free : Bool} (free' : Bool)
    (hs : size % 2 = 0) (h : read64 m block = headerWord size free) :
    setFree m block free' = write64 m block (headerWord size free') := by
  unfold setFree
  rw [h]
  congr 1
  unfold headerWord
  split <;> split <;> simp_all <;> omega

private theorem write64_write64 (m : Mem) (a v w : Nat) :
    write64 (write64 m a v) a w = write64 m a w := by
  funext x
  unfold write64
  split <;> rfl

/-- Construction stores exactly the header word. -/
theorem constructHeader_eq (m : Mem) (block : Nat) {size : Nat} (free : Bool)
    (hs : size % 2 = 0) (hlt : size < 2 ^ 64) :
    constructHeader m block size free = write64 m block (headerWord size free) := by
  have h0 : read64 (write64 m block 0) block = headerWord 0 false :=
    read64_write64_same m block (by decide)
  unfold constructHeader
  rw [setSize_of_header (by rfl) hs h0, write64_write64,
    setFree_of_header free hs (read64_write64_same m block (headerWord_lt false hs hlt)),
    write64_write64]

/-- The data address of a block inside the address space. -/
theorem dataAddress_eq {block : Nat} (h : block + 16 < 2 ^ 64) : dataAddress block = block + 16 :=
  add64_of_lt h

/-- The footer of a block inside the address space. -/
theorem footer_eq {m : Mem} {block size : Nat} (h : getSize m block = size)
    (hlt : block + size + 32 < 2 ^ 64) : footer m block = block + 16 + size := by
  unfold footer
  rw [h, add64_of_lt (a := block) (by unfold sizeofBlockHeader; omega),
    add64_of_lt (by unfold sizeofBlockHeader; omega)]

/-- The next physical header of a block inside the address space. -/
theorem nextPhysicalHeader_eq {m : Mem} {block size : Nat} (h : getSize m block = size)
    (hlt : block + size + 32 < 2 ^ 64) : nextPhysicalHeader m block = block + size + 32 := by
  unfold nextPhysicalHeader
  rw [footer_eq h hlt, add64_of_lt (by unfold sizeofBlockFooter; omega)]
  unfold sizeofBlockFooter
  omega

/-- Synchronising writes the size after the payload. -/
theorem syncFooter_eq {m : Mem} {block size : Nat} (h : getSize m block = size)
    (hlt : block + size + 32 < 2 ^ 64) :
    syncFooter m block = write64 m (block + 16 + size) size := by
  unfold syncFooter
  rw [footer_eq h hlt, h]

/-- A footer that repeats the size is in sync. -/
theorem footerInSync_eq {m : Mem} {block size : Nat} (h : getSize m block = size)
    (hlt : block + size + 32 < 2 ^ 64) (hf : read64 m (block + 16 + size) = size) :
    footerInSync m block = true := by
  unfold footerInSync
  rw [footer_eq h hlt, h, hf]
  simp

/-- The header found from the footer of a block of payload `size`. -/
theorem headerFromFooter_eq {m : Mem} {block size : Nat} (hlt : block + size + 32 < 2 ^ 64)
    (hf : read64 m (block + 16 + size) = size) :
    headerFromFooter m (block + 16 + size) = block := by
  unfold headerFromFooter
  rw [hf, sub64_of_le (a := block + 16 + size) (by omega) (by omega),
    sub64_of_le (by unfold sizeofBlockHeader; omega) (by omega)]
  unfold sizeofBlockHeader
  omega

end CustomAllocator
