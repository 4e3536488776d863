/-
  JamesM.Machine — the state the kernel's memory management works on.

  One byte memory holds the page directory, the page tables, the block headers and
  footers of the heap and every payload, at their real addresses.  Three things
  are kept beside it: the words of the frame bitset, the descriptor
  `struct vm_heap`, and the slots of the hole index (an array of pointers which
  the source keeps just below the heap).
-/
import JamesM.Lib.Word32
import JamesM.SortedArray
import JamesM.Frames

namespace JamesM

open JamesM.ByteMem JamesM.Word32

/-! ## §1. Constants of `heap.h`, and the sizes of the structures. -/

def VM_KERN_HEAP_START : Nat := 0xC0000000
def VM_KERN_HEAP_INITIAL_SIZE : Nat := 0x100000
def VM_HEAP_INDEX_SIZE : Nat := 0x20000
def VM_HEAP_HDR_MAGIC : Nat := 0x123890AB
def VM_HEAP_FTR_MAGIC : Nat := 0xBA098321
def VM_HEAP_MIN_SIZE : Nat := 0x70000

/-- `sizeof(struct vm_page_table)`: 1024 entries of 4 bytes. -/
def sizeof_page_table : Nat := 4096
/-- `sizeof(struct vm_page_directory)`: two arrays of 1024 words and one word. -/
def sizeof_page_directory : Nat := 8196
/-- `sizeof(struct vm_heap)`: the index (4 words) and 5 words. -/
def sizeof_heap : Nat := 36

/-! ## §2. Page table entries. -/

/-- `struct vm_page`: the bit fields of a page table entry. -/
structure VmPage where
  p_present : Nat
  p_rw : Nat
  p_user : Nat
  p_accessed : Nat
  p_dirty : Nat
  p_unused : Nat
  p_frame : Nat
  deriving DecidableEq, Repr

/-- The fields of an entry word (1 + 1 + 1 + 1 + 1 + 7 + 20 bits, low to high). -/
def VmPage.decode (w : Nat) : VmPage :=
  { p_present := w % 2, p_rw := w / 2 % 2, p_user := w / 4 % 2, p_accessed := w / 8 % 2
    p_dirty := w / 16 % 2, p_unused := w / 32 % 128, p_frame := w / 4096 % 1048576 }

/-- The entry word of the fields; each is cut to its width. -/
def VmPage.encode (p : VmPage) : Nat :=
  p.p_present % 2 + 2 * (p.p_rw % 2) + 4 * (p.p_user % 2) + 8 * (p.p_accessed % 2)
    + 16 * (p.p_dirty % 2) + 32 * (p.p_unused % 128) + 4096 * (p.p_frame % 1048576)

theorem VmPage.encode_lt (p : VmPage) : p.encode < 4294967296 := by
  unfold VmPage.encode; omega

/-- Reading an entry back cuts every field to its width. -/
theorem VmPage.decode_encode (p : VmPage) :
    VmPage.decode p.encode =
      { p_present := p.p_present % 2, p_rw := p.p_rw % 2, p_user := p.p_user % 2
        p_accessed := p.p_accessed % 2, p_dirty := p.p_dirty % 2, p_unused := p.p_unused % 128
        p_frame := p.p_frame % 1048576 } := by
  unfold VmPage.decode VmPage.encode
  congr 1 <;> omega

/-- The entry a `struct vm_page *` points to. -/
def read_page (mem : Mem) (p : Nat) : VmPage := VmPage.decode (read32 mem p)

/-- Store an entry. -/
def write_page (mem : Mem) (p : Nat) (pg : VmPage) : Mem := write32 mem p pg.encode

theorem read_page_write_page (mem : Mem) (p : Nat) (pg : VmPage) :
    read_page (write_page mem p pg) p = VmPage.decode pg.encode := by
  unfold read_page write_page
  rw [read32_write32 _ _ pg.encode_lt]

theorem read_page_write_page_ne (mem : Mem) {p q : Nat} (pg : VmPage)
    (h : q + 4 ≤ p ∨ p + 4 ≤ q) : read_page (write_page mem p pg) q = read_page mem q := by
  unfold read_page write_page
  rw [read32_write32_ne _ _ h]

/-! ## §3. The machine. -/

/-- `struct vm_heap`.  The index compares headers through the memory. -/
structure VmHeap where
  h_index : SortedArray Mem Nat
  h_addr_start : Nat
  h_addr_end : Nat
  h_addr_max : Nat
  h_su : Int
  h_ro : Int

/-- The state of memory management. -/
structure Machine where
  /-- Every byte the kernel can address. -/
  mem : Mem
  /-- The bump pointer of the placement allocator. -/
  placement_address : Nat
  /-- The words of the frame bitset, as storage of their own. -/
  frames : Bitset
  nframes : Nat
  /-- The address of the kernel's page directory. -/
  kernel_directory : Nat
  /-- `kernel_heap != NULL`. -/
  heap_ready : Bool
  /-- What `kernel_heap` points to. -/
  heap : VmHeap

/-- The machine as the boot loader leaves it, with cleared memory: no directory, no heap. -/
def Machine.bare (placement_address : Nat) : Machine :=
  { mem := fun _ => 0, placement_address := placement_address, frames := fun _ => 0#32, nframes := 0
    kernel_directory := 0, heap_ready := false
    heap := { h_index := place_sorted_array 0 0 none, h_addr_start := 0, h_addr_end := 0
              h_addr_max := 0, h_su := 0, h_ro := 0 } }

end JamesM
