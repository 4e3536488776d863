/-
  JamesM.Boot.Def — `init_paging`: from the placement allocator to the paged heap.
-/
import JamesM.Heap.Def

namespace JamesM

open JamesM.ByteMem JamesM.Word32

/-- `for (i = VM_KERN_HEAP_START; ...; i += 0x1000) get_page(i, 1, kernel_directory);`. -/
def make_heap_tables (alloc : AllocFn) : Nat → Nat → Machine → Result Machine
  | 0, _, m => .ok m
  | n + 1, i, m => do
      let (_, m) ← get_page alloc i true m.kernel_directory m
      make_heap_tables alloc n (add32 i 0x1000) m

/-- `while (i < placement_address) { alloc_frame(get_page(i, 1, kernel_directory), 0, 0);
    i += 0x1000; }`.  The body moves `placement_address`, so the rounds carry fuel. -/
def identity_map (alloc : AllocFn) : Nat → Nat → Machine → Result Machine
  | 0, i, m => if i < m.placement_address then .error .fuel else .ok m
  | n + 1, i, m =>
      if i < m.placement_address then do
        -- kernel code is readable but not writeable from userspace
        let (page, m) ← get_page alloc i true m.kernel_directory m
        let m ← alloc_frame page 0 0 m
        identity_map alloc n (add32 i 0x1000) m
      else .ok m

/-- `for (i = VM_KERN_HEAP_START; ...; i += 0x1000)
    alloc_frame(get_page(i, 0, kernel_directory), 0, 0);`. -/
def alloc_heap_pages (alloc : AllocFn) : Nat → Nat → Machine → Result Machine
  | 0, _, m => .ok m
  | n + 1, i, m => do
      let (page, m) ← get_page alloc i false m.kernel_directory m
      let m ← alloc_frame page 0 0 m
      alloc_heap_pages alloc n (add32 i 0x1000) m

/-- The number of rounds of the two loops over the initial heap. -/
def heap_initial_pages : Nat := VM_KERN_HEAP_INITIAL_SIZE / 0x1000

/-- `init_paging()` up to the identity mapping: the bitset, the page directory, the page tables of
    the heap and the heap descriptor.  `INDEX_FROM_BIT(nframes)` bytes are taken for the bitset. -/
def init_paging_setup (alloc : AllocFn) (m : Machine) : Result Machine := do
  let mem_end_page := 0x1000000
  let nframes := mem_end_page / 0x1000
  let (_, _, m) ← kmalloc0 alloc (INDEX_FROM_BIT nframes) m
  let m := { m with nframes := nframes, frames := fun _ => 0#32 }
  -- let's make a page directory
  let (dir, _, m) ← kmalloc0_a alloc sizeof_page_directory m
  let m := { m with kernel_directory := dir }
  -- map some pages in the kernel heap area
  let m ← make_heap_tables alloc heap_initial_pages VM_KERN_HEAP_START m
  -- we allocate the kernel heap before identity mapping
  let (_, _, m) ← kmalloc0 alloc sizeof_heap m
  .ok m

/-- `init_paging()`.  `rounds` bounds the identity mapping loop. -/
def init_paging (rounds : Nat) (m : Machine) : Result Machine := do
  let m ← init_paging_setup (alloc 0) m
  let m ← identity_map (alloc 0) rounds 0 m
  -- now allocate those pages we mapped earlier
  let m ← alloc_heap_pages (alloc 0) heap_initial_pages VM_KERN_HEAP_START m
  -- set the kernel heap
  let m ← init_heap VM_KERN_HEAP_START (VM_KERN_HEAP_START + VM_KERN_HEAP_INITIAL_SIZE)
    0xCFFFF000 0 0 m
  .ok { m with heap_ready := true }

end JamesM
