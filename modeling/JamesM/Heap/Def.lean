/-
  JamesM.Heap.Def — `heap.c`: the kernel heap.

  A region of the heap is a 12-byte header (magic, `is_hole`, size), a payload and
  an 8-byte footer (magic, pointer to the header); the size counts all three.  The
  holes are listed in an index sorted by size.

  `alloc` and `free` are cut at the comments of the source, one definition for
  each part.  Where the source reads a field back after other stores, so does the
  model: for a badly placed hole these stores overlap.
-/
import JamesM.Paging.Def

namespace JamesM

open JamesM.ByteMem JamesM.Word32

/-! ## §1. Headers and footers. -/

def sizeof_header : Nat := 12
def sizeof_footer : Nat := 8

def hh_magic (mem : Mem) (h : Nat) : Nat := read32 mem h
def hh_is_hole (mem : Mem) (h : Nat) : Nat := read32 mem (h + 4)
def hh_size (mem : Mem) (h : Nat) : Nat := read32 mem (h + 8)
def hf_magic (mem : Mem) (f : Nat) : Nat := read32 mem f
def hf_header (mem : Mem) (f : Nat) : Nat := read32 mem (f + 4)

/-- Store the three fields of a header. -/
def put_header (mem : Mem) (h is_hole size : Nat) : Mem :=
  write32 (write32 (write32 mem h VM_HEAP_HDR_MAGIC) (h + 4) is_hole) (h + 8) size

/-- Store the two fields of a footer. -/
def put_footer (mem : Mem) (f header : Nat) : Mem :=
  write32 (write32 mem f VM_HEAP_FTR_MAGIC) (f + 4) header

/-- `vm_heap_header_cmp(a, b)`: an unsigned difference returned as an `int`. -/
def vm_heap_header_cmp (mem : Mem) (a b : Nat) : Int := toInt32 (sub32 (hh_size mem a) (hh_size mem b))

/-! ## §2. The hole search. -/

/-- Does the hole at `hdr` satisfy the request?  The test in the body of `find_smallest_hole`. -/
def hole_fits (mem : Mem) (size : Nat) (page_align : Bool) (hdr : Nat) : Bool :=
  if page_align then
    -- page-align the starting point of this header
    let location := add32 hdr sizeof_header
    let offset := if location &&& 0xFFFFF000 ≠ 0 then 0x1000 - location % 0x1000 else 0
    let hole_size := toInt32 (sub32 (hh_size mem hdr) offset)
    decide (hole_size ≥ toInt32 size)
  else decide (hh_size mem hdr ≥ size)

/-- The loop of `find_smallest_hole`: the first slot from `i` on that fits, or `sa_size`. -/
def find_smallest_hole_from (mem : Mem) (h_index : SortedArray Mem Nat) (size : Nat)
    (page_align : Bool) : Nat → Nat → Nat
  | 0, i => i
  | n + 1, i =>
      if i < h_index.sa_size then
        if hole_fits mem size page_align (h_index.sa_array i) then i
        else find_smallest_hole_from mem h_index size page_align n (i + 1)
      else i

/-- `find_smallest_hole(size, page_align, heap)`. -/
def find_smallest_hole (size : Nat) (page_align : Bool) (m : Machine) : Int :=
  let i := find_smallest_hole_from m.mem m.heap.h_index size page_align m.heap.h_index.sa_size 0
  if i = m.heap.h_index.sa_size then -1 else (i : Int)

/-! ## §3. Page roundings, growing and shrinking. -/

/-- `if (x & 0xFFFFF000) { x &= 0xFFFFF000; x += 0x1000; }`, in `init_heap` and in `expand`. -/
def following_page (x : Nat) : Nat :=
  if x &&& 0xFFFFF000 ≠ 0 then add32 (x &&& 0xFFFFF000) 0x1000 else x

/-- The loop of `expand`: give every page from offset `i` to `new_size` a frame. -/
def expand_loop (alloc : AllocFn) (new_size : Nat) : Nat → Nat → Machine → Result Machine
  | 0, i, m => if i < new_size then .error .fuel else .ok m
  | n + 1, i, m =>
      if i < new_size then do
        let (page, m) ← get_page alloc (add32 m.heap.h_addr_start i) true m.kernel_directory m
        let m ← alloc_frame page m.heap.h_su m.heap.h_ro m
        expand_loop alloc new_size n (add32 i 0x1000) m
      else .ok m

/-- `expand(new_size, heap)`. -/
def expand (alloc : AllocFn) (new_size : Nat) (m : Machine) : Result Machine := do
  KASSERT "expand to a greater size"
    (decide (new_size > sub32 m.heap.h_addr_end m.heap.h_addr_start))
  let new_size := following_page new_size
  KASSERT "don't overflow the heap"
    (decide (add32 m.heap.h_addr_start new_size ≤ m.heap.h_addr_max))
  let old_size := sub32 m.heap.h_addr_end m.heap.h_addr_start
  let m ← expand_loop alloc new_size ((new_size - old_size) / 0x1000 + 1) old_size m
  .ok { m with heap := { m.heap with h_addr_end := add32 m.heap.h_addr_start new_size } }

/-- The loop of `contract`: drop the frames of the pages from offset `i` down to `new_size`. -/
def contract_loop (new_size : Nat) : Nat → Nat → Machine → Machine
  | 0, _, m => m
  | n + 1, i, m =>
      if new_size < i then
        contract_loop new_size n (sub32 i 0x1000)
          (free_frame (lookup_page m.mem (add32 m.heap.h_addr_start i) m.kernel_directory) m)
      else m

/-- The rounding and the clamp of `contract`: the length it settles on. -/
def contract_size (new_size : Nat) : Nat :=
  let new_size :=
    if new_size &&& 0x1000 ≠ 0 then add32 (new_size &&& 0x1000) 0x1000 else new_size
  -- don't contract too far
  if new_size < VM_HEAP_MIN_SIZE then VM_HEAP_MIN_SIZE else new_size

/-- `contract(new_size, heap)`; the first component is the returned length. -/
def contract (new_size : Nat) (m : Machine) : Result (Nat × Machine) := do
  KASSERT "expand contract a smaller size"
    (decide (new_size < sub32 m.heap.h_addr_end m.heap.h_addr_start))
  let new_size := contract_size new_size
  let i := sub32 (sub32 m.heap.h_addr_end m.heap.h_addr_start) 0x1000
  let m := contract_loop new_size (i / 0x1000 + 1) i m
  .ok (new_size,
    { m with heap := { m.heap with h_addr_end := add32 m.heap.h_addr_start new_size } })

/-! ## §4. `alloc`. -/

/-- The search for the endmost header (in location, not in size); `idx` is `-1` at the start. -/
def endmost_from (h_index : SortedArray Mem Nat) : Nat → Nat → Nat → Nat → Nat
  | 0, _, idx, _ => idx
  | n + 1, i, idx, value =>
      if i < h_index.sa_size then
        let tmp := h_index.sa_array i
        if tmp > value then endmost_from h_index n (i + 1) i tmp
        else endmost_from h_index n (i + 1) idx value
      else idx

/-- The index of the endmost header, or `-1`. -/
def endmost (h_index : SortedArray Mem Nat) : Nat :=
  endmost_from h_index h_index.sa_size 0 0xFFFFFFFF 0

/-- Give the space that `expand` added to the endmost hole, or to a new one if there is no hole at
    all.  `old_length` and `old_end_address` are the bounds from before. -/
def give_space (old_length old_end_address : Nat) (m : Machine) : Result Machine :=
  let new_length := sub32 m.heap.h_addr_end m.heap.h_addr_start
  let idx := endmost m.heap.h_index
  if idx = 0xFFFFFFFF then do
    -- no header at all: add one
    let header := old_end_address
    let mem := put_header m.mem header 1 (sub32 new_length old_length)
    let footer := sub32 (add32 old_end_address (hh_size mem header)) sizeof_footer
    let mem := put_footer mem footer header
    let h_index ← insert_sorted_array mem m.heap.h_index header
    .ok { m with mem := mem, heap := { m.heap with h_index := h_index } }
  else do
    -- the last header needs adjusting
    let header ← lookup_sorted_array m.heap.h_index idx
    let mem := write32 m.mem (header + 8)
      (add32 (hh_size m.mem header) (sub32 new_length old_length))
    let footer := sub32 (add32 header (hh_size mem header)) sizeof_footer
    .ok { m with mem := put_footer mem footer header }

/-- What `alloc` does after a failed search and before it starts over. -/
def alloc_grow (alloc : AllocFn) (new_size : Nat) (m : Machine) : Result Machine := do
  let old_length := sub32 m.heap.h_addr_end m.heap.h_addr_start
  let old_end_address := m.heap.h_addr_end
  let m ← expand alloc (add32 old_length new_size) m
  give_space old_length old_end_address m

/-- "Page-align the data and make a new hole in front of our block", or delete the hole from the
    index.  Returns the place and the size that are left. -/
def carve_front (page_align : Bool) (i orig_hole_pos orig_hole_size : Nat) (m : Machine) :
    Result (Nat × Nat × Machine) :=
  if page_align = true ∧ orig_hole_pos &&& 0xFFFFF000 ≠ 0 then
    let new_location := sub32 (sub32 (add32 orig_hole_pos 0x1000) (orig_hole_pos &&& 0xFFF))
      sizeof_header
    let hole_header := orig_hole_pos
    let mem := put_header m.mem hole_header 1
      (sub32 (sub32 0x1000 (orig_hole_pos &&& 0xFFF)) sizeof_header)
    let mem := put_footer mem (sub32 new_location sizeof_footer) hole_header
    .ok (new_location, sub32 orig_hole_size (hh_size mem hole_header), { m with mem := mem })
  else do
    let h_index ← remove_sorted_array m.heap.h_index i
    .ok (orig_hole_pos, orig_hole_size, { m with heap := { m.heap with h_index := h_index } })

/-- "We may need to write a new hole after the allocated block." -/
def carve_rest (size new_size orig_hole_pos orig_hole_size : Nat) (m : Machine) : Result Machine :=
  if sub32 orig_hole_size new_size > 0 then do
    let hole_header := add32 (add32 (add32 orig_hole_pos sizeof_header) size) sizeof_footer
    let mem := put_header m.mem hole_header 1 (sub32 orig_hole_size new_size)
    let hole_footer := sub32 (sub32 (add32 hole_header orig_hole_size) new_size) sizeof_footer
    let mem := if hole_footer < m.heap.h_addr_end then put_footer mem hole_footer hole_header else mem
    -- put the new hole in the index
    let h_index ← insert_sorted_array mem m.heap.h_index hole_header
    .ok { m with mem := mem, heap := { m.heap with h_index := h_index } }
  else .ok m

/-- The second half of `alloc`: cut the block out of the hole in slot `i`. -/
def alloc_carve (size : Nat) (page_align : Bool) (i : Nat) (m : Machine) :
    Result (Nat × Machine) := do
  let new_size := add32 size (sizeof_header + sizeof_footer)
  let orig_hole_header ← lookup_sorted_array m.heap.h_index i
  let orig_hole_size := hh_size m.mem orig_hole_header
  -- is what would be left too small for a hole of its own?  then take all of it
  let absorb := decide (sub32 orig_hole_size new_size < sizeof_header + sizeof_footer)
  let size := if absorb then add32 size (sub32 orig_hole_size new_size) else size
  let new_size := if absorb then orig_hole_size else new_size
  let (pos, left, m) ← carve_front page_align i orig_hole_header orig_hole_size m
  -- overwrite the original header, and the footer
  let mem := put_header m.mem pos 0 new_size
  let mem := put_footer mem (add32 (add32 pos sizeof_header) size) pos
  let m ← carve_rest size new_size pos left { m with mem := mem }
  .ok (add32 pos sizeof_header, m)

/-- `alloc(size, page_align, kernel_heap)`.  The fuel bounds the depth of the recursion: the retry
    after growing the heap, and the calls that `expand` makes through `get_page`. -/
def alloc : Nat → AllocFn
  | 0, _, _, _ => .error .fuel
  | fuel + 1, size, page_align, m => do
      let new_size := add32 size (sizeof_header + sizeof_footer)
      let i := find_smallest_hole new_size page_align m
      if i = -1 then
        let m ← alloc_grow (alloc fuel) new_size m
        -- we now have enough space: start over
        alloc fuel size page_align m
      else alloc_carve size page_align i.toNat m

/-! ## §5. `free`. -/

/-- `while (i < sa_size && lookup_sorted_array(&heap->h_index, i) != hdr) i++;`. -/
def index_of_from (h_index : SortedArray Mem Nat) (hdr : Nat) : Nat → Nat → Nat
  | 0, i => i
  | n + 1, i =>
      if i < h_index.sa_size ∧ h_index.sa_array i ≠ hdr then index_of_from h_index hdr n (i + 1)
      else i

def index_of (h_index : SortedArray Mem Nat) (hdr : Nat) : Nat :=
  index_of_from h_index hdr h_index.sa_size 0

/-- "Unify left": the header the freed region belongs to, whether it still has to be added to the
    index, and the memory. -/
def unify_left (header footer : Nat) (mem : Mem) : Nat × Bool × Mem :=
  let test_footer := sub32 header sizeof_footer
  if hf_magic mem test_footer = VM_HEAP_FTR_MAGIC
      ∧ hh_is_hole mem (hf_header mem test_footer) = 1 then
    let cache_size := hh_size mem header
    let header := hf_header mem test_footer
    let mem := write32 mem (footer + 4) header
    (header, false, write32 mem (header + 8) (add32 (hh_size mem header) cache_size))
  else (header, true, mem)

/-- "Unify right": the footer of the freed region, and the machine. -/
def unify_right (header footer : Nat) (m : Machine) : Result (Nat × Machine) :=
  let test_header := add32 footer sizeof_footer
  if hh_magic m.mem test_header = VM_HEAP_HDR_MAGIC ∧ hh_is_hole m.mem test_header ≠ 0 then do
    let mem := write32 m.mem (header + 8)
      (add32 (hh_size m.mem header) (hh_size m.mem test_header))
    let test_footer := sub32 (add32 test_header (hh_size mem test_header)) sizeof_footer
    -- find and remove this header from the index
    let i := index_of m.heap.h_index test_header
    KASSERT "found an item while unifying right" (decide (i < m.heap.h_index.sa_size))
    let h_index ← remove_sorted_array m.heap.h_index i
    .ok (test_footer, { m with mem := mem, heap := { m.heap with h_index := h_index } })
  else .ok (footer, m)

/-- "We can contract": give the pages above the hole at `header` back, and resize the hole.
    `test_header` is what the right unification left in that variable. -/
def free_contract (header test_header : Nat) (m : Machine) : Result Machine := do
  let old_length := sub32 m.heap.h_addr_end m.heap.h_addr_start
  let (new_length, m) ← contract (sub32 header m.heap.h_addr_start) m
  -- check how big we will be after resizing
  if sub32 (hh_size m.mem header) (sub32 old_length new_length) > 0 then
    -- we will still exist, so resize us
    let mem := write32 m.mem (header + 8)
      (sub32 (hh_size m.mem header) (sub32 old_length new_length))
    let footer := sub32 (add32 header (hh_size mem header)) sizeof_footer
    .ok { m with mem := put_footer mem footer header }
  else
    -- we will no longer exist: remove us from the index
    let i := index_of m.heap.h_index test_header
    if i < m.heap.h_index.sa_size then do
      let h_index ← remove_sorted_array m.heap.h_index i
      .ok { m with heap := { m.heap with h_index := h_index } }
    else .ok m

/-- "If the footer location is the end address, we can contract." -/
def free_end (header test_header footer : Nat) (m : Machine) : Result Machine :=
  if add32 footer sizeof_footer = m.heap.h_addr_end then free_contract header test_header m else .ok m

/-- "If required, add us to the index." -/
def free_add (do_add : Bool) (header : Nat) (m : Machine) : Result Machine :=
  if do_add then do
    let h_index ← insert_sorted_array m.mem m.heap.h_index header
    .ok { m with heap := { m.heap with h_index := h_index } }
  else .ok m

/-- What `free` does to a block once it is flagged as a hole. -/
def free_hole (header footer : Nat) (m : Machine) : Result Machine :=
  let left := unify_left header footer m.mem
  do
    let right ← unify_right left.1 footer { m with mem := left.2.2 }
    let m ← free_end left.1 (add32 footer sizeof_footer) right.1 right.2
    free_add left.2.1 left.1 m

/-- The sanity checks of `free`, and "make us a hole". -/
def free_block (header : Nat) (m : Machine) : Result Machine :=
  let footer := sub32 (add32 header (hh_size m.mem header)) sizeof_footer
  do
    KASSERT "header magic match" (decide (hh_magic m.mem header = VM_HEAP_HDR_MAGIC))
    KASSERT "footer magic match" (decide (hf_magic m.mem footer = VM_HEAP_FTR_MAGIC))
    free_hole header footer { m with mem := write32 m.mem (header + 4) 1 }

/-- `free(p, kernel_heap)`. -/
def free (p : Nat) (m : Machine) : Result Machine :=
  -- exit gracefully for null pointers
  if p = 0 ∨ m.heap_ready = false then .ok m else free_block (sub32 p sizeof_header) m

/-! ## §6. `init_heap`. -/

/-- `init_heap(heap, start, end, max, su, ro)`. -/
def init_heap (start end_ max : Nat) (su ro : Int) (m : Machine) : Result Machine := do
  KASSERT "start of the heap is page aligned" (decide (start % 0x1000 = 0))
  KASSERT "end of the heap is page aligned" (decide (end_ % 0x1000 = 0))
  let h_index : SortedArray Mem Nat :=
    place_sorted_array 0 VM_HEAP_INDEX_SIZE (some vm_heap_header_cmp)
  -- shift the start address forward to where we can start putting data
  let start := following_page (add32 start (4 * VM_HEAP_INDEX_SIZE))
  -- we start off with one large hole in the index
  let hole := start
  let mem := put_header m.mem hole 1 (sub32 end_ start)
  let h_index ← insert_sorted_array mem h_index hole
  .ok { m with
    mem := mem
    heap := { h_index := h_index, h_addr_start := start, h_addr_end := end_, h_addr_max := max
              h_su := su, h_ro := ro } }

end JamesM
