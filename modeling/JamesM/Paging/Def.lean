/-
  JamesM.Paging.Def — `kmalloc.c`, and the page routines of `paging.c`.

  `_kmalloc` calls `alloc` once the heap exists, `alloc` may have to grow the heap,
  and growing it calls `get_page`, which may call `_kmalloc` again.  The routines of
  this file therefore take the `alloc` they call as an argument; `JamesM.Heap.Def`
  closes the knot.
-/
import JamesM.Machine

namespace JamesM

open JamesM.ByteMem JamesM.Word32

/-- The type of `alloc(size, page_align, kernel_heap)`. -/
abbrev AllocFn := Nat → Bool → Machine → Result (Nat × Machine)

/-! ## §1. Walking the page directory. -/

/-- `get_page(address, 0, dir)`: the address of the entry, or NULL. -/
def lookup_page (mem : Mem) (address dir : Nat) : Nat :=
  let page := address / 0x1000
  let table_idx := page / 1024
  let table := read32 mem (dir + 4 * table_idx)
  if table ≠ 0 then table + 4 * (page % 1024) else 0

/-! ## §2. `kmalloc`. -/

def M_ALIGNED : Nat := 0x1
def M_ZERO : Nat := 0x2

/-- `_kmalloc(len, phys, flags)`.  `phys` says whether the caller asked for the physical address;
    the second component is what is stored there. -/
def _kmalloc (alloc : AllocFn) (len : Nat) (phys : Bool) (flags : Nat) (m : Machine) :
    Result (Nat × Option Nat × Machine) := do
  let (addr, phys, m) ←
    if m.heap_ready = false then
      let placement :=
        if flags &&& M_ALIGNED ≠ 0 ∧ m.placement_address &&& 0xFFFFF000 ≠ 0 then
          -- the address is not already aligned
          add32 (m.placement_address &&& 0xFFFFF000) 0x1000
        else m.placement_address
      let phys := if phys then some placement else none
      let placement := add32 placement len
      (.ok (sub32 placement len, phys, { m with placement_address := placement }) :
        Result (Nat × Option Nat × Machine))
    else do
      let (addr, m) ← alloc len (decide (flags &&& M_ALIGNED ≠ 0)) m
      let page := lookup_page m.mem addr m.kernel_directory
      let phys :=
        if phys then some (add32 (mul32 (read_page m.mem page).p_frame 0x1000) (addr &&& 0xFFF))
        else none
      .ok (addr, phys, m)
  if flags &&& M_ZERO ≠ 0 then
    .ok (addr, phys, { m with mem := bzero m.mem addr len })
  else .ok (addr, phys, m)

/-- The eight entry points. -/
def kmalloc (alloc : AllocFn) (len : Nat) := _kmalloc alloc len false 0
def kmalloc0 (alloc : AllocFn) (len : Nat) := _kmalloc alloc len false M_ZERO
def kmalloc_a (alloc : AllocFn) (len : Nat) := _kmalloc alloc len false M_ALIGNED
def kmalloc0_a (alloc : AllocFn) (len : Nat) := _kmalloc alloc len false (M_ALIGNED ||| M_ZERO)
def kmalloc_p (alloc : AllocFn) (len : Nat) := _kmalloc alloc len true 0
def kmalloc0_p (alloc : AllocFn) (len : Nat) := _kmalloc alloc len true M_ZERO
def kmalloc_ap (alloc : AllocFn) (len : Nat) := _kmalloc alloc len true M_ALIGNED
def kmalloc0_ap (alloc : AllocFn) (len : Nat) := _kmalloc alloc len true (M_ALIGNED ||| M_ZERO)

/-! ## §3. Pages and frames. -/

/-- `get_page(address, create, dir)`. -/
def get_page (alloc : AllocFn) (address : Nat) (create : Bool) (dir : Nat) (m : Machine) :
    Result (Nat × Machine) :=
  let page := address / 0x1000
  let table_idx := page / 1024
  if read32 m.mem (dir + 4 * table_idx) ≠ 0 then .ok (lookup_page m.mem address dir, m)
  else if create then do
    let (table, tmp, m) ← kmalloc0_ap alloc sizeof_page_table m
    let mem := write32 m.mem (dir + 4 * table_idx) table
    -- PRESENT, RW, US
    let mem := write32 mem (dir + 4096 + 4 * table_idx) (tmp.getD 0 ||| 0x7)
    .ok (table + 4 * (page % 1024), { m with mem := mem })
  else .ok (0, m)

/-- `alloc_frame(p, is_kernel, is_writeable)`. -/
def alloc_frame (p : Nat) (is_kernel is_writeable : Int) (m : Machine) : Result Machine :=
  let pg := read_page m.mem p
  if pg.p_frame ≠ 0 then
    -- frame was already allocated, return straight away
    .ok m
  else
    let idx := first_frame m.frames m.nframes
    if idx = 0xFFFFFFFF then .error (.panic "No free frame.")
    else
      .ok { m with
        frames := set_frame m.frames (mul32 idx 0x1000)
        mem := write_page m.mem p
          { pg with p_present := 1, p_frame := idx
                    p_rw := if is_writeable ≠ 0 then 1 else 0
                    p_user := if is_kernel ≠ 0 then 0 else 1 } }

/-- `free_frame(p)`.  The argument of `clear_frame` is the frame number `p->p_frame`. -/
def free_frame (p : Nat) (m : Machine) : Machine :=
  let pg := read_page m.mem p
  if pg.p_frame = 0 then m
  else
    { m with
      frames := clear_frame m.frames pg.p_frame
      mem := write_page m.mem p { pg with p_frame := 0 } }

end JamesM
