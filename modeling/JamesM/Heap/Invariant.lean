/-
  JamesM.Heap.Invariant — what is true of the heap between two calls.

  `HeapInv regs m`: the regions `regs` fill the heap of `m`, their headers (and the
  footers of the blocks) are in memory, and the index lists exactly the holes.

  `PagingInv regs live m`: the page directory and the page tables are out of the
  heap's way.  Growing the heap can put page tables INTO the heap, in blocks of
  their own; these are blocks no client knows.

  `Kernel regs live m` joins them with the blocks the clients hold.
-/
import JamesM.Heap.Index
import JamesM.Paging.Walk

namespace JamesM

open JamesM.ByteMem JamesM.Word32 JamesM.Lib

/-! ## §1. The heap. -/

/-- The bounds of a heap: page aligned, never shorter than `VM_HEAP_MIN_SIZE`, and small enough for
    every size to be a positive `int`. -/
structure Bounds (h : VmHeap) : Prop where
  low : 0x1000 ≤ h.h_addr_start
  start_aligned : h.h_addr_start % 0x1000 = 0
  end_aligned : h.h_addr_end % 0x1000 = 0
  min : h.h_addr_start + VM_HEAP_MIN_SIZE ≤ h.h_addr_end
  max : h.h_addr_end ≤ h.h_addr_max
  high : h.h_addr_max < 4294967296
  span : h.h_addr_max ≤ h.h_addr_start + 0x10000000

/-- What the arithmetic of growing needs of the bounds. -/
structure PageSpan (h : VmHeap) : Prop where
  start_aligned : h.h_addr_start % 0x1000 = 0
  end_aligned : h.h_addr_end % 0x1000 = 0
  nonempty : h.h_addr_start < h.h_addr_end
  max : h.h_addr_end ≤ h.h_addr_max
  high : h.h_addr_max < 4294967296

theorem Bounds.pageSpan {h : VmHeap} (b : Bounds h) : PageSpan h := by
  obtain ⟨-, b2, b3, b4, b5, b6, -⟩ := b
  have hmin : VM_HEAP_MIN_SIZE = 0x70000 := rfl
  exact ⟨b2, b3, by omega, b5, b6⟩

theorem PageSpan.length_eq {h : VmHeap} (b : PageSpan h) :
    sub32 h.h_addr_end h.h_addr_start = h.h_addr_end - h.h_addr_start := by
  obtain ⟨-, -, b3, b4, b5⟩ := b
  exact sub32_of_le (by omega) (by omega)

theorem Bounds.length_eq {h : VmHeap} (b : Bounds h) :
    sub32 h.h_addr_end h.h_addr_start = h.h_addr_end - h.h_addr_start :=
  b.pageSpan.length_eq

/-- The header chain: the regions fill the heap, memory holds their headers, and the index lists the
    holes. -/
structure Chain (regs : List Region) (m : Machine) : Prop where
  tiled : Tiled m.heap.h_addr_start regs m.heap.h_addr_end
  size : ∀ r ∈ regs, 20 ≤ r.size
  head : ∀ r ∈ regs, HdrAt m.mem r
  index : m.heap.h_index.entries.Perm (holes regs)
  cmp : m.heap.h_index.sa_cmp = some vm_heap_header_cmp

namespace Chain

variable {regs : List Region} {m : Machine}

/-- A region lies inside the heap. -/
theorem region_bounds (c : Chain regs m) {r : Region} (hr : r ∈ regs) :
    m.heap.h_addr_start ≤ r.addr ∧ r.addr + r.size ≤ m.heap.h_addr_end ∧ 20 ≤ r.size := by
  obtain ⟨h1, h2⟩ := c.tiled.bounds r hr
  exact ⟨h1, h2, c.size r hr⟩

theorem size_pos (c : Chain regs m) : ∀ r ∈ regs, 0 < r.size := fun r hr => by
  have := c.size r hr
  omega

/-- The headers in the index are the holes. -/
theorem mem_index (c : Chain regs m) {a : Nat} :
    a ∈ m.heap.h_index.entries ↔ ∃ r ∈ regs, r.hole = true ∧ r.addr = a := by
  rw [c.index.mem_iff, mem_holes]

/-- No header is in the index twice. -/
theorem entries_nodup (c : Chain regs m) : m.heap.h_index.entries.Nodup := by
  apply c.index.nodup_iff.mpr
  unfold holes
  refine List.pairwise_map.mpr (List.Pairwise.filter _ ?_)
  refine c.tiled.sorted.imp_of_mem fun {r s} hr _ h heq => ?_
  have := c.size_pos r hr
  omega

/-- The hole in a slot of the index. -/
theorem slot (c : Chain regs m) {i : Nat} (hi : i < m.heap.h_index.sa_size) :
    ∃ pre g post, regs = pre ++ g :: post ∧ g.hole = true ∧ g.addr = m.heap.h_index.sa_array i := by
  have hmem : m.heap.h_index.sa_array i ∈ m.heap.h_index.entries :=
    SortedArray.mem_entries.mpr ⟨i, hi, rfl⟩
  obtain ⟨g, hg, hhole, haddr⟩ := c.mem_index.mp hmem
  obtain ⟨pre, post, rfl⟩ := exists_cut hg
  exact ⟨pre, g, post, rfl, hhole, haddr⟩

/-- Two regions of the heap are one, or they are apart. -/
theorem apart (c : Chain regs m) {r s : Region} (hr : r ∈ regs) (hs : s ∈ regs) :
    r = s ∨ r.addr + r.size ≤ s.addr ∨ s.addr + s.size ≤ r.addr :=
  c.tiled.apart hr hs

theorem eq_of_addr (c : Chain regs m) {r s : Region} (hr : r ∈ regs) (hs : s ∈ regs)
    (h : r.addr = s.addr) : r = s :=
  c.tiled.eq_of_addr hr hs (c.size_pos r hr) (c.size_pos s hs) h

/-- Two rows of regions with headers in memory, over the same addresses, are one. -/
theorem regions_unique {mem : Mem} {e : Nat} {l : List Region} : ∀ {a : Nat} {l' : List Region},
    Tiled a l e → Tiled a l' e → (∀ r ∈ l, 0 < r.size) → (∀ r ∈ l', 0 < r.size) →
    (∀ r ∈ l, HdrAt mem r) → (∀ r ∈ l', HdrAt mem r) → l = l' := by
  induction l with
  | nil =>
      intro a l' h h' _ hpos' _ _
      cases l' with
      | nil => rfl
      | cons y l' =>
          have h1 := hpos' y List.mem_cons_self
          have h2 := h'.2.le
          have h3 : a = e := h
          omega
  | cons x l ih =>
      intro a l' h h' hpos hpos' hd hd'
      cases l' with
      | nil =>
          have h1 := hpos x List.mem_cons_self
          have h2 := h.2.le
          have h3 : a = e := h'
          omega
      | cons y l' =>
          have haddr : x.addr = y.addr := h.1.trans h'.1.symm
          have hx := hd x List.mem_cons_self
          have hy := hd' y List.mem_cons_self
          have hsize : x.size = y.size := by
            rw [← hx.size, ← hy.size, haddr]
          have hflag : x.flag = y.flag := by
            rw [← hx.flag, ← hy.flag, haddr]
          have hhole : x.hole = y.hole := by
            unfold Region.flag at hflag
            cases hxh : x.hole <;> cases hyh : y.hole <;> simp [hxh, hyh] at hflag ⊢
          have hxy : x = y := by
            cases x
            cases y
            simp only at haddr hsize hhole
            rw [haddr, hsize, hhole]
          subst hxy
          rw [ih h.2 h'.2 (fun r hr => hpos r (List.mem_cons_of_mem _ hr))
            (fun r hr => hpos' r (List.mem_cons_of_mem _ hr)) (fun r hr => hd r (List.mem_cons_of_mem _ hr))
            fun r hr => hd' r (List.mem_cons_of_mem _ hr)]

/-- The header chain of a machine is one. -/
theorem unique {regs' : List Region} (c : Chain regs m) (c' : Chain regs' m) : regs = regs' :=
  regions_unique c.tiled c'.tiled c.size_pos c'.size_pos c.head c'.head

/-- **Splicing.**  A row of regions takes the place of one region; memory changed inside it only. -/
theorem splice {pre post mids : List Region} {g : Region} {m' : Machine}
    (c : Chain (pre ++ g :: post) m) (hstart : m'.heap.h_addr_start = m.heap.h_addr_start)
    (hend : m'.heap.h_addr_end = m.heap.h_addr_end)
    (hmids : Tiled g.addr mids (g.addr + g.size)) (hsize : ∀ r ∈ mids, 20 ≤ r.size)
    (hhead : ∀ r ∈ mids, HdrAt m'.mem r)
    (hmem : EqOutside g.addr (g.addr + g.size) m.mem m'.mem)
    (hindex : m'.heap.h_index.entries.Perm (holes (pre ++ mids ++ post)))
    (hcmp : m'.heap.h_index.sa_cmp = some vm_heap_header_cmp) :
    Chain (pre ++ mids ++ post) m' := by
  obtain ⟨hbefore, hafter⟩ := c.tiled.around
  have hcases : ∀ r ∈ pre ++ mids ++ post, r ∈ mids
      ∨ (r ∈ pre ++ g :: post ∧ (r.addr + r.size ≤ g.addr ∨ g.addr + g.size ≤ r.addr)) := by
    intro r hr
    simp only [List.mem_append] at hr
    rcases hr with (hr | hr) | hr
    · exact .inr ⟨by simp [hr], .inl (hbefore r hr)⟩
    · exact .inl hr
    · exact .inr ⟨by simp [hr], .inr (hafter r hr)⟩
  refine ⟨?_, fun r hr => ?_, fun r hr => ?_, hindex, hcmp⟩
  · rw [hstart, hend]
    exact c.tiled.splice hmids
  · rcases hcases r hr with hr | ⟨hr, -⟩
    · exact hsize r hr
    · exact c.size r hr
  · rcases hcases r hr with hr | ⟨hr, hoff⟩
    · exact hhead r hr
    · have := c.size r hr
      exact (c.head r hr).of_eqOutside hmem (by omega)

end Chain

/-- The regions fill the heap, memory holds them, and the index lists the holes. -/
structure HeapInv (regs : List Region) (m : Machine) : Prop where
  bounds : Bounds m.heap
  tiled : Tiled m.heap.h_addr_start regs m.heap.h_addr_end
  size : ∀ r ∈ regs, 20 ≤ r.size
  head : ∀ r ∈ regs, HdrAt m.mem r
  foot : ∀ r ∈ regs, r.hole = false → FtrAt m.mem r
  index : m.heap.h_index.entries.Perm (holes regs)
  cmp : m.heap.h_index.sa_cmp = some vm_heap_header_cmp

namespace HeapInv

variable {regs : List Region} {m : Machine}

theorem toChain (inv : HeapInv regs m) : Chain regs m :=
  ⟨inv.tiled, inv.size, inv.head, inv.index, inv.cmp⟩

theorem region_bounds (inv : HeapInv regs m) {r : Region} (hr : r ∈ regs) :
    m.heap.h_addr_start ≤ r.addr ∧ r.addr + r.size ≤ m.heap.h_addr_end ∧ 20 ≤ r.size :=
  inv.toChain.region_bounds hr

theorem size_pos (inv : HeapInv regs m) : ∀ r ∈ regs, 0 < r.size := inv.toChain.size_pos

theorem mem_index (inv : HeapInv regs m) {a : Nat} :
    a ∈ m.heap.h_index.entries ↔ ∃ r ∈ regs, r.hole = true ∧ r.addr = a := inv.toChain.mem_index

theorem entries_nodup (inv : HeapInv regs m) : m.heap.h_index.entries.Nodup := inv.toChain.entries_nodup

theorem slot (inv : HeapInv regs m) {i : Nat} (hi : i < m.heap.h_index.sa_size) :
    ∃ pre g post, regs = pre ++ g :: post ∧ g.hole = true ∧ g.addr = m.heap.h_index.sa_array i :=
  inv.toChain.slot hi

theorem apart (inv : HeapInv regs m) {r s : Region} (hr : r ∈ regs) (hs : s ∈ regs) :
    r = s ∨ r.addr + r.size ≤ s.addr ∨ s.addr + s.size ≤ r.addr :=
  inv.tiled.apart hr hs

theorem eq_of_addr (inv : HeapInv regs m) {r s : Region} (hr : r ∈ regs) (hs : s ∈ regs)
    (h : r.addr = s.addr) : r = s :=
  inv.toChain.eq_of_addr hr hs h

/-- The index is far from full. -/
theorem sa_size_lt (inv : HeapInv regs m) : m.heap.h_index.sa_size < 0x1000000 := by
  have h1 := inv.index.length_eq
  have h2 : (holes regs).length ≤ regs.length := by
    unfold holes
    rw [List.length_map]
    exact List.length_filter_le _ _
  have h3 := inv.tiled.length_le inv.size
  have h4 := inv.bounds.span
  have h5 := inv.bounds.max
  rw [SortedArray.length_entries] at h1
  omega

/-- A change of memory that keeps every header and the footers of the blocks keeps the invariant. -/
theorem of_agree (inv : HeapInv regs m) {m' : Machine} (hheap : m'.heap = m.heap)
    (hhead : ∀ r ∈ regs, ∀ x, r.addr ≤ x → x < r.addr + 12 → m'.mem x = m.mem x)
    (hfoot : ∀ r ∈ regs, r.hole = false → ∀ x, r.addr + r.size - 8 ≤ x → x < r.addr + r.size →
      m'.mem x = m.mem x) : HeapInv regs m' := by
  refine ⟨by rw [hheap]; exact inv.bounds, by rw [hheap]; exact inv.tiled, inv.size,
    fun r hr => (inv.head r hr).congr (hhead r hr), fun r hr hb => ?_, by rw [hheap]; exact inv.index,
    by rw [hheap]; exact inv.cmp⟩
  exact (inv.foot r hr hb).congr (inv.size r hr) (hfoot r hr hb)

/-- **Rebuilding.**  Regions that are still there keep their headers and footers; the new ones bring
    theirs. -/
theorem rebuild {regs' : List Region} {m' : Machine} (inv : HeapInv regs m) (hbounds : Bounds m'.heap)
    (htiled : Tiled m'.heap.h_addr_start regs' m'.heap.h_addr_end)
    (hregs : ∀ r ∈ regs', (r ∈ regs ∧ ∀ x, r.addr ≤ x → x < r.addr + r.size → m'.mem x = m.mem x)
      ∨ (20 ≤ r.size ∧ HdrAt m'.mem r ∧ (r.hole = false → FtrAt m'.mem r)))
    (hindex : m'.heap.h_index.entries.Perm (holes regs'))
    (hcmp : m'.heap.h_index.sa_cmp = some vm_heap_header_cmp) : HeapInv regs' m' := by
  refine ⟨hbounds, htiled, fun r hr => ?_, fun r hr => ?_, fun r hr hb => ?_, hindex, hcmp⟩
  · rcases hregs r hr with ⟨h, -⟩ | ⟨h, -⟩
    · exact inv.size r h
    · exact h
  · rcases hregs r hr with ⟨h, hmem⟩ | ⟨-, h, -⟩
    · have := inv.size r h
      exact (inv.head r h).congr fun x h1 h2 => hmem x h1 (by omega)
    · exact h
  · rcases hregs r hr with ⟨h, hmem⟩ | ⟨-, -, h⟩
    · have := inv.size r h
      exact (inv.foot r h hb).congr this fun x h1 h2 => hmem x (by omega) h2
    · exact h hb

/-- The footers after a splice. -/
theorem of_splice {pre post mids : List Region} {g : Region} {m' : Machine}
    (inv : HeapInv (pre ++ g :: post) m) (c : Chain (pre ++ mids ++ post) m')
    (hstart : m'.heap.h_addr_start = m.heap.h_addr_start)
    (hend : m'.heap.h_addr_end = m.heap.h_addr_end) (hmax : m'.heap.h_addr_max = m.heap.h_addr_max)
    (hfoot : ∀ r ∈ mids, r.hole = false → FtrAt m'.mem r)
    (hmem : EqOutside g.addr (g.addr + g.size) m.mem m'.mem) : HeapInv (pre ++ mids ++ post) m' := by
  obtain ⟨hbefore, hafter⟩ := inv.tiled.around
  refine ⟨?_, c.tiled, c.size, c.head, fun r hr hb => ?_, c.index, c.cmp⟩
  · obtain ⟨b1, b2, b3, b4, b5, b6, b7⟩ := inv.bounds
    exact ⟨by omega, by omega, by omega, by omega, by omega, by omega, by omega⟩
  · simp only [List.mem_append] at hr
    rcases hr with (hr | hr) | hr
    · have hs := inv.size r (by simp [hr])
      exact (inv.foot r (by simp [hr]) hb).of_eqOutside hs hmem (.inl (hbefore r hr))
    · exact hfoot r hr hb
    · have hs := inv.size r (by simp [hr])
      have := hafter r hr
      exact (inv.foot r (by simp [hr]) hb).of_eqOutside hs hmem (.inr (by omega))

end HeapInv

/-! ## §2. The page tables. -/

/-- A page table is outside the heap's address range, or in the payload of a block that no client
    holds. -/
def TablePlace (regs : List Region) (live : List Nat) (h : VmHeap) (T : Nat) : Prop :=
  T + 4096 ≤ h.h_addr_start ∨ h.h_addr_max ≤ T
    ∨ ∃ r ∈ regs, r.hole = false ∧ r.addr + 12 ≤ T ∧ T + 4096 + 8 ≤ r.addr + r.size
      ∧ r.addr + 12 ∉ live

/-- The directory and the tables keep out of the heap's way, and the pages of the heap have tables. -/
structure PagingInv (regs : List Region) (live : List Nat) (m : Machine) : Prop where
  ready : m.heap_ready = true
  nframes : m.nframes ≤ 1048576
  dir_off : m.kernel_directory + 8196 ≤ m.heap.h_addr_start ∨ m.heap.h_addr_max ≤ m.kernel_directory
  tables : Tables m.kernel_directory m.mem
  place : ∀ t, t < 1024 → pd_table m.mem m.kernel_directory t ≠ 0 →
    TablePlace regs live m.heap (pd_table m.mem m.kernel_directory t)
  mapped : ∀ q, m.heap.h_addr_start / 0x1000 ≤ q → q < m.heap.h_addr_end / 0x1000 →
    pd_table m.mem m.kernel_directory (q / 1024) ≠ 0

namespace PagingInv

variable {regs regs' : List Region} {live live' : List Nat} {m m' : Machine}

/-- What happens to the regions and in memory off the directory does not matter to the tables, as long
    as their blocks stay blocks that no client holds. -/
theorem of_blocks (pg : PagingInv regs live m) (hready : m'.heap_ready = m.heap_ready)
    (hnf : m'.nframes = m.nframes) (hdir : m'.kernel_directory = m.kernel_directory)
    (hstart : m'.heap.h_addr_start = m.heap.h_addr_start)
    (hmax : m'.heap.h_addr_max = m.heap.h_addr_max) (hhigh : m'.heap.h_addr_end < 4294967296)
    (hmapped : ∀ q, m.heap.h_addr_start / 0x1000 ≤ q → q < m'.heap.h_addr_end / 0x1000 →
      pd_table m.mem m.kernel_directory (q / 1024) ≠ 0)
    (hmem : ∀ t, t < 1024 → pd_table m'.mem m.kernel_directory t = pd_table m.mem m.kernel_directory t)
    (hblocks : ∀ r ∈ regs, r.hole = false → r.addr + 12 ∉ live → r ∈ regs' ∧ r.addr + 12 ∉ live') :
    PagingInv regs' live' m' := by
  refine ⟨by rw [hready]; exact pg.ready, by rw [hnf]; exact pg.nframes,
    by rw [hdir, hstart, hmax]; exact pg.dir_off, by rw [hdir]; exact pg.tables.congr hmem,
    fun t ht hne => ?_, fun q h1 h2 => ?_⟩
  · rw [hdir, hmem t ht] at hne ⊢
    unfold TablePlace
    rw [hstart, hmax]
    rcases pg.place t ht hne with h | h | ⟨r, hr, h1, h2, h3, h4⟩
    · exact .inl h
    · exact .inr (.inl h)
    · obtain ⟨h5, h6⟩ := hblocks r hr h1 h4
      exact .inr (.inr ⟨r, h5, h1, h2, h3, h6⟩)
  · rw [hstart] at h1
    rw [hdir, hmem _ (by omega)]
    exact hmapped q h1 h2

end PagingInv

/-! ## §3. The kernel between two calls. -/

/-- The heap, the page tables, and the blocks the clients hold: pointer and requested size. -/
structure Kernel (regs : List Region) (live : List (Nat × Nat)) (m : Machine) : Prop where
  heap : HeapInv regs m
  paging : PagingInv regs (live.map Prod.fst) m
  block : ∀ l ∈ live, ∃ r ∈ regs, r.hole = false ∧ r.addr + 12 = l.1 ∧ l.2 + 20 ≤ r.size
  nodup : (live.map Prod.fst).Nodup

/-- **Isolation.**  The blocks the clients hold are pairwise disjoint, headers and footers included, and
    inside the heap. -/
theorem Kernel.isolated {regs : List Region} {live : List (Nat × Nat)} {m : Machine}
    (k : Kernel regs live m) :
    live.Pairwise (fun a b => a.1 + a.2 + 8 ≤ b.1 - 12 ∨ b.1 + b.2 + 8 ≤ a.1 - 12)
      ∧ ∀ a ∈ live, m.heap.h_addr_start + 12 ≤ a.1 ∧ a.1 + a.2 + 8 ≤ m.heap.h_addr_end := by
  refine ⟨?_, fun a ha => ?_⟩
  · refine (List.pairwise_map.mp k.nodup).imp_of_mem fun {a b} ha hb hne => ?_
    obtain ⟨r, hr, -, hra, hrs⟩ := k.block a ha
    obtain ⟨s, hs, -, hsa, hss⟩ := k.block b hb
    rcases k.heap.apart hr hs with h | h | h
    · subst h
      exact absurd (hra.symm.trans hsa) hne
    · omega
    · omega
  · obtain ⟨r, hr, -, hra, hrs⟩ := k.block a ha
    have := k.heap.region_bounds hr
    omega

/-- The page table at `T` is in the payload of a block of the heap. -/
def InBlock (regs : List Region) (T : Nat) : Prop :=
  ∃ r ∈ regs, r.hole = false ∧ r.addr + 12 ≤ T ∧ T + 4096 + 8 ≤ r.addr + r.size

/-- What every call does to the blocks of the clients and to the page tables that exist: nothing.  New
    tables are in blocks of the heap. -/
structure Preserves (regs regs' : List Region) (live : List (Nat × Nat)) (m m' : Machine) : Prop where
  start : m'.heap.h_addr_start = m.heap.h_addr_start
  max : m'.heap.h_addr_max = m.heap.h_addr_max
  directory : m'.kernel_directory = m.kernel_directory
  tables : ∀ t, t < 1024 → pd_table m.mem m.kernel_directory t ≠ 0 →
    pd_table m'.mem m.kernel_directory t = pd_table m.mem m.kernel_directory t
  made : ∀ t, t < 1024 → pd_table m.mem m.kernel_directory t = 0 →
    pd_table m'.mem m.kernel_directory t ≠ 0 → InBlock regs' (pd_table m'.mem m.kernel_directory t)
  blocks : ∀ r ∈ regs, r.hole = false → r ∈ regs'
  payload : ∀ l ∈ live, ∀ x, l.1 ≤ x → x < l.1 + l.2 → m'.mem x = m.mem x

theorem Preserves.refl (regs : List Region) (live : List (Nat × Nat)) (m : Machine) :
    Preserves regs regs live m m :=
  ⟨rfl, rfl, rfl, fun _ _ _ => rfl, fun _ _ h h' => absurd h h', fun _ h _ => h, fun _ _ _ _ _ => rfl⟩

theorem Preserves.trans {regs regs' regs'' : List Region} {live : List (Nat × Nat)} {m m' m'' : Machine}
    (h : Preserves regs regs' live m m') (h' : Preserves regs' regs'' live m' m'') :
    Preserves regs regs'' live m m'' := by
  refine ⟨h'.start.trans h.start, h'.max.trans h.max, h'.directory.trans h.directory, fun t ht hne => ?_,
    fun t ht hz hne => ?_, fun r hr hb => h'.blocks r (h.blocks r hr hb) hb,
    fun l hl x h1 h2 => (h'.payload l hl x h1 h2).trans (h.payload l hl x h1 h2)⟩
  · have h1 := h.tables t ht hne
    have h2 := h'.tables t ht
    rw [h.directory, h1] at h2
    exact h2 hne
  · have h2 := h'.tables t ht
    have h3 := h'.made t ht
    rw [h.directory] at h2 h3
    by_cases hmid : pd_table m'.mem m.kernel_directory t = 0
    · exact h3 hmid hne
    · obtain ⟨r, hr, hrb, hlo, hhi⟩ := h.made t ht hz hmid
      rw [h2 hmid]
      exact ⟨r, h'.blocks r hr hrb, hrb, hlo, hhi⟩

/-- A page table touches no header, no footer and no block of a client. -/
theorem HeapInv.table_apart {regs : List Region} {live : List Nat} {m : Machine} (inv : HeapInv regs m)
    {T : Nat} (tp : TablePlace regs live m.heap T) {r : Region} (hr : r ∈ regs) :
    (r.addr + 12 ≤ T ∨ T + 4096 ≤ r.addr) ∧ (r.addr + r.size ≤ T ∨ T + 4096 ≤ r.addr + r.size - 8)
      ∧ (r.hole = true ∨ r.addr + 12 ∈ live → r.addr + r.size ≤ T ∨ T + 4096 ≤ r.addr) := by
  obtain ⟨h1, h2, h3⟩ := inv.region_bounds hr
  have hmax := inv.bounds.max
  rcases tp with h | h | ⟨s, hs, hb, h4, h5, hfree⟩
  · exact ⟨by omega, by omega, fun _ => by omega⟩
  · exact ⟨by omega, by omega, fun _ => by omega⟩
  · rcases inv.apart hr hs with h | h | h
    · subst h
      refine ⟨by omega, by omega, fun hor => ?_⟩
      rcases hor with hh | hl
      · rw [hb] at hh; exact absurd hh (by decide)
      · exact absurd hl hfree
    · exact ⟨by omega, by omega, fun _ => by omega⟩
    · exact ⟨by omega, by omega, fun _ => by omega⟩

/-- The last 8 bytes of every region are the same, and so is all of every hole. -/
def SameFooters (regs : List Region) (mem mem' : Mem) : Prop :=
  ∀ r ∈ regs, ∀ x, r.addr ≤ x → x < r.addr + r.size → r.hole = true ∨ r.addr + r.size - 8 ≤ x → mem' x = mem x

theorem SameFooters.refl (regs : List Region) (mem : Mem) : SameFooters regs mem mem :=
  fun _ _ _ _ _ _ => rfl

theorem SameFooters.trans {regs : List Region} {mem mem' mem'' : Mem} (h : SameFooters regs mem mem')
    (h' : SameFooters regs mem' mem'') : SameFooters regs mem mem'' :=
  fun r hr x h1 h2 h3 => (h' r hr x h1 h2 h3).trans (h r hr x h1 h2 h3)

/-- A store inside a page table is nothing to the kernel's heap. -/
theorem Kernel.store_table {regs : List Region} {live : List (Nat × Nat)} {m m' : Machine} {T : Nat}
    (k : Kernel regs live m) (tp : TablePlace regs (live.map Prod.fst) m.heap T)
    (hmem : EqOutside T (T + 4096) m.mem m'.mem)
    (htab : ∀ t, t < 1024 → pd_table m'.mem m.kernel_directory t = pd_table m.mem m.kernel_directory t)
    (hheap : m'.heap = m.heap) (hready : m'.heap_ready = m.heap_ready) (hnf : m'.nframes = m.nframes)
    (hdir : m'.kernel_directory = m.kernel_directory) :
    Kernel regs live m' ∧ Preserves regs regs live m m' ∧ SameFooters regs m.mem m'.mem := by
  have hhigh := k.heap.bounds.high
  have hmax := k.heap.bounds.max
  have hfoot : SameFooters regs m.mem m'.mem := by
    intro r hr x h1 h2 h3
    obtain ⟨-, hlast, hall⟩ := k.heap.table_apart tp hr
    rcases h3 with h3 | h3
    · have := hall (.inl h3)
      exact hmem x (by omega)
    · exact hmem x (by omega)
  refine ⟨⟨?_, ?_, k.block, k.nodup⟩, ⟨by rw [hheap], by rw [hheap], hdir, fun t ht _ => htab t ht,
    fun t ht hz hne => absurd ((htab t ht).trans hz) hne, fun _ h _ => h, fun l hl x h1 h2 => ?_⟩, hfoot⟩
  · refine k.heap.of_agree hheap (fun r hr x h1 h2 => ?_) fun r hr _ x h1 h2 => by
      have := k.heap.size r hr
      exact hfoot r hr x (by omega) h2 (.inr h1)
    have := (k.heap.table_apart tp hr).1
    exact hmem x (by omega)
  · exact k.paging.of_blocks hready hnf hdir (by rw [hheap]) (by rw [hheap]) (by rw [hheap]; omega)
      (by rw [hheap]; exact k.paging.mapped) htab fun r hr _ hl => ⟨hr, hl⟩
  · obtain ⟨r, hr, -, hra, hrs⟩ := k.block l hl
    have hin : r.addr + 12 ∈ live.map Prod.fst := by rw [hra]; exact List.mem_map_of_mem hl
    have := (k.heap.table_apart tp hr).2.2 (.inr hin)
    exact hmem x (by omega)

/-- A store to a page entry. -/
theorem Kernel.store_entry {regs : List Region} {live : List (Nat × Nat)} {m : Machine} {p w : Nat}
    (k : Kernel regs live m) (m' : Machine) (hp : IsEntry m.kernel_directory m.mem p)
    (hmem : m'.mem = write32 m.mem p w)
    (hheap : m'.heap = m.heap) (hready : m'.heap_ready = m.heap_ready) (hnf : m'.nframes = m.nframes)
    (hdir : m'.kernel_directory = m.kernel_directory) :
    Kernel regs live m' ∧ Preserves regs regs live m m' ∧ SameFooters regs m.mem m'.mem
      ∧ ∀ t, t < 1024 → pd_table m'.mem m.kernel_directory t = pd_table m.mem m.kernel_directory t := by
  have htab : ∀ t, t < 1024 →
      pd_table m'.mem m.kernel_directory t = pd_table m.mem m.kernel_directory t := by
    rw [hmem]
    exact (k.paging.tables.store_frame hp w).1
  obtain ⟨t, j, ht, hj, hne, rfl⟩ := hp
  have hout : EqOutside (pd_table m.mem m.kernel_directory t) (pd_table m.mem m.kernel_directory t + 4096)
      m.mem m'.mem := by
    rw [hmem]
    exact (EqOutside.refl _ _ _).write32 _ (by omega) (by omega)
  obtain ⟨h1, h2, h3⟩ := k.store_table (k.paging.place t ht hne) hout htab hheap hready hnf hdir
  exact ⟨h1, h2, h3, htab⟩

end JamesM
