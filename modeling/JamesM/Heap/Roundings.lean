/-
  JamesM.Heap.Roundings — the four roundings to a page boundary.

  An aligned placement, `init_heap`, `expand` and `contract` each round an address or
  a length up to a page boundary, each with a bit mask of its own.  The first three
  test whether the value has a page number, not whether it is aligned, so they move
  an aligned value to the next boundary and leave a value in the first page as it
  is.  `contract` keeps bit 12 only.

  Main result: `roundings_to_the_least_boundary`.
-/
import JamesM.Heap.Isolation

namespace JamesM

open JamesM.ByteMem JamesM.Word32

/-! ## §1. The least page boundary. -/

/-- The page boundaries at or above `x`. -/
def pageBounds (x : Nat) : Set Nat := {b | 0x1000 ∣ b ∧ x ≤ b}

/-- The least one. -/
def pageCeil (x : Nat) : Nat := 0x1000 * ((x + 0xFFF) / 0x1000)

theorem isLeast_pageCeil (x : Nat) : IsLeast (pageBounds x) (pageCeil x) := by
  constructor
  · exact ⟨⟨_, rfl⟩, by
      unfold pageCeil
      omega⟩
  · rintro b ⟨⟨q, rfl⟩, hb⟩
    unfold pageCeil
    omega

theorem isLeast_pageBounds {x r : Nat} : IsLeast (pageBounds x) r ↔ r = pageCeil x :=
  ⟨fun h => h.unique (isLeast_pageCeil x), fun h => h ▸ isLeast_pageCeil x⟩

/-! ## §2. The masks. -/

/-- `x` is not aligned, and not in the first page; or it is zero. -/
def Roundable (x : Nat) : Prop := x = 0 ∨ (0x1000 ≤ x ∧ x % 0x1000 ≠ 0)

instance (x : Nat) : Decidable (Roundable x) := inferInstanceAs (Decidable (_ ∨ _))

/-- The mask of `init_heap` and `expand`. -/
theorem following_page_eq_ceil {x : Nat} (h : pageCeil x < 4294967296) :
    following_page x = pageCeil x ↔ Roundable x := by
  unfold pageCeil at h ⊢
  unfold following_page Roundable
  rw [land_page (by omega)]
  by_cases hx : 4096 * (x / 4096) ≠ 0
  · rw [if_pos hx]
    unfold add32
    omega
  · rw [if_neg hx]
    omega

/-- The mask of `_kmalloc` is the same one. -/
theorem placement_mask (x : Nat) :
    (if x &&& 0xFFFFF000 ≠ 0 then add32 (x &&& 0xFFFFF000) 0x1000 else x) = following_page x := rfl

/-- The lengths that `contract` rounds as it should. -/
def Contractible (x : Nat) : Prop := x ≤ VM_HEAP_MIN_SIZE ∨ (x % 0x1000 = 0 ∧ x / 0x1000 % 2 = 0)

instance (x : Nat) : Decidable (Contractible x) := inferInstanceAs (Decidable (_ ∨ _))

theorem contract_size_eq_ceil (x : Nat) :
    contract_size x = pageCeil (max x VM_HEAP_MIN_SIZE) ↔ Contractible x := by
  have hmin : VM_HEAP_MIN_SIZE = 0x70000 := rfl
  unfold contract_size pageCeil Contractible
  rw [land_bit12, hmin]
  by_cases hbit : 4096 * (x / 4096 % 2) ≠ 0
  · -- the masked value is two pages, which is less than the minimum
    have hsum : add32 (4096 * (x / 4096 % 2)) 0x1000 = 0x2000 := by
      unfold add32
      omega
    dsimp only
    rw [if_pos hbit, hsum, if_pos (by decide)]
    omega
  · dsimp only
    rw [if_neg hbit]
    by_cases hx : x < 0x70000
    · rw [if_pos hx]
      omega
    · rw [if_neg hx]
      omega

theorem contract_size_lt {x : Nat} (h : x < 4294967296) : contract_size x < 4294967296 := by
  have hmask : (if x &&& 0x1000 ≠ 0 then add32 (x &&& 0x1000) 0x1000 else x) < 4294967296 := by
    split
    · exact add32_lt _ _
    · exact h
  unfold contract_size
  dsimp only
  generalize (if x &&& 0x1000 ≠ 0 then add32 (x &&& 0x1000) 0x1000 else x) = y at hmask
  by_cases hy : y < VM_HEAP_MIN_SIZE
  · rw [if_pos hy]
    decide
  · rw [if_neg hy]
    exact hmask

/-! ## §3. The routines. -/

/-- Where an aligned placement allocation starts. -/
theorem aligned_placement {alloc : AllocFn} {len flags addr : Nat} {phys : Bool} {ph : Option Nat}
    {m m' : Machine} (hready : m.heap_ready = false) (hflags : flags &&& M_ALIGNED ≠ 0)
    (hplace : m.placement_address < 4294967296) (h : _kmalloc alloc len phys flags m = .ok (addr, ph, m')) :
    addr = following_page m.placement_address := by
  have hlt : following_page m.placement_address < 4294967296 := by
    unfold following_page
    split
    · exact add32_lt _ _
    · exact hplace
  have hstart : (if flags &&& M_ALIGNED ≠ 0 ∧ m.placement_address &&& 0xFFFFF000 ≠ 0 then
      add32 (m.placement_address &&& 0xFFFFF000) 0x1000 else m.placement_address)
        = following_page m.placement_address := by
    rw [← placement_mask]
    by_cases hc : m.placement_address &&& 0xFFFFF000 ≠ 0
    · rw [if_pos ⟨hflags, hc⟩, if_pos hc]
    · rw [if_neg fun h => hc h.2, if_neg hc]
  have hback : sub32 (add32 (following_page m.placement_address) len) len = following_page m.placement_address := by
    unfold sub32 add32
    omega
  simp only [_kmalloc, hready, if_true, hstart, ok_bind, hback] at h
  split at h
  · exact (Prod.mk.inj (Except.ok.inj h)).1.symm
  · exact (Prod.mk.inj (Except.ok.inj h)).1.symm

theorem init_heap_start {start end_ max : Nat} {su ro : Int} {m m' : Machine}
    (h : init_heap start end_ max su ro m = .ok m') :
    start % 0x1000 = 0 ∧ m'.heap.h_addr_start = following_page (add32 start (4 * VM_HEAP_INDEX_SIZE)) := by
  simp only [init_heap, bind_ok_iff, KASSERT_eq_ok, decide_eq_true_eq] at h
  obtain ⟨-, haligned, -, -, idx, -, h⟩ := h
  refine ⟨haligned, ?_⟩
  rw [← Except.ok.inj h]

/-- The length that `expand` makes. -/
theorem expand_length {f : AllocFn} {new_size : Nat} {m m' : Machine} (hsize : new_size < 4294967296)
    (h : expand f new_size m = .ok m') :
    sub32 m'.heap.h_addr_end m'.heap.h_addr_start = following_page new_size := by
  have hlt : following_page new_size < 4294967296 := by
    unfold following_page
    split
    · exact add32_lt _ _
    · exact hsize
  simp only [expand, bind_ok_iff] at h
  obtain ⟨-, -, -, -, m₁, -, h⟩ := h
  rw [← Except.ok.inj h]
  dsimp only
  generalize following_page new_size = n at hlt
  unfold sub32 add32
  omega

/-- The length that `contract` makes, which is also what it returns. -/
theorem contract_length {new_size n : Nat} {m m' : Machine} (hsize : new_size < 4294967296)
    (h : contract new_size m = .ok (n, m')) :
    n = contract_size new_size ∧ sub32 m'.heap.h_addr_end m'.heap.h_addr_start = n := by
  obtain ⟨i, m₁, -, -, hn, hm'⟩ := contract_ok h
  refine ⟨hn, ?_⟩
  have hlt : n < 4294967296 := by
    rw [hn]
    exact contract_size_lt hsize
  rw [hm']
  dsimp only
  unfold sub32 add32
  omega

/-- **The roundings.**  For every 32-bit value whose least page boundary is one: an aligned placement
    starts there exactly when the bump pointer is zero, or unaligned and not in the first page;
    `init_heap` never starts the heap there; `expand` makes that length exactly when the length asked for
    is unaligned and not in the first page (or zero); and `contract` exactly when the length asked for is
    at most the minimum, or is an even number of pages. -/
theorem roundings_to_the_least_boundary (alloc : AllocFn) (m m' : Machine) :
    (∀ (len flags addr : Nat) (phys : Bool) (ph : Option Nat),
        m.heap_ready = false → flags &&& M_ALIGNED ≠ 0 → pageCeil m.placement_address < 4294967296 →
        _kmalloc alloc len phys flags m = .ok (addr, ph, m') →
        (IsLeast (pageBounds m.placement_address) addr ↔ Roundable m.placement_address))
      ∧ (∀ (start end_ max : Nat) (su ro : Int),
        pageCeil (start + 4 * VM_HEAP_INDEX_SIZE) < 4294967296 →
        init_heap start end_ max su ro m = .ok m' →
        ¬ IsLeast (pageBounds (start + 4 * VM_HEAP_INDEX_SIZE)) m'.heap.h_addr_start)
      ∧ (∀ (new_size : Nat), pageCeil new_size < 4294967296 →
        expand alloc new_size m = .ok m' →
        (IsLeast (pageBounds new_size) (sub32 m'.heap.h_addr_end m'.heap.h_addr_start)
          ↔ Roundable new_size))
      ∧ ∀ (new_size n : Nat), pageCeil (max new_size VM_HEAP_MIN_SIZE) < 4294967296 →
        contract new_size m = .ok (n, m') →
        sub32 m'.heap.h_addr_end m'.heap.h_addr_start = n
          ∧ (IsLeast (pageBounds (max new_size VM_HEAP_MIN_SIZE)) n ↔ Contractible new_size) := by
  refine ⟨?_, ?_, ?_, ?_⟩
  · intro len flags addr phys ph hready hflags hceil h
    have hle := (isLeast_pageCeil m.placement_address).1.2
    rw [isLeast_pageBounds, aligned_placement hready hflags (by omega) h]
    exact following_page_eq_ceil hceil
  · intro start end_ max su ro hceil h
    have hsize : 4 * VM_HEAP_INDEX_SIZE = 0x80000 := rfl
    have hle := (isLeast_pageCeil (start + 4 * VM_HEAP_INDEX_SIZE)).1.2
    obtain ⟨haligned, hstart⟩ := init_heap_start h
    rw [isLeast_pageBounds, hstart, add32_of_lt (by omega), following_page_eq_ceil hceil]
    unfold Roundable
    omega
  · intro new_size hceil h
    have hle := (isLeast_pageCeil new_size).1.2
    rw [isLeast_pageBounds, expand_length (by omega) h]
    exact following_page_eq_ceil hceil
  · intro new_size n hceil h
    have hle := (isLeast_pageCeil (max new_size VM_HEAP_MIN_SIZE)).1.2
    obtain ⟨hn, hlen⟩ := contract_length (by omega) h
    refine ⟨hlen, ?_⟩
    rw [isLeast_pageBounds, hn]
    exact contract_size_eq_ceil new_size

/-- An unaligned bump pointer, the heap of the kernel, an unaligned length for it, and its minimal length. -/
theorem roundings_to_the_least_boundary_of_each :
    (∃ m', kmalloc_a (fun _ _ _ => .error .fuel) 100 (Machine.bare 0x100010) = .ok (0x101000, none, m')
        ∧ IsLeast (pageBounds 0x100010) 0x101000)
      ∧ (∃ m', init_heap 0xC0000000 0xC0100000 0xCFFFF000 0 0 plainKernel = .ok m'
        ∧ ¬ IsLeast (pageBounds 0xC0080000) m'.heap.h_addr_start)
      ∧ (∃ m', expand (alloc 0) 0x7F010 freshHeap.machine = .ok m'
        ∧ IsLeast (pageBounds 0x7F010) (sub32 m'.heap.h_addr_end m'.heap.h_addr_start))
      ∧ ∃ n m', contract 0x70000 freshHeap.machine = .ok (n, m')
        ∧ sub32 m'.heap.h_addr_end m'.heap.h_addr_start = n ∧ IsLeast (pageBounds 0x70000) n := by
  refine ⟨?_, ?_, ?_, ?_⟩
  · have hcall : kmalloc_a (fun _ _ _ => .error .fuel) 100 (Machine.bare 0x100010) = .ok (0x101000, none, _) := rfl
    exact ⟨_, hcall, ((roundings_to_the_least_boundary _ (Machine.bare 0x100010) _).1 100 M_ALIGNED
      0x101000 false none rfl (by decide) (by decide) hcall).mpr (by decide)⟩
  · obtain ⟨m', h⟩ := exists_of_isOk (x := init_heap 0xC0000000 0xC0100000 0xCFFFF000 0 0 plainKernel)
      (by decide +kernel)
    exact ⟨m', h, (roundings_to_the_least_boundary (alloc 0) plainKernel m').2.1 _ _ _ _ _ (by decide) h⟩
  · obtain ⟨m', h⟩ := exists_of_isOk (x := expand (alloc 0) 0x7F010 freshHeap.machine) (by decide +kernel)
    exact ⟨m', h, ((roundings_to_the_least_boundary (alloc 0) freshHeap.machine m').2.2.1 _ (by decide) h).mpr
      (by decide)⟩
  · obtain ⟨⟨n, m'⟩, h⟩ := exists_of_isOk (x := contract 0x70000 freshHeap.machine) (by decide +kernel)
    obtain ⟨hn, hiff⟩ := (roundings_to_the_least_boundary (alloc 0) freshHeap.machine m').2.2.2 _ n (by decide) h
    exact ⟨n, m', h, hn, hiff.mpr (by decide)⟩

/-- **Aligned values, and bit 12.**  An aligned bump pointer is moved by a page; a heap whose index ends
    on a page boundary starts a page later; a length of one page becomes two pages; and a length of
    `0x71000` bytes becomes the minimum. -/
theorem roundings_of_aligned_values :
    (∃ m', kmalloc_a (fun _ _ _ => .error .fuel) 100 (Machine.bare 0x100000) = .ok (0x101000, none, m'))
      ∧ ¬ IsLeast (pageBounds 0x100000) 0x101000
      ∧ following_page (add32 0xC0000000 (4 * VM_HEAP_INDEX_SIZE)) = 0xC0081000
      ∧ ¬ IsLeast (pageBounds (0xC0000000 + 4 * VM_HEAP_INDEX_SIZE)) 0xC0081000
      ∧ following_page 0x1000 = 0x2000 ∧ ¬ IsLeast (pageBounds 0x1000) 0x2000
      ∧ contract_size 0x71000 = VM_HEAP_MIN_SIZE
      ∧ ¬ IsLeast (pageBounds (max 0x71000 VM_HEAP_MIN_SIZE)) VM_HEAP_MIN_SIZE := by
  refine ⟨⟨_, rfl⟩, ?_, by decide, ?_, by decide, ?_, by decide, ?_⟩
  · rw [isLeast_pageBounds]
    decide
  · rw [isLeast_pageBounds]
    decide
  · rw [isLeast_pageBounds]
    decide
  · rw [isLeast_pageBounds]
    decide

end JamesM
