/-
  JamesM.Heap.Access — which headers and footers `free` touches.

  `free_logged` is `free` with a log: every header and footer it reads or writes is
  recorded together with the bounds of the heap at that moment.  `free_logged_val`
  says that nothing else changed.

  The neighbour probes are computed from the place and the size of the block alone.
  The first block of the heap has nothing below it and the last one nothing above
  it, so these two probes leave the heap.  A joined hole that ends the heap is
  contracted, and its header is read again: this read leaves the heap if the hole
  starts too high for the new end.  Nothing else does, stale footers included.

  Main result: `free_stays_inside`.
-/
import JamesM.Heap.Coalesce
import JamesM.Heap.Footers
import JamesM.Lib.Logged

namespace JamesM

open JamesM.ByteMem JamesM.Word32 JamesM.Lib

/-! ## §1. `free`, with a log. -/

/-- One access to a header or a footer, and the bounds of the heap at that time. -/
structure Access where
  addr : Nat
  len : Nat
  start : Nat
  stop : Nat
  deriving DecidableEq, Repr

/-- The access lies entirely inside the heap. -/
def Access.Inside (a : Access) : Prop := a.start ≤ a.addr ∧ a.addr + a.len ≤ a.stop

instance (a : Access) : Decidable a.Inside := inferInstanceAs (Decidable (_ ∧ _))

/-- A routine that logs its accesses. -/
abbrev Traced := Logged Access Halt

def Machine.headerAt (m : Machine) (h : Nat) : Access :=
  ⟨h, sizeof_header, m.heap.h_addr_start, m.heap.h_addr_end⟩

def Machine.footerAt (m : Machine) (f : Nat) : Access :=
  ⟨f, sizeof_footer, m.heap.h_addr_start, m.heap.h_addr_end⟩

/-- `unify_left`. -/
def unify_left_logged (header footer : Nat) (m : Machine) : Traced (Nat × Bool × Mem) := do
  let test_footer := sub32 header sizeof_footer
  Logged.touch (m.footerAt test_footer)
  if hf_magic m.mem test_footer = VM_HEAP_FTR_MAGIC then
    Logged.touch (m.headerAt (hf_header m.mem test_footer))
    if hh_is_hole m.mem (hf_header m.mem test_footer) = 1 then
      Logged.touch (m.headerAt header)
      let cache_size := hh_size m.mem header
      let header := hf_header m.mem test_footer
      Logged.touch (m.footerAt footer)
      let mem := write32 m.mem (footer + 4) header
      Logged.touch (m.headerAt header)
      pure (header, false, write32 mem (header + 8) (add32 (hh_size mem header) cache_size))
    else pure (header, true, m.mem)
  else pure (header, true, m.mem)

/-- `unify_right`. -/
def unify_right_logged (header footer : Nat) (m : Machine) : Traced (Nat × Machine) := do
  let test_header := add32 footer sizeof_footer
  Logged.touch (m.headerAt test_header)
  if hh_magic m.mem test_header = VM_HEAP_HDR_MAGIC ∧ hh_is_hole m.mem test_header ≠ 0 then
    Logged.touch (m.headerAt header)
    let mem := write32 m.mem (header + 8)
      (add32 (hh_size m.mem header) (hh_size m.mem test_header))
    -- the footer of the neighbour is computed, and neither read nor written
    let test_footer := sub32 (add32 test_header (hh_size mem test_header)) sizeof_footer
    let i := index_of m.heap.h_index test_header
    Logged.lift (KASSERT "found an item while unifying right" (decide (i < m.heap.h_index.sa_size)))
    let h_index ← Logged.lift (remove_sorted_array m.heap.h_index i)
    pure (test_footer, { m with mem := mem, heap := { m.heap with h_index := h_index } })
  else pure (footer, m)

/-- `free_contract`.  From the return of `contract` on, the heap has its new end. -/
def free_contract_logged (header test_header : Nat) (m : Machine) : Traced Machine := do
  let old_length := sub32 m.heap.h_addr_end m.heap.h_addr_start
  let r ← Logged.lift (contract (sub32 header m.heap.h_addr_start) m)
  let new_length := r.1
  let m := r.2
  Logged.touch (m.headerAt header)
  if sub32 (hh_size m.mem header) (sub32 old_length new_length) > 0 then
    let mem := write32 m.mem (header + 8)
      (sub32 (hh_size m.mem header) (sub32 old_length new_length))
    let footer := sub32 (add32 header (hh_size mem header)) sizeof_footer
    Logged.touch (m.footerAt footer)
    pure { m with mem := put_footer mem footer header }
  else
    let i := index_of m.heap.h_index test_header
    if i < m.heap.h_index.sa_size then
      let h_index ← Logged.lift (remove_sorted_array m.heap.h_index i)
      pure { m with heap := { m.heap with h_index := h_index } }
    else pure m

/-- `free_end`. -/
def free_end_logged (header test_header footer : Nat) (m : Machine) : Traced Machine :=
  if add32 footer sizeof_footer = m.heap.h_addr_end then free_contract_logged header test_header m
  else pure m

/-- The entries of the index that an insertion of `header` compares with it. -/
def compared (header : Nat) (m : Machine) : List Nat :=
  m.heap.h_index.entries.take
    (insert_find (fun x => decide (vm_heap_header_cmp m.mem x header < 0)) m.heap.h_index.sa_array
      m.heap.h_index.sa_size m.heap.h_index.sa_size 0 + 1)

/-- `free_add`.  A comparison reads both headers. -/
def free_add_logged (do_add : Bool) (header : Nat) (m : Machine) : Traced Machine :=
  if do_add then do
    let h_index ← Logged.lift (insert_sorted_array m.mem m.heap.h_index header)
    Logged.touchAll ((compared header m).flatMap fun x => [m.headerAt x, m.headerAt header])
    pure { m with heap := { m.heap with h_index := h_index } }
  else pure m

/-- `free_hole`. -/
def free_hole_logged (header footer : Nat) (m : Machine) : Traced Machine := do
  let left ← unify_left_logged header footer m
  let right ← unify_right_logged left.1 footer { m with mem := left.2.2 }
  let m ← free_end_logged left.1 (add32 footer sizeof_footer) right.1 right.2
  free_add_logged left.2.1 left.1 m

/-- `free_block`. -/
def free_block_logged (header : Nat) (m : Machine) : Traced Machine := do
  Logged.touch (m.headerAt header)
  let footer := sub32 (add32 header (hh_size m.mem header)) sizeof_footer
  Logged.lift (KASSERT "header magic match" (decide (hh_magic m.mem header = VM_HEAP_HDR_MAGIC)))
  Logged.touch (m.footerAt footer)
  Logged.lift (KASSERT "footer magic match" (decide (hf_magic m.mem footer = VM_HEAP_FTR_MAGIC)))
  free_hole_logged header footer { m with mem := write32 m.mem (header + 4) 1 }

/-- `free(p, kernel_heap)`, with every header and footer it reads or writes. -/
def free_logged (p : Nat) (m : Machine) : Traced Machine :=
  if p = 0 ∨ m.heap_ready = false then pure m else free_block_logged (sub32 p sizeof_header) m

/-! ## §2. The log changes nothing. -/

theorem unify_left_logged_val (header footer : Nat) (m : Machine) :
    (unify_left_logged header footer m).val = .ok (unify_left header footer m.mem) := by
  unfold unify_left_logged unify_left
  simp only [Logged.val_bind, Logged.val_touch, ok_bind, Logged.val_ite, Logged.val_pure]
  by_cases hmagic : hf_magic m.mem (sub32 header sizeof_footer) = VM_HEAP_FTR_MAGIC
  · by_cases hhole : hh_is_hole m.mem (hf_header m.mem (sub32 header sizeof_footer)) = 1
    · rw [if_pos hmagic, if_pos hhole, if_pos ⟨hmagic, hhole⟩]
    · rw [if_pos hmagic, if_neg hhole, if_neg fun h => hhole h.2]
  · rw [if_neg hmagic, if_neg fun h => hmagic h.1]

theorem unify_right_logged_val (header footer : Nat) (m : Machine) :
    (unify_right_logged header footer m).val = unify_right header footer m := by
  unfold unify_right_logged unify_right
  simp only [Logged.val_bind, Logged.val_touch, ok_bind, Logged.val_ite, Logged.val_pure, Logged.val_lift]

theorem free_contract_logged_val (header test_header : Nat) (m : Machine) :
    (free_contract_logged header test_header m).val = free_contract header test_header m := by
  unfold free_contract_logged free_contract
  simp only [Logged.val_bind, Logged.val_touch, ok_bind, Logged.val_ite, Logged.val_pure, Logged.val_lift]

theorem free_end_logged_val (header test_header footer : Nat) (m : Machine) :
    (free_end_logged header test_header footer m).val = free_end header test_header footer m := by
  unfold free_end_logged free_end
  simp only [Logged.val_ite, Logged.val_pure, free_contract_logged_val]

theorem free_add_logged_val (do_add : Bool) (header : Nat) (m : Machine) :
    (free_add_logged do_add header m).val = free_add do_add header m := by
  unfold free_add_logged free_add
  simp only [Logged.val_bind, Logged.val_touchAll, ok_bind, Logged.val_ite, Logged.val_pure, Logged.val_lift]

theorem free_hole_logged_val (header footer : Nat) (m : Machine) :
    (free_hole_logged header footer m).val = free_hole header footer m := by
  unfold free_hole_logged free_hole
  simp only [Logged.val_bind, unify_left_logged_val, unify_right_logged_val, free_end_logged_val,
    free_add_logged_val, ok_bind]

/-- Two accesses, each followed by a check. -/
theorem checks_val {α : Type} (a b : Access) (x y : Result Unit) (z : Traced α) :
    (do Logged.touch a; Logged.lift x; Logged.touch b; Logged.lift y; z : Traced α).val
      = (do x; y; z.val : Result α) := by
  simp only [Logged.val_bind, Logged.val_touch, Logged.val_lift, ok_bind]

theorem checks_all {α : Type} {P : Access → Prop} (a b : Access) {x y : Result Unit} (z : Traced α)
    (hx : x = .ok ()) (hy : y = .ok ()) :
    (do Logged.touch a; Logged.lift x; Logged.touch b; Logged.lift y; z : Traced α).All P
      ↔ P a ∧ P b ∧ z.All P := by
  subst hx hy
  simp only [Logged.all_bind, Logged.all_lift, Logged.all_touch, Logged.val_lift, Logged.val_touch, true_and,
    forall_const]

theorem free_block_logged_val (header : Nat) (m : Machine) :
    (free_block_logged header m).val = free_block header m := by
  unfold free_block_logged free_block
  rw [checks_val, free_hole_logged_val]

/-- The log changes nothing. -/
theorem free_logged_val (p : Nat) (m : Machine) : (free_logged p m).val = free p m := by
  unfold free_logged free
  rw [Logged.val_ite, Logged.val_pure, free_block_logged_val]

/-! ## §3. The probes. -/

/-- The region below a block that is not the first one, and its footer. -/
theorem HeapInv.footer_below {pre post : List Region} {b : Region} {m : Machine}
    (inv : HeapInv (pre ++ b :: post) m) (ft : FootedAt (pre ++ b :: post) m)
    (hfirst : b.addr ≠ m.heap.h_addr_start) :
    ∃ r ∈ pre, r.addr + r.size = b.addr ∧ 20 ≤ r.size ∧ m.heap.h_addr_start ≤ r.addr ∧ FtrIn m.mem r
      ∧ (LeftHole b.addr (flagged b.addr m.mem) → r.hole = true) := by
  obtain ⟨r, hr, hrend⟩ : ∃ r ∈ pre, r.addr + r.size = b.addr := by
    rcases List.eq_nil_or_concat pre with rfl | ⟨pre', r, rfl⟩
    · exact absurd inv.tiled.1 hfirst
    · rw [List.concat_eq_append] at inv
      exact ⟨r, by simp, inv.tiled.cut.1.cut.2⟩
  have hrin : r ∈ pre ++ b :: post := List.mem_append_left _ hr
  obtain ⟨hr1, hr2, hr3⟩ := inv.region_bounds hrin
  obtain ⟨-, hb2, hb3⟩ := inv.region_bounds (r := b) (by simp)
  refine ⟨r, hr, hrend, hr3, hr1, ?_⟩
  cases hrh : r.hole with
  | true =>
      refine ⟨?_, fun _ => rfl⟩
      rcases ft r hrin hrh with hf | hlast
      · exact hf
      · omega
  | false =>
      have hf := inv.foot r hrin hrh
      exact ⟨hf.ftrIn (inv.head r hrin) hr3,
        fun hleft => hrh ▸ (hf.leftHole (inv.head r hrin) hr3 hrend).1.mp hleft⟩

/-- **The left probe.**  It stays inside the heap unless the block is the first one. -/
theorem HeapInv.left_probe {pre post : List Region} {b : Region} {m : Machine}
    (inv : HeapInv (pre ++ b :: post) m) (ft : FootedAt (pre ++ b :: post) m) :
    (unify_left_logged b.addr (b.addr + b.size - 8) { m with mem := flagged b.addr m.mem }).All Access.Inside
      ↔ b.addr ≠ m.heap.h_addr_start := by
  obtain ⟨hb1, hb2, hb3⟩ := inv.region_bounds (r := b) (by simp)
  obtain ⟨b1, -, -, -, b5, b6, -⟩ := inv.bounds
  have hfoot : sub32 b.addr sizeof_footer = b.addr - 8 := sub32_of_le (by omega) (by
    show 8 ≤ b.addr
    omega)
  unfold unify_left_logged
  rw [Logged.all_touch_bind, hfoot]
  dsimp only
  constructor
  · rintro ⟨⟨hprobe, -⟩, -⟩ hfirst
    have hprobe : m.heap.h_addr_start ≤ b.addr - 8 := hprobe
    omega
  · intro hfirst
    -- the region below the block has a footer, and it points into that region
    obtain ⟨r, hr, hrend, hrs, hr1, hfr, -⟩ := inv.footer_below ft hfirst
    have hheader : hf_header (flagged b.addr m.mem) (b.addr - 8) = hf_header m.mem (b.addr - 8) :=
      (flagged_eqOutside b.addr m.mem).read32 (.inl (by omega))
    obtain ⟨-, hlow, hhigh, -⟩ := hfr
    rw [hrend] at hlow hhigh
    rw [hheader]
    have hptr : (m.headerAt (hf_header m.mem (b.addr - 8))).Inside := by
      constructor
      · exact Nat.le_trans hr1 hlow
      · exact Nat.le_trans hhigh (by show b.addr ≤ m.heap.h_addr_end; omega)
    have hown : (m.headerAt b.addr).Inside := ⟨hb1, by
      show b.addr + 12 ≤ m.heap.h_addr_end
      omega⟩
    have hownf : (m.footerAt (b.addr + b.size - 8)).Inside := ⟨by
      show m.heap.h_addr_start ≤ b.addr + b.size - 8
      omega, by
      show b.addr + b.size - 8 + 8 ≤ m.heap.h_addr_end
      omega⟩
    refine ⟨⟨?_, ?_⟩, ?_⟩
    · show m.heap.h_addr_start ≤ b.addr - 8
      omega
    · show b.addr - 8 + 8 ≤ m.heap.h_addr_end
      omega
    · split
      · rw [Logged.all_touch_bind]
        refine ⟨hptr, ?_⟩
        split
        · rw [Logged.all_touch_bind, Logged.all_touch_bind, Logged.all_touch_bind]
          exact ⟨hown, hownf, hptr, Logged.all_pure _⟩
        · exact Logged.all_pure _
      · exact Logged.all_pure _

/-- What "unify left" leaves of the block `b`, stale footers included: a hole that starts at `a`, in the
    place of the block or somewhere in a hole before it, and whose size reaches up to the end of the block. -/
structure LeftUnified (pre : List Region) (b : Region) (m : Machine) (do_add : Bool) (a : Nat) (mem : Mem) :
    Prop where
  place : (do_add = true ∧ a = b.addr)
    ∨ (do_add = false ∧ ∃ r ∈ pre, r.hole = true ∧ r.addr ≤ a ∧ a + 12 ≤ r.addr + r.size)
  size_word : hh_size mem a = b.addr + b.size - a
  outside : EqOutside a (b.addr + b.size) m.mem mem

theorem LeftUnified.bounds {pre post : List Region} {b : Region} {m : Machine} {do_add : Bool} {a : Nat} {mem : Mem}
    (lu : LeftUnified pre b m do_add a mem) (inv : HeapInv (pre ++ b :: post) m) :
    m.heap.h_addr_start ≤ a ∧ a ≤ b.addr := by
  rcases lu.place with ⟨-, rfl⟩ | ⟨-, r, hr, -, h1, h2⟩
  · exact ⟨(inv.region_bounds (r := b) (by simp)).1, Nat.le_refl _⟩
  · have h3 := (inv.region_bounds (List.mem_append_left _ hr)).1
    have h4 := inv.tiled.around.1 r hr
    omega

/-- **Unify left**, whatever the footer below the block says. -/
theorem HeapInv.left_unified {pre post : List Region} {b : Region} {m : Machine}
    (inv : HeapInv (pre ++ b :: post) m) (ft : FootedAt (pre ++ b :: post) m)
    (hfirst : b.addr ≠ m.heap.h_addr_start) :
    ∃ do_add mem, JamesM.unify_left b.addr (b.addr + b.size - 8) (flagged b.addr m.mem)
        = (freed_start b.addr m.mem, do_add, mem)
      ∧ LeftUnified pre b m do_add (freed_start b.addr m.mem) mem := by
  have hb : b ∈ pre ++ b :: post := by simp
  obtain ⟨hb1, hb2, hb3⟩ := inv.region_bounds hb
  obtain ⟨b1, -, -, -, b5, b6, -⟩ := inv.bounds
  have hflag := flagged_eqOutside b.addr m.mem
  have hsize : hh_size (flagged b.addr m.mem) b.addr = b.size := (inv.head b hb).set_hole.size
  have hfoot : sub32 b.addr sizeof_footer = b.addr - 8 := sub32_of_le (by omega) (by
    show 8 ≤ b.addr
    omega)
  obtain ⟨r, hr, hrend, hrs, hr1, hfr, hhole⟩ := inv.footer_below ft hfirst
  have hheader : hf_header (flagged b.addr m.mem) (b.addr - 8) = hf_header m.mem (b.addr - 8) :=
    hflag.read32 (.inl (by omega))
  obtain ⟨-, hlow, hhigh, hreach⟩ := hfr
  rw [hrend] at hlow hhigh hreach
  unfold freed_start JamesM.unify_left
  rw [hfoot]
  by_cases hleft : LeftHole b.addr (flagged b.addr m.mem)
  · have hc : hf_magic (flagged b.addr m.mem) (b.addr - 8) = VM_HEAP_FTR_MAGIC
        ∧ hh_is_hole (flagged b.addr m.mem) (hf_header (flagged b.addr m.mem) (b.addr - 8)) = 1 := hleft
    rw [hheader] at hc
    rw [if_pos hleft]
    simp only [hheader, if_pos hc, hsize]
    generalize hf_header m.mem (b.addr - 8) = a at hlow hhigh hreach ⊢
    -- the size of the swallowed header is read after the footer of the block is rewritten
    have hold : hh_size (write32 (flagged b.addr m.mem) (b.addr + b.size - 8 + 4) a) a = b.addr - a := by
      have h1 : hh_size (write32 (flagged b.addr m.mem) (b.addr + b.size - 8 + 4) a) a
          = hh_size (flagged b.addr m.mem) a := read32_write32_ne _ _ (by omega)
      have h2 : hh_size (flagged b.addr m.mem) a = hh_size m.mem a := hflag.read32 (.inl (by omega))
      omega
    have hsum : add32 (b.addr - a) b.size = b.addr + b.size - a := by
      rw [add32_of_lt (by omega)]
      omega
    rw [hold, hsum]
    refine ⟨false, _, rfl, .inr ⟨rfl, r, hr, hhole hleft, hlow, by omega⟩, read32_write32 _ _ (by omega), ?_⟩
    exact (hflag.mono (by omega) (by omega)).trans
      (((EqOutside.refl _ _ _).write32 _ (by omega) (by omega)).write32 _ (by omega) (by omega))
  · have hc : ¬ (hf_magic (flagged b.addr m.mem) (b.addr - 8) = VM_HEAP_FTR_MAGIC
        ∧ hh_is_hole (flagged b.addr m.mem) (hf_header (flagged b.addr m.mem) (b.addr - 8)) = 1) := hleft
    rw [if_neg hleft]
    simp only [if_neg hc]
    refine ⟨true, _, rfl, .inl ⟨rfl, rfl⟩, ?_, hflag.mono (by omega) (by omega)⟩
    rw [hsize]
    omega

/-- **The right probe.**  It stays inside the heap unless the block is the last one. -/
theorem HeapInv.right_probe {pre post : List Region} {b : Region} {m : Machine} {a : Nat} {mem : Mem}
    (inv : HeapInv (pre ++ b :: post) m) (ha : m.heap.h_addr_start ≤ a) (hab : a ≤ b.addr) :
    (unify_right_logged a (b.addr + b.size - 8) { m with mem := mem }).All Access.Inside
      ↔ b.addr + b.size ≠ m.heap.h_addr_end := by
  obtain ⟨hb1, hb2, hb3⟩ := inv.region_bounds (r := b) (by simp)
  obtain ⟨b1, -, -, -, b5, b6, -⟩ := inv.bounds
  have htest : add32 (b.addr + b.size - 8) sizeof_footer = b.addr + b.size := by
    unfold add32 sizeof_footer
    omega
  unfold unify_right_logged
  rw [Logged.all_touch_bind, htest]
  dsimp only
  constructor
  · rintro ⟨⟨-, hprobe⟩, -⟩ hlast
    have hprobe : b.addr + b.size + 12 ≤ m.heap.h_addr_end := hprobe
    omega
  · intro hlast
    obtain ⟨r, hr, hrstart⟩ : ∃ r ∈ post, r.addr = b.addr + b.size := by
      cases post with
      | nil => exact absurd inv.tiled.cut.2 hlast
      | cons r post => exact ⟨r, by simp, inv.tiled.cut.2.1⟩
    obtain ⟨hr1, hr2, hr3⟩ := inv.region_bounds (r := r) (by simp [hr])
    refine ⟨⟨?_, ?_⟩, ?_⟩
    · show m.heap.h_addr_start ≤ b.addr + b.size
      omega
    · show b.addr + b.size + 12 ≤ m.heap.h_addr_end
      omega
    · split
      · rw [Logged.all_touch_bind]
        refine ⟨⟨ha, ?_⟩, ?_⟩
        · show a + 12 ≤ m.heap.h_addr_end
          omega
        · simp only [Logged.all_bind, Logged.all_lift, Logged.all_pure, implies_true, and_self]
      · exact Logged.all_pure _

/-- Away from the end of the heap, "unify right" finds the hole that it looks for in the index. -/
theorem HeapInv.unify_right_returns {pre post : List Region} {b : Region} {m : Machine} {a : Nat} {mem : Mem}
    (inv : HeapInv (pre ++ b :: post) m) (hlast : b.addr + b.size ≠ m.heap.h_addr_end)
    (hout : EqOutside a (b.addr + b.size) m.mem mem) :
    ∃ f m₂, JamesM.unify_right a (b.addr + b.size - 8) { m with mem := mem } = .ok (f, m₂) := by
  obtain ⟨hb1, hb2, hb3⟩ := inv.region_bounds (r := b) (by simp)
  obtain ⟨b1, -, -, -, b5, b6, -⟩ := inv.bounds
  have htest : add32 (b.addr + b.size - 8) sizeof_footer = b.addr + b.size := by
    unfold add32 sizeof_footer
    omega
  have hishole : hh_is_hole mem (b.addr + b.size) = hh_is_hole m.mem (b.addr + b.size) :=
    hout.read32 (.inr (by omega))
  unfold JamesM.unify_right
  dsimp only
  rw [htest, hishole]
  split
  · rename_i hc
    obtain ⟨r, hr, hra⟩ : ∃ r ∈ post, r.addr = b.addr + b.size := by
      cases post with
      | nil => exact absurd inv.tiled.cut.2 hlast
      | cons r post => exact ⟨r, by simp, inv.tiled.cut.2.1⟩
    have hrin : r ∈ pre ++ b :: post := by simp [hr]
    have hrh : r.hole = true := by
      cases hrh : r.hole with
      | true => rfl
      | false =>
          have hflag := (inv.head r hrin).flag
          unfold Region.flag at hflag
          rw [hrh, hra] at hflag
          exact absurd hflag hc.2
    have hi : index_of m.heap.h_index (b.addr + b.size) < m.heap.h_index.sa_size :=
      index_of_lt.mpr (inv.mem_index.mpr ⟨r, hrin, hrh, hra⟩)
    obtain ⟨idx, hrem, -⟩ := remove_sorted_array_returns hi
    rw [decide_eq_true hi, KASSERT_true, ok_bind, hrem]
    exact ⟨_, _, rfl⟩
  · exact ⟨_, _, rfl⟩

/-- `contract` never makes the heap longer than it is asked to, but for the minimal length. -/
theorem contract_size_le (x : Nat) : contract_size x ≤ max x VM_HEAP_MIN_SIZE := by
  unfold contract_size
  rw [land_bit12]
  have hmin : VM_HEAP_MIN_SIZE = 0x70000 := rfl
  dsimp only
  by_cases hbit : 4096 * (x / 4096 % 2) ≠ 0
  · rw [if_pos hbit, add32_of_lt (by omega), if_pos (by omega)]
    omega
  · rw [if_neg hbit]
    split <;> omega

/-- **The contraction.**  Its accesses are inside the new bounds exactly when the header of the hole is. -/
theorem free_contract_logged_all {a size test_header : Nat} {m : Machine} (b : Bounds m.heap)
    (ha : m.heap.h_addr_start ≤ a) (hend : a + size = m.heap.h_addr_end) (hpos : 0 < size)
    (hsize : ∀ n i, i % 0x1000 = 0 → m.heap.h_addr_start + i < m.heap.h_addr_end →
      hh_size (contract_loop VM_HEAP_MIN_SIZE n i m).mem a = size) :
    (free_contract_logged a test_header m).All Access.Inside
      ↔ a + 12 ≤ m.heap.h_addr_start + VM_HEAP_MIN_SIZE := by
  have hlen := b.length_eq
  obtain ⟨b1, b2, b3, b4, b5, b6, b7⟩ := b
  have hoff : sub32 a m.heap.h_addr_start = a - m.heap.h_addr_start := sub32_of_le (by omega) ha
  have hle := contract_size_le (a - m.heap.h_addr_start)
  have hcs : a - m.heap.h_addr_start ≤ VM_HEAP_MIN_SIZE →
      contract_size (a - m.heap.h_addr_start) = VM_HEAP_MIN_SIZE := contract_size_of_le
  generalize VM_HEAP_MIN_SIZE = min_size at *
  unfold free_contract_logged
  rw [Logged.all_bind, hoff]
  obtain ⟨⟨n, m₂⟩, hc, -⟩ := contract_returns (show a - m.heap.h_addr_start < _ by rw [hlen]; omega)
  obtain ⟨i, m₁, hi, hm₁, hn, hm₂⟩ := contract_ok hc
  rw [hlen, sub32_of_le (by omega) (by omega)] at hi
  rw [show m₁.heap = m.heap by rw [hm₁, contract_loop_heap], add32_of_lt (by omega)] at hm₂
  have hstart₂ : m₂.heap.h_addr_start = m.heap.h_addr_start := by rw [hm₂]
  have hend₂ : m₂.heap.h_addr_end = m.heap.h_addr_start + n := by rw [hm₂]
  constructor
  · rintro ⟨-, hrest⟩
    have hrest := hrest _ hc
    rw [Logged.all_touch_bind] at hrest
    have hheader : a + 12 ≤ m₂.heap.h_addr_end := hrest.1.2
    omega
  · intro hlow
    refine ⟨Logged.all_lift _, fun r hr => ?_⟩
    obtain rfl := Except.ok.inj (hc.symm.trans hr)
    rw [hcs (by omega)] at hn
    subst hn
    have hread := hsize (i / 0x1000 + 1) i (by omega) (by omega)
    rw [← hm₁] at hread
    have hsize₂ : hh_size m₂.mem a = size := by rw [hm₂]; exact hread
    have hdiff : sub32 (m.heap.h_addr_end - m.heap.h_addr_start) n
        = m.heap.h_addr_end - m.heap.h_addr_start - n := sub32_of_le (by omega) (by omega)
    have hleft : sub32 size (m.heap.h_addr_end - m.heap.h_addr_start - n) = m.heap.h_addr_start + n - a := by
      rw [sub32_of_le (by omega) (by omega)]
      omega
    have hread₂ : hh_size (write32 m₂.mem (a + 8) (m.heap.h_addr_start + n - a)) a
        = m.heap.h_addr_start + n - a := read32_write32 _ _ (by omega)
    have hfoot : sub32 (add32 a (m.heap.h_addr_start + n - a)) sizeof_footer
        = m.heap.h_addr_start + n - 8 := by
      unfold sub32 add32 sizeof_footer
      omega
    dsimp only
    rw [Logged.all_touch_bind, hlen, hdiff, hsize₂, hleft, if_pos (by omega), hread₂, hfoot, Logged.all_touch_bind]
    refine ⟨⟨?_, ?_⟩, ⟨?_, ?_⟩, Logged.all_pure _⟩
    · show m₂.heap.h_addr_start ≤ a
      omega
    · show a + 12 ≤ m₂.heap.h_addr_end
      omega
    · show m₂.heap.h_addr_start ≤ m.heap.h_addr_start + n - 8
      omega
    · show m.heap.h_addr_start + n - 8 + 8 ≤ m₂.heap.h_addr_end
      omega

/-- An insertion reads headers of the index, and the new one. -/
theorem free_add_logged_all {do_add : Bool} {a : Nat} {m : Machine} (ha : (m.headerAt a).Inside)
    (hindex : do_add = true → ∀ x ∈ m.heap.h_index.entries, (m.headerAt x).Inside) :
    (free_add_logged do_add a m).All Access.Inside := by
  unfold free_add_logged
  split
  · rename_i hadd
    rw [Logged.all_bind]
    refine ⟨Logged.all_lift _, fun idx _ => ?_⟩
    rw [Logged.all_bind, Logged.all_touchAll]
    refine ⟨fun l hl => ?_, fun _ _ => Logged.all_pure _⟩
    obtain ⟨x, hx, hl⟩ := List.mem_flatMap.mp hl
    have hx : x ∈ m.heap.h_index.entries := List.mem_of_mem_take hx
    rcases List.mem_cons.mp hl with rfl | hl
    · exact hindex hadd x hx
    · rw [List.mem_singleton.mp hl]
      exact ha
  · exact Logged.all_pure _

/-! ## §4. The whole call. -/

/-- After both merges the index lists holes that were there before, none of them joined on the right. -/
theorem HeapInv.listed_after {pre rights post : List Region} {b : Region} {a e : Nat} {mem : Mem} {m m₂ : Machine}
    (inv : HeapInv (pre ++ b :: (rights ++ post)) m) (hblock : b.hole = false)
    (ru : RightUnified b rights a e mem m m₂) {x : Nat} (hx : x ∈ m₂.heap.h_index.entries) :
    ∃ r ∈ pre ++ post, r ∈ pre ++ b :: (rights ++ post) ∧ r.addr = x := by
  have hindex : m₂.heap.h_index.entries.Perm (holes (pre ++ post)) := by
    rw [← List.perm_append_left_iff (holes rights)]
    refine (ru.perm.symm.trans inv.index).trans ?_
    simp only [holes_append, holes_cons, hblock, Bool.false_eq_true, if_false]
    refine List.perm_iff_count.mpr fun x => ?_
    simp only [List.count_append]
    omega
  obtain ⟨r, hr, -, hrx⟩ := mem_holes.mp (hindex.mem_iff.mp hx)
  refine ⟨r, hr, ?_, hrx⟩
  simp only [List.mem_append, List.mem_cons] at hr ⊢
  tauto

/-- The size of the joined hole is still there after the loop of `contract`: it lies in a hole, or in the
    header of the block. -/
theorem Kernel.joined_size {pre rights post : List Region} {b : Region} {live : List (Nat × Nat)}
    {m m₂ : Machine} {do_add : Bool} {a e p : Nat} {mem : Mem} (k : Kernel (pre ++ b :: (rights ++ post)) live m)
    (hbp : b.addr + 12 = p) (hp : p ∈ live.map Prod.fst) (lu : LeftUnified pre b m do_add a mem)
    (ru : RightUnified b rights a e mem m m₂) {n i : Nat} (halign : i % 0x1000 = 0)
    (hi : m₂.heap.h_addr_start + i < m₂.heap.h_addr_end) :
    hh_size (JamesM.contract_loop VM_HEAP_MIN_SIZE n i m₂).mem a = e - a := by
  have hb : b ∈ pre ++ b :: (rights ++ post) := by simp
  obtain ⟨hb1, hb2, hb3⟩ := k.heap.region_bounds hb
  obtain ⟨b1, b2, b3, b4, b5, b6, b7⟩ := id k.heap.bounds
  obtain ⟨hsa, hab⟩ := lu.bounds k.heap
  have hele := ru.high
  rw [← ru.size_word lu.size_word (by omega)]
  have hout := ru.outside lu.outside (by omega)
  rcases lu.place with ⟨-, rfl⟩ | ⟨-, r, hr, hrh, h1, h2⟩
  · exact k.loop_size hb (.inr (by rw [hbp]; exact hp)) (Nat.le_refl _) (by omega) hout hsa hb2 ru.machine _ n
      halign hi
  · exact k.loop_size (List.mem_append_left _ hr) (.inl hrh) h1 h2 hout hsa hb2 ru.machine _ n halign hi

/-- **Where nothing is contracted**, the insertion stays inside. -/
theorem Kernel.insertion_inside {pre rights post : List Region} {b : Region} {live : List (Nat × Nat)}
    {m m₂ : Machine} {do_add : Bool} {a e : Nat} {mem : Mem} (k : Kernel (pre ++ b :: (rights ++ post)) live m)
    (hblock : b.hole = false) (lu : LeftUnified pre b m do_add a mem) (ru : RightUnified b rights a e mem m m₂) :
    (free_add_logged do_add a m₂).All Access.Inside := by
  obtain ⟨hb1, hb2, hb3⟩ := k.heap.region_bounds (r := b) (by simp)
  obtain ⟨hsa, hab⟩ := lu.bounds k.heap
  have hend₂ : m₂.heap.h_addr_end = m.heap.h_addr_end := by rw [ru.machine]
  have hstart₂ : m₂.heap.h_addr_start = m.heap.h_addr_start := by rw [ru.machine]
  refine free_add_logged_all ⟨?_, ?_⟩ fun _ x hx => ?_
  · show m₂.heap.h_addr_start ≤ a
    omega
  · show a + 12 ≤ m₂.heap.h_addr_end
    omega
  · obtain ⟨r, -, hr, rfl⟩ := k.heap.listed_after hblock ru hx
    obtain ⟨hr1, hr2, hr3⟩ := k.heap.region_bounds hr
    constructor
    · show m₂.heap.h_addr_start ≤ r.addr
      omega
    · show r.addr + 12 ≤ m₂.heap.h_addr_end
      omega

/-- **Where the heap is contracted**, the insertion stays inside if the joined hole has its header below the
    new end: the listed holes are below the block then. -/
theorem Kernel.insertion_inside_contracted {pre rights post : List Region} {b : Region} {live : List (Nat × Nat)}
    {m m₂ m₃ : Machine} {do_add : Bool} {a e : Nat} {mem : Mem} (k : Kernel (pre ++ b :: (rights ++ post)) live m)
    (hblock : b.hole = false) (lu : LeftUnified pre b m do_add a mem) (ru : RightUnified b rights a e mem m m₂)
    (htail : e = m.heap.h_addr_end) (hlow : a + 12 ≤ m.heap.h_addr_start + VM_HEAP_MIN_SIZE)
    (hheap : m₃.heap = { m₂.heap with h_addr_end := m₂.heap.h_addr_start + VM_HEAP_MIN_SIZE }) :
    (free_add_logged do_add a m₃).All Access.Inside := by
  obtain ⟨hsa, hab⟩ := lu.bounds k.heap
  have hstart₂ : m₂.heap.h_addr_start = m.heap.h_addr_start := by rw [ru.machine]
  have hstart₃ : m₃.heap.h_addr_start = m.heap.h_addr_start := by rw [hheap, hstart₂]
  have hend₃ : m₃.heap.h_addr_end = m.heap.h_addr_start + VM_HEAP_MIN_SIZE := by rw [hheap, hstart₂]
  have hidx₃ : m₃.heap.h_index = m₂.heap.h_index := by rw [hheap]
  refine free_add_logged_all ⟨?_, ?_⟩ fun hadd x hx => ?_
  · show m₃.heap.h_addr_start ≤ a
    omega
  · show a + 12 ≤ m₃.heap.h_addr_end
    omega
  · have hba : a = b.addr := by
      rcases lu.place with ⟨-, h⟩ | ⟨h, -⟩
      · exact h
      · rw [h] at hadd
        exact absurd hadd (by decide)
    rw [hidx₃] at hx
    obtain ⟨r, hr, hr', rfl⟩ := k.heap.listed_after hblock ru hx
    obtain ⟨hr1, hr2, hr3⟩ := k.heap.region_bounds hr'
    have hbelow : r.addr + r.size ≤ b.addr := by
      rcases List.mem_append.mp hr with hr | hr
      · exact k.heap.tiled.around.1 r hr
      · obtain ⟨c, hc1, hc2⟩ := tiles_append.mp k.heap.tiled.cut.2
        rw [hc1.end_unique ru.tiled] at hc2
        have := (hc2.bounds r hr).1
        omega
    constructor
    · show m₃.heap.h_addr_start ≤ r.addr
      omega
    · show r.addr + 12 ≤ m₃.heap.h_addr_end
      omega

/-- **What follows the left probe** of a block that is neither the first region nor the last one. -/
theorem Kernel.after_left {pre post₀ : List Region} {b : Region} {live : List (Nat × Nat)} {m : Machine}
    {do_add : Bool} {a p test_header : Nat} {mem : Mem} (k : Kernel (pre ++ b :: post₀) live m)
    (hblock : b.hole = false) (hbp : b.addr + 12 = p) (hp : p ∈ live.map Prod.fst)
    (lu : LeftUnified pre b m do_add a mem) (hlast : b.addr + b.size ≠ m.heap.h_addr_end) :
    ∃ f m₂, JamesM.unify_right a (b.addr + b.size - 8) { m with mem := mem } = .ok (f, m₂)
      ∧ ((free_end_logged a test_header f m₂ >>= free_add_logged do_add a).All Access.Inside
        ↔ (freed_end b.addr m.mem = m.heap.h_addr_end → a + 12 ≤ m.heap.h_addr_start + VM_HEAP_MIN_SIZE)) := by
  obtain ⟨b1, b2, b3, b4, b5, b6, b7⟩ := id k.heap.bounds
  obtain ⟨hsa, hab⟩ := lu.bounds k.heap
  obtain ⟨f, m₂, hright⟩ := k.heap.unify_right_returns hlast lu.outside
  refine ⟨f, m₂, hright, ?_⟩
  obtain ⟨rights, post, e, rfl, hf, ru⟩ := k.heap.unify_right hblock hsa hab lu.size_word lu.outside hright
  rw [← ru.end_eq]
  have hele := ru.high
  have hbe := ru.tiled.le
  have hend₂ : m₂.heap.h_addr_end = m.heap.h_addr_end := by rw [ru.machine]
  have hstart₂ : m₂.heap.h_addr_start = m.heap.h_addr_start := by rw [ru.machine]
  have hf8 : add32 f sizeof_footer = e := by
    unfold add32 sizeof_footer
    omega
  unfold free_end_logged
  rw [hf8, hend₂]
  by_cases htail : e = m.heap.h_addr_end
  · have hbounds₂ : Bounds m₂.heap := by
      rw [ru.machine]
      exact ⟨b1, b2, b3, b4, b5, b6, b7⟩
    rw [if_pos htail, Logged.all_bind, free_contract_logged_val,
      free_contract_logged_all hbounds₂ (by omega) (show a + (e - a) = m₂.heap.h_addr_end by omega) (by omega)
        (fun n i halign hi => k.joined_size hbp hp lu ru halign hi), hstart₂]
    refine ⟨fun h _ => h.1, fun hlow => ⟨hlow htail, fun m₃ h₃ => ?_⟩⟩
    have hlow := hlow htail
    obtain ⟨n, i, -, -, hm₃⟩ := free_contract_ok hbounds₂ (by omega) (by omega) (by omega)
      (fun n i halign hi => k.joined_size hbp hp lu ru halign hi) h₃
    refine k.insertion_inside_contracted hblock lu ru htail hlow ?_
    rw [hm₃, JamesM.contracted]
  · rw [if_neg htail, Logged.all_bind]
    refine iff_of_true ⟨Logged.all_pure _, fun m₃ h₃ => ?_⟩ fun h => absurd h htail
    have h₃ := Except.ok.inj h₃
    subst h₃
    exact k.insertion_inside hblock lu ru

theorem forall_returned {α : Type} {v : α} {Q : α → Prop} :
    (∀ a, (Except.ok v : Result α) = .ok a → Q a) ↔ Q v :=
  ⟨fun h => h v rfl, fun h _ ha => Except.ok.inj ha ▸ h⟩

/-- **The accesses of `free`.**  They all stay inside the heap exactly when the block is neither the first
    region nor the last one, and a joined hole that ends the heap starts low enough for its header to be
    inside the contracted heap. -/
theorem Kernel.free_accesses {regs : List Region} {live : List (Nat × Nat)} {m : Machine} {p : Nat}
    (k : Kernel regs live m) (ft : Footed m) (hp : p ∈ live.map Prod.fst) :
    (free_logged p m).All Access.Inside
      ↔ p - 12 ≠ m.heap.h_addr_start ∧ p - 12 + hh_size m.mem (p - 12) ≠ m.heap.h_addr_end
        ∧ (freed_end (p - 12) m.mem = m.heap.h_addr_end →
          freed_start (p - 12) m.mem + 12 ≤ m.heap.h_addr_start + VM_HEAP_MIN_SIZE) := by
  obtain ⟨l, hl, rfl⟩ := List.mem_map.mp hp
  obtain ⟨b, hb, hblock, hbp, hbs⟩ := k.block l hl
  obtain ⟨pre, post, rfl⟩ := exists_cut hb
  obtain ⟨hb1, hb2, hb3⟩ := k.heap.region_bounds hb
  obtain ⟨b1, b2, b3, b4, b5, b6, b7⟩ := id k.heap.bounds
  have hhdr := k.heap.head b hb
  have hftr := k.heap.foot b hb hblock
  have haddr : l.1 - 12 = b.addr := by omega
  have hheader : sub32 l.1 sizeof_header = b.addr := by
    unfold sub32 sizeof_header
    omega
  have hfooter : sub32 (add32 b.addr b.size) sizeof_footer = b.addr + b.size - 8 := by
    unfold sub32 add32 sizeof_footer
    omega
  rw [haddr, hhdr.size]
  have hc : ¬ (l.1 = 0 ∨ m.heap_ready = false) := by
    rw [k.paging.ready]
    simp only [Bool.true_eq_false, or_false]
    omega
  -- the accesses to the block's own header and footer
  have hown : (m.headerAt b.addr).Inside := ⟨hb1, by
    show b.addr + 12 ≤ m.heap.h_addr_end
    omega⟩
  have hownf : (m.footerAt (b.addr + b.size - 8)).Inside := ⟨by
    show m.heap.h_addr_start ≤ b.addr + b.size - 8
    omega, by
    show b.addr + b.size - 8 + 8 ≤ m.heap.h_addr_end
    omega⟩
  have hmagic : hh_magic m.mem b.addr = VM_HEAP_HDR_MAGIC := hhdr.magic
  have hfmagic : hf_magic m.mem (b.addr + b.size - 8) = VM_HEAP_FTR_MAGIC := hftr.magic
  unfold free_logged
  rw [if_neg hc, hheader]
  unfold free_block_logged
  rw [hhdr.size, hfooter, checks_all _ _ _ (by rw [decide_eq_true hmagic, KASSERT_true])
    (by rw [decide_eq_true hfmagic, KASSERT_true])]
  simp only [hown, hownf, true_and]
  unfold free_hole_logged
  rw [Logged.all_bind, unify_left_logged_val]
  dsimp only
  rw [← flagged, k.heap.left_probe (ft _ k.heap.toChain)]
  refine and_congr_right fun hfirst => ?_
  obtain ⟨do_add, mem, hunify, lu⟩ := k.heap.left_unified (ft _ k.heap.toChain) hfirst
  obtain ⟨hsa, hab⟩ := lu.bounds k.heap
  rw [hunify, forall_returned, Logged.all_bind, unify_right_logged_val, k.heap.right_probe hsa hab]
  refine and_congr_right fun hlast => ?_
  obtain ⟨f, m₂, hright, hrest⟩ := k.after_left hblock hbp hp lu hlast
  dsimp only
  rw [hright, forall_returned]
  exact hrest

/-! ## §5. Whole runs. -/

/-- **`free` and the bounds.**  In every state of a safe run, and for every live pointer: `free` touches
    headers and footers inside the heap only, exactly when the block is neither the first region of the heap
    nor the last one, and, if the block with the hole behind it ends the heap, the hole that they become
    starts at least 12 bytes below the minimal length.  The call may also end in a PANIC. -/
theorem free_stays_inside {start p : Nat} {s x : Session} {tr : List (HeapOp × Session)}
    (st : HeapStart start s) (run : Trace HeapStep s tr) (safe : Along HeapSafe s tr) (hx : Reached s tr x)
    (hp : p ∈ x.live.map Prod.fst) :
    (free_logged p x.machine).val = free p x.machine
      ∧ ((free_logged p x.machine).All Access.Inside
        ↔ p - 12 ≠ x.machine.heap.h_addr_start
          ∧ p - 12 + hh_size x.machine.mem (p - 12) ≠ x.machine.heap.h_addr_end
          ∧ (freed_end (p - 12) x.machine.mem = x.machine.heap.h_addr_end →
            freed_start (p - 12) x.machine.mem + 12 ≤ x.machine.heap.h_addr_start + VM_HEAP_MIN_SIZE)) := by
  obtain ⟨regs, k, ft⟩ := st.footed run safe hx
  exact ⟨free_logged_val p x.machine, k.free_accesses ft hp⟩

/-- Three blocks; the third one is freed, and then the second one, which joins the hole that ends the heap. -/
theorem free_stays_inside_second_block :
    ∃ x : Session, x = after freshHeap [.alloc 100 false, .alloc 100 false, .alloc 100 false, .free 0xC00810FC]
      ∧ 0xC0081084 ∈ x.live.map Prod.fst ∧ freed_end 0xC0081078 x.machine.mem = x.machine.heap.h_addr_end
      ∧ (free_logged 0xC0081084 x.machine).All Access.Inside := by
  have run := trace_runOf freshHeap [.alloc 100 false, .alloc 100 false, .alloc 100 false, .free 0xC00810FC]
    (by decide +kernel)
  have safe : Along HeapSafe freshHeap
      (runOf freshHeap [.alloc 100 false, .alloc 100 false, .alloc 100 false, .free 0xC00810FC]) := by
    refine ⟨Guard.AllocOk.of_hit (j := 0) (by decide +kernel) (fun h => absurd h (by decide)),
      Guard.AllocOk.of_hit (j := 0) (by decide +kernel) (fun h => absurd h (by decide)),
      Guard.AllocOk.of_hit (j := 0) (by decide +kernel) (fun h => absurd h (by decide)),
      ⟨fun h => ?_, fun _ => ?_⟩, trivial⟩
    · exact absurd h (by decide +kernel)
    · decide +kernel
  have hlive : 0xC0081084 ∈ (after freshHeap [.alloc 100 false, .alloc 100 false, .alloc 100 false,
      .free 0xC00810FC]).live.map Prod.fst := by decide +kernel
  obtain ⟨-, hiff⟩ := free_stays_inside freshHeap_start run safe (reached_after _ _) hlive
  exact ⟨_, rfl, hlive, by decide +kernel,
    hiff.mpr ⟨by decide +kernel, by decide +kernel, fun _ => by decide +kernel⟩⟩

/-- **Below the heap.**  The first block is freed: the left probe reads the 8 bytes below `h_addr_start`, in
    the page that the rounding of the start skips. -/
theorem free_reads_below_the_heap :
    HeapStart 0xC0000000 freshHeap
      ∧ ∃ x : Session, x = after freshHeap [.alloc 100 false]
        ∧ Trace HeapStep freshHeap (runOf freshHeap [.alloc 100 false])
        ∧ 0xC008100C ∈ x.live.map Prod.fst
        ∧ (⟨0xC0080FF8, 8, 0xC0081000, 0xC0100000⟩ : Access) ∈ (free_logged 0xC008100C x.machine).log
        ∧ ¬ (free_logged 0xC008100C x.machine).All Access.Inside := by
  have run := trace_runOf freshHeap [.alloc 100 false] (by decide +kernel)
  have hread : (⟨0xC0080FF8, 8, 0xC0081000, 0xC0100000⟩ : Access)
      ∈ (free_logged 0xC008100C (after freshHeap [.alloc 100 false]).machine).log := by decide +kernel
  exact ⟨freshHeap_start, _, rfl, run, by decide +kernel, hread,
    fun hall => absurd (hall _ hread) (by decide)⟩

/-- **Above the contracted heap.**  A block of `0x71000` bytes, and a small one after it, which is freed: it is
    neither the first region nor the last one, but the heap then ends below its header. -/
theorem free_reads_above_the_contracted_heap :
    ∃ x : Session, x = after freshHeap [.alloc 0x70FEC false, .alloc 1 false]
      ∧ Trace HeapStep freshHeap (runOf freshHeap [.alloc 0x70FEC false, .alloc 1 false])
      ∧ 0xC00F200C ∈ x.live.map Prod.fst
      ∧ (⟨0xC00F2000, 12, 0xC0081000, 0xC00F1000⟩ : Access) ∈ (free_logged 0xC00F200C x.machine).log
      ∧ ¬ (free_logged 0xC00F200C x.machine).All Access.Inside := by
  have run := trace_runOf freshHeap [.alloc 0x70FEC false, .alloc 1 false] (by decide +kernel)
  have hread : (⟨0xC00F2000, 12, 0xC0081000, 0xC00F1000⟩ : Access)
      ∈ (free_logged 0xC00F200C (after freshHeap [.alloc 0x70FEC false, .alloc 1 false]).machine).log := by
    decide +kernel
  exact ⟨_, rfl, run, by decide +kernel, hread, fun hall => absurd (hall _ hread) (by decide)⟩

end JamesM
