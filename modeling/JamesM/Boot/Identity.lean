/-
  JamesM.Boot.Identity — what `init_paging` maps.

  The identity mapping is never written down in the source: page `i` gets frame `i`
  only because `first_frame` hands out frames in increasing order, in step with the
  loop.  Meanwhile the body moves `placement_address`, the bound of the loop, each
  time `get_page` makes a table.

  The invariant `Mapped f k` says that the frames below `k` are taken, and that
  every entry of every table is what the page map `f` says.  The loop ends because
  every round takes one of the 4096 frames.

  Main result: `identity_mapping_after_boot`.
-/
import JamesM.Boot.Def
import JamesM.Heap.Region
import JamesM.Paging.Walk
import JamesM.Paging.Ownership

namespace JamesM

open JamesM.ByteMem JamesM.Word32

/-! ## §1. A page map in memory. -/

/-- The entry word of a page that was given frame `n` (present, user, not writeable), or of none. -/
def entryWord : Option Nat → Nat
  | some n => 5 + 4096 * n
  | none => 0

/-- The boot-time state: the frames below `k` are taken, and the entries of `dir` show the page map
    `f` (page number to frame number). -/
structure Mapped (dir : Nat) (f : Nat → Option Nat) (k : Nat) (m : Machine) : Prop where
  placed : PlacedTables dir m
  directory : m.kernel_directory = dir
  nframes : m.nframes = 4096
  frames : ∀ l, frameSet m.frames l = decide (l < k)
  table : ∀ q, f q ≠ none → q < 1048576 ∧ pd_table m.mem dir (q / 1024) ≠ 0
  entry : ∀ q, q < 1048576 → pd_table m.mem dir (q / 1024) ≠ 0 →
    read32 m.mem (page_entry m.mem dir q) = entryWord (f q)

/-- `f` with page `q` sent to frame `n`. -/
def mapPage (f : Nat → Option Nat) (q n : Nat) : Nat → Option Nat := fun r => if r = q then some n else f r

/-- The next free frame of a boot-time bitset. -/
theorem first_frame_below {frames : Bitset} {k : Nat} (h : ∀ l, frameSet frames l = decide (l < k))
    (hi : first_frame frames 4096 ≠ 0xFFFFFFFF) : first_frame frames 4096 = k ∧ k < 4096 := by
  rcases first_frame_spec frames 4096 with ⟨h1, h2, h3⟩ | ⟨h1, -⟩
  · rw [h, decide_eq_false_iff_not] at h2
    have hle : ¬ k < first_frame frames 4096 := fun hlt => by
      have := h3 k hlt
      rw [h, decide_eq_true_eq] at this
      omega
    omega
  · exact absurd h1 hi

theorem first_frame_full {frames : Bitset} {k : Nat} (h : ∀ l, frameSet frames l = decide (l < k)) :
    first_frame frames 4096 = 0xFFFFFFFF ↔ 4096 ≤ k := by
  constructor
  · intro hfull
    by_contra hk
    rcases first_frame_spec frames 4096 with ⟨h1, -, -⟩ | ⟨-, h2⟩
    · omega
    · have := h2 k (by omega)
      rw [h, decide_eq_true_eq] at this
      omega
  · intro hk
    by_contra hne
    have := (first_frame_below h hne).2
    omega

/-- A page entry that shows no frame yet has no `p_frame`. -/
theorem Mapped.no_frame {dir k q : Nat} {f : Nat → Option Nat} {m : Machine} (mp : Mapped dir f k m)
    (hq : q < 1048576) (ht : pd_table m.mem dir (q / 1024) ≠ 0) (hf : f q = none) :
    read_page m.mem (page_entry m.mem dir q) = ⟨0, 0, 0, 0, 0, 0, 0⟩ := by
  unfold read_page
  rw [mp.entry q hq ht, hf]
  rfl

/-- **A round of either loop.**  `alloc_frame` on the entry of an unmapped page maps it to the next
    frame, or panics when there is none. -/
theorem Mapped.alloc_frame_spec {dir k q : Nat} {f : Nat → Option Nat} {m m' : Machine}
    (mp : Mapped dir f k m) (hq : q < 1048576) (ht : pd_table m.mem dir (q / 1024) ≠ 0)
    (hf : f q = none) (h : alloc_frame (page_entry m.mem dir q) 0 0 m = .ok m') :
    k < 4096 ∧ Mapped dir (mapPage f q k) (k + 1) m'
      ∧ m'.placement_address = m.placement_address
      ∧ ∀ t, t < 1024 → pd_table m'.mem dir t = pd_table m.mem dir t := by
  have hpg := mp.no_frame hq ht hf
  rcases alloc_frame_cases h with ⟨hne, -⟩ | ⟨-, hi, hm'⟩
  · rw [hpg] at hne
    exact absurd rfl hne
  rw [mp.nframes] at hi hm'
  obtain ⟨-, -, hset⟩ := first_frame_taken (show 4096 ≤ 1048576 by decide) hi
  obtain ⟨hk, hk4⟩ := first_frame_below mp.frames hi
  rw [hk, hpg] at hm'
  rw [hk] at hset
  -- the word stored
  have hmem : m'.mem = write32 m.mem (page_entry m.mem dir q) (entryWord (some k)) := by
    rw [hm']
    show write32 _ _ (VmPage.encode _) = _
    congr 1
    unfold VmPage.encode entryWord
    simp
    omega
  obtain ⟨htab, -, hwords⟩ := mp.placed.tables.store_page hq ht
    (show entryWord (some k) < 4294967296 by unfold entryWord; dsimp only; omega) hmem
  refine ⟨hk4, ⟨?_, ?_, ?_, fun l => ?_, fun r hr => ?_, fun r hr hrt => ?_⟩, by rw [hm'],
    htab⟩
  · exact mp.placed.store (isEntry_page_entry hq ht) (by rw [hm']; exact mp.placed.ready)
      (by rw [hm']) hmem
  · rw [hm']; exact mp.directory
  · rw [hm']
  · rw [hm']
    show frameSet (set_frame m.frames (mul32 k 0x1000)) l = _
    rw [hset l, mp.frames l, ← Bool.decide_or]
    exact decide_eq_decide.mpr (by omega)
  · unfold mapPage at hr
    by_cases hrq : r = q
    · rw [hrq, htab _ (by omega)]; exact ⟨hq, ht⟩
    · rw [if_neg hrq] at hr
      obtain ⟨h1, h2⟩ := mp.table r hr
      rw [htab _ (by omega)]
      exact ⟨h1, h2⟩
  · rw [htab _ (by omega)] at hrt
    rw [hwords r hr hrt]
    unfold mapPage
    by_cases hrq : r = q
    · rw [if_pos hrq, if_pos hrq]
    · rw [if_neg hrq, if_neg hrq, mp.entry r hr hrt]

/-- `get_page` with `create` leaves the page map as it is, and returns the entry of the address. -/
theorem Mapped.get_page_spec {alloc : AllocFn} {dir k a p : Nat} {f : Nat → Option Nat} {m m' : Machine}
    (mp : Mapped dir f k m) (ha : a < 4294967296)
    (hwrap : Creates m dir a true → next_table m + 4096 < 4294967296)
    (h : get_page alloc a true dir m = .ok (p, m')) :
    Mapped dir f k m' ∧ p = page_entry m'.mem dir (a / 4096)
      ∧ pd_table m'.mem dir (a / 4096 / 1024) ≠ 0
      ∧ m'.placement_address
        = (if pd_table m.mem dir (a / 4096 / 1024) = 0 then next_table m + 4096
            else m.placement_address)
      ∧ ∀ t, t < 1024 → t ≠ a / 4096 / 1024 → pd_table m'.mem dir t = pd_table m.mem dir t := by
  by_cases hmiss : pd_table m.mem dir (a / 4096 / 1024) = 0
  · -- a fresh table: its 1024 entries are zero, and no page in it was mapped
    have hw := hwrap ⟨rfl, hmiss⟩
    rw [get_page_create alloc mp.placed.ready mp.placed.low mp.placed.high hw hmiss] at h
    simp only [Except.ok.injEq, Prod.mk.injEq] at h
    obtain ⟨rfl, hm'⟩ := h
    have hmem : m'.mem = table_made m dir (a / 4096 / 1024) := by rw [← hm']
    obtain ⟨hplaced, hnew, hold⟩ := mp.placed.create m' (a / 4096 / 1024) (by omega) hw
      (by rw [← hm']; exact mp.placed.ready) (by rw [← hm']) hmem
    have hle : m.placement_address ≤ next_table m := le_placement_start _ _
    have habove := mp.placed.above
    refine ⟨⟨hplaced, by rw [← hm']; exact mp.directory, by rw [← hm']; exact mp.nframes,
      by rw [← hm']; exact mp.frames, fun q hq => ?_, fun q hq hqt => ?_⟩, ?_, ?_, ?_, hold⟩
    · obtain ⟨h1, h2⟩ := mp.table q hq
      refine ⟨h1, ?_⟩
      by_cases hslot : q / 1024 = a / 4096 / 1024
      · rw [hslot] at h2; exact absurd hmiss h2
      · rw [hold _ (by omega) hslot]; exact h2
    · by_cases hslot : q / 1024 = a / 4096 / 1024
      · have hf : f q = none := by
          by_contra hne
          have := (mp.table q hne).2
          rw [hslot] at this
          exact this hmiss
        rw [hf, page_entry, hslot, hnew, hmem, table_made, read32_write32_ne _ _ (by omega),
          read32_write32_ne _ _ (by omega), read32_bzero (by omega) (by omega)]
        rfl
      · have hqt' : pd_table m.mem dir (q / 1024) ≠ 0 := by
          rw [← hold _ (by omega) hslot]; exact hqt
        have htab := mp.placed.table _ (show q / 1024 < 1024 by omega) hqt'
        rw [← mp.entry q hq hqt', page_entry, hold _ (by omega) hslot, hmem, table_made,
          read32_write32_ne _ _ (by omega), read32_write32_ne _ _ (by omega),
          (bzero_eqOutside m.mem (next_table m) 4096).read32 (by omega)]
        rfl
    · rw [page_entry, hnew]
    · rw [hnew]
      have := next_table_eq m
      omega
    · rw [← hm', if_pos hmiss]
  · rw [get_page, if_pos (show read32 m.mem (dir + 4 * (a / 0x1000 / 1024)) ≠ 0 from hmiss)] at h
    simp only [Except.ok.injEq, Prod.mk.injEq] at h
    obtain ⟨rfl, rfl⟩ := h
    refine ⟨mp, ?_, hmiss, by rw [if_neg hmiss], fun _ _ _ => rfl⟩
    rw [lookup_page_eq, if_pos hmiss]

/-! ## §2. The setup. -/

/-- Where the bump pointer stands before the identity mapping, in unbounded arithmetic: the bitset,
    the directory, one page table and the heap descriptor. -/
def setup_end (placement : Nat) : Nat :=
  let bitset := placement_start M_ZERO placement + INDEX_FROM_BIT 4096
  let directory := placement_start (M_ALIGNED ||| M_ZERO) bitset + sizeof_page_directory
  let table := placement_start (M_ALIGNED ||| M_ZERO) directory + sizeof_page_table
  placement_start M_ZERO table + sizeof_heap

theorem setup_end_eq (p : Nat) : setup_end p = 0x1000 * ((p + 128) / 0x1000) + 0x5024 := by
  simp only [setup_end, placement_start, INDEX_FROM_BIT, sizeof_page_directory, sizeof_page_table,
    sizeof_heap, M_ALIGNED, M_ZERO]
  simp
  omega

/-- Once the table of the heap exists, the rest of the first loop does nothing. -/
theorem make_heap_tables_done (alloc : AllocFn) {m : Machine}
    (ht : pd_table m.mem m.kernel_directory 768 ≠ 0) : ∀ n j, j + n ≤ 1024 →
    make_heap_tables alloc n (0xC0000000 + 0x1000 * j) m = .ok m := by
  intro n
  induction n with
  | zero => intro j hj; rfl
  | succ n ih =>
      intro j hj
      have hslot : (0xC0000000 + 0x1000 * j) / 0x1000 / 1024 = 768 := by omega
      have hget : get_page alloc (0xC0000000 + 0x1000 * j) true m.kernel_directory m
          = .ok (lookup_page m.mem (0xC0000000 + 0x1000 * j) m.kernel_directory, m) := by
        unfold get_page
        simp only [hslot]
        exact if_pos ht
      rw [make_heap_tables, hget, ok_bind]
      dsimp only
      rw [add32_of_lt (by omega), show 0xC0000000 + 0x1000 * j + 0x1000 = 0xC0000000 + 0x1000 * (j + 1) by omega]
      exact ih (j + 1) (by omega)

/-- Memory handed out above the tables is no part of the page map. -/
theorem Mapped.bump {dir k : Nat} {f : Nat → Option Nat} {m : Machine} (mp : Mapped dir f k m)
    (m' : Machine) (hi : Nat) (hle : m.placement_address ≤ m'.placement_address)
    (hhigh : m'.placement_address < 4294967296)
    (hmem : EqOutside m.placement_address hi m.mem m'.mem)
    (hrest : m' = { m with placement_address := m'.placement_address, mem := m'.mem }) :
    Mapped dir f k m' ∧ ∀ t, t < 1024 → pd_table m'.mem dir t = pd_table m.mem dir t := by
  have habove := mp.placed.above
  have htab : ∀ t, t < 1024 → pd_table m'.mem dir t = pd_table m.mem dir t := fun t ht =>
    hmem.read32 (by omega)
  have hphys : ∀ t, t < 1024 → pd_tblphys m'.mem dir t = pd_tblphys m.mem dir t := fun t ht =>
    hmem.read32 (by omega)
  have hlow := mp.placed.low
  refine ⟨⟨⟨by rw [hrest]; exact mp.placed.ready, by omega, hhigh, by omega, fun t ht hne => ?_,
    (mp.placed.tables.congr htab).apart, fun t ht => ?_⟩, by rw [hrest]; exact mp.directory,
    by rw [hrest]; exact mp.nframes, by rw [hrest]; exact mp.frames, fun q hq => ?_,
    fun q hq hqt => ?_⟩, htab⟩
  · rw [htab t ht] at hne ⊢
    have := mp.placed.table t ht hne
    omega
  · rw [hphys t ht, htab t ht]
    exact mp.placed.phys t ht
  · obtain ⟨h1, h2⟩ := mp.table q hq
    rw [htab _ (by omega)]
    exact ⟨h1, h2⟩
  · rw [htab _ (by omega)] at hqt
    have := mp.placed.table _ (show q / 1024 < 1024 by omega) hqt
    rw [page_entry, htab _ (by omega), hmem.read32 (by omega)]
    exact mp.entry q hq hqt

/-- Where the setup puts the bitset, the directory and the heap descriptor, and what memory holds right
    after the bitset was allocated. -/
structure BootPlaces where
  frames : Nat
  bits : Mem
  directory : Nat
  heap : Nat

/-- `init_paging_setup`, with the places it discards or keeps in pointers. -/
def init_paging_places (alloc : AllocFn) (m : Machine) : Result (BootPlaces × Machine) := do
  let mem_end_page := 0x1000000
  let nframes := mem_end_page / 0x1000
  let (frames, _, m) ← kmalloc0 alloc (INDEX_FROM_BIT nframes) m
  let bits := m.mem
  let m := { m with nframes := nframes, frames := fun _ => 0#32 }
  let (dir, _, m) ← kmalloc0_a alloc sizeof_page_directory m
  let m := { m with kernel_directory := dir }
  let m ← make_heap_tables alloc heap_initial_pages VM_KERN_HEAP_START m
  let (heap, _, m) ← kmalloc0 alloc sizeof_heap m
  .ok (⟨frames, bits, dir, heap⟩, m)

theorem init_paging_setup_of_places {alloc : AllocFn} {m m' : Machine} {pl : BootPlaces}
    (h : init_paging_places alloc m = .ok (pl, m')) : init_paging_setup alloc m = .ok m' := by
  simp only [init_paging_places, bind_ok_iff, Except.ok.injEq, Prod.mk.injEq] at h
  obtain ⟨r₁, h1, r₂, h2, m₃, h3, r₄, h4, -, h5⟩ := h
  simp only [init_paging_setup, h1, h2, h3, h4, ok_bind, h5]

/-- **The setup** leaves an empty page map, the table of the heap, and all frames free. -/
theorem init_paging_places_spec (alloc : AllocFn) {m : Machine} (hready : m.heap_ready = false)
    (hlow : 0x1000 ≤ m.placement_address) (hwrap : setup_end m.placement_address < 4294967296) :
    ∃ pl m', init_paging_places alloc m = .ok (pl, m')
      ∧ pl.frames = m.placement_address ∧ pl.bits = bzero m.mem m.placement_address 128
      ∧ pl.directory = m'.kernel_directory
      ∧ m'.kernel_directory = 0x1000 * ((m.placement_address + 128) / 0x1000) + 0x1000
      ∧ m'.kernel_directory + 8196 ≤ pl.heap
      ∧ Mapped m'.kernel_directory (fun _ => none) 0 m'
      ∧ pd_table m'.mem m'.kernel_directory 768 ≠ 0
      ∧ (∀ t, t < 1024 → t ≠ 768 → pd_table m'.mem m'.kernel_directory t = 0)
      ∧ m'.placement_address = setup_end m.placement_address := by
  have hend := setup_end_eq m.placement_address
  have hz : ∀ p, placement_start M_ZERO p = p := fun p => if_neg (by decide)
  have ha : ∀ p, placement_start (M_ALIGNED ||| M_ZERO) p = 0x1000 * (p / 0x1000) + 0x1000 :=
    fun p => if_pos (by decide)
  -- ===== the bitset =====
  have h1 : kmalloc0 alloc (INDEX_FROM_BIT (0x1000000 / 0x1000)) m = _ :=
    _kmalloc_placement alloc false hready hlow (by omega) (by rw [hz]; unfold INDEX_FROM_BIT; omega)
  rw [hz, if_neg Bool.false_ne_true, if_pos (by decide),
    show INDEX_FROM_BIT (0x1000000 / 0x1000) = 128 by decide] at h1
  -- ===== the directory =====
  generalize hm1 : ({ m with placement_address := m.placement_address + 128
                             mem := bzero m.mem m.placement_address 128
                             nframes := 4096
                             frames := fun _ => 0#32 } : Machine) = m₁
  have hp1 : m₁.placement_address = m.placement_address + 128 := by rw [← hm1]
  have hr1 : m₁.heap_ready = false := by rw [← hm1]; exact hready
  have h2 : kmalloc0_a alloc sizeof_page_directory m₁ = _ :=
    _kmalloc_placement alloc false hr1 (by omega) (by omega)
      (by rw [ha, hp1]; unfold sizeof_page_directory; omega)
  rw [ha, if_neg Bool.false_ne_true, if_pos (by decide)] at h2
  generalize hdir : 0x1000 * (m₁.placement_address / 0x1000) + 0x1000 = dir at h2
  generalize hm2 : ({ m₁ with placement_address := dir + sizeof_page_directory
                              mem := bzero m₁.mem dir sizeof_page_directory
                              kernel_directory := dir } : Machine) = m₂
  have hp2 : m₂.placement_address = dir + 8196 := by rw [← hm2]; rfl
  have hzero : ZeroedDirectory dir m₂ := by
    refine ⟨by rw [← hm2]; exact hr1, by omega, by omega, by omega, by rw [hp2]; rfl, fun x hx1 hx2 => ?_⟩
    have hmem : m₂.mem = bzero m₁.mem dir sizeof_page_directory := by rw [← hm2]
    rw [hmem, bzero_in ⟨hx1, hx2⟩]
  obtain ⟨hplaced, hnone⟩ := hzero.placed
  have mp2 : Mapped dir (fun _ => none) 0 m₂ := by
    have hd : m₂.kernel_directory = dir := by rw [← hm2]
    have hn : m₂.nframes = 4096 := by rw [← hm2, ← hm1]
    have hfr : m₂.frames = fun _ => 0#32 := by rw [← hm2, ← hm1]
    refine ⟨hplaced, hd, hn, fun l => ?_, fun q hq => absurd rfl hq, fun q hq hqt => ?_⟩
    · rw [hfr]
      show (0#32).getLsbD _ = _
      simp
    · exact absurd (hnone _ (by omega)) hqt
  -- ===== the table of the heap =====
  have hn2 : next_table m₂ = 0x1000 * (m₂.placement_address / 0x1000) + 0x1000 := next_table_eq m₂
  have hmiss : pd_table m₂.mem dir (VM_KERN_HEAP_START / 4096 / 1024) = 0 := hnone _ (by decide)
  have h3 : get_page alloc VM_KERN_HEAP_START true dir m₂ = _ :=
    get_page_create alloc hplaced.ready hplaced.low hplaced.high (by omega) hmiss
  generalize hm3 : ({ m₂ with placement_address := next_table m₂ + 4096
                              mem := table_made m₂ dir (VM_KERN_HEAP_START / 4096 / 1024) } : Machine)
    = m₃ at h3
  have hp3 : m₃.placement_address = next_table m₂ + 4096 := by rw [← hm3]
  obtain ⟨mp3, -, ht3, -, hold⟩ := mp2.get_page_spec (by decide) (fun _ => by omega) h3
  have hloop : make_heap_tables alloc heap_initial_pages VM_KERN_HEAP_START m₂ = .ok m₃ := by
    have hdone := make_heap_tables_done alloc (m := m₃) (by rw [mp3.directory]; exact ht3) 255 1 (by decide)
    show make_heap_tables alloc (255 + 1) VM_KERN_HEAP_START m₂ = _
    rw [make_heap_tables, mp2.directory, h3, ok_bind]
    exact hdone
  -- ===== the heap descriptor =====
  have h4 : kmalloc0 alloc sizeof_heap m₃ = _ :=
    _kmalloc_placement alloc false mp3.placed.ready mp3.placed.low mp3.placed.high
      (by rw [hz]; unfold sizeof_heap; omega)
  rw [hz, if_neg Bool.false_ne_true, if_pos (by decide)] at h4
  generalize hm4 : ({ m₃ with placement_address := m₃.placement_address + sizeof_heap
                              mem := bzero m₃.mem m₃.placement_address sizeof_heap } : Machine) = m₄ at h4
  have hp4 : m₄.placement_address = m₃.placement_address + 36 := by rw [← hm4]; rfl
  obtain ⟨mp4, htab4⟩ := mp3.bump m₄ (m₃.placement_address + sizeof_heap) (by omega)
    (by omega) (by rw [← hm4]; exact bzero_eqOutside _ _ _) (by rw [← hm4])
  have hdir4 := mp4.directory
  refine ⟨⟨m.placement_address, bzero m.mem m.placement_address 128, dir, m₃.placement_address⟩, m₄, ?_, rfl,
    rfl, hdir4.symm, by omega, by dsimp only; omega, ?_, ?_, fun t ht hne => ?_, by omega⟩
  · have hidx : INDEX_FROM_BIT 4096 = 128 := by decide
    simp only [init_paging_places, Nat.reduceDiv, hidx, h1, ok_bind, hm1, h2, hm2, hloop, h4]
  · rw [mp4.directory]; exact mp4
  · rw [mp4.directory, htab4 768 (by decide)]; exact ht3
  · rw [mp4.directory, htab4 t ht, hold t ht hne]; exact hnone t ht

theorem init_paging_setup_spec (alloc : AllocFn) {m : Machine} (hready : m.heap_ready = false)
    (hlow : 0x1000 ≤ m.placement_address) (hwrap : setup_end m.placement_address < 4294967296) :
    ∃ m', init_paging_setup alloc m = .ok m'
      ∧ Mapped m'.kernel_directory (fun _ => none) 0 m'
      ∧ pd_table m'.mem m'.kernel_directory 768 ≠ 0
      ∧ (∀ t, t < 1024 → t ≠ 768 → pd_table m'.mem m'.kernel_directory t = 0)
      ∧ m'.placement_address = setup_end m.placement_address := by
  obtain ⟨pl, m', h, -, -, -, -, -, hrest⟩ := init_paging_places_spec alloc hready hlow hwrap
  exact ⟨m', init_paging_setup_of_places h, hrest⟩

/-! ## §3. The identity mapping. -/

/-- Pages below `k` are mapped to the frame of the same number. -/
def identityPages (k : Nat) : Nat → Option Nat := fun q => if q < k then some q else none

theorem mapPage_identityPages (k : Nat) : mapPage (identityPages k) k k = identityPages (k + 1) := by
  funext q
  unfold mapPage identityPages
  by_cases hq : q = k
  · rw [if_pos hq, if_pos (by omega), hq]
  · rw [if_neg hq]
    by_cases hlt : q < k
    · rw [if_pos hlt, if_pos (by omega)]
    · rw [if_neg hlt, if_neg (by omega)]

/-- The bump pointer does not wrap in the remaining rounds of the identity mapping loop: in every
    round that makes a page table there is room for it below `2^32`. -/
def IdentityNoWrap (alloc : AllocFn) : Nat → Nat → Machine → Prop
  | 0, _, _ => True
  | n + 1, i, m => i < m.placement_address →
      (Creates m m.kernel_directory i true → next_table m + 4096 < 4294967296)
      ∧ ∀ page m₁ m₂, get_page alloc i true m.kernel_directory m = .ok (page, m₁) →
        alloc_frame page 0 0 m₁ = .ok m₂ → IdentityNoWrap alloc n (add32 i 0x1000) m₂

/-- One round of the loop. -/
theorem Mapped.identity_round {alloc : AllocFn} {dir k p : Nat} {m m₁ m₂ : Machine}
    (mp : Mapped dir (identityPages k) k m) (hk : k ≤ 4096)
    (hwrap : Creates m dir (0x1000 * k) true → next_table m + 4096 < 4294967296)
    (hget : get_page alloc (0x1000 * k) true dir m = .ok (p, m₁))
    (hall : alloc_frame p 0 0 m₁ = .ok m₂) :
    k < 4096 ∧ Mapped dir (identityPages (k + 1)) (k + 1) m₂
      ∧ ∀ t, t < 1024 → t ≠ k / 1024 → pd_table m₂.mem dir t = pd_table m.mem dir t := by
  have hq : 0x1000 * k / 4096 = k := by omega
  obtain ⟨mp₁, hp, ht, -, hkeep⟩ := mp.get_page_spec (by omega) hwrap hget
  rw [hq] at hp ht hkeep
  subst hp
  obtain ⟨hk4, mp₂, -, htab⟩ := mp₁.alloc_frame_spec (by omega) ht
    (by unfold identityPages; rw [if_neg (by omega)]) hall
  rw [mapPage_identityPages] at mp₂
  refine ⟨hk4, mp₂, fun t h1 h2 => ?_⟩
  rw [htab t h1]
  exact hkeep t h1 h2

/-- **The loop maps the identity.**  When it returns after `K` rounds in all, exactly the pages below
    `K` are mapped, each to itself, and they cover everything below the bump pointer. -/
theorem identity_map_spec {alloc : AllocFn} {dir : Nat} : ∀ (n k : Nat) {m m' : Machine},
    Mapped dir (identityPages k) k m → k ≤ 4096 → IdentityNoWrap alloc n (0x1000 * k) m →
    identity_map alloc n (0x1000 * k) m = .ok m' →
    ∃ K, K ≤ 4096 ∧ Mapped dir (identityPages K) K m' ∧ m'.placement_address ≤ 0x1000 * K
      ∧ ∀ t, 4 ≤ t → t < 1024 → pd_table m'.mem dir t = pd_table m.mem dir t := by
  intro n
  induction n with
  | zero =>
      intro k m m' mp hk hwrap h
      rw [identity_map] at h
      by_cases hi : 0x1000 * k < m.placement_address
      · rw [if_pos hi] at h
        exact absurd h (by simp)
      · rw [if_neg hi] at h
        injection h with h
        subst h
        exact ⟨k, hk, mp, by omega, fun _ _ _ => rfl⟩
  | succ n ih =>
      intro k m m' mp hk hwrap h
      rw [identity_map] at h
      by_cases hi : 0x1000 * k < m.placement_address
      · rw [if_pos hi, bind_ok_iff] at h
        obtain ⟨⟨p, m₁⟩, hget, h⟩ := h
        rw [bind_ok_iff] at h
        obtain ⟨m₂, hall, h⟩ := h
        obtain ⟨hroom, hnext⟩ := hwrap hi
        have hw := hnext p m₁ m₂ hget hall
        rw [mp.directory] at hroom hget
        obtain ⟨hk4, mp₂, hkeep⟩ := mp.identity_round hk hroom hget hall
        have hstep : add32 (0x1000 * k) 0x1000 = 0x1000 * (k + 1) := by
          rw [add32_of_lt (by omega)]; omega
        rw [hstep] at h hw
        obtain ⟨K, h1, h2, h3, h4⟩ := ih (k + 1) mp₂ (by omega) hw h
        exact ⟨K, h1, h2, h3, fun t ht4 ht => (h4 t ht4 ht).trans (hkeep t ht (by omega))⟩
      · rw [if_neg hi] at h
        injection h with h
        subst h
        exact ⟨k, hk, mp, by omega, fun _ _ _ => rfl⟩

/-- **The loop ends.**  With 4097 rounds in all it returns or panics: each round takes a frame. -/
theorem identity_map_ends {alloc : AllocFn} {dir : Nat} : ∀ (n k : Nat) {m : Machine},
    Mapped dir (identityPages k) k m → k ≤ 4096 → 4097 ≤ n + k →
    IdentityNoWrap alloc n (0x1000 * k) m →
    identity_map alloc n (0x1000 * k) m ≠ .error .fuel := by
  intro n
  induction n with
  | zero => intro k m mp hk hn hwrap; omega
  | succ n ih =>
      intro k m mp hk hn hwrap
      rw [identity_map]
      by_cases hi : 0x1000 * k < m.placement_address
      · rw [if_pos hi]
        obtain ⟨hroom, hnext⟩ := hwrap hi
        refine bind_ne_fuel ?_ fun ⟨p, m₁⟩ hget => bind_ne_fuel (alloc_frame_ne_fuel _ _ _ _)
          fun m₂ hall => ?_
        · -- in the placement phase `get_page` always returns
          rw [mp.directory] at hroom ⊢
          by_cases hmiss : pd_table m.mem dir (0x1000 * k / 4096 / 1024) = 0
          · rw [get_page_create alloc mp.placed.ready mp.placed.low mp.placed.high
              (hroom ⟨rfl, hmiss⟩) hmiss]
            simp
          · rw [get_page, if_pos (show read32 m.mem (dir + 4 * (0x1000 * k / 0x1000 / 1024)) ≠ 0 from hmiss)]
            simp
        · have hw := hnext p m₁ m₂ hget hall
          rw [mp.directory] at hroom hget
          obtain ⟨hk4, mp₂, -⟩ := mp.identity_round hk hroom hget hall
          have hstep : add32 (0x1000 * k) 0x1000 = 0x1000 * (k + 1) := by
            rw [add32_of_lt (by omega)]; omega
          rw [hstep] at hw ⊢
          exact ih (k + 1) mp₂ (by omega) (by omega) hw
      · rw [if_neg hi]
        simp

/-! ## §4. The pages of the heap. -/

/-- The identity below `K`, and the first `j` pages of the heap on the frames from `K` on. -/
def bootPages (K j : Nat) : Nat → Option Nat := fun q =>
  if q < K then some q
  else if 0xC0000 ≤ q ∧ q < 0xC0000 + j then some (K + (q - 0xC0000)) else none

theorem bootPages_zero (K : Nat) : bootPages K 0 = identityPages K := by
  funext q
  unfold bootPages identityPages
  rw [if_neg (show ¬ (0xC0000 ≤ q ∧ q < 0xC0000 + 0) by omega)]

theorem mapPage_bootPages {K : Nat} (hK : K ≤ 4096) (j : Nat) :
    mapPage (bootPages K j) (0xC0000 + j) (K + j) = bootPages K (j + 1) := by
  funext q
  unfold mapPage bootPages
  by_cases hq : q = 0xC0000 + j
  · rw [if_pos hq, if_neg (by omega), if_pos (by omega), hq, Nat.add_sub_cancel_left]
  · rw [if_neg hq]
    by_cases hlt : q < K
    · rw [if_pos hlt, if_pos hlt]
    · rw [if_neg hlt, if_neg hlt]
      by_cases hr : 0xC0000 ≤ q ∧ q < 0xC0000 + j
      · rw [if_pos hr, if_pos (by omega)]
      · rw [if_neg hr, if_neg (by omega)]

theorem alloc_heap_pages_spec {alloc : AllocFn} {dir K : Nat} (hK : K ≤ 4096) :
    ∀ (n j : Nat) {m m' : Machine}, Mapped dir (bootPages K j) (K + j) m →
    pd_table m.mem dir 768 ≠ 0 → j + n ≤ 1024 →
    alloc_heap_pages alloc n (0xC0000000 + 0x1000 * j) m = .ok m' →
    Mapped dir (bootPages K (j + n)) (K + (j + n)) m'
      ∧ m'.placement_address = m.placement_address ∧ (0 < n → K + (j + n) ≤ 4096)
      ∧ ∀ t, t < 1024 → pd_table m'.mem dir t = pd_table m.mem dir t := by
  intro n
  induction n with
  | zero =>
      intro j m m' mp ht hj h
      injection h with h
      subst h
      exact ⟨mp, rfl, fun h => absurd h (by omega), fun _ _ => rfl⟩
  | succ n ih =>
      intro j m m' mp ht hj h
      rw [alloc_heap_pages, mp.directory, get_page_lookup, ok_bind] at h
      dsimp only at h
      rw [bind_ok_iff] at h
      obtain ⟨m₁, hall, h⟩ := h
      have hq : (0xC0000000 + 0x1000 * j) / 4096 = 0xC0000 + j := by omega
      have hslot : (0xC0000 + j) / 1024 = 768 := by omega
      rw [lookup_page_eq, hq, hslot, if_pos ht] at hall
      obtain ⟨hk4, mp₁, hplace, htab⟩ := mp.alloc_frame_spec (by omega) (by rw [hslot]; exact ht)
        (by unfold bootPages; rw [if_neg (by omega), if_neg (by omega)]) hall
      rw [mapPage_bootPages hK] at mp₁
      rw [add32_of_lt (by omega),
        show 0xC0000000 + 0x1000 * j + 0x1000 = 0xC0000000 + 0x1000 * (j + 1) by omega] at h
      obtain ⟨h1, h2, h3, h4⟩ := ih (j + 1) mp₁ (by rw [htab 768 (by decide)]; exact ht) (by omega) h
      rw [show j + 1 + n = j + (n + 1) by omega] at h1 h3
      exact ⟨h1, h2.trans hplace, fun _ => by omega, fun t ht => (h4 t ht).trans (htab t ht)⟩

theorem alloc_heap_pages_ne_fuel (alloc : AllocFn) : ∀ (n i : Nat) (m : Machine),
    alloc_heap_pages alloc n i m ≠ .error .fuel := by
  intro n
  induction n with
  | zero => intro i m; simp [alloc_heap_pages]
  | succ n ih =>
      intro i m
      rw [alloc_heap_pages, get_page_lookup, ok_bind]
      exact bind_ne_fuel (alloc_frame_ne_fuel _ _ _ _) fun m₁ _ => ih _ m₁

/-! ## §5. The kernel after `init_paging`. -/

/-- The heap of the kernel's parameters can always be set up. -/
theorem init_heap_returns (m : Machine) : ∃ m', init_heap VM_KERN_HEAP_START
    (VM_KERN_HEAP_START + VM_KERN_HEAP_INITIAL_SIZE) 0xCFFFF000 0 0 m = .ok m' := ⟨_, rfl⟩

/-- `init_heap` writes one header, and the descriptor. -/
theorem init_heap_inv {start end_ max : Nat} {su ro : Int} {m m' : Machine}
    (h : init_heap start end_ max su ro m = .ok m') :
    ∃ heap, m' = { m with
      mem := put_header m.mem (following_page (add32 start (4 * VM_HEAP_INDEX_SIZE))) 1
        (sub32 end_ (following_page (add32 start (4 * VM_HEAP_INDEX_SIZE))))
      heap := heap } := by
  unfold init_heap at h
  simp only [bind_ok_iff] at h
  obtain ⟨-, -, -, -, h_index, -, h⟩ := h
  injection h with h
  exact ⟨_, h.symm⟩

/-- The page map the kernel boots with: everything below the bump pointer is mapped to itself by the
    first `K` frames, the heap by the 256 frames after them. -/
structure Booted (dir K : Nat) (m : Machine) : Prop where
  ready : m.heap_ready = true
  directory : m.kernel_directory = dir
  nframes : m.nframes = 4096
  frames : ∀ l, frameSet m.frames l = decide (l < K + 256)
  room : K + 256 ≤ 4096
  covered : m.placement_address ≤ 0x1000 * K
  above : dir + 8196 ≤ m.placement_address
  table : ∀ t, t < 1024 → pd_table m.mem dir t ≠ 0 →
    dir + 8196 ≤ pd_table m.mem dir t ∧ pd_table m.mem dir t + 4096 ≤ m.placement_address
  tables : Tables dir m.mem
  slots : ∀ t, 4 ≤ t → t < 1024 → t ≠ 768 → pd_table m.mem dir t = 0
  pages : ∀ q, bootPages K 256 q ≠ none → q < 1048576 ∧ pd_table m.mem dir (q / 1024) ≠ 0
  entry : ∀ q, q < 1048576 → pd_table m.mem dir (q / 1024) ≠ 0 →
    read32 m.mem (page_entry m.mem dir q) = entryWord (bootPages K 256 q)

/-- Setting up the heap leaves the page map alone: its header lies far above the tables. -/
theorem Mapped.booted {dir K : Nat} {m m' : Machine} (mp : Mapped dir (bootPages K 256) (K + 256) m)
    (hK : K + 256 ≤ 4096) (hcov : m.placement_address ≤ 0x1000 * K)
    (hslots : ∀ t, 4 ≤ t → t < 1024 → t ≠ 768 → pd_table m.mem dir t = 0)
    (h : init_heap VM_KERN_HEAP_START (VM_KERN_HEAP_START + VM_KERN_HEAP_INITIAL_SIZE) 0xCFFFF000 0 0 m
      = .ok m') : Booted dir K { m' with heap_ready := true } := by
  obtain ⟨heap, hm'⟩ := init_heap_inv h
  have hmem : EqOutside 0xC0081000 0xC008100C m.mem m'.mem := by
    rw [hm']
    exact put_header_eqOutside m.mem 0xC0081000 1 _
  have hplace : m'.placement_address = m.placement_address := by rw [hm']
  have habove := mp.placed.above
  have htab : ∀ t, t < 1024 → pd_table m'.mem dir t = pd_table m.mem dir t := fun t ht =>
    hmem.read32 (by omega)
  refine ⟨rfl, by rw [hm']; exact mp.directory, by rw [hm']; exact mp.nframes,
    by rw [hm']; exact mp.frames, hK, by dsimp only; omega, by dsimp only; omega, fun t ht hne => ?_,
    mp.placed.tables.congr htab, fun t h4 ht hne => (htab t ht).trans (hslots t h4 ht hne),
    fun q hq => ?_, fun q hq hqt => ?_⟩
  · dsimp only at hne ⊢
    rw [htab t ht] at hne ⊢
    rw [hplace]
    exact (mp.placed.table t ht hne).2
  · obtain ⟨h1, h2⟩ := mp.table q hq
    dsimp only
    rw [htab _ (by omega)]
    exact ⟨h1, h2⟩
  · dsimp only at hqt ⊢
    rw [htab _ (by omega)] at hqt
    have htable := mp.placed.table _ (show q / 1024 < 1024 by omega) hqt
    rw [page_entry, htab _ (by omega), hmem.read32 (by omega)]
    exact mp.entry q hq hqt

/-- The frame of a mapped page. -/
theorem Booted.page {dir K q n : Nat} {m : Machine} (bt : Booted dir K m)
    (hq : bootPages K 256 q = some n) (a : Nat) (ha : a / 0x1000 = q) :
    lookup_page m.mem a dir ≠ 0 ∧ (read_page m.mem (lookup_page m.mem a dir)).p_present = 1
      ∧ (read_page m.mem (lookup_page m.mem a dir)).p_frame = n := by
  obtain ⟨h1, h2⟩ := bt.pages q (by rw [hq]; simp)
  have hroom := bt.room
  have hn : n < 4096 := by
    unfold bootPages at hq
    split at hq
    · simp only [Option.some.injEq] at hq; omega
    · split at hq
      · simp only [Option.some.injEq] at hq; omega
      · exact absurd hq (by simp)
  have hne : lookup_page m.mem a dir ≠ 0 := lookup_page_ne_zero.mpr (by rw [ha]; exact h2)
  have hl : lookup_page m.mem a dir = page_entry m.mem dir q := by
    rw [lookup_page_eq, ha, if_pos h2]
  refine ⟨hne, ?_, ?_⟩
  · rw [hl, read_page, bt.entry q h1 h2, hq]
    show (5 + 4096 * n) % 2 = 1
    omega
  · rw [hl, read_page, bt.entry q h1 h2, hq]
    show (5 + 4096 * n) / 4096 % 1048576 = n
    omega

/-- The bump pointer does not wrap during `init_paging`. -/
structure BootNoWrap (rounds : Nat) (m : Machine) : Prop where
  setup : setup_end m.placement_address < 4294967296
  loop : ∀ m', init_paging_setup (alloc 0) m = .ok m' → IdentityNoWrap (alloc 0) rounds 0 m'

theorem init_paging_booted {rounds : Nat} {m₀ m : Machine} (hready : m₀.heap_ready = false)
    (hlow : 0x1000 ≤ m₀.placement_address) (hwrap : BootNoWrap rounds m₀)
    (h : init_paging rounds m₀ = .ok m) :
    ∃ m₁ K, init_paging_setup (alloc 0) m₀ = .ok m₁ ∧ Booted m₁.kernel_directory K m := by
  obtain ⟨m₁, hsetup, mp, ht, hslots, -⟩ := init_paging_setup_spec (alloc 0) hready hlow hwrap.setup
  simp only [init_paging, hsetup, ok_bind, bind_ok_iff] at h
  obtain ⟨m₂, hmap, m₃, hheap, m₄, hinit, h⟩ := h
  have mp₁ : Mapped m₁.kernel_directory (identityPages 0) 0 m₁ := mp
  obtain ⟨K, hK, mp₂, hcov, hkeep⟩ :=
    identity_map_spec rounds 0 mp₁ (by omega) (hwrap.loop m₁ hsetup) hmap
  rw [← bootPages_zero] at mp₂
  obtain ⟨mp₃, hplace, hroom, htab⟩ := alloc_heap_pages_spec hK heap_initial_pages 0 mp₂
    (by rw [hkeep 768 (by decide) (by decide)]; exact ht) (by decide) hheap
  have hroom := hroom (by decide)
  rw [← hplace] at hcov
  injection h with h
  rw [← h]
  refine ⟨m₁, K, hsetup, mp₃.booted hroom hcov (fun t h4 ht hne => ?_) hinit⟩
  rw [htab t ht, hkeep t h4 ht]
  exact hslots t ht hne

/-- **Identity mapping after boot.**  From every `placement_address` of at least one page: the
    identity mapping loop ends, within 4097 rounds; and when `init_paging` returns, every address below
    the final `placement_address` is present and mapped to the frame of its own number, every page of
    the initial heap is present, and the heap's frames differ from each other and from all of those. -/
theorem identity_mapping_after_boot (m₀ : Machine) (hready : m₀.heap_ready = false)
    (hlow : 0x1000 ≤ m₀.placement_address) :
    (∀ rounds, 4097 ≤ rounds → BootNoWrap rounds m₀ → init_paging rounds m₀ ≠ .error .fuel)
      ∧ ∀ rounds m, BootNoWrap rounds m₀ → init_paging rounds m₀ = .ok m →
        (∀ fuel v, v < m.placement_address →
          ∃ p, get_page (alloc fuel) v false m.kernel_directory m = .ok (p, m) ∧ p ≠ 0
            ∧ (read_page m.mem p).p_present = 1 ∧ (read_page m.mem p).p_frame = v / 0x1000)
        ∧ (∀ fuel a, VM_KERN_HEAP_START ≤ a → a < VM_KERN_HEAP_START + VM_KERN_HEAP_INITIAL_SIZE →
          ∃ p, get_page (alloc fuel) a false m.kernel_directory m = .ok (p, m) ∧ p ≠ 0
            ∧ (read_page m.mem p).p_present = 1
            ∧ (∀ v, v < m.placement_address → (read_page m.mem p).p_frame ≠ v / 0x1000)
            ∧ ∀ b q, VM_KERN_HEAP_START ≤ b → b < VM_KERN_HEAP_START + VM_KERN_HEAP_INITIAL_SIZE →
              a / 0x1000 ≠ b / 0x1000 →
              get_page (alloc fuel) b false m.kernel_directory m = .ok (q, m) →
              (read_page m.mem p).p_frame ≠ (read_page m.mem q).p_frame) := by
  refine ⟨fun rounds hr hwrap => ?_, fun rounds m hwrap h => ?_⟩
  · obtain ⟨m₁, hsetup, mp, -, -, -⟩ := init_paging_setup_spec (alloc 0) hready hlow hwrap.setup
    have mp₁ : Mapped m₁.kernel_directory (identityPages 0) 0 m₁ := mp
    rw [init_paging, hsetup, ok_bind]
    refine bind_ne_fuel (identity_map_ends rounds 0 mp₁ (by omega) (by omega) (hwrap.loop m₁ hsetup))
      fun m₂ _ => bind_ne_fuel (alloc_heap_pages_ne_fuel _ _ _ _) fun m₃ _ => ?_
    obtain ⟨m₄, hinit⟩ := init_heap_returns m₃
    rw [hinit]
    simp
  · obtain ⟨m₁, K, -, bt⟩ := init_paging_booted hready hlow hwrap h
    have hroom := bt.room
    have hcov := bt.covered
    have hid : ∀ v, v < m.placement_address → bootPages K 256 (v / 0x1000) = some (v / 0x1000) :=
      fun v hv => if_pos (by omega)
    have hheap : ∀ a, VM_KERN_HEAP_START ≤ a → a < VM_KERN_HEAP_START + VM_KERN_HEAP_INITIAL_SIZE →
        bootPages K 256 (a / 0x1000) = some (K + (a / 0x1000 - 0xC0000)) := fun a h1 h2 => by
      unfold VM_KERN_HEAP_START VM_KERN_HEAP_INITIAL_SIZE at *
      unfold bootPages
      rw [if_neg (by omega), if_pos (by omega)]
    rw [bt.directory]
    refine ⟨fun fuel v hv => ⟨_, get_page_lookup _ v _ m, bt.page (hid v hv) v rfl⟩,
      fun fuel a h1 h2 => ?_⟩
    obtain ⟨p1, p2, p3⟩ := bt.page (hheap a h1 h2) a rfl
    refine ⟨_, get_page_lookup _ a _ m, p1, p2, fun v hv => ?_, fun b q h3 h4 hab hq => ?_⟩
    · rw [p3]
      omega
    · rw [get_page_lookup] at hq
      simp only [Except.ok.injEq, Prod.mk.injEq, and_true] at hq
      obtain ⟨-, -, q3⟩ := bt.page (hheap b h3 h4) b rfl
      rw [p3, ← hq, q3]
      unfold VM_KERN_HEAP_START VM_KERN_HEAP_INITIAL_SIZE at *
      omega

/-! ## §6. Boots that succeed. -/

/-- A free frame is left, so the page gets it. -/
theorem Mapped.alloc_frame_returns {dir k q : Nat} {f : Nat → Option Nat} {m : Machine}
    (mp : Mapped dir f k m) (hk : k < 4096) (hq : q < 1048576)
    (ht : pd_table m.mem dir (q / 1024) ≠ 0) (hf : f q = none) :
    ∃ m', alloc_frame (page_entry m.mem dir q) 0 0 m = .ok m' := by
  have hfree : first_frame m.frames m.nframes ≠ 0xFFFFFFFF := by
    rw [mp.nframes]
    exact fun h => absurd ((first_frame_full mp.frames).mp h) (by omega)
  unfold alloc_frame
  dsimp only
  rw [mp.no_frame hq ht hf, if_neg (fun h => h rfl), if_neg hfree]
  exact ⟨_, rfl⟩

/-- Within the first 4 MB one table serves the whole loop, which then runs to the end. -/
theorem identity_map_returns (alloc : AllocFn) {dir K : Nat} (hK : K ≤ 1024) :
    ∀ (n k : Nat) {m : Machine}, Mapped dir (identityPages k) k m → pd_table m.mem dir 0 ≠ 0 →
    m.placement_address = 0x1000 * K → k ≤ K → K ≤ n + k →
    (∃ m', identity_map alloc n (0x1000 * k) m = .ok m' ∧ Mapped dir (identityPages K) K m'
        ∧ ∀ t, t < 1024 → pd_table m'.mem dir t = pd_table m.mem dir t)
      ∧ IdentityNoWrap alloc n (0x1000 * k) m := by
  intro n
  induction n with
  | zero =>
      intro k m mp ht hp hk hn
      rw [identity_map, if_neg (by omega)]
      rw [show k = K by omega] at mp
      exact ⟨⟨m, rfl, mp, fun _ _ => rfl⟩, trivial⟩
  | succ n ih =>
      intro k m mp ht hp hk hn
      by_cases hi : 0x1000 * k < m.placement_address
      · have hq : 0x1000 * k / 4096 = k := by omega
        have hslot : k / 1024 = 0 := by omega
        have hget : get_page alloc (0x1000 * k) true m.kernel_directory m
            = .ok (page_entry m.mem dir k, m) := by
          rw [mp.directory, get_page, if_pos (show read32 m.mem (dir + 4 * (0x1000 * k / 0x1000 / 1024)) ≠ 0
            by rw [hq, hslot]; exact ht), lookup_page_eq, hq, hslot, if_pos ht]
        have hnone : identityPages k k = none := if_neg (by omega)
        obtain ⟨m', hall⟩ := mp.alloc_frame_returns (by omega) (by omega) (by rw [hslot]; exact ht) hnone
        obtain ⟨-, mp', hplace, htab⟩ :=
          mp.alloc_frame_spec (by omega) (by rw [hslot]; exact ht) hnone hall
        rw [mapPage_identityPages] at mp'
        have hstep : add32 (0x1000 * k) 0x1000 = 0x1000 * (k + 1) := by
          rw [add32_of_lt (by omega)]; omega
        obtain ⟨⟨m'', hrest, mp'', htab'⟩, hwrap⟩ := ih (k + 1) mp' (by rw [htab 0 (by decide)]; exact ht)
          (by omega) (by omega) (by omega)
        refine ⟨⟨m'', ?_, mp'', fun t ht' => (htab' t ht').trans (htab t ht')⟩,
          fun _ => ⟨fun hc => ?_, fun p m₁ m₂ h1 h2 => ?_⟩⟩
        · rw [identity_map, if_pos hi, hget, ok_bind]
          dsimp only
          rw [hall, ok_bind, hstep, hrest]
        · rw [Creates, mp.directory, hq, hslot] at hc
          exact absurd hc.2 ht
        · rw [hget] at h1
          simp only [Except.ok.injEq, Prod.mk.injEq] at h1
          obtain ⟨rfl, rfl⟩ := h1
          rw [← Except.ok.inj (hall.symm.trans h2), hstep]
          exact hwrap
      · rw [show k = K by omega] at mp
        refine ⟨⟨m, ?_, mp, fun _ _ => rfl⟩, fun h => absurd h hi⟩
        rw [identity_map, if_neg hi]

theorem alloc_heap_pages_returns (alloc : AllocFn) {dir K : Nat} (hK : K + 256 ≤ 4096) :
    ∀ (n j : Nat) {m : Machine}, Mapped dir (bootPages K j) (K + j) m →
    pd_table m.mem dir 768 ≠ 0 → j + n ≤ 256 →
    ∃ m', alloc_heap_pages alloc n (0xC0000000 + 0x1000 * j) m = .ok m' := by
  intro n
  induction n with
  | zero => intro j m mp ht hj; exact ⟨m, rfl⟩
  | succ n ih =>
      intro j m mp ht hj
      have hq : (0xC0000000 + 0x1000 * j) / 4096 = 0xC0000 + j := by omega
      have hslot : (0xC0000 + j) / 1024 = 768 := by omega
      have hnone : bootPages K j (0xC0000 + j) = none := by
        unfold bootPages
        rw [if_neg (by omega), if_neg (by omega)]
      obtain ⟨m₁, hall⟩ := mp.alloc_frame_returns (by omega) (by omega) (by rw [hslot]; exact ht) hnone
      obtain ⟨-, mp₁, -, htab⟩ := mp.alloc_frame_spec (by omega) (by rw [hslot]; exact ht) hnone hall
      rw [mapPage_bootPages (by omega)] at mp₁
      rw [alloc_heap_pages, mp.directory, get_page_lookup, ok_bind]
      dsimp only
      rw [lookup_page_eq, hq, hslot, if_pos ht, hall, ok_bind, add32_of_lt (by omega),
        show 0xC0000000 + 0x1000 * j + 0x1000 = 0xC0000000 + 0x1000 * (j + 1) by omega]
      exact ih (j + 1) mp₁ (by rw [htab 768 (by decide)]; exact ht) (by omega)

/-- **`init_paging` returns** when the kernel and the ramdisk end well below 4 MB, with frames to spare. -/
theorem init_paging_returns (m₀ : Machine) (hready : m₀.heap_ready = false)
    (hlow : 0x1000 ≤ m₀.placement_address) (hsmall : m₀.placement_address ≤ 0x3F0000) :
    ∃ m, init_paging 1024 m₀ = .ok m ∧ BootNoWrap 1024 m₀ ∧ ∀ l, 1280 ≤ l → frameSet m.frames l = false := by
  have hend := setup_end_eq m₀.placement_address
  obtain ⟨m₁, hsetup, mp, ht, hslots, hp⟩ :=
    init_paging_setup_spec (alloc 0) hready hlow (by omega)
  have mp₁ : Mapped m₁.kernel_directory (identityPages 0) 0 m₁ := mp
  -- the first round makes the table of the first 4 MB
  have hmiss : pd_table m₁.mem m₁.kernel_directory (0 / 4096 / 1024) = 0 := hslots 0 (by decide) (by decide)
  have hnext := next_table_eq m₁
  have hget := get_page_create (alloc 0) mp.placed.ready mp.placed.low mp.placed.high
    (by omega) hmiss
  obtain ⟨mp₂, hpage, ht₂, hp₂, hkeep⟩ := mp₁.get_page_spec (by decide) (fun _ => by omega) hget
  rw [if_pos hmiss] at hp₂
  generalize hm₂ : ({ m₁ with placement_address := next_table m₁ + 4096
                              mem := table_made m₁ m₁.kernel_directory (0 / 4096 / 1024) } : Machine) = m₂
    at hget mp₂ hpage ht₂ hp₂ hkeep
  obtain ⟨m₃, hall⟩ := mp₂.alloc_frame_returns (q := 0) (by decide) (by decide) ht₂ rfl
  obtain ⟨-, mp₃, hp₃, htab₃⟩ := mp₂.alloc_frame_spec (by decide) ht₂ rfl hall
  rw [mapPage_identityPages] at mp₃
  obtain ⟨⟨m₄, hmap, mp₄, htab₄⟩, hwrap⟩ := identity_map_returns (alloc 0) (K := m₃.placement_address / 0x1000)
    (by omega) 1023 1 mp₃ (by rw [htab₃ 0 (by decide)]; exact ht₂) (by omega) (by omega) (by omega)
  have hloop : identity_map (alloc 0) 1024 0 m₁ = .ok m₄ := by
    show identity_map (alloc 0) (1023 + 1) 0 m₁ = _
    rw [identity_map, if_pos (by omega), hget, ok_bind]
    dsimp only
    rw [hpage, hall, ok_bind]
    exact hmap
  have hnowrap : IdentityNoWrap (alloc 0) 1024 0 m₁ := fun _ => by
    refine ⟨fun _ => by omega, fun p m m' h1 h2 => ?_⟩
    rw [hget] at h1
    obtain ⟨h3, h4⟩ := Prod.mk.inj (Except.ok.inj h1)
    rw [← h3, ← h4, hpage] at h2
    rw [← Except.ok.inj (hall.symm.trans h2)]
    exact hwrap
  -- the rest of `init_paging`
  rw [← bootPages_zero] at mp₄
  have ht₄ : pd_table m₄.mem m₁.kernel_directory 768 ≠ 0 := by
    rw [htab₄ 768 (by decide), htab₃ 768 (by decide), hkeep 768 (by decide) (by decide)]
    exact ht
  obtain ⟨m₅, hheap⟩ := alloc_heap_pages_returns (alloc 0) (by omega) heap_initial_pages 0 mp₄ ht₄
    (by decide)
  obtain ⟨mp₅, -, -, -⟩ := alloc_heap_pages_spec (by omega) heap_initial_pages 0 mp₄ ht₄ (by decide) hheap
  obtain ⟨m₆, hinit⟩ := init_heap_returns m₅
  obtain ⟨heap, hm₆⟩ := init_heap_inv hinit
  refine ⟨{ m₆ with heap_ready := true }, ?_, ⟨by omega, fun m' h => ?_⟩, fun l hl => ?_⟩
  · have hpages : alloc_heap_pages (alloc 0) heap_initial_pages VM_KERN_HEAP_START m₄ = .ok m₅ := hheap
    rw [init_paging, hsetup, ok_bind, hloop, ok_bind, hpages, ok_bind, hinit, ok_bind]
  · rw [← Except.ok.inj (hsetup.symm.trans h)]
    exact hnowrap
  · have hpages : heap_initial_pages = 256 := rfl
    have hframe := mp₅.frames l
    rw [hm₆]
    exact hframe.trans (decide_eq_false (by omega))

/-- A boot with the kernel and the ramdisk ending at 1 MB: the first page of the heap is present. -/
theorem identity_mapping_after_boot_at_1M :
    ∃ m, init_paging 1024 (Machine.bare 0x100000) = .ok m
      ∧ ∃ p, get_page (alloc 0) 0xC0000000 false m.kernel_directory m = .ok (p, m) ∧ p ≠ 0
        ∧ (read_page m.mem p).p_present = 1 := by
  obtain ⟨m, h, hwrap, -⟩ := init_paging_returns (Machine.bare 0x100000) rfl (by decide) (by decide)
  obtain ⟨-, hheap⟩ :=
    (identity_mapping_after_boot (Machine.bare 0x100000) rfl (by decide)).2 1024 m hwrap h
  obtain ⟨p, h1, h2, h3, -⟩ := hheap 0 0xC0000000 (by decide) (by decide)
  exact ⟨m, h, p, h1, h2, h3⟩

end JamesM
