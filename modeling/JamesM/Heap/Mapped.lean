/-
  JamesM.Heap.Mapped — which pages of the heap are mapped.

  `init_paging` maps the pages of the initial heap, and `expand` those of the space
  it adds: as long as the heap only grows, a page of its address range is present
  exactly if it lies below the end.  `contract` moves the end down and takes the
  frames of the pages above it back, but `free_frame` leaves `p_present` as it is:
  after a free that contracts, pages above the end are still present.

  The page tables of the new space exist here, so that nothing is nested.

  Main result: `heap_pages_follow_the_end`.
-/
import JamesM.Heap.Growth
import JamesM.Heap.Coalesce
import JamesM.Heap.Roundings
import JamesM.Boot.Identity

namespace JamesM

open JamesM.ByteMem JamesM.Word32 JamesM.Lib

/-! ## §1. Page entries that stay. -/

/-- The page of address `a` is present. -/
def PagePresent (m : Machine) (a : Nat) : Prop :=
  lookup_page m.mem a m.kernel_directory ≠ 0
    ∧ (read_page m.mem (lookup_page m.mem a m.kernel_directory)).p_present = 1

theorem pagePresent_iff {m : Machine} {a : Nat} :
    PagePresent m a ↔ pd_table m.mem m.kernel_directory (a / 4096 / 1024) ≠ 0
      ∧ (pageAt m (a / 4096)).p_present = 1 := by
  unfold PagePresent
  rw [lookup_page_ne_zero]
  refine and_congr_right fun h => ?_
  rw [lookup_page_eq, if_pos h]
  rfl

/-- No table has moved and no entry has changed. -/
structure EntriesKept (m m' : Machine) : Prop where
  directory : m'.kernel_directory = m.kernel_directory
  tables : ∀ t, t < 1024 → pd_table m'.mem m.kernel_directory t = pd_table m.mem m.kernel_directory t
  entry : ∀ q, q < 1048576 → pd_table m.mem m.kernel_directory (q / 1024) ≠ 0 → pageAt m' q = pageAt m q

/-- A change of memory that no table sees. -/
theorem EntriesKept.of_outside {m m' : Machine} {lo hi : Nat} (hdir : m'.kernel_directory = m.kernel_directory)
    (htab : ∀ t, t < 1024 → pd_table m'.mem m.kernel_directory t = pd_table m.mem m.kernel_directory t)
    (hout : EqOutside lo hi m.mem m'.mem)
    (hapart : ∀ t, t < 1024 → pd_table m.mem m.kernel_directory t ≠ 0 →
      hi ≤ pd_table m.mem m.kernel_directory t ∨ pd_table m.mem m.kernel_directory t + 4096 ≤ lo) :
    EntriesKept m m' := by
  refine ⟨hdir, htab, fun q hq hne => ?_⟩
  have := hapart (q / 1024) (by omega) hne
  unfold pageAt read_page page_entry
  rw [hdir, htab _ (by omega), hout.read32 (by omega)]

/-- A change inside a hole, or inside a block of a client. -/
theorem Kernel.entries_kept {regs : List Region} {live : List (Nat × Nat)} {m m' : Machine}
    (k : Kernel regs live m) {r : Region} (hr : r ∈ regs)
    (hor : r.hole = true ∨ r.addr + 12 ∈ live.map Prod.fst) (hdir : m'.kernel_directory = m.kernel_directory)
    (hout : EqOutside r.addr (r.addr + r.size) m.mem m'.mem) : EntriesKept m m' := by
  obtain ⟨h1, h2, -⟩ := k.heap.region_bounds hr
  have hmax := k.heap.bounds.max
  have hoff := k.paging.dir_off
  refine .of_outside hdir (fun t ht => hout.read32 (by omega)) hout fun t ht hne => ?_
  exact (k.heap.table_apart (k.paging.place t ht hne) hr).2.2 hor

/-- The same, for a region of the heap as it is afterwards. -/
theorem Kernel.entries_kept_after {regs : List Region} {live : List (Nat × Nat)} {m m' : Machine}
    (k : Kernel regs live m') {r : Region} (hr : r ∈ regs)
    (hor : r.hole = true ∨ r.addr + 12 ∈ live.map Prod.fst) (hdir : m'.kernel_directory = m.kernel_directory)
    {lo hi : Nat} (hlo : r.addr ≤ lo) (hhi : hi ≤ r.addr + r.size) (hout : EqOutside lo hi m.mem m'.mem) :
    EntriesKept m m' := by
  obtain ⟨h1, h2, -⟩ := k.heap.region_bounds hr
  have hmax := k.heap.bounds.max
  have hoff := k.paging.dir_off
  have htab : ∀ t, t < 1024 → pd_table m'.mem m.kernel_directory t = pd_table m.mem m.kernel_directory t :=
    fun t ht => hout.read32 (by omega)
  refine .of_outside hdir htab hout fun t ht hne => ?_
  have hplace := k.paging.place t ht
  rw [hdir, htab t ht] at hplace
  have := (k.heap.table_apart (hplace hne) hr).2.2 hor
  omega

/-! ## §2. The pages of the heap. -/

/-- **The map follows the bounds.**  A page of the heap's address range is present if and only if it is
    below the end of the heap, rounded up to a page. -/
def MapFollowsBounds (m : Machine) : Prop :=
  ∀ a, m.heap.h_addr_start ≤ a → a < m.heap.h_addr_max → (PagePresent m a ↔ a < pageCeil m.heap.h_addr_end)

/-- The pages below the end are present; those above, where they have an entry at all, are neither
    present nor do they have a frame. -/
structure HeapPages (m : Machine) : Prop where
  below : ∀ q, m.heap.h_addr_start / 4096 ≤ q → q < m.heap.h_addr_end / 4096 → (pageAt m q).p_present = 1
  above : ∀ q, m.heap.h_addr_end / 4096 ≤ q → 4096 * q < m.heap.h_addr_max →
    pd_table m.mem m.kernel_directory (q / 1024) ≠ 0 → (pageAt m q).p_present = 0 ∧ (pageAt m q).p_frame = 0

theorem HeapPages.follows {regs : List Region} {live : List (Nat × Nat)} {m : Machine} (hp : HeapPages m)
    (k : Kernel regs live m) : MapFollowsBounds m := by
  obtain ⟨b1, b2, b3, b4, b5, b6, b7⟩ := id k.heap.bounds
  intro a ha hmax
  rw [pagePresent_iff]
  unfold pageCeil
  by_cases hlt : a / 4096 < m.heap.h_addr_end / 4096
  · exact iff_of_true ⟨k.paging.mapped _ (by omega) (by omega), hp.below _ (by omega) hlt⟩ (by omega)
  · refine iff_of_false (fun h => ?_) (by omega)
    have hzero := (hp.above (a / 4096) (by omega) (by omega) h.1).1
    omega

/-- A step that keeps the entries and the bounds. -/
theorem HeapPages.kept {m m' : Machine} (hp : HeapPages m) (ek : EntriesKept m m')
    (hmapped : ∀ q, m.heap.h_addr_start / 0x1000 ≤ q → q < m.heap.h_addr_end / 0x1000 →
      pd_table m.mem m.kernel_directory (q / 1024) ≠ 0)
    (hhigh : m.heap.h_addr_max < 4294967296) (hmax : m.heap.h_addr_end ≤ m.heap.h_addr_max)
    (hstart : m'.heap.h_addr_start = m.heap.h_addr_start) (hend : m'.heap.h_addr_end = m.heap.h_addr_end)
    (hmax' : m'.heap.h_addr_max = m.heap.h_addr_max) : HeapPages m' := by
  refine ⟨fun q h1 h2 => ?_, fun q h1 h2 h3 => ?_⟩
  · rw [hstart] at h1
    rw [hend] at h2
    rw [ek.entry q (by omega) (hmapped q h1 h2)]
    exact hp.below q h1 h2
  · rw [hend] at h1
    rw [hmax'] at h2
    rw [ek.directory, ek.tables _ (by omega)] at h3
    rw [ek.entry q (by omega) h3]
    exact hp.above q h1 h2 h3

theorem Kernel.pages_kept {regs : List Region} {live : List (Nat × Nat)} {m m' : Machine}
    (k : Kernel regs live m) (hp : HeapPages m) (ek : EntriesKept m m')
    (hstart : m'.heap.h_addr_start = m.heap.h_addr_start) (hend : m'.heap.h_addr_end = m.heap.h_addr_end)
    (hmax : m'.heap.h_addr_max = m.heap.h_addr_max) : HeapPages m' :=
  hp.kept ek k.paging.mapped k.heap.bounds.high k.heap.bounds.max hstart hend hmax

/-! ## §3. A request. -/

/-- Carving a block. -/
theorem Kernel.carve_pages {regs : List Region} {live : List (Nat × Nat)} {m m' : Machine} {size : Nat}
    {page_align : Bool} {i p : Nat} (k : Kernel regs live m) (hp : HeapPages m)
    (hi : i < m.heap.h_index.sa_size)
    (hfits : hole_fits m.mem (size + 20) page_align (m.heap.h_index.sa_array i) = true)
    (hsmall : size + 20 < 2147483648)
    (hsafe : CarveSafe size page_align (m.heap.h_index.sa_array i) m.mem)
    (h : alloc_carve size page_align i m = .ok (p, m')) : HeapPages m' := by
  obtain ⟨pre, g, post, rfl, hhole, -, -, -, -, hout, -, hm', -⟩ := k.heap.carve hi hfits hsmall hsafe h
  have ek : EntriesKept m m' := k.entries_kept (r := g) (by simp) (.inl hhole) (by rw [hm']) hout
  exact k.pages_kept hp ek (by rw [hm']) (by rw [hm']) (by rw [hm'])

/-- **A growth** maps the pages of the new space, because none of them had a frame. -/
theorem Kernel.grow_pages {regs : List Region} {live : List (Nat × Nat)} {m m' : Machine} {f : AllocFn}
    {n : Nat} (k : Kernel regs live m) (hp : HeapPages m)
    (hhole : ∀ m₁, grow_loop f n m = .ok m₁ → Kernel regs live m₁ → m₁.heap = m.heap → EndHole m₁)
    (hroom : m.heap.h_addr_end + n + 0x1000 < 4294967296)
    (hmap : HasTables m (m.heap.h_addr_end / 4096) ((m.heap.h_addr_end + growth n) / 4096))
    (h : alloc_grow f n m = .ok m') : HeapPages m' := by
  obtain ⟨b1, b2, b3, b4, b5, b6, b7⟩ := id k.heap.bounds
  obtain ⟨hd1, hd2, hd3⟩ := growth_facts n
  obtain ⟨m₁, pre, olds, g, hg, k₁, -, hgh, -, hge, k', hp', hend', hout, -⟩ :=
    k.grow_paged_parts hhole hroom hmap h
  have hheap₁ : m₁.heap = m.heap := by rw [hg.heap]
  have hdir₁ : m₁.kernel_directory = m.kernel_directory := by rw [hg.heap]
  have hmax' := k'.heap.bounds.max
  have hmaxeq := hp'.max
  have hstart := hp'.start
  rw [hheap₁] at hmaxeq hstart
  have htop : (m.heap.h_addr_end + growth n) / 4096 ≤ 1048576 := by omega
  have ek : EntriesKept m₁ m' :=
    k'.entries_kept_after (r := g) (by simp) (.inl hgh) hp'.directory (Nat.le_refl _) (Nat.le_of_eq hge.symm) hout
  -- what the loop has done to the entries
  have hpage : ∀ q, q < 1048576 → pd_table m.mem m.kernel_directory (q / 1024) ≠ 0 →
      pageAt m' q = pageAt m₁ q := by
    intro q hq hne
    apply ek.entry q hq
    rw [hdir₁, hg.tables _ (by omega)]
    exact hne
  refine ⟨fun q h1 h2 => ?_, fun q h1 h2 h3 => ?_⟩
  · rw [hstart] at h1
    rw [hend'] at h2
    by_cases hold : q < m.heap.h_addr_end / 4096
    · have hne := k.paging.mapped q h1 hold
      rw [hpage q (by omega) hne, hg.other k.paging.tables hmap htop (by omega) (.inl hold) hne]
      exact hp.below q h1 hold
    · have hne := hmap q (by omega) h2
      obtain ⟨-, hframe⟩ := hp.above q (by omega) (by omega) hne
      rw [hpage q (by omega) hne]
      rcases hg.page q (by omega) h2 with ⟨hf, -⟩ | ⟨-, hpresent, -⟩
      · exact absurd hframe hf
      · exact hpresent
  · rw [hend'] at h1
    rw [hmaxeq] at h2
    have hne : pd_table m.mem m.kernel_directory (q / 1024) ≠ 0 := by
      have htab := ek.tables (q / 1024) (by omega)
      rw [hdir₁, hg.tables _ (by omega)] at htab
      rw [hp'.directory, hdir₁, htab] at h3
      exact h3
    rw [hpage q (by omega) hne, hg.other k.paging.tables hmap htop (by omega) (.inr h1) hne]
    exact hp.above q (by omega) h2 hne

/-- In every round of the call that grows the heap, the pages of the new space have tables. -/
def GrowsTabled (size : Nat) (page_align : Bool) (m : Machine) : Prop :=
  ∀ m', Relation.ReflTransGen (Retry size page_align) m m' →
    find_smallest_hole (size + 20) page_align m' = -1 →
    HasTables m' (m'.heap.h_addr_end / 4096) ((m'.heap.h_addr_end + growth (size + 20)) / 4096)

/-- **A request.** -/
theorem Kernel.alloc_pages {fuel : Nat} : ∀ {regs : List Region} {live : List (Nat × Nat)} {m m' : Machine}
    {size : Nat} {page_align : Bool} {p : Nat}, Kernel regs live m → HeapPages m →
    size + 20 < 2147483648 → Guard.isolation.AllocOk size page_align m → GrowsTabled size page_align m →
    JamesM.alloc fuel size page_align m = .ok (p, m') →
    HeapPages m' ∧ m'.heap.h_addr_start = m.heap.h_addr_start ∧ m.heap.h_addr_end ≤ m'.heap.h_addr_end := by
  induction fuel with
  | zero => intro _ _ _ _ _ _ _ _ _ _ _ _ h; exact absurd h (by simp [JamesM.alloc])
  | succ fuel ih =>
      intro regs live m m' size page_align p k hp hsize ok htabs h
      rcases ok.alloc_cases (by omega) h with ⟨j, -, hlt, hfits, hcarve, h⟩ | ⟨m₁, hgrow, hretry, h⟩
      · obtain ⟨_, _, _, hpr, hend, -⟩ := k.carve hlt hfits hsize hcarve h
        exact ⟨k.carve_pages hp hlt hfits hsize hcarve h, hpr.start, Nat.le_of_eq hend.symm⟩
      · obtain ⟨regs₁, -, k₁, hpr₁, hend₁, -⟩ := k.grow hgrow hretry.2
        have hmap := htabs m .refl hretry.1
        have hp₁ := k.grow_pages hp (fun m₂ hloop _ _ => hgrow.space m₂ hloop) hgrow.room hmap hretry.2
        obtain ⟨hp', hstart', hend'⟩ :=
          ih k₁ hp₁ hsize (ok.retry hretry) (fun m'' h'' => htabs m'' (.head hretry h'')) h
        exact ⟨hp', hstart'.trans hpr₁.start, by omega⟩

/-! ## §4. A free. -/

/-- A free that does not contract. -/
theorem Kernel.free_pages {regs : List Region} {live : List (Nat × Nat)} {m m' : Machine} {p : Nat}
    (k : Kernel regs live m) (hpages : HeapPages m) (hp : p ∈ live.map Prod.fst) (hsafe : FreeSafe p m)
    (hstay : freed_end (p - 12) m.mem ≠ m.heap.h_addr_end) (h : JamesM.free p m = .ok m') : HeapPages m' := by
  obtain ⟨pre, lefts, b, rights, post, rfl, -, -, -, -, htiled, k', hpr, hend, -, -, hout⟩ := k.free hp hsafe h
  obtain ⟨hout, -⟩ := hout hstay
  have hb := htiled.bounds b (by simp)
  have hsize : freed_size (p - 12) m = freed_end (p - 12) m.mem - freed_start (p - 12) m.mem := if_neg hstay
  have ek : EntriesKept m m' := by
    refine k'.entries_kept_after (r := ⟨freed_start (p - 12) m.mem, freed_size (p - 12) m, true⟩) (by simp)
      (.inl rfl) hpr.directory (Nat.le_refl _) ?_ hout
    dsimp only
    omega
  exact k.pages_kept hpages ek hpr.start (hend hstay) hpr.max

/-- No table has moved and no entry has lost or gained its `p_present`. -/
structure PresentKept (m m' : Machine) : Prop where
  directory : m'.kernel_directory = m.kernel_directory
  tables : ∀ t, t < 1024 → pd_table m'.mem m.kernel_directory t = pd_table m.mem m.kernel_directory t
  present : ∀ q, q < 1048576 → pd_table m.mem m.kernel_directory (q / 1024) ≠ 0 →
    (pageAt m' q).p_present = (pageAt m q).p_present

theorem EntriesKept.present {m m' : Machine} (ek : EntriesKept m m') : PresentKept m m' :=
  ⟨ek.directory, ek.tables, fun q hq hne => by rw [ek.entry q hq hne]⟩

theorem PresentKept.trans {m m' m'' : Machine} (h : PresentKept m m') (h' : PresentKept m' m'') :
    PresentKept m m'' := by
  have htab := h'.tables
  have hpres := h'.present
  rw [h.directory] at htab hpres
  refine ⟨h'.directory.trans h.directory, fun t ht => (htab t ht).trans (h.tables t ht), fun q hq hne => ?_⟩
  rw [hpres q hq (by rw [h.tables _ (by omega)]; exact hne)]
  exact h.present q hq hne

/-- **`free_frame` does not unmap**: it clears `p_frame` only. -/
theorem free_frame_present {m : Machine} {q : Nat} (tb : Tables m.kernel_directory m.mem) (hq : q < 1048576)
    (hne : pd_table m.mem m.kernel_directory (q / 1024) ≠ 0) :
    PresentKept m (free_frame (page_entry m.mem m.kernel_directory q) m) := by
  unfold free_frame
  dsimp only
  split
  · exact ⟨rfl, fun _ _ => rfl, fun _ _ _ => rfl⟩
  · obtain ⟨htab, -, hentry⟩ := tb.store_page hq hne
      (VmPage.encode_lt { read_page m.mem (page_entry m.mem m.kernel_directory q) with p_frame := 0 }) rfl
    refine ⟨rfl, htab, fun r hr hrne => ?_⟩
    refine (congrArg (fun w => (VmPage.decode w).p_present) (hentry r hr hrne)).trans ?_
    dsimp only
    by_cases hrq : r = q
    · rw [if_pos hrq, hrq, VmPage.decode_encode]
      exact Nat.mod_eq_of_lt (Nat.mod_lt _ Nat.two_pos)
    · rw [if_neg hrq]
      rfl

/-- **The loop of `contract` does not unmap.** -/
theorem Kernel.contract_loop_present {regs : List Region} {live : List (Nat × Nat)} (new_size n : Nat) :
    ∀ {i : Nat} {m : Machine}, Kernel regs live m → i % 0x1000 = 0 →
      m.heap.h_addr_start + i < m.heap.h_addr_end →
      PresentKept m (JamesM.contract_loop new_size n i m) := by
  induction n with
  | zero => intro i m _ _ _; exact ⟨rfl, fun _ _ => rfl, fun _ _ _ => rfl⟩
  | succ n ih =>
      intro i m k halign hi
      rw [JamesM.contract_loop]
      by_cases hlt : new_size < i
      · rw [if_pos hlt]
        obtain ⟨b1, b2, b3, b4, b5, b6, b7⟩ := id k.heap.bounds
        have ha : add32 m.heap.h_addr_start i = m.heap.h_addr_start + i := add32_of_lt (by omega)
        have hmapped := k.paging.mapped ((m.heap.h_addr_start + i) / 4096) (by omega) (by omega)
        rw [ha, lookup_page_eq, if_pos hmapped]
        have hpres := free_frame_present k.paging.tables (q := (m.heap.h_addr_start + i) / 4096) (by omega) hmapped
        obtain ⟨k₁, -, hheap₁, -⟩ := k.free_frame (isEntry_page_entry (by omega) hmapped)
        have hsub : sub32 i 0x1000 = i - 0x1000 := sub32_of_le (by omega) (by omega)
        exact hpres.trans (ih k₁ (by omega) (by rw [hheap₁]; omega))
      · rw [if_neg hlt]
        exact ⟨rfl, fun _ _ => rfl, fun _ _ _ => rfl⟩

/-- **A free that contracts** brings the end of the heap down to the minimal length, and every page that
    was present still is. -/
theorem Kernel.free_contract_present {regs : List Region} {live : List (Nat × Nat)} {m m' : Machine} {p : Nat}
    (k : Kernel regs live m) (hp : p ∈ live.map Prod.fst) (hsafe : FreeSafe p m)
    (hlast : freed_end (p - 12) m.mem = m.heap.h_addr_end) (h : JamesM.free p m = .ok m') :
    PresentKept m m' ∧ m'.heap.h_addr_end = m.heap.h_addr_start + VM_HEAP_MIN_SIZE := by
  obtain ⟨pre, lefts, b, rights, post, m₂, m₃, rfl, hbp, hj, hend, hadd⟩ := k.free_joined hp hsafe h
  have haddr : p - 12 = b.addr := by omega
  have hlow := hsafe.tail hlast
  rw [haddr] at hlow hlast
  rw [if_pos hlast] at hend
  obtain ⟨n, i, halign, hi, hm₃⟩ := k.joined_contract hj hbp hp hlast hlow hend
  obtain ⟨b1, b2, b3, b4, b5, b6, b7⟩ := id k.heap.bounds
  have hmin : VM_HEAP_MIN_SIZE = 0x70000 := rfl
  -- the call up to `contract`
  have hlow' := hj.low
  have hout₂ : EqOutside (freed_start b.addr m.mem) (freed_end b.addr m.mem) m.mem m₂.mem :=
    hj.outside.mono (Nat.le_refl _) hj.right.le
  obtain ⟨idx, hidx, hidxcmp⟩ := SortedArray.exists_entries (some vm_heap_header_cmp) 0
    (holes pre ++ freed_start b.addr m.mem :: holes post)
  obtain ⟨k₂, -, -⟩ := k.coalesce idx hbp hp hj.lefts_holes hj.rights_holes hj.left hj.right hj.header hout₂
    hj.machine hidxcmp (by rw [hidx])
  have hdir₂ : m₂.kernel_directory = m.kernel_directory := by rw [hj.machine]
  have ek₂ : EntriesKept m (m₂.withIndex idx) :=
    k₂.entries_kept_after (r := ⟨freed_start b.addr m.mem, freed_end b.addr m.mem - freed_start b.addr m.mem, true⟩)
      (by simp) (.inl rfl) hdir₂ (Nat.le_refl _) (by dsimp only; omega) hout₂
  -- the pages
  have hloop := k₂.contract_loop_present VM_HEAP_MIN_SIZE n halign hi
  rw [contract_loop_withIndex] at hloop
  -- the resizing and the index
  have hcmp₃ : m₃.heap.h_index.sa_cmp = some vm_heap_header_cmp := by
    rw [hm₃]
    exact hj.cmp.trans k.heap.cmp
  obtain ⟨hm', -, -⟩ := free_add_ok hcmp₃ hadd
  obtain ⟨_, _, _, _, _, -, -, -, -, -, -, k', -, -, -, -, -⟩ := k.free hp hsafe h
  have hsize : freed_size (p - 12) m = m.heap.h_addr_start + VM_HEAP_MIN_SIZE - freed_start b.addr m.mem := by
    unfold freed_size
    rw [haddr, if_pos hlast]
  have hstart₂ : m₂.heap.h_addr_start = m.heap.h_addr_start := by rw [hj.machine]
  have hmem' : m'.mem = m₃.mem := by
    rw [hm']
    rfl
  have hout₃ : EqOutside (freed_start b.addr m.mem) (m.heap.h_addr_start + VM_HEAP_MIN_SIZE)
      (JamesM.contract_loop VM_HEAP_MIN_SIZE n i m₂).mem m'.mem := by
    rw [hmem', hm₃, ← hstart₂]
    exact ((EqOutside.refl _ _ _).write32 _ (by omega) (by omega)).trans
      ((put_footer_eqOutside _ _ _).mono (by omega) (by omega))
  have hdir' : m'.kernel_directory = (JamesM.contract_loop VM_HEAP_MIN_SIZE n i m₂).kernel_directory := by
    rw [hm', hm₃]
    rfl
  have ek₃ : EntriesKept ((JamesM.contract_loop VM_HEAP_MIN_SIZE n i m₂).withIndex idx) m' := by
    refine k'.entries_kept_after (r := ⟨freed_start (p - 12) m.mem, freed_size (p - 12) m, true⟩) (by simp)
      (.inl rfl) hdir' (Nat.le_of_eq (by rw [haddr])) ?_ hout₃
    dsimp only
    rw [hsize, haddr]
    omega
  refine ⟨(ek₂.present.trans hloop).trans ek₃.present, ?_⟩
  rw [hm', hm₃, ← hstart₂]
  rfl

/-- What is left of the map after a contraction: the page at the new end is present. -/
theorem Kernel.free_contract_pages {regs : List Region} {live : List (Nat × Nat)} {m m' : Machine} {p : Nat}
    (k : Kernel regs live m) (hpages : HeapPages m) (hp : p ∈ live.map Prod.fst) (hsafe : FreeSafe p m)
    (hlong : m.heap.h_addr_start + VM_HEAP_MIN_SIZE < m.heap.h_addr_end)
    (hlast : freed_end (p - 12) m.mem = m.heap.h_addr_end) (h : JamesM.free p m = .ok m') :
    ¬ MapFollowsBounds m' := by
  obtain ⟨b1, b2, b3, b4, b5, b6, b7⟩ := id k.heap.bounds
  have hmin : VM_HEAP_MIN_SIZE = 0x70000 := rfl
  obtain ⟨hkept, hend'⟩ := k.free_contract_present hp hsafe hlast h
  obtain ⟨_, _, _, _, _, -, -, -, -, -, -, -, hpr, -⟩ := k.free hp hsafe h
  have hstart' := hpr.start
  have hmax' := hpr.max
  intro hfollow
  have hiff := hfollow (m.heap.h_addr_start + VM_HEAP_MIN_SIZE) (by omega) (by omega)
  have hq : (m.heap.h_addr_start + VM_HEAP_MIN_SIZE) / 4096 < m.heap.h_addr_end / 4096 := by omega
  have hmapped := k.paging.mapped ((m.heap.h_addr_start + VM_HEAP_MIN_SIZE) / 4096) (by omega) hq
  have hpresent : PagePresent m' (m.heap.h_addr_start + VM_HEAP_MIN_SIZE) := by
    rw [pagePresent_iff, hkept.directory, hkept.tables _ (by omega), hkept.present _ (by omega) hmapped]
    exact ⟨hmapped, hpages.below _ (by omega) hq⟩
  have hlt := hiff.mp hpresent
  rw [hend'] at hlt
  unfold pageCeil at hlt
  omega

/-! ## §5. Runs. -/

/-- The pages a request adds to the heap have tables. -/
def TablesExist (s : Session) : HeapOp → Prop
  | .alloc size page_align => GrowsTabled size page_align s.machine
  | _ => True

/-- The step does not contract: the hole that a freed block becomes does not reach the end of the heap. -/
def NoContract (s : Session) : HeapOp → Prop
  | .free p => freed_end (p - 12) s.machine.mem ≠ s.machine.heap.h_addr_end
  | _ => True

/-- A sound kernel whose pages follow the bounds of a heap that is longer than the minimum. -/
def Paged (s : Session) : Prop :=
  ∃ regs, Kernel regs s.live s.machine ∧ HeapPages s.machine
    ∧ s.machine.heap.h_addr_start + VM_HEAP_MIN_SIZE < s.machine.heap.h_addr_end

/-- The steps that are considered: safe ones, over tables that exist. -/
def PagedStep (s : Session) (op : HeapOp) (s' : Session) : Prop :=
  (HeapStep s op s' ∧ HeapSafe s op) ∧ TablesExist s op

/-- **A step that does not contract.** -/
theorem Paged.step {s s' : Session} {op : HeapOp} (h : Paged s) (hstay : NoContract s op)
    (hstep : PagedStep s op s') : Paged s' := by
  obtain ⟨regs, k, hp, hlong⟩ := h
  obtain ⟨⟨⟨hallowed, fuel, hrun⟩, hsafe⟩, htabs⟩ := hstep
  cases op with
  | alloc size page_align =>
      simp only [HeapOp.run, bind_ok_iff] at hrun
      obtain ⟨⟨p, m'⟩, halloc, hs'⟩ := hrun
      have hs' := Except.ok.inj hs'
      subst hs'
      have hsize : size < 0x10000000 := hallowed
      obtain ⟨regs', k', -⟩ := k.alloc (by omega) hsafe halloc
      obtain ⟨hp', hstart', hend'⟩ := k.alloc_pages hp (by omega) hsafe htabs halloc
      exact ⟨regs', k', hp', by dsimp only; omega⟩
  | free p =>
      simp only [HeapOp.run, bind_ok_iff] at hrun
      obtain ⟨m', hfree, hs'⟩ := hrun
      have hs' := Except.ok.inj hs'
      subst hs'
      obtain ⟨_, _, _, _, _, -, -, -, -, -, -, k', hpr, hend, -⟩ := k.free hallowed hsafe hfree
      have hstart' := hpr.start
      have hend' := hend hstay
      exact ⟨_, k', k.free_pages hp hallowed hsafe hstay hfree, by dsimp only; omega⟩
  | store a v =>
      have hs' := Except.ok.inj hrun
      subst hs'
      obtain ⟨l, hl, h1, h2⟩ := hallowed
      obtain ⟨r, hr, -, hra, hrs⟩ := k.block l hl
      have ek : EntriesKept s.machine { s.machine with mem := write8 s.machine.mem a v } := by
        refine k.entries_kept hr (.inr (by rw [hra]; exact List.mem_map_of_mem hl)) rfl fun x hx => ?_
        exact write8_ne _ _ (by omega)
      exact ⟨regs, k.store hl h1 h2 v, k.pages_kept hp ek rfl rfl rfl, hlong⟩

/-- **A step that contracts.** -/
theorem Paged.contract {s s' : Session} {op : HeapOp} (h : Paged s) (hcontract : ¬ NoContract s op)
    (hstep : PagedStep s op s') : ¬ MapFollowsBounds s'.machine := by
  obtain ⟨regs, k, hp, hlong⟩ := h
  obtain ⟨⟨⟨hallowed, fuel, hrun⟩, hsafe⟩, -⟩ := hstep
  cases op with
  | alloc size page_align => exact absurd trivial hcontract
  | free p =>
      simp only [HeapOp.run, bind_ok_iff] at hrun
      obtain ⟨m', hfree, hs'⟩ := hrun
      have hs' := Except.ok.inj hs'
      subst hs'
      exact k.free_contract_pages hp hallowed hsafe hlong (not_not.mp hcontract) hfree
  | store a v => exact absurd trivial hcontract

/-! ## §6. The kernel after `init_paging`. -/

/-- The heap that `init_paging` sets up is a heap just initialised, over tables that keep out of it. -/
theorem init_paging_start {rounds : Nat} {m₀ m : Machine} (hready : m₀.heap_ready = false)
    (hlow : 0x1000 ≤ m₀.placement_address) (hwrap : BootNoWrap rounds m₀)
    (h : init_paging rounds m₀ = .ok m) : HeapStart VM_KERN_HEAP_START ⟨m, []⟩ := by
  obtain ⟨m₁, K, -, bt⟩ := init_paging_booted hready hlow hwrap h
  simp only [init_paging, bind_ok_iff] at h
  obtain ⟨-, -, -, -, m₃, -, m₄, hinit, h⟩ := h
  have h := (Except.ok.inj h).symm
  obtain ⟨hm₄, -⟩ := init_heap_ok (show VM_KERN_HEAP_START % 0x1000 = 0 by decide) (by decide) hinit
  have hstart : VM_KERN_HEAP_START = 0xC0000000 := rfl
  have hout : EqOutside 0xC0081000 0xC008100C m₃.mem m.mem := by
    rw [h]
    dsimp only
    rw [hm₄]
    exact put_header_eqOutside _ _ _ _
  have hdir : m.kernel_directory = m₃.kernel_directory := by rw [h, hm₄]
  have hnf : m.nframes = m₃.nframes := by rw [h, hm₄]
  have hdir₃ : m₃.kernel_directory = m₁.kernel_directory := hdir.symm.trans bt.directory
  have habove := bt.above
  have hcov := bt.covered
  have hroom := bt.room
  have htab : ∀ t, t < 1024 → pd_table m₃.mem m₁.kernel_directory t = pd_table m.mem m₁.kernel_directory t :=
    fun t ht => (hout.read32 (by omega)).symm
  refine ⟨by decide, by decide, ⟨m₃, m₄, 0, 0, ⟨?_, ?_, ?_, ?_, ?_⟩, hinit, h⟩, rfl⟩
  · rw [← hnf, bt.nframes]
    decide
  · omega
  · rw [hdir₃]
    exact bt.tables.congr htab
  · intro t ht hne
    rw [hdir₃, htab t ht] at hne ⊢
    have := (bt.table t ht hne).2
    omega
  · intro q h1 h2
    have hq : bootPages K 256 q ≠ none := by
      unfold bootPages
      rw [if_neg (by omega), if_pos (by omega)]
      exact Option.some_ne_none _
    rw [hdir₃, htab _ (by omega)]
    exact (bt.pages q hq).2

/-- Its pages are the 256 that `init_paging` gives frames to. -/
theorem init_paging_pages {rounds : Nat} {m₀ m : Machine} (hready : m₀.heap_ready = false)
    (hlow : 0x1000 ≤ m₀.placement_address) (hwrap : BootNoWrap rounds m₀)
    (h : init_paging rounds m₀ = .ok m) : HeapPages m ∧ m.heap.h_addr_start = 0xC0081000 := by
  obtain ⟨k, -, hend⟩ := (init_paging_start hready hlow hwrap h).kernel
  obtain ⟨m₁, K, -, bt⟩ := init_paging_booted hready hlow hwrap h
  have hroom := bt.room
  have hhigh : m.heap.h_addr_max < 4294967296 := k.heap.bounds.high
  have hstart : m.heap.h_addr_start = 0xC0081000 := k.heap.tiled.1.symm
  have hend : m.heap.h_addr_end = 0xC0100000 := hend
  have hentry : ∀ q, q < 1048576 → pd_table m.mem m.kernel_directory (q / 1024) ≠ 0 →
      pageAt m q = VmPage.decode (entryWord (bootPages K 256 q)) := by
    intro q hq hne
    rw [bt.directory] at hne
    unfold pageAt read_page
    rw [bt.directory, bt.entry q hq hne]
  rw [bt.directory] at hentry
  refine ⟨⟨fun q h1 h2 => ?_, fun q h1 h2 h3 => ?_⟩, hstart⟩
  · rw [hstart] at h1
    rw [hend] at h2
    have hq : bootPages K 256 q = some (K + (q - 0xC0000)) := by
      unfold bootPages
      rw [if_neg (by omega), if_pos (by omega)]
    rw [hentry q (by omega) (bt.pages q (by rw [hq]; exact Option.some_ne_none _)).2, hq]
    show (5 + 4096 * (K + (q - 0xC0000))) % 2 = 1
    omega
  · rw [hend] at h1
    have hq : bootPages K 256 q = none := by
      unfold bootPages
      rw [if_neg (by omega), if_neg (by omega)]
    rw [bt.directory] at h3
    rw [hentry q (by omega) h3, hq]
    exact ⟨rfl, rfl⟩

/-- **The start.** -/
theorem init_paging_paged {rounds : Nat} {m₀ m : Machine} (hready : m₀.heap_ready = false)
    (hlow : 0x1000 ≤ m₀.placement_address) (hwrap : BootNoWrap rounds m₀)
    (h : init_paging rounds m₀ = .ok m) : Paged ⟨m, []⟩ := by
  obtain ⟨k, -, hend⟩ := (init_paging_start hready hlow hwrap h).kernel
  obtain ⟨hp, hstart⟩ := init_paging_pages hready hlow hwrap h
  refine ⟨_, k, hp, ?_⟩
  rw [hstart, hend]
  decide

/-! ## §7. A run that contracts. -/

/-- The hole after the freed region is listed, so the right unification takes it out of the index. -/
theorem unify_right_returns (header footer : Nat) {m : Machine}
    (hmagic : hh_magic m.mem (add32 footer sizeof_footer) = VM_HEAP_HDR_MAGIC)
    (hhole : hh_is_hole m.mem (add32 footer sizeof_footer) ≠ 0)
    (hin : add32 footer sizeof_footer ∈ m.heap.h_index.entries)
    (hroom : m.heap.h_index.sa_size ≤ m.heap.h_index.sa_maxsize) :
    ∃ r, unify_right header footer m = .ok r
      ∧ r.2.heap.h_index.sa_cmp = m.heap.h_index.sa_cmp
      ∧ r.2.heap.h_index.sa_size < r.2.heap.h_index.sa_maxsize
      ∧ r.2.heap.h_addr_start = m.heap.h_addr_start ∧ r.2.heap.h_addr_end = m.heap.h_addr_end := by
  have hlt := index_of_lt.mpr hin
  unfold unify_right
  simp only [if_pos (And.intro hmagic hhole), decide_eq_true hlt, KASSERT_true, ok_bind]
  refine bind_returns (remove_sorted_array_returns hlt) fun idx hrem hidx => ⟨_, rfl, ?_⟩
  obtain ⟨-, -, hcmp, -⟩ := remove_sorted_array_entries hrem
  refine ⟨hcmp, ?_, rfl, rfl⟩
  show idx.sa_size < idx.sa_maxsize
  omega

/-- The hole starts inside the heap, which is what `contract` asserts. -/
theorem free_end_returns (header test_header footer : Nat) {m : Machine}
    (hinside : sub32 header m.heap.h_addr_start < sub32 m.heap.h_addr_end m.heap.h_addr_start)
    (hroom : m.heap.h_index.sa_size < m.heap.h_index.sa_maxsize) :
    ∃ m', free_end header test_header footer m = .ok m'
      ∧ m'.heap.h_index.sa_cmp = m.heap.h_index.sa_cmp
      ∧ m'.heap.h_index.sa_size < m'.heap.h_index.sa_maxsize := by
  unfold free_end
  by_cases hend : add32 footer sizeof_footer = m.heap.h_addr_end
  · rw [if_pos hend]
    unfold free_contract
    refine bind_returns (contract_returns hinside) fun r _ hidx => ?_
    dsimp only
    split
    · refine ⟨_, rfl, ?_⟩
      dsimp only
      rw [hidx]
      exact ⟨rfl, hroom⟩
    · split
      · next hlt =>
          refine bind_returns (remove_sorted_array_returns hlt) fun idx hrem hrest => ⟨_, rfl, ?_⟩
          obtain ⟨-, -, hcmp, -⟩ := remove_sorted_array_entries hrem
          rw [hidx] at hcmp hrest
          refine ⟨hcmp, ?_⟩
          show idx.sa_size < idx.sa_maxsize
          omega
      · refine ⟨_, rfl, ?_⟩
        rw [hidx]
        exact ⟨rfl, hroom⟩
  · rw [if_neg hend]
    exact ⟨m, rfl, rfl, hroom⟩

theorem free_add_returns (do_add : Bool) (header : Nat) {m : Machine}
    (hcmp : m.heap.h_index.sa_cmp = some vm_heap_header_cmp)
    (hroom : m.heap.h_index.sa_size < m.heap.h_index.sa_maxsize) :
    ∃ m', free_add do_add header m = .ok m' := by
  unfold free_add
  cases do_add with
  | false => exact ⟨m, rfl⟩
  | true =>
      obtain ⟨idx, hidx, -⟩ := insert_sorted_array_returns m.mem header hcmp hroom
      refine ⟨{ m with heap := { m.heap with h_index := idx } }, ?_⟩
      rw [if_pos rfl, hidx, ok_bind]

/-- **A free returns** when a hole comes after the block. -/
theorem Kernel.free_returns (pre : List Region) {post : List Region} {b r : Region} {live : List (Nat × Nat)}
    {m : Machine} (k : Kernel (pre ++ b :: r :: post) live m) (hblock : b.hole = false) (hhole : r.hole = true)
    (hsafe : FreeSafe (b.addr + 12) m) (hroom : m.heap.h_index.sa_size ≤ m.heap.h_index.sa_maxsize) :
    ∃ m', JamesM.free (b.addr + 12) m = .ok m' := by
  have hb : b ∈ pre ++ b :: r :: post := by simp
  have hr : r ∈ pre ++ b :: r :: post := by simp
  have hra : r.addr = b.addr + b.size := k.heap.tiled.cut.2.1
  obtain ⟨hb1, hb2, hb3⟩ := k.heap.region_bounds hb
  obtain ⟨hr1, hr2, hr3⟩ := k.heap.region_bounds hr
  obtain ⟨b1, b2, b3, b4, b5, b6, b7⟩ := id k.heap.bounds
  have hbhdr := k.heap.head b hb
  have hbfoot := k.heap.foot b hb hblock
  have hrhdr := k.heap.head r hr
  have hheader : sub32 (b.addr + 12) sizeof_header = b.addr := by
    unfold sub32 sizeof_header
    omega
  have hfooter : sub32 (add32 b.addr b.size) sizeof_footer = b.addr + b.size - 8 := by
    unfold sub32 add32 sizeof_footer
    omega
  have htest : add32 (b.addr + b.size - 8) sizeof_footer = r.addr := by
    unfold add32 sizeof_footer
    omega
  have hsafe' := hsafe.left
  rw [show b.addr + 12 - 12 = b.addr by omega] at hsafe'
  obtain ⟨pre', lefts, a, mem, -, -, -, -, hsa, hab, -, hunify, -, hout, -⟩ := k.heap.unify_left hblock hsafe'
  have hc : ¬ (b.addr + 12 = 0 ∨ m.heap_ready = false) := by
    rw [k.paging.ready]
    simp
  -- the header of the next hole is not touched
  have hmagic : hh_magic mem r.addr = VM_HEAP_HDR_MAGIC := (hout.read32 (.inr (by omega))).trans hrhdr.magic
  have hishole : hh_is_hole mem r.addr ≠ 0 := by
    have hflag : hh_is_hole mem r.addr = r.flag := (hout.read32 (.inr (by omega))).trans hrhdr.flag
    rw [hflag]
    unfold Region.flag
    rw [hhole]
    decide
  have hoff : sub32 a m.heap.h_addr_start < sub32 m.heap.h_addr_end m.heap.h_addr_start := by
    rw [sub32_of_le (by omega) hsa, sub32_of_le (by omega) (by omega)]
    omega
  unfold JamesM.free free_block
  rw [if_neg hc, hheader, hbhdr.size, hfooter, decide_eq_true hbhdr.magic, KASSERT_true, ok_bind,
    decide_eq_true hbfoot.magic, KASSERT_true, ok_bind]
  unfold free_hole
  have hunify' : unify_left b.addr (b.addr + b.size - 8) (write32 m.mem (b.addr + 4) 1)
      = (a, decide (lefts = []), mem) := hunify
  simp only [hunify', htest]
  have hright := unify_right_returns a (b.addr + b.size - 8) (m := { m with mem := mem })
    (by rw [htest]; exact hmagic)
    (by rw [htest]; exact hishole) (by rw [htest]; exact k.heap.mem_index.mpr ⟨r, hr, hhole, rfl⟩) hroom
  obtain ⟨⟨f, m₂⟩, hright, hcmp₂, hroom₂, hstart₂, hend₂⟩ := hright
  dsimp only at hcmp₂ hroom₂ hstart₂ hend₂
  obtain ⟨m₃, hend, hcmp₃, hroom₃⟩ := free_end_returns a r.addr f (by rw [hstart₂, hend₂]; exact hoff) hroom₂
  obtain ⟨m₄, hadd⟩ := free_add_returns (decide (lefts = [])) a (hcmp₃.trans (hcmp₂.trans k.heap.cmp)) hroom₃
  exact ⟨m₄, by rw [hright, ok_bind, hend, ok_bind, hadd]⟩

/-- The index of the heap that `init_paging` sets up has room. -/
theorem init_paging_room {rounds : Nat} {m₀ m : Machine} (h : init_paging rounds m₀ = .ok m) :
    m.heap.h_index.sa_size ≤ m.heap.h_index.sa_maxsize := by
  simp only [init_paging, bind_ok_iff] at h
  obtain ⟨-, -, -, -, m₃, -, m₄, hinit, h⟩ := h
  have h := Except.ok.inj h
  have hinit := Except.ok.inj hinit
  rw [← h, ← hinit]
  show 1 ≤ VM_HEAP_INDEX_SIZE
  decide

/-- A call that finds a hole adds no pages. -/
theorem GrowsTabled.of_found {size : Nat} {page_align : Bool} {m : Machine}
    (hfound : find_smallest_hole (size + 20) page_align m ≠ -1) : GrowsTabled size page_align m := by
  intro m' h hmiss
  rcases Relation.ReflTransGen.cases_head h with rfl | ⟨m₁, ⟨hmiss', -⟩, -⟩
  · exact absurd hmiss hfound
  · exact absurd hmiss' hfound

/-- A call that grows the heap once. -/
theorem Kernel.growsTabled {regs : List Region} {live : List (Nat × Nat)} {m : Machine} {size : Nat}
    (k : Kernel regs live m) (ok : Guard.isolation.GrowOk (size + 20) m)
    (hmap : HasTables m (m.heap.h_addr_end / 4096) ((m.heap.h_addr_end + growth (size + 20)) / 4096)) :
    GrowsTabled size false m := by
  intro m' h hmiss
  rcases Relation.ReflTransGen.cases_head h with rfl | ⟨m₁, ⟨-, hgrow⟩, hrest⟩
  · exact hmap
  · -- the next search finds a hole, so there is no further round
    have hfound := k.found_after_growth ok hgrow
    exact GrowsTabled.of_found hfound m' hrest hmiss

/-- A step that allocates. -/
theorem HeapStep.of_alloc {s : Session} {fuel size p : Nat} {m' : Machine} (hsize : size < 0x10000000)
    (h : JamesM.alloc fuel size false s.machine = .ok (p, m')) :
    HeapStep s (.alloc size false) ⟨m', (p, size) :: s.live⟩ := by
  refine ⟨hsize, fuel, ?_⟩
  rw [HeapOp.run, h]
  rfl

/-- **Two requests that fill the heap.**  One takes all of the initial heap, the other one all of the space
    that it adds. -/
theorem filling_run (size : Nat) {s : Session} {j : Nat}
    (k : Kernel [firstHole VM_KERN_HEAP_START] s.live s.machine)
    (hroom : s.machine.heap.h_index.sa_size ≤ s.machine.heap.h_index.sa_maxsize)
    (hmax : s.machine.heap.h_addr_max = 0xCFFFF000) (fr : FreeFrom j s.machine)
    (hgrowth : growth (size + 20) ≤ 0x300000) (hframes : j + growth (size + 20) / 4096 ≤ 4096)
    (hfull : growth (size + 20) < size + 40) :
    ∃ s₁ s₂, Trace HeapStep s [(.alloc 0x7EFEC false, s₁), (.alloc size false, s₂)]
      ∧ Along HeapSafe s [(.alloc 0x7EFEC false, s₁), (.alloc size false, s₂)]
      ∧ Along TablesExist s [(.alloc 0x7EFEC false, s₁), (.alloc size false, s₂)]
      ∧ s₂.machine.heap_ready = true ∧ s₂.machine.heap.h_index.sa_size = 0
      ∧ s₂.machine.heap.h_addr_start = 0xC0081000
      ∧ s₂.machine.heap.h_addr_end = 0xC0100000 + growth (size + 20)
      ∧ s₂.machine.heap.h_addr_max = 0xCFFFF000 ∧ s₂.machine.kernel_directory = s.machine.kernel_directory
      ∧ ∀ t, t < 1024 → pd_table s₂.machine.mem s.machine.kernel_directory t
        = pd_table s.machine.mem s.machine.kernel_directory t := by
  obtain ⟨hd1, hd2, hd3⟩ := growth_facts (size + 20)
  obtain ⟨ok₁, hfound₁, m₁, halloc₁, inv₁, hout₁, -, hmaxsize₁, hm₁⟩ :=
    k.heap.tail_request [] 0x7EFEC rfl rfl (by decide) (by decide) hroom 0
  have step₁ := HeapStep.of_alloc (show 0x7EFEC < 0x10000000 by decide) halloc₁
  have hsafe₁ : HeapSafe s (.alloc 0x7EFEC false) := ok₁
  obtain ⟨⟨regs, k₁⟩, -⟩ := Sound.step ⟨_, k⟩ hsafe₁ step₁
  dsimp only at k₁
  have hregs := k₁.heap.toChain.unique inv₁.toChain
  subst hregs
  -- what the second call needs to know
  have hstart₁ : m₁.heap.h_addr_start = 0xC0081000 := inv₁.tiled.1.symm
  have hend₁ : m₁.heap.h_addr_end = 0xC0100000 := by
    have hlast : m₁.heap.h_addr_start + 0x7F000 = m₁.heap.h_addr_end := inv₁.tiled.2
    omega
  have hmax₁ : m₁.heap.h_addr_max = 0xCFFFF000 := by
    rw [hm₁]
    exact hmax
  have hdir₁ : m₁.kernel_directory = s.machine.kernel_directory := by rw [hm₁]
  have hempty : m₁.heap.h_index.sa_size = 0 := by
    rw [← SortedArray.length_entries, List.perm_nil.mp inv₁.index]
    rfl
  have hentry : 0 < m₁.heap.h_index.sa_maxsize := by
    have hone := k.heap.index.length_eq
    rw [SortedArray.length_entries] at hone
    have hone : s.machine.heap.h_index.sa_size = 1 := hone
    omega
  have fr₁ : FreeFrom j m₁ := by
    rw [hm₁]
    exact ⟨fr.nframes, fr.clear⟩
  have hmap : HasTables m₁ (m₁.heap.h_addr_end / 4096)
      ((m₁.heap.h_addr_end + growth (size + 20)) / 4096) := by
    rw [hend₁]
    intro q h1 h2
    have hone := k₁.paging.mapped 0xC0081 (by omega) (by omega)
    rw [show (0xC0081 : Nat) / 1024 = q / 1024 by omega] at hone
    exact hone
  have hhole : EndHole m₁ := by
    intro a ha
    rw [List.perm_nil.mp inv₁.index] at ha
    exact absurd ha List.not_mem_nil
  have ok₂ : Guard.isolation.GrowOk (size + 20) m₁ := k₁.growOk hhole (by omega) (by omega) hmap
  have hmiss := find_smallest_hole_empty (size + 20) false hempty
  obtain ⟨m₂, halloc₂, hready₂, hempty₂, hstart₂, hend₂, hmax₂, hdir₂, htab₂⟩ :=
    k₁.second_block rfl hentry (by omega) (by omega) hmap fr₁ hframes hfull
  have step₂ := HeapStep.of_alloc (s := ⟨m₁, (0xC008100C, 0x7EFEC) :: s.live⟩)
    (show size < 0x10000000 by omega) halloc₂
  refine ⟨_, _, ⟨step₁, step₂, trivial⟩, ⟨ok₁, k₁.allocOk_of_growOk hmiss ok₂, trivial⟩,
    ⟨.of_found hfound₁, k₁.growsTabled ok₂ hmap, trivial⟩, hready₂, hempty₂, hstart₂.trans hstart₁, ?_,
    hmax₂.trans hmax₁, hdir₂.trans hdir₁, fun t ht => ?_⟩
  · dsimp only
    rw [hend₂, hend₁]
  · have hoff := k.paging.dir_off
    have hs : s.machine.heap.h_addr_start = 0xC0081000 := k.heap.tiled.1.symm
    rw [hdir₁] at htab₂
    exact (htab₂ t ht).trans (hout₁.read32 (by dsimp only [firstHole, VM_KERN_HEAP_START] at *; omega))

/-- **Two requests of a byte, and the second block is freed.**  The hole it becomes reaches the end of
    the heap. -/
theorem contracting_run {s : Session} (hs : Paged s) (hinv : HeapInv [firstHole VM_KERN_HEAP_START] s.machine)
    (hroom : s.machine.heap.h_index.sa_size ≤ s.machine.heap.h_index.sa_maxsize) :
    ∃ s₁ s₂ s₃, Trace HeapStep s [(.alloc 1 false, s₁), (.alloc 1 false, s₂), (.free 0xC0081021, s₃)]
      ∧ Along HeapSafe s [(.alloc 1 false, s₁), (.alloc 1 false, s₂), (.free 0xC0081021, s₃)]
      ∧ Along TablesExist s [(.alloc 1 false, s₁), (.alloc 1 false, s₂), (.free 0xC0081021, s₃)]
      ∧ Paged s₂ ∧ ¬ NoContract s₂ (.free 0xC0081021) := by
  obtain ⟨ok₁, hfound₁, m₁, halloc₁, inv₁, -, hroom₁, -⟩ :=
    hinv.tail_request [] 1 rfl rfl (by decide) (by decide) hroom 0
  obtain ⟨ok₂, hfound₂, m₂, halloc₂, inv₂, -, hroom₂, -⟩ :=
    inv₁.tail_request [⟨0xC0081000, 21, false⟩] 1 rfl rfl (by decide) (by decide) hroom₁ 0
  have halloc₁ : JamesM.alloc 1 1 false s.machine = .ok (0xC008100C, m₁) := halloc₁
  have halloc₂ : JamesM.alloc 1 1 false m₁ = .ok (0xC0081021, m₂) := halloc₂
  have inv₂ : HeapInv [⟨0xC0081000, 21, false⟩, ⟨0xC0081015, 21, false⟩, ⟨0xC008102A, 0x7EFD6, true⟩] m₂ := inv₂
  have step₁ : PagedStep s (.alloc 1 false) ⟨m₁, (0xC008100C, 1) :: s.live⟩ :=
    ⟨⟨.of_alloc (by decide) halloc₁, ok₁⟩, .of_found hfound₁⟩
  have hs₁ : Paged _ := hs.step (show NoContract s (.alloc 1 false) from trivial) step₁
  have step₂ : PagedStep ⟨m₁, (0xC008100C, 1) :: s.live⟩ (.alloc 1 false)
      ⟨m₂, (0xC0081021, 1) :: (0xC008100C, 1) :: s.live⟩ :=
    ⟨⟨.of_alloc (by decide) halloc₂, ok₂⟩, .of_found hfound₂⟩
  have hs₂ : Paged _ := hs₁.step (show NoContract _ (.alloc 1 false) from trivial) step₂
  obtain ⟨regs, k, -, -⟩ := id hs₂
  have hregs := k.heap.toChain.unique inv₂.toChain
  subst hregs
  -- the free joins the second block with the hole after it, which ends the heap
  have hstart : m₂.heap.h_addr_start = 0xC0081000 := inv₂.tiled.1.symm
  have hfoot := inv₂.foot ⟨0xC0081000, 21, false⟩ (by simp) rfl
  have hinv₂ : HeapInv
      ([] ++ ⟨0xC0081000, 21, false⟩ :: ⟨0xC0081015, 21, false⟩ :: [⟨0xC008102A, 0x7EFD6, true⟩]) m₂ :=
    inv₂
  have hstay : freed_start 0xC0081015 m₂.mem = 0xC0081015 := hinv₂.freed_start_eq hfoot
  have hend : m₂.heap.h_addr_start + 21 + 21 + 0x7EFD6 = m₂.heap.h_addr_end := inv₂.tiled.2.2.2
  have hlast : freed_end 0xC0081015 m₂.mem = m₂.heap.h_addr_end := by
    rw [← hend, hstart]
    exact inv₂.freed_end_eq (p := [⟨0xC0081000, 21, false⟩])
  obtain ⟨hleft, -⟩ := hfoot.leftHole (inv₂.head _ (by simp)) (by decide) rfl
  have hsafe : FreeSafe 0xC0081021 m₂ := by
    refine ⟨fun h => absurd (hleft.mp h) (by decide), fun _ => ?_⟩
    show freed_start 0xC0081015 m₂.mem + 20 ≤ _
    rw [hstay, hstart]
    decide
  obtain ⟨m₃, hfree⟩ := Kernel.free_returns [⟨0xC0081000, 21, false⟩] k rfl rfl hsafe hroom₂
  have step₃ : HeapStep ⟨m₂, (0xC0081021, 1) :: (0xC008100C, 1) :: s.live⟩ (.free 0xC0081021)
      ⟨m₃, ((0xC0081021, 1) :: (0xC008100C, 1) :: s.live).filter fun l => l.1 != 0xC0081021⟩ := by
    refine ⟨List.mem_map.mpr ⟨(0xC0081021, 1), List.mem_cons_self, rfl⟩, 0, ?_⟩
    have hfree : JamesM.free 0xC0081021 m₂ = .ok m₃ := hfree
    rw [HeapOp.run, hfree]
    rfl
  exact ⟨_, _, _, ⟨step₁.1.1, step₂.1.1, step₃, trivial⟩, ⟨ok₁, ok₂, hsafe, trivial⟩,
    ⟨.of_found hfound₁, .of_found hfound₂, trivial, trivial⟩, hs₂, fun h => h hlast⟩

/-! ## §8. Mapped pages. -/

/-- **Mapped pages and the bounds of the heap.**  From `init_paging`, over every run whose calls return
    and whose steps are safe, with tables for the pages a request adds: in the first state, and after
    every step, the pages of the heap that are present are exactly those below its end IF AND ONLY IF
    no free of the run contracts.  The words of the frame bitset are storage of their own here. -/
theorem heap_pages_follow_the_end {rounds : Nat} {m₀ m : Machine} (hready : m₀.heap_ready = false)
    (hlow : 0x1000 ≤ m₀.placement_address) (hwrap : BootNoWrap rounds m₀)
    (boot : init_paging rounds m₀ = .ok m) {tr : List (HeapOp × Session)}
    (run : Trace HeapStep ⟨m, []⟩ tr) (safe : Along HeapSafe ⟨m, []⟩ tr)
    (tabled : Along TablesExist ⟨m, []⟩ tr) :
    MapFollowsBounds m
      ∧ ((∀ x ∈ tr, MapFollowsBounds x.2.machine) ↔ Along NoContract ⟨m, []⟩ tr) := by
  have hpaged := init_paging_paged hready hlow hwrap boot
  have hfollows : ∀ s, Paged s → MapFollowsBounds s.machine := by
    rintro s ⟨regs, k, hp, -⟩
    exact hp.follows k
  refine ⟨hfollows _ hpaged, ?_⟩
  exact Trace.all_iff (P := fun s => MapFollowsBounds s.machine) hfollows
    (fun _ _ _ hs hstay hstep => hs.step hstay hstep)
    (fun _ _ _ hs hcontract hstep => hs.contract hcontract hstep) hpaged
    ((run.and_along safe).and_along tabled)

/-- The kernel and the ramdisk end at 1 MB; a block fills the heap, and the next one makes it grow by a page. -/
theorem heap_pages_follow_the_end_of_a_growth :
    ∃ (m : Machine) (s₁ s₂ : Session), init_paging 1024 (Machine.bare 0x100000) = .ok m
      ∧ Trace HeapStep ⟨m, []⟩ [(.alloc 0x7EFEC false, s₁), (.alloc 4070 false, s₂)]
      ∧ m.heap.h_addr_end = 0xC0100000 ∧ s₂.machine.heap.h_addr_end = 0xC0101000
      ∧ MapFollowsBounds m ∧ MapFollowsBounds s₁.machine ∧ MapFollowsBounds s₂.machine := by
  obtain ⟨m, boot, hwrap, hfree⟩ := init_paging_returns (Machine.bare 0x100000) rfl (by decide) (by decide)
  have st := init_paging_start rfl (by decide) hwrap boot
  obtain ⟨k, -, hend⟩ := st.kernel
  obtain ⟨_, _, -, bt⟩ := init_paging_booted rfl (by decide) hwrap boot
  have hgrowth : growth (4070 + 20) = 0x1000 := rfl
  obtain ⟨s₁, s₂, run, safe, tabled, -, -, -, hend₂, -⟩ :=
    filling_run 4070 k (init_paging_room boot) st.max ⟨bt.nframes, hfree⟩ (by rw [hgrowth]; decide)
      (by rw [hgrowth]; decide) (by rw [hgrowth]; decide)
  rw [hgrowth] at hend₂
  obtain ⟨hfirst, hiff⟩ := heap_pages_follow_the_end rfl (by decide) hwrap boot run safe tabled
  have hall := hiff.mpr ⟨trivial, trivial, trivial⟩
  exact ⟨m, s₁, s₂, boot, run, hend, hend₂, hfirst, hall _ List.mem_cons_self,
    hall _ (List.mem_cons_of_mem _ List.mem_cons_self)⟩

/-- **Pages above the end stay mapped.**  The second block is freed: the heap contracts to its minimal
    length, and the pages it has given back are still present. -/
theorem contract_leaves_pages_mapped :
    ∃ (m : Machine) (tr : List (HeapOp × Session)), init_paging 1024 (Machine.bare 0x100000) = .ok m
      ∧ BootNoWrap 1024 (Machine.bare 0x100000)
      ∧ tr.map Prod.fst = [.alloc 1 false, .alloc 1 false, .free 0xC0081021]
      ∧ Trace HeapStep ⟨m, []⟩ tr ∧ Along TablesExist ⟨m, []⟩ tr
      ∧ ¬ ∀ x ∈ tr, MapFollowsBounds x.2.machine := by
  obtain ⟨m, boot, hwrap, -⟩ := init_paging_returns (Machine.bare 0x100000) rfl (by decide) (by decide)
  have hpaged := init_paging_paged rfl (by decide) hwrap boot
  obtain ⟨k, -⟩ := (init_paging_start rfl (by decide) hwrap boot).kernel
  obtain ⟨s₁, s₂, s₃, run, safe, tabled, hs₂, hcontract⟩ :=
    contracting_run hpaged k.heap (init_paging_room boot)
  refine ⟨m, _, boot, hwrap, rfl, run, tabled, fun hall => ?_⟩
  obtain ⟨-, -, hstep, -⟩ := run
  obtain ⟨-, -, hsafe, -⟩ := safe
  exact hs₂.contract hcontract ⟨⟨hstep, hsafe⟩, trivial⟩ (hall (.free 0xC0081021, s₃) (by simp))

end JamesM
