/-
  JamesM.Heap.Growth — requests that grow the heap and return.

  Where the new pages have tables no call is nested in a growth, so the guard has
  nothing to ask, and while there are frames the growth returns.  It leaves a hole at
  the end of the heap with all of the new space, which the next search finds.

  Main results: `Kernel.growOk`, `Kernel.allocOk_of_growOk`, `Kernel.second_block`.
-/
import JamesM.Heap.Extend
import JamesM.Heap.Fit

namespace JamesM

open JamesM.ByteMem JamesM.Word32 JamesM.Lib

/-! ## §1. The guard. -/

/-- No page of the loop needs a nested call. -/
theorem AtPage.expandOk {G : Guard} {new_size : Nat} (n : Nat) :
    ∀ {i : Nat} {m : Machine}, AtPage new_size i m → G.ExpandOk new_size n i m := by
  induction n with
  | zero =>
      intro i m _
      trivial
  | succ n ih =>
      intro i m pg hlt
      have hhit := pg.mapped _ (Nat.le_refl _)
        (by have := pg.aligned; have := pg.size_aligned; have := pg.start_aligned; omega)
      refine ⟨fun hmiss => ?_, fun page m₁ m₂ hget hf => ?_⟩
      · have hhigh := pg.high
        rw [add32_of_lt (by omega)] at hmiss
        exact absurd hmiss hhit
      · rw [pg.get_page hlt] at hget
        obtain ⟨rfl, rfl⟩ := Prod.mk.inj (Except.ok.inj hget)
        obtain ⟨hi', -, pg₁⟩ := pg.next hlt hf
        rw [hi']
        exact ih pg₁

/-- **A growth over pages that have tables is fine**, if the hole with the greatest address ends the heap. -/
theorem Kernel.growOk {regs : List Region} {live : List (Nat × Nat)} {m : Machine} {n : Nat}
    (k : Kernel regs live m) (hhole : EndHole m) (hroom : m.heap.h_addr_end + n + 0x1000 < 4294967296)
    (hmax : m.heap.h_addr_end + growth n ≤ m.heap.h_addr_max)
    (hmap : HasTables m (m.heap.h_addr_end / 4096) ((m.heap.h_addr_end + growth n) / 4096)) :
    Guard.isolation.GrowOk n m := by
  have span := k.heap.bounds.pageSpan
  have hhigh := span.high
  refine ⟨hroom, ?_, fun m₁ hloop => ?_⟩
  · rw [span.length_eq, span.grown_length hroom]
    exact (span.atPage k.paging.tables hmax hmap).expandOk _
  · have hg := span.pages k.paging.tables hroom hmax hmap hloop
    obtain ⟨k₁, -, -⟩ := hg.kernel k hmap (by omega)
    exact hhole.of_headers k k₁ (by rw [hg.heap])

/-- **The space it adds is large enough**: an unaligned search for the request finds a hole afterwards. -/
theorem Kernel.found_after_growth {regs : List Region} {live : List (Nat × Nat)} {m m₁ : Machine} {n : Nat}
    (k : Kernel regs live m) (ok : Guard.isolation.GrowOk n m) (hgrow : alloc_grow (JamesM.alloc 1) n m = .ok m₁) :
    find_smallest_hole n false m₁ ≠ -1 := by
  obtain ⟨regs₁, g, k₁, -, -, hg, hhole, hlarge, -⟩ := k.grow ok hgrow
  obtain ⟨hd1, hd2, hd3⟩ := growth_facts n
  rcases find_smallest_hole_cases n false m₁ with ⟨j, hj, -⟩ | ⟨-, hfail⟩
  · omega
  · -- the hole at the end
    obtain ⟨i, hi, hslot⟩ := SortedArray.mem_entries.mp (k₁.heap.mem_index.mpr ⟨g, hg, hhole, rfl⟩)
    have hfits := hfail i hi
    rw [hole_fits_false, hslot, (k₁.heap.head g hg).size, decide_eq_false_iff_not] at hfits
    omega

/-- **An unaligned request is fine if its growth is.** -/
theorem Kernel.allocOk_of_growOk {regs : List Region} {live : List (Nat × Nat)} {m : Machine} {size : Nat}
    (k : Kernel regs live m) (hmiss : find_smallest_hole (size + 20) false m = -1)
    (ok : Guard.isolation.GrowOk (size + 20) m) : Guard.isolation.AllocOk size false m := by
  intro m' hm'
  rcases Relation.ReflTransGen.cases_head hm' with rfl | ⟨m₁, ⟨-, hgrow⟩, hrest⟩
  · exact ⟨fun j hj => by omega, fun _ => ok⟩
  · have hfound := k.found_after_growth ok hgrow
    rcases find_smallest_hole_cases (size + 20) false m₁ with ⟨j, hj, -⟩ | ⟨hnone, -⟩
    · have ok₁ : Guard.isolation.AllocOk size false m₁ := .of_hit hj fun h => absurd h (by decide)
      exact ok₁ m' hrest
    · exact absurd hnone hfound

/-! ## §2. Frames. -/

/-- The 16 MB that `init_paging` manages, and no frame taken from number `k` on. -/
structure FreeFrom (k : Nat) (m : Machine) : Prop where
  nframes : m.nframes = 4096
  clear : ∀ l, k ≤ l → frameSet m.frames l = false

/-- There is a frame for the page, if it needs one. -/
theorem FreeFrom.alloc_frame {k : Nat} {m : Machine} (fr : FreeFrom k m) (hk : k < 4096) (p : Nat) (su ro : Int) :
    ∃ m', JamesM.alloc_frame p su ro m = .ok m' ∧ FreeFrom (k + 1) m' := by
  have hlater : FreeFrom (k + 1) m := ⟨fr.nframes, fun l hl => fr.clear l (by omega)⟩
  have hfree : first_frame m.frames m.nframes ≠ 0xFFFFFFFF := by
    rw [fr.nframes]
    rcases first_frame_spec m.frames 4096 with ⟨hlt, -, -⟩ | ⟨-, hfull⟩
    · omega
    · have := hfull k (by omega)
      rw [fr.clear k (Nat.le_refl _)] at this
      exact absurd this (by decide)
  unfold JamesM.alloc_frame
  dsimp only
  by_cases hframe : (read_page m.mem p).p_frame ≠ 0
  · rw [if_pos hframe]
    exact ⟨m, rfl, hlater⟩
  · rw [if_neg hframe, if_neg hfree]
    refine ⟨_, rfl, fr.nframes, fun l hl => ?_⟩
    obtain ⟨hlt, -, hset⟩ := first_frame_taken (show m.nframes ≤ 1048576 by rw [fr.nframes]; decide) hfree
    have hle : first_frame m.frames m.nframes ≤ k := by
      rcases first_frame_spec m.frames m.nframes with ⟨-, -, hbelow⟩ | ⟨hfull, -⟩
      · by_contra hgt
        have := hbelow k (by omega)
        rw [fr.clear k (Nat.le_refl _)] at this
        exact absurd this (by decide)
      · exact absurd hfull hfree
    show frameSet (set_frame m.frames (mul32 (first_frame m.frames m.nframes) 0x1000)) l = false
    rw [hset l, fr.clear l (by omega), decide_eq_false (by omega)]
    rfl

/-- The loop of `expand` runs to its end while there are frames. -/
theorem FreeFrom.expand_loop {f : AllocFn} {new_size : Nat} (n : Nat) :
    ∀ {k i : Nat} {m : Machine}, FreeFrom k m → k + (new_size - i) / 4096 ≤ 4096 → AtPage new_size i m →
      new_size ≤ i + 4096 * n → ∃ m', JamesM.expand_loop f new_size n i m = .ok m' := by
  induction n with
  | zero =>
      intro k i m _ _ _ hn
      rw [JamesM.expand_loop, if_neg (by omega)]
      exact ⟨m, rfl⟩
  | succ n ih =>
      intro k i m fr hk pg hn
      have hi := pg.aligned
      have hnew := pg.size_aligned
      rw [JamesM.expand_loop]
      by_cases hlt : i < new_size
      · obtain ⟨m₁, hf, fr₁⟩ := fr.alloc_frame (by omega) (page_entry m.mem m.kernel_directory
          ((m.heap.h_addr_start + i) / 4096)) m.heap.h_su m.heap.h_ro
        obtain ⟨hi', -, pg₁⟩ := pg.next hlt hf
        rw [if_pos hlt, pg.get_page hlt, ok_bind]
        dsimp only
        rw [hf, ok_bind, hi']
        exact ih fr₁ (by omega) pg₁ (by omega)
      · rw [if_neg hlt]
        exact ⟨m, rfl⟩

/-! ## §3. The growth returns. -/

/-- With an empty index, the new space becomes the first hole. -/
theorem give_space_returns (old_length old_end : Nat) {m : Machine} (hempty : m.heap.h_index.sa_size = 0)
    (hcmp : m.heap.h_index.sa_cmp = some vm_heap_header_cmp) (hroom : 0 < m.heap.h_index.sa_maxsize) :
    ∃ m', give_space old_length old_end m = .ok m' ∧ m'.heap.h_index.sa_size ≤ m'.heap.h_index.sa_maxsize := by
  have hnone : endmost m.heap.h_index = 0xFFFFFFFF := by
    unfold endmost
    rw [hempty]
    rfl
  unfold give_space
  simp only [hnone, if_true]
  refine bind_returns (insert_sorted_array_returns _ _ hcmp (by omega)) fun idx _ hidx => ⟨_, rfl, ?_⟩
  show idx.sa_size ≤ idx.sa_maxsize
  omega

/-- **A growth returns**: no hole is left, the new pages have tables, and there are frames for them. -/
theorem Kernel.alloc_grow_returns {regs : List Region} {live : List (Nat × Nat)} {m : Machine} {f : AllocFn}
    {n k : Nat} (kn : Kernel regs live m) (hn : 0 < n) (hempty : m.heap.h_index.sa_size = 0)
    (hroom : 0 < m.heap.h_index.sa_maxsize) (hmax : m.heap.h_addr_end + growth n ≤ m.heap.h_addr_max)
    (hhigh : m.heap.h_addr_max + 0x1000 < 4294967296)
    (hmap : HasTables m (m.heap.h_addr_end / 4096) ((m.heap.h_addr_end + growth n) / 4096))
    (fr : FreeFrom k m) (hframes : k + growth n / 4096 ≤ 4096) :
    ∃ m', alloc_grow f n m = .ok m' ∧ m'.heap.h_index.sa_size ≤ m'.heap.h_index.sa_maxsize := by
  have hspan := kn.heap.bounds.pageSpan
  obtain ⟨s1, s2, s3, s4, s5⟩ := id hspan
  obtain ⟨hd1, hd2, hd3⟩ := growth_facts n
  have hlen : grown_length n m = m.heap.h_addr_end - m.heap.h_addr_start + growth n :=
    hspan.grown_length (by omega)
  have hassert : add32 (m.heap.h_addr_end - m.heap.h_addr_start) n > m.heap.h_addr_end - m.heap.h_addr_start := by
    rw [add32_of_lt (by omega)]
    omega
  have hlimit : add32 m.heap.h_addr_start (grown_length n m) ≤ m.heap.h_addr_max := by
    rw [hlen, add32_of_lt (by omega)]
    omega
  obtain ⟨m₁, hloop⟩ : ∃ m₁, grow_loop f n m = .ok m₁ := by
    unfold grow_loop
    rw [hspan.length_eq, hlen]
    exact fr.expand_loop _ (by omega) (hspan.atPage kn.paging.tables hmax hmap) (by omega)
  have hheap : m₁.heap = m.heap := by
    rw [(hspan.pages kn.paging.tables (by omega) hmax hmap hloop).heap]
  rw [alloc_grow_eq, hspan.length_eq, decide_eq_true hassert, decide_eq_true hlimit, KASSERT_true, KASSERT_true,
    ok_bind, ok_bind, hloop, ok_bind]
  apply give_space_returns
  · show m₁.heap.h_index.sa_size = 0
    rw [hheap]
    exact hempty
  · show m₁.heap.h_index.sa_cmp = _
    rw [hheap]
    exact kn.heap.cmp
  · show 0 < m₁.heap.h_index.sa_maxsize
    rw [hheap]
    exact hroom

/-! ## §4. A second block. -/

/-- Nothing is found in an empty index. -/
theorem find_smallest_hole_empty (size : Nat) (page_align : Bool) {m : Machine}
    (hempty : m.heap.h_index.sa_size = 0) : find_smallest_hole size page_align m = -1 := by
  rcases find_smallest_hole_cases size page_align m with ⟨j, -, hlt, -⟩ | ⟨hfail, -⟩
  · omega
  · exact hfail

/-- A request on an empty index: grow, and start over. -/
theorem alloc_empty (fuel : Nat) {size : Nat} {m : Machine} (hsize : size + 20 < 4294967296) (page_align : Bool)
    (hempty : m.heap.h_index.sa_size = 0) :
    alloc (fuel + 1) size page_align m
      = (do
          let m₁ ← alloc_grow (alloc fuel) (size + 20) m
          alloc fuel size page_align m₁) := by
  have hnew : add32 size (sizeof_header + sizeof_footer) = size + 20 := add32_of_lt hsize
  rw [alloc]
  simp only [hnew, find_smallest_hole_empty _ _ hempty, if_true]

/-- A heap that consists of one block grows by a block. -/
theorem Kernel.second_block {b : Region} {live : List (Nat × Nat)} {m : Machine} {size k : Nat}
    (kn : Kernel [b] live m) (hblock : b.hole = false) (hroom : 0 < m.heap.h_index.sa_maxsize)
    (hmax : m.heap.h_addr_end + growth (size + 20) ≤ m.heap.h_addr_max)
    (hhigh : m.heap.h_addr_max + 0x1000 < 4294967296)
    (hmap : HasTables m (m.heap.h_addr_end / 4096) ((m.heap.h_addr_end + growth (size + 20)) / 4096))
    (fr : FreeFrom k m) (hframes : k + growth (size + 20) / 4096 ≤ 4096)
    (hfull : growth (size + 20) < size + 40) :
    ∃ m', JamesM.alloc 2 size false m = .ok (m.heap.h_addr_end + 12, m')
      ∧ m'.heap_ready = true ∧ m'.heap.h_index.sa_size = 0 ∧ m'.heap.h_addr_start = m.heap.h_addr_start
      ∧ m'.heap.h_addr_end = m.heap.h_addr_end + growth (size + 20)
      ∧ m'.heap.h_addr_max = m.heap.h_addr_max ∧ m'.kernel_directory = m.kernel_directory
      ∧ ∀ t, t < 1024 → pd_table m'.mem m.kernel_directory t = pd_table m.mem m.kernel_directory t := by
  obtain ⟨b1, b2, b3, b4, b5, b6, b7⟩ := id kn.heap.bounds
  obtain ⟨hd1, hd2, hd3⟩ := growth_facts (size + 20)
  have hlist : holes [b] = [] := by
    rw [holes_cons, if_neg (by rw [hblock]; decide)]
    rfl
  have hentries : m.heap.h_index.entries = [] := by
    have hperm := kn.heap.index
    rw [hlist] at hperm
    exact List.perm_nil.mp hperm
  have hempty : m.heap.h_index.sa_size = 0 := by
    rw [← SortedArray.length_entries, hentries]
    rfl
  have hend : EndHole m := by
    intro a ha
    rw [hentries] at ha
    exact absurd ha (by simp)
  -- the growth
  obtain ⟨m₁, hgrow, hroom₁⟩ := kn.alloc_grow_returns (f := JamesM.alloc 1) (show 0 < size + 20 by omega) hempty
    hroom hmax hhigh hmap fr hframes
  obtain ⟨m₀, pre, olds, g, hpages, k₀, hregs, hgh, hgd, hge, k₁, hp₁, hend₁, hout₁, hcases⟩ :=
    kn.grow_paged_parts (fun _ _ => hend.of_headers kn) (by omega) hmap hgrow
  have hheap₀ : m₀.heap = m.heap := by rw [hpages.heap]
  have hdir₀ : m₀.kernel_directory = m.kernel_directory := by rw [hpages.heap]
  obtain ⟨rfl, hga⟩ : pre = [b] ∧ g.addr = m.heap.h_addr_end := by
    rcases hcases with ⟨rfl, hga⟩ | ⟨g₀, rfl, hg₀, -⟩
    · rw [List.append_nil] at hregs
      exact ⟨hregs.symm, hga⟩
    · have hmem : g₀ ∈ [b] := by rw [hregs]; simp
      rw [List.mem_singleton.mp hmem, hblock] at hg₀
      exact absurd hg₀ (by decide)
  -- the block
  obtain ⟨-, -, m₂, halloc, inv₂, hout₂, -, -, hm₂⟩ :=
    k₁.heap.tail_request [b] size hlist hgh (by omega) (by omega) hroom₁ 0
  have hall : carved g size false = [⟨g.addr, g.size, false⟩] := by
    show cutBlock g.addr g.size size = _
    unfold cutBlock
    rw [if_pos (by omega)]
  have hdir₁ := hp₁.directory
  have hstart₁ := hp₁.start
  have hmax₁ := hp₁.max
  rw [hheap₀] at hstart₁ hmax₁
  have hdoff := kn.paging.dir_off
  refine ⟨m₂, ?_, by rw [hm₂]; exact k₁.paging.ready, ?_, by rw [hm₂]; exact hstart₁,
    by rw [hm₂]; exact hend₁, by rw [hm₂]; exact hmax₁, by rw [hm₂]; exact hdir₁.trans hdir₀, fun t ht => ?_⟩
  · rw [alloc_empty 1 (by omega) false hempty, hgrow, ok_bind, halloc, hga]
  · have hperm := inv₂.index
    rw [hall, holes_append, hlist, holes_cons, if_neg Bool.false_ne_true] at hperm
    have hnil : m₂.heap.h_index.entries = [] := List.perm_nil.mp hperm
    rw [← SortedArray.length_entries, hnil]
    rfl
  · calc pd_table m₂.mem m.kernel_directory t
        = pd_table m₁.mem m.kernel_directory t := hout₂.read32 (by omega)
      _ = pd_table m₀.mem m.kernel_directory t := hout₁.read32 (by omega)
      _ = pd_table m.mem m.kernel_directory t := hpages.tables t ht

end JamesM
