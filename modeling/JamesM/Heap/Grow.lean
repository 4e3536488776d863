/-
  JamesM.Heap.Grow — the first half of `alloc`: growing the heap.

  `expand` gives every new page a frame.  Where a page has no page table yet,
  `get_page` asks `kmalloc0_ap` for one, which calls `alloc` again on the same heap
  while `expand` and `alloc` still hold the old bounds in their locals.  This is
  harmless as long as the nested call finds a hole.

  Afterwards `alloc` adds the new space to the hole with the greatest address,
  wherever that hole ends.  This is right only if it ends where the heap ended.

  A `Guard` is what is asked of every carving and every growth; `Guard.GrowOk` asks
  it of all that happens while the heap grows.

  Main results: `alloc_grow_fuel`, `Kernel.grow`.
-/
import JamesM.Heap.Carve
import JamesM.Paging.Ownership

namespace JamesM

open JamesM.ByteMem JamesM.Word32 JamesM.Lib

/-! ## §1. One page. -/

/-- A call that finds a hole carves its block out of it. -/
theorem alloc_hit {fuel size : Nat} {page_align : Bool} {m : Machine} {j : Nat}
    (hsize : size + 20 < 4294967296) (h : find_smallest_hole (size + 20) page_align m = (j : Int)) :
    alloc (fuel + 1) size page_align m = alloc_carve size page_align j m := by
  have hnew : add32 size (sizeof_header + sizeof_footer) = size + 20 := add32_of_lt hsize
  rw [alloc]
  simp only [hnew, h]
  rw [if_neg (by omega)]
  rfl

/-- What is asked of a step of `alloc`: of carving a request (size, alignment) out of the hole in a slot
    of the index, and of the moment before a number of bytes is given to the endmost hole. -/
structure Guard where
  carve : Nat → Bool → Nat → Machine → Prop
  grow : Nat → Machine → Prop

/-- If the page of `a` has no page table, the nested call that makes one finds a hole, and may carve the
    table's block out of it. -/
def Guard.TableOk (G : Guard) (m : Machine) (a : Nat) : Prop :=
  pd_table m.mem m.kernel_directory (a / 0x1000 / 1024) = 0 →
    ∃ j : Nat, find_smallest_hole (sizeof_page_table + 20) true m = (j : Int)
      ∧ G.carve sizeof_page_table true j m

/-- The hole with the greatest address ends at the end of the heap. -/
def EndHole (m : Machine) : Prop :=
  ∀ a ∈ m.heap.h_index.entries, (∀ b ∈ m.heap.h_index.entries, b ≤ a) →
    a + hh_size m.mem a = m.heap.h_addr_end

/-- What isolation asks for: holes large enough for what is put into them, and a hole at the end of the
    heap to take the new space (or none anywhere). -/
def Guard.isolation : Guard where
  carve size page_align j m := CarveSafe size page_align (m.heap.h_index.sa_array j) m.mem
  grow _ m := EndHole m

/-- `alloc_frame` on a page entry. -/
theorem Kernel.alloc_frame {regs : List Region} {live : List (Nat × Nat)} {m m' : Machine} {p : Nat}
    {su ro : Int} (k : Kernel regs live m) (hp : IsEntry m.kernel_directory m.mem p)
    (h : alloc_frame p su ro m = .ok m') :
    Kernel regs live m' ∧ Preserves regs regs live m m' ∧ m'.heap = m.heap ∧ SameFooters regs m.mem m'.mem
      ∧ ∀ t, t < 1024 → pd_table m'.mem m.kernel_directory t = pd_table m.mem m.kernel_directory t := by
  rcases alloc_frame_cases h with ⟨-, rfl⟩ | ⟨-, -, hm'⟩
  · exact ⟨k, .refl _ _ _, rfl, .refl _ _, fun _ _ => rfl⟩
  · have hmem : ∃ w, m'.mem = write32 m.mem p w := ⟨_, by rw [hm']; rfl⟩
    obtain ⟨w, hmem⟩ := hmem
    obtain ⟨h1, h2, h3, h4⟩ := k.store_entry m' hp hmem (by rw [hm']) (by rw [hm']) (by rw [hm']) (by rw [hm'])
    exact ⟨h1, h2, by rw [hm'], h3, h4⟩

/-- The memory after a page table was made in the heap at `T` for directory slot `t`. -/
def heap_table_made (mem : Mem) (dir t T w : Nat) : Mem :=
  write32 (write32 (bzero mem T sizeof_page_table) (dir + 4 * t) T) (dir + 4096 + 4 * t) w

/-- Once the heap exists, `kmalloc0_ap` is a page-aligned `alloc` and a `bzero`. -/
theorem kmalloc0_ap_heap {alloc : AllocFn} {len T : Nat} {tmp : Option Nat} {m m' : Machine}
    (hready : m.heap_ready = true) (h : kmalloc0_ap alloc len m = .ok (T, tmp, m')) :
    ∃ m₁, alloc len true m = .ok (T, m₁) ∧ m' = { m₁ with mem := bzero m₁.mem T len } := by
  have hflag : (M_ALIGNED ||| M_ZERO) &&& M_ALIGNED ≠ 0 := by decide
  have hzero : (M_ALIGNED ||| M_ZERO) &&& M_ZERO ≠ 0 := by decide
  simp only [kmalloc0_ap, _kmalloc, hready, Bool.true_eq_false, if_false, if_pos hzero,
    decide_eq_true hflag, bind_ok_iff] at h
  obtain ⟨⟨T₁, m₁⟩, hal, _, hz, hb⟩ := h
  injection hz with hz
  subst hz
  simp only [Except.ok.injEq, Prod.mk.injEq] at hb
  obtain ⟨rfl, -, rfl⟩ := hb
  exact ⟨m₁, hal, rfl⟩

/-- What a creating `get_page` does once the heap exists. -/
theorem get_page_heap {alloc : AllocFn} {a p : Nat} {m m' : Machine} (hready : m.heap_ready = true)
    (hmiss : pd_table m.mem m.kernel_directory (a / 0x1000 / 1024) = 0)
    (h : get_page alloc a true m.kernel_directory m = .ok (p, m')) :
    ∃ T m₁ w, alloc sizeof_page_table true m = .ok (T, m₁)
      ∧ p = T + 4 * (a / 0x1000 % 1024)
      ∧ m' = { m₁ with mem := heap_table_made m₁.mem m.kernel_directory (a / 0x1000 / 1024) T w } := by
  have hmiss' : ¬ read32 m.mem (m.kernel_directory + 4 * (a / 0x1000 / 1024)) ≠ 0 := fun h => h hmiss
  unfold get_page at h
  simp only [if_neg hmiss', if_true, bind_ok_iff] at h
  obtain ⟨⟨T, tmp, m₁⟩, hk, h⟩ := h
  obtain ⟨m₂, hal, hm₁⟩ := kmalloc0_ap_heap hready hk
  simp only [Except.ok.injEq, Prod.mk.injEq] at h
  refine ⟨T, m₂, tmp.getD 0 ||| 0x7, hal, h.1.symm, ?_⟩
  rw [← h.2, hm₁, heap_table_made]

/-- The directory after a table was made: slot `t` holds it, the other slots are as before. -/
theorem pd_table_heap_table_made {mem : Mem} {dir t T w s : Nat} (hT : T < 4294967296)
    (hoff : T + 4096 ≤ dir ∨ dir + 8196 ≤ T) (ht : t < 1024) (hs : s < 1024) :
    pd_table (heap_table_made mem dir t T w) dir s = if s = t then T else pd_table mem dir s := by
  unfold pd_table heap_table_made
  rw [read32_write32_ne _ _ (by omega)]
  by_cases hst : s = t
  · subst hst
    rw [if_pos rfl, read32_write32 _ _ hT]
  · rw [if_neg hst, read32_write32_ne _ _ (by omega)]
    exact (bzero_eqOutside mem T sizeof_page_table).read32 (by unfold sizeof_page_table; omega)

/-- A change of memory inside the payload of a block that no client holds, and outside the heap. -/
theorem Kernel.scribble {regs : List Region} {live : List (Nat × Nat)} {m : Machine} {b : Region}
    {mem' : Mem} (k : Kernel regs live m) (hb : b ∈ regs) (hfree : b.addr + 12 ∉ live.map Prod.fst)
    (hmem : ∀ x, m.heap.h_addr_start ≤ x → x < m.heap.h_addr_max →
      x < b.addr + 12 ∨ b.addr + b.size - 8 ≤ x → mem' x = m.mem x) :
    HeapInv regs { m with mem := mem' }
      ∧ ∀ l ∈ live, ∀ x, l.1 ≤ x → x < l.1 + l.2 → mem' x = m.mem x := by
  have hmax := k.heap.bounds.max
  obtain ⟨hb1, hb2, hb3⟩ := k.heap.region_bounds hb
  refine ⟨k.heap.of_agree rfl (fun r hr x h1 h2 => ?_) (fun r hr _ x h1 h2 => ?_), fun l hl x h1 h2 => ?_⟩
  · obtain ⟨hr1, hr2, hr3⟩ := k.heap.region_bounds hr
    refine hmem x (by omega) (by omega) ?_
    rcases k.heap.apart hr hb with rfl | h | h <;> omega
  · obtain ⟨hr1, hr2, hr3⟩ := k.heap.region_bounds hr
    refine hmem x (by omega) (by omega) ?_
    rcases k.heap.apart hr hb with rfl | h | h <;> omega
  · obtain ⟨r, hr, -, hra, hrs⟩ := k.block l hl
    obtain ⟨hr1, hr2, hr3⟩ := k.heap.region_bounds hr
    refine hmem x (by omega) (by omega) ?_
    rcases k.heap.apart hr hb with rfl | h | h
    · exact absurd (by rw [hra]; exact List.mem_map_of_mem hl) hfree
    · omega
    · omega

/-- **A table in a block of its own.**  Making a page table in a fresh block keeps everything. -/
theorem Kernel.add_table {regs : List Region} {live : List (Nat × Nat)} {m : Machine} {b : Region}
    {t T w : Nat} (k : Kernel regs live m) (hb : b ∈ regs) (hblock : b.hole = false)
    (hT : b.addr + 12 = T) (hsize : sizeof_page_table + 20 ≤ b.size) (hfree : T ∉ live.map Prod.fst)
    (ht : t < 1024) (hempty : pd_table m.mem m.kernel_directory t = 0)
    (hoff : ∀ s, s < 1024 → pd_table m.mem m.kernel_directory s ≠ 0 →
      pd_table m.mem m.kernel_directory s + 4096 ≤ T ∨ T + 4096 ≤ pd_table m.mem m.kernel_directory s) :
    Kernel regs live { m with mem := heap_table_made m.mem m.kernel_directory t T w }
      ∧ Preserves regs regs live m { m with mem := heap_table_made m.mem m.kernel_directory t T w } := by
  obtain ⟨hb1, hb2, hb3⟩ := k.heap.region_bounds hb
  have hmax := k.heap.bounds.max
  have hhigh := k.heap.bounds.high
  have hdir := k.paging.dir_off
  have hpt : sizeof_page_table = 4096 := rfl
  have htab : ∀ s, s < 1024 →
      pd_table (heap_table_made m.mem m.kernel_directory t T w) m.kernel_directory s
        = if s = t then T else pd_table m.mem m.kernel_directory s :=
    fun s hs => pd_table_heap_table_made (by omega) (by omega) ht hs
  have hmem : ∀ x, m.heap.h_addr_start ≤ x → x < m.heap.h_addr_max →
      x < b.addr + 12 ∨ b.addr + b.size - 8 ≤ x →
      heap_table_made m.mem m.kernel_directory t T w x = m.mem x := by
    intro x h1 h2 h3
    unfold heap_table_made
    rw [write32_of_out _ _ (by omega), write32_of_out _ _ (by omega)]
    exact bzero_eqOutside _ _ _ x (by omega)
  obtain ⟨hinv, hlive⟩ := k.scribble hb (by rw [hT]; exact hfree) hmem
  refine ⟨⟨hinv, ⟨k.paging.ready, k.paging.nframes, hdir, ⟨fun s hs hne => ?_, fun s u hs hu hsu h1 h2 => ?_⟩,
    fun s hs hne => ?_, fun q h1 h2 => ?_⟩, k.block, k.nodup⟩, rfl, rfl, rfl, fun s hs hne => ?_,
    fun s hs hz hne => ?_, fun _ h _ => h, hlive⟩
  · dsimp only at hne ⊢
    rw [htab s hs] at hne ⊢
    by_cases hst : s = t
    · rw [if_pos hst]
      omega
    · rw [if_neg hst] at hne ⊢
      exact k.paging.tables.off_dir s hs hne
  · dsimp only at h1 h2 ⊢
    rw [htab s hs] at h1 ⊢
    rw [htab u hu] at h2 ⊢
    by_cases hst : s = t
    · have hut : u ≠ t := fun h => hsu (hst.trans h.symm)
      rw [if_neg hut] at h2 ⊢
      rw [if_pos hst]
      have := hoff u hu h2
      omega
    · rw [if_neg hst] at h1 ⊢
      by_cases hut : u = t
      · rw [if_pos hut]
        exact hoff s hs h1
      · rw [if_neg hut] at h2 ⊢
        exact k.paging.tables.apart s u hs hu hsu h1 h2
  · dsimp only at hne ⊢
    rw [htab s hs] at hne ⊢
    by_cases hst : s = t
    · rw [if_pos hst]
      exact .inr (.inr ⟨b, hb, hblock, by omega, by omega, by rw [hT]; exact hfree⟩)
    · rw [if_neg hst] at hne ⊢
      exact k.paging.place s hs hne
  · dsimp only at h1 h2 ⊢
    rw [htab _ (by omega)]
    by_cases hst : q / 1024 = t
    · rw [if_pos hst]
      omega
    · rw [if_neg hst]
      exact k.paging.mapped q h1 h2
  · dsimp only
    rw [htab s hs, if_neg fun h => hne (by rw [h]; exact hempty)]
  · dsimp only at hne ⊢
    rw [htab s hs] at hne ⊢
    by_cases hst : s = t
    · rw [if_pos hst]
      exact ⟨b, hb, hblock, by omega, by omega⟩
    · rw [if_neg hst] at hne
      exact absurd hz hne

/-- **`get_page` on the heap.**  Whether or not the page has a table already. -/
theorem Kernel.get_page {regs : List Region} {live : List (Nat × Nat)} {m m' : Machine} {fuel a p : Nat}
    (k : Kernel regs live m) (ha : a < 4294967296) (hok : Guard.isolation.TableOk m a)
    (h : get_page (alloc (fuel + 1)) a true m.kernel_directory m = .ok (p, m')) :
    ∃ regs', Kernel regs' live m' ∧ Preserves regs regs' live m m'
      ∧ m'.heap.h_addr_end = m.heap.h_addr_end
      ∧ IsEntry m.kernel_directory m'.mem p
      ∧ (∀ t, t < 1024 → pd_table m.mem m.kernel_directory t ≠ 0 ∨ t = a / 0x1000 / 1024 →
        pd_table m'.mem m.kernel_directory t ≠ 0)
      ∧ (m' = m ∨ ∃ (j T : Nat) (m₁ : Machine), pd_table m.mem m.kernel_directory (a / 0x1000 / 1024) = 0
        ∧ find_smallest_hole (sizeof_page_table + 20) true m = (j : Int)
        ∧ alloc_carve sizeof_page_table true j m = .ok (T, m₁) ∧ Kernel regs' live m₁ ∧ m'.heap = m₁.heap) := by
  by_cases hmiss : pd_table m.mem m.kernel_directory (a / 0x1000 / 1024) = 0
  · obtain ⟨j, hj, hcarve⟩ := hok hmiss
    obtain ⟨T, m₁, w, hal, rfl, rfl⟩ := get_page_heap k.paging.ready hmiss h
    have hpt : sizeof_page_table = 4096 := rfl
    rw [alloc_hit (by omega) hj] at hal
    rcases find_smallest_hole_cases (sizeof_page_table + 20) true m with ⟨i, hi, hlt, hfits, -⟩ | ⟨hneg, -⟩
    swap
    · omega
    have hij : i = j := by omega
    subst hij
    obtain ⟨regs', b, k', hp, hend, htab, hb, hblock, hT, hsize, hnew⟩ := k.carve hlt hfits (by omega) hcarve hal
    have hdir : m₁.kernel_directory = m.kernel_directory := hp.directory
    have hoff := k.paging.dir_off
    have hstart := hp.start
    have hmax := hp.max
    obtain ⟨hb1, hb2, hb3⟩ := k'.heap.region_bounds hb
    have hmax' := k'.heap.bounds.max
    have hhigh := k'.heap.bounds.high
    -- the table's block is none of the clients'
    have hfree : T ∉ live.map Prod.fst := by
      intro hT'
      obtain ⟨l, hl, hlT⟩ := List.mem_map.mp hT'
      obtain ⟨r, hr, hrb, hra, hrs⟩ := k.block l hl
      have := hnew r hr hrb
      omega
    have hapart : ∀ s, s < 1024 → pd_table m₁.mem m₁.kernel_directory s ≠ 0 →
        pd_table m₁.mem m₁.kernel_directory s + 4096 ≤ T
          ∨ T + 4096 ≤ pd_table m₁.mem m₁.kernel_directory s := by
      intro s hs hne
      rw [hdir, htab s hs] at hne ⊢
      rcases k.paging.place s hs hne with h | h | ⟨r, hr, hrb, h1, h2, -⟩
      · omega
      · omega
      · have := hnew r hr hrb
        omega
    have hslot : pd_table m₁.mem m₁.kernel_directory (a / 0x1000 / 1024) = 0 := by
      rw [hdir, htab _ (by omega)]
      exact hmiss
    obtain ⟨k'', hp'⟩ := k'.add_table (w := w) hb hblock hT hsize hfree (by omega) hslot hapart
    have hmade : heap_table_made m₁.mem m₁.kernel_directory (a / 0x1000 / 1024) T w
        = heap_table_made m₁.mem m.kernel_directory (a / 0x1000 / 1024) T w := by rw [hdir]
    rw [hmade] at k'' hp'
    have hnew : ∀ s, s < 1024 →
        pd_table (heap_table_made m₁.mem m.kernel_directory (a / 0x1000 / 1024) T w) m.kernel_directory s
          = if s = a / 0x1000 / 1024 then T else pd_table m.mem m.kernel_directory s := fun s hs => by
      rw [pd_table_heap_table_made (by omega) (by omega) (by omega) hs, htab s hs]
    refine ⟨regs', k'', hp.trans hp', hend, ⟨a / 0x1000 / 1024, a / 0x1000 % 1024, by omega, by omega, ?_, ?_⟩,
      fun t ht hor => ?_, .inr ⟨i, T, m₁, hmiss, hj, hal, k', rfl⟩⟩
    · rw [hnew _ (by omega), if_pos rfl]
      omega
    · rw [hnew _ (by omega), if_pos rfl]
    · rw [hnew t ht]
      by_cases hta : t = a / 0x1000 / 1024
      · rw [if_pos hta]
        omega
      · rw [if_neg hta]
        exact hor.resolve_right hta
  · have hhit : read32 m.mem (m.kernel_directory + 4 * (a / 0x1000 / 1024)) ≠ 0 := hmiss
    unfold JamesM.get_page at h
    simp only [if_pos hhit, Except.ok.injEq, Prod.mk.injEq] at h
    obtain ⟨rfl, rfl⟩ := h
    refine ⟨regs, k, .refl _ _ _, rfl, ?_, fun t ht hor => ?_, .inl rfl⟩
    · rw [lookup_page_eq, if_pos hmiss]
      exact isEntry_page_entry (by omega) hmiss
    · rcases hor with h | rfl
      · exact h
      · exact hmiss

/-! ## §2. The pages of a growth. -/

/-- Every page table that `expand` has to make on its way from offset `i` to `new_size`. -/
def Guard.ExpandOk (G : Guard) (new_size : Nat) : Nat → Nat → Machine → Prop
  | 0, _, _ => True
  | n + 1, i, m => i < new_size →
      G.TableOk m (add32 m.heap.h_addr_start i)
        ∧ ∀ page m₁ m₂, get_page (alloc 1) (add32 m.heap.h_addr_start i) true m.kernel_directory m
            = .ok (page, m₁) →
          alloc_frame page m₁.heap.h_su m₁.heap.h_ro m₁ = .ok m₂ →
          Guard.ExpandOk G new_size n (add32 i 0x1000) m₂

/-- `get_page` calls the allocator for one thing only. -/
theorem get_page_congr {f g : AllocFn} {a dir : Nat} {create : Bool} {m : Machine}
    (h : pd_table m.mem dir (a / 0x1000 / 1024) = 0 →
      f sizeof_page_table true m = g sizeof_page_table true m) :
    get_page f a create dir m = get_page g a create dir m := by
  have hflag : (M_ALIGNED ||| M_ZERO) &&& M_ALIGNED ≠ 0 := by decide
  unfold get_page
  by_cases hmiss : pd_table m.mem dir (a / 0x1000 / 1024) = 0
  · have hk : kmalloc0_ap f sizeof_page_table m = kmalloc0_ap g sizeof_page_table m := by
      simp only [kmalloc0_ap, _kmalloc, decide_eq_true hflag, h hmiss]
    simp only [hk]
  · have hhit : read32 m.mem (dir + 4 * (a / 0x1000 / 1024)) ≠ 0 := hmiss
    simp only [if_pos hhit]

/-- A nested call that finds a hole needs no fuel. -/
theorem Guard.TableOk.get_page_fuel {G : Guard} {m : Machine} {a : Nat} (hok : G.TableOk m a)
    (fuel : Nat) :
    get_page (alloc (fuel + 1)) a true m.kernel_directory m
      = get_page (alloc 1) a true m.kernel_directory m := by
  refine get_page_congr fun hmiss => ?_
  obtain ⟨j, hj, -⟩ := hok hmiss
  rw [alloc_hit (by decide) hj, alloc_hit (by decide) hj]

/-- One page of the loop. -/
theorem expand_loop_succ {f : AllocFn} {new_size n i : Nat} {m m' : Machine} (hi : i < new_size)
    (h : expand_loop f new_size (n + 1) i m = .ok m') :
    ∃ page m₁ m₂, get_page f (add32 m.heap.h_addr_start i) true m.kernel_directory m = .ok (page, m₁)
      ∧ alloc_frame page m₁.heap.h_su m₁.heap.h_ro m₁ = .ok m₂
      ∧ expand_loop f new_size n (add32 i 0x1000) m₂ = .ok m' := by
  rw [expand_loop, if_pos hi] at h
  simp only [bind_ok_iff] at h
  obtain ⟨⟨page, m₁⟩, hg, m₂, hf, h⟩ := h
  exact ⟨page, m₁, m₂, hg, hf, h⟩

/-- **The loop needs fuel for nothing but the nested calls.** -/
theorem Guard.ExpandOk.loop_fuel {G : Guard} {new_size : Nat} (fuel : Nat) : ∀ {n i : Nat} {m : Machine},
    G.ExpandOk new_size n i m →
    expand_loop (alloc (fuel + 1)) new_size n i m = expand_loop (alloc 1) new_size n i m := by
  intro n
  induction n with
  | zero => intro i m _; rfl
  | succ n ih =>
      intro i m hok
      by_cases hi : i < new_size
      · obtain ⟨htable, hrest⟩ := hok hi
        rw [expand_loop, expand_loop, if_pos hi, if_pos hi, htable.get_page_fuel fuel]
        cases hg : get_page (alloc 1) (add32 m.heap.h_addr_start i) true m.kernel_directory m with
        | error e => rfl
        | ok r =>
            obtain ⟨page, m₁⟩ := r
            rw [ok_bind, ok_bind]
            cases hf : alloc_frame page m₁.heap.h_su m₁.heap.h_ro m₁ with
            | error e => simp only [hf, error_bind]
            | ok m₂ =>
                simp only [hf, ok_bind]
                exact ih (hrest page m₁ m₂ hg hf)
      · rw [expand_loop, expand_loop, if_neg hi, if_neg hi]

/-- **The invariant rule of the loop.**  What every page keeps holds after the last one. -/
theorem Guard.ExpandOk.loop_invariant {G : Guard} {new_size : Nat} {J : Nat → Machine → Prop}
    (hstep : ∀ i m page m₁ m₂, i < new_size → J i m → G.TableOk m (add32 m.heap.h_addr_start i) →
      get_page (alloc 1) (add32 m.heap.h_addr_start i) true m.kernel_directory m = .ok (page, m₁) →
      alloc_frame page m₁.heap.h_su m₁.heap.h_ro m₁ = .ok m₂ → J (add32 i 0x1000) m₂) :
    ∀ {n i : Nat} {m m' : Machine}, G.ExpandOk new_size n i m → J i m →
      expand_loop (alloc 1) new_size n i m = .ok m' → ∃ i', new_size ≤ i' ∧ J i' m' := by
  intro n
  induction n with
  | zero =>
      intro i m m' _ hJ h
      rw [expand_loop] at h
      by_cases hi : i < new_size
      · rw [if_pos hi] at h
        exact absurd h (by simp)
      · rw [if_neg hi] at h
        injection h with h
        subst h
        exact ⟨i, Nat.le_of_not_lt hi, hJ⟩
  | succ n ih =>
      intro i m m' hok hJ h
      by_cases hi : i < new_size
      · obtain ⟨page, m₁, m₂, hg, hf, h⟩ := expand_loop_succ hi h
        obtain ⟨htable, hrest⟩ := hok hi
        exact ih (hrest page m₁ m₂ hg hf) (hstep i m page m₁ m₂ hi hJ htable hg hf) h
      · rw [expand_loop, if_neg hi] at h
        injection h with h
        subst h
        exact ⟨i, Nat.le_of_not_lt hi, hJ⟩

/-- The kernel while `expand` is at offset `i`: the heap still has its old bounds, and every page so far
    has a table. -/
structure Growing (regs : List Region) (live : List (Nat × Nat)) (m₀ : Machine) (new_size i : Nat)
    (m : Machine) : Prop where
  kernel : ∃ regs', Kernel regs' live m ∧ Preserves regs regs' live m₀ m
  unmoved : m.heap.h_addr_end = m₀.heap.h_addr_end
  aligned : i % 0x1000 = 0
  last : i ≤ new_size
  last_aligned : new_size % 0x1000 = 0
  room : m₀.heap.h_addr_start + new_size < 4294967296
  mapped : ∀ q, m₀.heap.h_addr_start / 0x1000 ≤ q → q < (m₀.heap.h_addr_start + i) / 0x1000 →
    pd_table m.mem m₀.kernel_directory (q / 1024) ≠ 0

/-- One page. -/
theorem Growing.page {regs : List Region} {live : List (Nat × Nat)} {m₀ m m₁ m₂ : Machine}
    {new_size i page : Nat} (g : Growing regs live m₀ new_size i m) (hi : i < new_size)
    (hok : Guard.isolation.TableOk m (add32 m.heap.h_addr_start i))
    (hg : get_page (alloc 1) (add32 m.heap.h_addr_start i) true m.kernel_directory m = .ok (page, m₁))
    (hf : alloc_frame page m₁.heap.h_su m₁.heap.h_ro m₁ = .ok m₂) :
    Growing regs live m₀ new_size (add32 i 0x1000) m₂ := by
  obtain ⟨regs', k, hp⟩ := g.kernel
  have hstart := hp.start
  have halign := g.aligned
  have hsize := g.last_aligned
  have hroom := g.room
  have hsalign := k.heap.bounds.start_aligned
  have ha : add32 m.heap.h_addr_start i = m₀.heap.h_addr_start + i := by
    rw [hstart]
    exact add32_of_lt (by omega)
  rw [ha] at hok hg
  obtain ⟨regs₁, k₁, hp₁, hend₁, hentry, htab₁, -⟩ := k.get_page (by omega) hok hg
  obtain ⟨k₂, hp₂, hheap₂, -, htab₂⟩ := k₁.alloc_frame (by rw [hp₁.directory]; exact hentry) hf
  have hi' : add32 i 0x1000 = i + 0x1000 := add32_of_lt (by omega)
  refine ⟨⟨regs₁, k₂, hp.trans (hp₁.trans hp₂)⟩, by rw [hheap₂, hend₁, g.unmoved], by omega, by omega,
    hsize, hroom, fun q h1 h2 => ?_⟩
  rw [hp₁.directory] at htab₂
  rw [← hp.directory, htab₂ _ (by omega)]
  refine htab₁ _ (by omega) ?_
  by_cases hq : q < (m₀.heap.h_addr_start + i) / 0x1000
  · rw [hp.directory]
    exact .inl (g.mapped q h1 hq)
  · exact .inr (by omega)

/-! ## §3. The new space. -/

/-- The length `expand` gives the heap for a request of `new_size` bytes. -/
def grown_length (new_size : Nat) (m : Machine) : Nat :=
  following_page (add32 (sub32 m.heap.h_addr_end m.heap.h_addr_start) new_size)

/-- The loop that `expand` runs for a request of `new_size` bytes. -/
def grow_loop (f : AllocFn) (new_size : Nat) (m : Machine) : Result Machine :=
  expand_loop f (grown_length new_size m)
    ((grown_length new_size m - sub32 m.heap.h_addr_end m.heap.h_addr_start) / 0x1000 + 1)
    (sub32 m.heap.h_addr_end m.heap.h_addr_start) m

/-- All that is asked while the heap grows for a request of `new_size` bytes: no address passes `2^32`,
    every nested call is fine, and so is giving the new space to the endmost hole. -/
structure Guard.GrowOk (G : Guard) (new_size : Nat) (m : Machine) : Prop where
  room : m.heap.h_addr_end + new_size + 0x1000 < 4294967296
  pages : G.ExpandOk (grown_length new_size m)
    ((grown_length new_size m - sub32 m.heap.h_addr_end m.heap.h_addr_start) / 0x1000 + 1)
    (sub32 m.heap.h_addr_end m.heap.h_addr_start) m
  space : ∀ m₁, grow_loop (alloc 1) new_size m = .ok m₁ →
    G.grow (grown_length new_size m - (m.heap.h_addr_end - m.heap.h_addr_start)) m₁

/-- A guard that asks for more than another one. -/
structure Guard.Stronger (G G' : Guard) : Prop where
  carve : ∀ {size : Nat} {page_align : Bool} {j : Nat} {m : Machine},
    G.carve size page_align j m → G'.carve size page_align j m
  grow : ∀ {d : Nat} {m : Machine}, G.grow d m → G'.grow d m

theorem Guard.TableOk.weaken {G G' : Guard} (hG : G.Stronger G') {m : Machine} {a : Nat}
    (ok : G.TableOk m a) : G'.TableOk m a := fun hmiss => by
  obtain ⟨j, hj, hcarve⟩ := ok hmiss
  exact ⟨j, hj, hG.carve hcarve⟩

theorem Guard.ExpandOk.weaken {G G' : Guard} (hG : G.Stronger G') {new_size : Nat} :
    ∀ {n i : Nat} {m : Machine}, G.ExpandOk new_size n i m → G'.ExpandOk new_size n i m := by
  intro n
  induction n with
  | zero => intro i m _; trivial
  | succ n ih =>
      intro i m ok hi
      obtain ⟨htable, hrest⟩ := ok hi
      exact ⟨htable.weaken hG, fun page m₁ m₂ hg hf => ih (hrest page m₁ m₂ hg hf)⟩

theorem Guard.GrowOk.weaken {G G' : Guard} (hG : G.Stronger G') {new_size : Nat} {m : Machine}
    (ok : G.GrowOk new_size m) : G'.GrowOk new_size m :=
  ⟨ok.room, ok.pages.weaken hG, fun m₁ h => hG.grow (ok.space m₁ h)⟩

theorem alloc_grow_eq (f : AllocFn) (new_size : Nat) (m : Machine) :
    alloc_grow f new_size m = (do
      KASSERT "expand to a greater size"
        (decide (add32 (sub32 m.heap.h_addr_end m.heap.h_addr_start) new_size
          > sub32 m.heap.h_addr_end m.heap.h_addr_start))
      KASSERT "don't overflow the heap"
        (decide (add32 m.heap.h_addr_start (grown_length new_size m) ≤ m.heap.h_addr_max))
      let m₁ ← grow_loop f new_size m
      give_space (sub32 m.heap.h_addr_end m.heap.h_addr_start) m.heap.h_addr_end
        { m₁ with heap :=
          { m₁.heap with h_addr_end := add32 m₁.heap.h_addr_start (grown_length new_size m) } }) := by
  unfold alloc_grow expand grow_loop grown_length
  simp only [bind_assoc, ok_bind]

theorem Guard.GrowOk.alloc_grow_fuel {G : Guard} {new_size : Nat} {m : Machine} (ok : G.GrowOk new_size m)
    (fuel : Nat) : alloc_grow (alloc (fuel + 1)) new_size m = alloc_grow (alloc 1) new_size m := by
  have hloop : grow_loop (alloc (fuel + 1)) new_size m = grow_loop (alloc 1) new_size m :=
    ok.pages.loop_fuel fuel
  rw [alloc_grow_eq, alloc_grow_eq, hloop]

theorem following_page_of_le {x : Nat} (h : 0x1000 ≤ x) (hlt : x + 0x1000 < 4294967296) :
    following_page x = 4096 * (x / 4096) + 4096 := by
  unfold following_page
  rw [land_page (by omega), if_pos (by omega), add32_of_lt (by omega)]

/-- What a request of `new_size` bytes adds to the heap: one page more than the whole pages of it. -/
def growth (new_size : Nat) : Nat := 4096 * (new_size / 4096) + 4096

theorem growth_facts (new_size : Nat) :
    growth new_size % 4096 = 0 ∧ new_size < growth new_size ∧ growth new_size ≤ new_size + 4096 := by
  unfold growth
  omega

theorem PageSpan.grown_length {m : Machine} (b : PageSpan m.heap) {new_size : Nat}
    (hroom : m.heap.h_addr_end + new_size + 0x1000 < 4294967296) :
    grown_length new_size m
      = m.heap.h_addr_end - m.heap.h_addr_start + growth new_size := by
  unfold JamesM.grown_length growth
  rw [b.length_eq]
  obtain ⟨b1, b2, b3, b4, b5⟩ := b
  rw [add32_of_lt (by omega), following_page_of_le (by omega) (by omega)]
  omega

theorem Bounds.grown_length {m : Machine} (b : Bounds m.heap) {new_size : Nat}
    (hroom : m.heap.h_addr_end + new_size + 0x1000 < 4294967296) :
    JamesM.grown_length new_size m = m.heap.h_addr_end - m.heap.h_addr_start + growth new_size :=
  b.pageSpan.grown_length hroom

/-- The two ways of `give_space`, for `d` bytes. -/
theorem give_space_cases {old_length old_end d : Nat} {m m' : Machine}
    (h : give_space old_length old_end m = .ok m')
    (hd : sub32 (sub32 m.heap.h_addr_end m.heap.h_addr_start) old_length = d) (hd32 : d < 4294967296)
    (hcount : m.heap.h_index.sa_size ≤ 0xFFFFFFFF) :
    (∃ a ∈ m.heap.h_index.entries, 0 < a ∧ (∀ b ∈ m.heap.h_index.entries, b ≤ a)
        ∧ m' = { m with
            mem := put_footer (write32 m.mem (a + 8) (add32 (hh_size m.mem a) d))
              (sub32 (add32 a (add32 (hh_size m.mem a) d)) sizeof_footer) a })
      ∨ ((∀ b ∈ m.heap.h_index.entries, b = 0)
        ∧ ∃ idx, insert_sorted_array (put_footer (put_header m.mem old_end 1 d)
              (sub32 (add32 old_end d) sizeof_footer) old_end) m.heap.h_index old_end = .ok idx
            ∧ m' = { m with
                mem := put_footer (put_header m.mem old_end 1 d)
                  (sub32 (add32 old_end d) sizeof_footer) old_end
                heap := { m.heap with h_index := idx } }) := by
  unfold give_space at h
  dsimp only at h
  rw [hd] at h
  rcases endmost_spec m.heap.h_index with ⟨k, hk, he, hpos, hmax⟩ | ⟨he, hzero⟩
  · left
    rw [he, if_neg (by omega), lookup_sorted_array_returns hk, ok_bind] at h
    refine ⟨m.heap.h_index.sa_array k, SortedArray.mem_entries.mpr ⟨k, hk, rfl⟩, hpos, hmax, ?_⟩
    rw [show hh_size (write32 m.mem (m.heap.h_index.sa_array k + 8)
        (add32 (hh_size m.mem (m.heap.h_index.sa_array k)) d)) (m.heap.h_index.sa_array k)
      = add32 (hh_size m.mem (m.heap.h_index.sa_array k)) d from read32_write32 _ _ (add32_lt _ _)] at h
    exact (Except.ok.inj h).symm
  · right
    have hread : hh_size (put_header m.mem old_end 1 d) old_end = d :=
      (hdrAt_put_header m.mem ⟨old_end, d, true⟩ hd32).size
    rw [he, if_pos rfl, hread, bind_ok_iff] at h
    obtain ⟨idx, hins, h⟩ := h
    exact ⟨hzero, idx, hins, (Except.ok.inj h).symm⟩

/-- The bounds of a heap that is `d` bytes longer. -/
theorem Bounds.grown {h : VmHeap} {d : Nat} (b : Bounds h) (halign : d % 0x1000 = 0)
    (hmax : h.h_addr_end + d ≤ h.h_addr_max) (idx : SortedArray Mem Nat) :
    Bounds { h with h_addr_end := h.h_addr_end + d, h_index := idx } := by
  obtain ⟨b1, b2, b3, b4, b5, b6, b7⟩ := b
  exact ⟨b1, b2, by dsimp only; omega, by dsimp only; omega, hmax, b6, b7⟩

/-- The hole that ends the heap takes `d` bytes more. -/
theorem HeapInv.extend_last {pre : List Region} {g : Region} {m m' : Machine} {d : Nat}
    (inv : HeapInv (pre ++ [g]) m) (hhole : g.hole = true) (hd : 20 ≤ d) (halign : d % 0x1000 = 0)
    (hmax : m.heap.h_addr_end + d ≤ m.heap.h_addr_max)
    (h : m' = { m with
      mem := put_footer (write32 m.mem (g.addr + 8) (g.size + d)) (g.addr + (g.size + d) - 8) g.addr
      heap := { m.heap with h_addr_end := m.heap.h_addr_end + d } }) :
    HeapInv (pre ++ [{ g with size := g.size + d }]) m' ∧ EqOutside g.addr (m.heap.h_addr_end + d) m.mem m'.mem := by
  obtain ⟨b1, b2, b3, b4, b5, b6, b7⟩ := id inv.bounds
  have hg : g ∈ pre ++ [g] := by simp
  have hgend : g.addr + g.size = m.heap.h_addr_end := inv.tiled.cut.2
  have hbefore := inv.tiled.around.1
  have hout : EqOutside g.addr (m.heap.h_addr_end + d) m.mem m'.mem := by
    rw [h]
    exact ((EqOutside.refl _ _ _).write32 _ (by omega) (by omega)).trans
      ((put_footer_eqOutside _ _ _).mono (by omega) (by omega))
  have hhead : HdrAt m'.mem { g with size := g.size + d } := by
    rw [h]
    exact ((inv.head g hg).set_size _ (by omega)).of_eqOutside (put_footer_eqOutside _ _ _)
      (.inl (by dsimp only; omega))
  have hheap : m'.heap = { m.heap with h_addr_end := m.heap.h_addr_end + d } := by rw [h]
  refine ⟨?_, hout⟩
  refine inv.rebuild (by rw [hheap]; exact inv.bounds.grown halign hmax _) ?_ (fun r hr => ?_) ?_
    (by rw [hheap]; exact inv.cmp)
  · rw [hheap]
    refine tiles_append.mpr ⟨_, inv.tiled.cut.1, tiles_singleton.mpr ⟨rfl, ?_⟩⟩
    dsimp only
    omega
  · rcases List.mem_append.mp hr with hr | hr
    · have := hbefore r hr
      exact .inl ⟨by simp [hr], fun x h1 h2 => hout x (by omega)⟩
    · rw [List.mem_singleton] at hr
      subst hr
      refine .inr ⟨by dsimp only; omega, hhead, fun hb => ?_⟩
      rw [show ({ g with size := g.size + d } : Region).hole = g.hole from rfl, hhole] at hb
      exact absurd hb (by decide)
  · rw [hheap]
    have hp := inv.index
    rw [holes_append, holes_cons] at hp ⊢
    exact hp

/-- `d` bytes behind the last region become the only hole. -/
theorem HeapInv.add_last {regs : List Region} {m m' : Machine} {d : Nat} {idx : SortedArray Mem Nat}
    (inv : HeapInv regs m) (hempty : m.heap.h_index.entries = []) (hd : 20 ≤ d) (halign : d % 0x1000 = 0)
    (hmax : m.heap.h_addr_end + d ≤ m.heap.h_addr_max)
    (hins : insert_sorted_array m'.mem m.heap.h_index m.heap.h_addr_end = .ok idx)
    (h : m' = { m with
      mem := put_footer (put_header m.mem m.heap.h_addr_end 1 d) (m.heap.h_addr_end + d - 8) m.heap.h_addr_end
      heap := { m.heap with h_addr_end := m.heap.h_addr_end + d, h_index := idx } }) :
    HeapInv (regs ++ [⟨m.heap.h_addr_end, d, true⟩]) m'
      ∧ EqOutside m.heap.h_addr_end (m.heap.h_addr_end + d) m.mem m'.mem
      ∧ m'.heap.h_index.entries = [m.heap.h_addr_end] := by
  obtain ⟨b1, b2, b3, b4, b5, b6, b7⟩ := id inv.bounds
  obtain ⟨-, -, hcmp, hentries⟩ := insert_sorted_array_entries inv.cmp hins
  have hmem : m'.mem
      = put_footer (put_header m.mem m.heap.h_addr_end 1 d) (m.heap.h_addr_end + d - 8) m.heap.h_addr_end := by
    rw [h]
  have hheap : m'.heap = { m.heap with h_addr_end := m.heap.h_addr_end + d, h_index := idx } := by rw [h]
  have hout : EqOutside m.heap.h_addr_end (m.heap.h_addr_end + d) m.mem m'.mem := by
    rw [hmem]
    exact ((put_header_eqOutside _ _ _ _).mono (by omega) (by omega)).trans
      ((put_footer_eqOutside _ _ _).mono (by omega) (by omega))
  have hhead : HdrAt m'.mem ⟨m.heap.h_addr_end, d, true⟩ := by
    rw [hmem]
    exact (hdrAt_put_header m.mem ⟨m.heap.h_addr_end, d, true⟩ (by dsimp only; omega)).of_eqOutside
      (put_footer_eqOutside _ _ _) (.inl (by dsimp only; omega))
  have hone : m'.heap.h_index.entries = [m.heap.h_addr_end] := by
    rw [hheap]
    dsimp only
    rw [hentries, hempty]
    rfl
  refine ⟨?_, hout, hone⟩
  refine inv.rebuild (by rw [hheap]; exact inv.bounds.grown halign hmax _) ?_ (fun r hr => ?_) ?_
    (by rw [hheap]; exact hcmp.trans inv.cmp)
  · rw [hheap]
    exact tiles_append.mpr ⟨_, inv.tiled, rfl, rfl⟩
  · rcases List.mem_append.mp hr with hr | hr
    · have := (inv.region_bounds hr).2.1
      exact .inl ⟨hr, fun x h1 h2 => hout x (by omega)⟩
    · rw [List.mem_singleton] at hr
      subst hr
      exact .inr ⟨hd, hhead, fun hb => absurd hb Bool.noConfusion⟩
  · have hp := inv.index
    rw [hempty] at hp
    rw [hone, holes_append, ← hp.nil_eq]
    exact .refl _

/-- **The new space.**  It goes to the hole at the end of the heap, or becomes one. -/
theorem HeapInv.give_space {regs : List Region} {m m' : Machine} {d : Nat} (inv : HeapInv regs m)
    (hhole : EndHole m) (hd : 20 ≤ d) (halign : d % 0x1000 = 0)
    (hmax : m.heap.h_addr_end + d ≤ m.heap.h_addr_max)
    (h : give_space (m.heap.h_addr_end - m.heap.h_addr_start) m.heap.h_addr_end
      { m with heap := { m.heap with h_addr_end := m.heap.h_addr_end + d } } = .ok m') :
    ∃ pre olds g, regs = pre ++ olds ∧ g.hole = true ∧ d ≤ g.size
      ∧ g.addr + g.size = m.heap.h_addr_end + d
      ∧ HeapInv (pre ++ [g]) m' ∧ EqOutside g.addr (m.heap.h_addr_end + d) m.mem m'.mem
      ∧ m' = { m with mem := m'.mem
                      heap := { m.heap with h_addr_end := m.heap.h_addr_end + d
                                            h_index := m'.heap.h_index } }
      ∧ ((olds = [] ∧ m.heap.h_index.entries = [] ∧ m'.heap.h_index.entries = [g.addr])
        ∨ (∃ g₀, olds = [g₀] ∧ g₀.hole = true ∧ g = { g₀ with size := g₀.size + d }
          ∧ m'.heap.h_index.entries = m.heap.h_index.entries)) := by
  obtain ⟨b1, b2, b3, b4, b5, b6, b7⟩ := id inv.bounds
  have hsmall := inv.sa_size_lt
  have hdiff : sub32 (sub32 (m.heap.h_addr_end + d) m.heap.h_addr_start)
      (m.heap.h_addr_end - m.heap.h_addr_start) = d := by
    unfold sub32
    omega
  rcases give_space_cases h hdiff (by omega) (by dsimp only; omega) with
    ⟨a, ha, -, hgreatest, hm'⟩ | ⟨hzero, idx, hins, hm'⟩
  · -- the endmost hole takes it
    obtain ⟨g₀, hg₀, hg₀h, rfl⟩ := inv.mem_index.mp ha
    have hsize := (inv.head g₀ hg₀).size
    have hends := hhole g₀.addr ha hgreatest
    rw [hsize] at hends
    have hfoot : sub32 (add32 g₀.addr (g₀.size + d)) sizeof_footer = g₀.addr + (g₀.size + d) - 8 := by
      unfold sub32 add32 sizeof_footer
      omega
    dsimp only at hm'
    rw [hsize, add32_of_lt (show g₀.size + d < 4294967296 by omega), hfoot] at hm'
    obtain ⟨pre, rfl⟩ := inv.tiled.last inv.size_pos hg₀ hends
    obtain ⟨inv', hout⟩ := inv.extend_last hg₀h hd halign hmax hm'
    exact ⟨pre, [g₀], { g₀ with size := g₀.size + d }, rfl, hg₀h, by dsimp only; omega,
      by dsimp only; omega, inv', hout, by rw [hm'], .inr ⟨g₀, rfl, hg₀h, rfl, by rw [hm']⟩⟩
  · -- a new hole
    have hempty : m.heap.h_index.entries = [] := by
      refine List.eq_nil_iff_forall_not_mem.mpr fun a ha => ?_
      obtain ⟨r, hr, -, rfl⟩ := inv.mem_index.mp ha
      have := (inv.region_bounds hr).1
      have := hzero r.addr ha
      omega
    have hfoot : sub32 (add32 m.heap.h_addr_end d) sizeof_footer = m.heap.h_addr_end + d - 8 := by
      unfold sub32 add32 sizeof_footer
      omega
    dsimp only at hins hm'
    rw [hfoot] at hins hm'
    obtain ⟨inv', hout, hone⟩ := inv.add_last hempty hd halign hmax (by rw [hm']; exact hins) hm'
    exact ⟨regs, [], ⟨m.heap.h_addr_end, d, true⟩, by simp, rfl, Nat.le_refl _, rfl, inv', hout, by rw [hm'],
      .inl ⟨rfl, hempty, hone⟩⟩

/-- The parts of a growth. -/
theorem alloc_grow_ok {f : AllocFn} {new_size : Nat} {m m' : Machine} (b : PageSpan m.heap)
    (hroom : m.heap.h_addr_end + new_size + 0x1000 < 4294967296)
    (h : alloc_grow f new_size m = .ok m') :
    m.heap.h_addr_end + growth new_size ≤ m.heap.h_addr_max
      ∧ ∃ m₁, grow_loop f new_size m = .ok m₁
        ∧ give_space (m.heap.h_addr_end - m.heap.h_addr_start) m.heap.h_addr_end
          { m₁ with heap :=
            { m₁.heap with h_addr_end := add32 m₁.heap.h_addr_start (grown_length new_size m) } } = .ok m' := by
  have hlen := b.grown_length hroom
  rw [alloc_grow_eq, b.length_eq] at h
  simp only [bind_ok_iff, KASSERT_eq_ok, decide_eq_true_eq] at h
  obtain ⟨-, -, -, hmax, m₁, hloop, h⟩ := h
  obtain ⟨b1, b2, b3, b4, b5⟩ := b
  obtain ⟨hd1, hd2, hd3⟩ := growth_facts new_size
  rw [hlen, add32_of_lt (by omega)] at hmax
  exact ⟨by omega, m₁, hloop, h⟩

/-- Before the first page. -/
theorem Kernel.growing {regs : List Region} {live : List (Nat × Nat)} {m : Machine} {new_size : Nat}
    (k : Kernel regs live m) (hroom : m.heap.h_addr_end + new_size + 0x1000 < 4294967296) :
    Growing regs live m (grown_length new_size m) (sub32 m.heap.h_addr_end m.heap.h_addr_start) m := by
  have hb := k.heap.bounds
  rw [hb.grown_length hroom, hb.length_eq]
  obtain ⟨b1, b2, b3, b4, b5, b6, b7⟩ := hb
  obtain ⟨hd1, hd2, hd3⟩ := growth_facts new_size
  exact ⟨⟨regs, k, .refl _ _ _⟩, rfl, by omega, by omega, by omega, by omega,
    fun q h1 h2 => k.paging.mapped q h1 (by omega)⟩

/-- After the last page: what is left is to hand the new space over. -/
theorem Growing.space {regs : List Region} {live : List (Nat × Nat)} {m m₁ m' : Machine} {new_size i : Nat}
    (g : Growing regs live m (grown_length new_size m) i m₁) (b : Bounds m.heap)
    (hroom : m.heap.h_addr_end + new_size + 0x1000 < 4294967296)
    (h : give_space (m.heap.h_addr_end - m.heap.h_addr_start) m.heap.h_addr_end
      { m₁ with heap :=
        { m₁.heap with h_addr_end := add32 m₁.heap.h_addr_start (grown_length new_size m) } } = .ok m') :
    give_space (m₁.heap.h_addr_end - m₁.heap.h_addr_start) m₁.heap.h_addr_end
      { m₁ with heap := { m₁.heap with h_addr_end := m₁.heap.h_addr_end + growth new_size } } = .ok m' := by
  obtain ⟨regs₁, k₁, hp₁⟩ := g.kernel
  obtain ⟨b1, b2, b3, b4, b5, b6, b7⟩ := id b
  obtain ⟨hd1, hd2, hd3⟩ := growth_facts new_size
  have hnew : add32 m₁.heap.h_addr_start (grown_length new_size m) = m₁.heap.h_addr_end + growth new_size := by
    rw [b.grown_length hroom, hp₁.start, g.unmoved, add32_of_lt (by omega)]
    omega
  rw [hnew, ← g.unmoved, ← hp₁.start] at h
  exact h

/-- **The clients do not see the new space.**  The endmost hole takes it, or it becomes a hole. -/
theorem Kernel.give_space {regs : List Region} {live : List (Nat × Nat)} {m m' : Machine} {d : Nat}
    (k : Kernel regs live m) (hhole : EndHole m) (hd : 20 ≤ d) (halign : d % 0x1000 = 0)
    (hmax : m.heap.h_addr_end + d ≤ m.heap.h_addr_max)
    (hmapped : ∀ q, m.heap.h_addr_start / 0x1000 ≤ q → q < (m.heap.h_addr_end + d) / 0x1000 →
      pd_table m.mem m.kernel_directory (q / 1024) ≠ 0)
    (h : JamesM.give_space (m.heap.h_addr_end - m.heap.h_addr_start) m.heap.h_addr_end
      { m with heap := { m.heap with h_addr_end := m.heap.h_addr_end + d } } = .ok m') :
    ∃ pre olds g, regs = pre ++ olds ∧ g.hole = true ∧ d ≤ g.size
      ∧ g.addr + g.size = m.heap.h_addr_end + d ∧ Kernel (pre ++ [g]) live m'
      ∧ Preserves regs (pre ++ [g]) live m m' ∧ m'.heap.h_addr_end = m.heap.h_addr_end + d
      ∧ EqOutside g.addr (m.heap.h_addr_end + d) m.mem m'.mem
      ∧ ((olds = [] ∧ g.addr = m.heap.h_addr_end)
        ∨ ∃ g₀, olds = [g₀] ∧ g₀.hole = true ∧ g = { g₀ with size := g₀.size + d }) := by
  obtain ⟨b1, b2, b3, b4, b5, b6, b7⟩ := id k.heap.bounds
  obtain ⟨pre, olds, g, rfl, hgh, hgd, hge, inv', hout, hm', hcases⟩ :=
    k.heap.give_space hhole hd halign hmax h
  have hbefore := inv'.tiled.around.1
  obtain ⟨hg1, -, -⟩ := inv'.region_bounds (r := g) (by simp)
  have hstart' : m'.heap.h_addr_start = m.heap.h_addr_start := by rw [hm']
  have hend' : m'.heap.h_addr_end = m.heap.h_addr_end + d := by rw [hm']
  -- the endmost hole was no block
  have hold : ∀ r ∈ pre ++ olds, r.hole = false → r ∈ pre := by
    intro r hr hrb
    rcases List.mem_append.mp hr with hr | hr
    · exact hr
    · rcases hcases with ⟨rfl, -⟩ | ⟨g₀, rfl, hg₀, -⟩
      · exact absurd hr (by simp)
      · rw [List.mem_singleton] at hr
        rw [hr, hg₀] at hrb
        exact absurd hrb (by decide)
  have hoff := k.paging.dir_off
  have htab : ∀ t, t < 1024 → pd_table m'.mem m.kernel_directory t = pd_table m.mem m.kernel_directory t :=
    fun t ht => hout.read32 (by omega)
  have hp' : Preserves (pre ++ olds) (pre ++ [g]) live m m' := by
    refine ⟨hstart', by rw [hm'], by rw [hm'], fun t ht _ => htab t ht,
      fun t ht hz hne => absurd ((htab t ht).trans hz) hne,
      fun r hr hrb => List.mem_append_left _ (hold r hr hrb), fun l hl x h1 h2 => ?_⟩
    obtain ⟨r, hr, hrb, hra, hrs⟩ := k.block l hl
    have := hbefore r (hold r hr hrb)
    exact hout x (by omega)
  refine ⟨pre, olds, g, rfl, hgh, hgd, hge, ⟨inv', ?_, fun l hl => ?_, k.nodup⟩, hp', hend', hout, ?_⟩
  · exact k.paging.of_blocks (by rw [hm']) (by rw [hm']) (by rw [hm']) hstart' (by rw [hm'])
      (by omega) (by rw [hend']; exact hmapped) htab
      fun r hr hrb hl => ⟨List.mem_append_left _ (hold r hr hrb), hl⟩
  · obtain ⟨r, hr, hrb, hra, hrs⟩ := k.block l hl
    exact ⟨r, List.mem_append_left _ (hold r hr hrb), hrb, hra, hrs⟩
  · rcases hcases with ⟨rfl, -⟩ | ⟨g₀, rfl, hg₀, rfl, -⟩
    · -- what there was ends where the new hole starts
      refine .inl ⟨rfl, ?_⟩
      have htiled := k.heap.tiled
      rw [List.append_nil] at htiled
      have hcut := inv'.tiled.cut.1
      rw [hstart'] at hcut
      exact hcut.end_unique htiled
    · exact .inr ⟨g₀, rfl, hg₀, rfl⟩

/-- **Growing the heap under the clients' eyes.**  The blocks stay as they are, and the heap now ends
    with a hole at least as large as the space that was added. -/
theorem Kernel.grow {regs : List Region} {live : List (Nat × Nat)} {m m' : Machine} {new_size : Nat}
    (k : Kernel regs live m) (ok : Guard.isolation.GrowOk new_size m)
    (h : alloc_grow (alloc 1) new_size m = .ok m') :
    ∃ regs' g, Kernel regs' live m' ∧ Preserves regs regs' live m m'
      ∧ m'.heap.h_addr_end = m.heap.h_addr_end + growth new_size
      ∧ g ∈ regs' ∧ g.hole = true ∧ growth new_size ≤ g.size
      ∧ g.addr + g.size = m'.heap.h_addr_end := by
  have hb := k.heap.bounds
  have hroom := ok.room
  obtain ⟨hmax, m₁, hloop, hspace⟩ := alloc_grow_ok hb.pageSpan hroom h
  obtain ⟨hd1, hd2, hd3⟩ := growth_facts new_size
  -- the pages
  obtain ⟨i, hi, hgrown⟩ := ok.pages.loop_invariant (J := Growing regs live m (grown_length new_size m))
    (fun i m₂ page m₃ m₄ hi hJ hok hg hf => hJ.page hi hok hg hf) (k.growing hroom) hloop
  obtain ⟨regs₁, k₁, hp₁⟩ := hgrown.kernel
  have hend₁ := hgrown.unmoved
  have hstart₁ := hp₁.start
  have hmax₁ := hp₁.max
  have hlen := hb.grown_length hroom
  obtain ⟨b1, b2, b3, b4, b5, b6, b7⟩ := hb
  have hmapped : ∀ q, m₁.heap.h_addr_start / 0x1000 ≤ q →
      q < (m₁.heap.h_addr_end + growth new_size) / 0x1000 →
      pd_table m₁.mem m₁.kernel_directory (q / 1024) ≠ 0 := by
    intro q h1 h2
    rw [hp₁.directory]
    exact hgrown.mapped q (by omega) (by omega)
  -- the space
  obtain ⟨pre, olds, g, rfl, hgh, hgd, hge, k', hp', hend', -⟩ :=
    k₁.give_space (ok.space m₁ hloop) (by omega) (by omega) (by omega) hmapped
      (hgrown.space k.heap.bounds hroom hspace)
  exact ⟨pre ++ [g], g, k', hp₁.trans hp', by omega, by simp, hgh, hgd, by omega⟩

end JamesM
