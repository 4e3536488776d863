/-
  JamesM.Heap.Reentry — growing the heap from inside a growth.

  `expand` asks `get_page` for the pages it adds.  Where a page has no table yet,
  `get_page` takes one from the same heap, and `alloc` runs again while `expand` and
  the outer `alloc` still hold the old bounds.

  If the nested call finds a hole, this does no harm: the table is in a block of its
  own.  If it finds none it calls `expand` again, and the end of the heap has not
  moved: when the page at the end is the one without a table, the nested call asks
  for the same table again, and so on.

  Main result: `growth_is_safe_under_reentry`.
-/
import JamesM.Heap.Mapped

namespace JamesM

open JamesM.ByteMem JamesM.Word32 JamesM.Lib

/-! ## §1. Blocks and tables. -/

/-- The slots of the page directory that a call has filled. -/
def slotsMade (m m' : Machine) : List Nat :=
  (List.range 1024).filter fun t =>
    pd_table m.mem m.kernel_directory t = 0 ∧ pd_table m'.mem m.kernel_directory t ≠ 0

/-- The page tables that a call has made, with their length. -/
def tablesMade (m m' : Machine) : List (Nat × Nat) :=
  (slotsMade m m').map fun t => (pd_table m'.mem m.kernel_directory t, sizeof_page_table)

theorem mem_slotsMade {m m' : Machine} {t : Nat} :
    t ∈ slotsMade m m' ↔ t < 1024 ∧ pd_table m.mem m.kernel_directory t = 0
      ∧ pd_table m'.mem m.kernel_directory t ≠ 0 := by
  unfold slotsMade
  rw [List.mem_filter, List.mem_range, decide_eq_true_eq]

/-- Pieces of memory that do not overlap and that the heap has inside, each with room for a header before
    it and a footer after it. -/
structure ApartInside (l : List (Nat × Nat)) (h : VmHeap) : Prop where
  apart : l.Pairwise fun a b => a.1 + a.2 ≤ b.1 ∨ b.1 + b.2 ≤ a.1
  inside : ∀ a ∈ l, h.h_addr_start + 12 ≤ a.1 ∧ a.1 + a.2 + 8 ≤ h.h_addr_end

/-- **The blocks of the clients and the new tables** keep out of each other's way. -/
theorem Kernel.apartInside {regs regs' : List Region} {live live' : List (Nat × Nat)} {m m' : Machine}
    (k : Kernel regs' live' m') (hp : Preserves regs regs' live m m') :
    ApartInside (live' ++ tablesMade m m') m'.heap := by
  obtain ⟨hpair, hinside⟩ := k.isolated
  have hpt : sizeof_page_table = 4096 := rfl
  -- a new table, and the block it is in
  have hmade : ∀ b ∈ tablesMade m m', ∃ t, t < 1024 ∧ pd_table m'.mem m'.kernel_directory t = b.1
      ∧ b.1 ≠ 0 ∧ b.2 = 4096 ∧ InBlock regs' b.1 := by
    intro b hb
    obtain ⟨t, ht, rfl⟩ := List.mem_map.mp hb
    obtain ⟨ht, hz, hne⟩ := mem_slotsMade.mp ht
    exact ⟨t, ht, by rw [hp.directory], hne, rfl, hp.made t ht hz hne⟩
  refine ⟨List.pairwise_append.mpr ⟨?_, ?_, ?_⟩, fun a ha => ?_⟩
  · refine hpair.imp_of_mem fun {a b} ha hb h => ?_
    have h1 := hinside a ha
    have h2 := hinside b hb
    omega
  · -- two tables
    refine List.pairwise_map.mpr ?_
    have hnodup : (slotsMade m m').Nodup := List.nodup_range.filter _
    refine List.Pairwise.imp_of_mem (fun {t u} ht hu hne => ?_) hnodup
    obtain ⟨ht, -, ht'⟩ := mem_slotsMade.mp ht
    obtain ⟨hu, -, hu'⟩ := mem_slotsMade.mp hu
    have := k.paging.tables.apart t u ht hu hne
    rw [hp.directory] at this
    have := this ht' hu'
    dsimp only
    omega
  · -- a block and a table
    intro a ha b hb
    obtain ⟨t, ht, htab, hne, hlen, r, hr, hrb, h1, h2⟩ := hmade b hb
    obtain ⟨s, hs, hsb, hsa, hss⟩ := k.block a ha
    obtain ⟨hr1, hr2, -⟩ := k.heap.region_bounds hr
    have hmax := k.heap.bounds.max
    have hplace := k.paging.place t ht
    rw [htab] at hplace
    have hapart := (k.heap.table_apart (hplace hne) hs).2.2
      (.inr (by rw [hsa]; exact List.mem_map_of_mem ha))
    omega
  · rcases List.mem_append.mp ha with ha | hb
    · exact hinside a ha
    · obtain ⟨t, ht, htab, hne, hlen, r, hr, hrb, h1, h2⟩ := hmade a hb
      obtain ⟨hr1, hr2, -⟩ := k.heap.region_bounds hr
      omega

/-! ## §2. A nested call that finds no hole. -/

/-- `get_page` fails where the allocator does. -/
theorem get_page_error {f : AllocFn} {a : Nat} {m : Machine} {e : Halt} (hready : m.heap_ready = true)
    (hmiss : pd_table m.mem m.kernel_directory (a / 0x1000 / 1024) = 0)
    (h : f sizeof_page_table true m = .error e) :
    get_page f a true m.kernel_directory m = .error e := by
  have hmiss' : ¬ read32 m.mem (m.kernel_directory + 4 * (a / 0x1000 / 1024)) ≠ 0 := fun h => h hmiss
  have hflag : (M_ALIGNED ||| M_ZERO) &&& M_ALIGNED ≠ 0 := by decide
  have hzero : (M_ALIGNED ||| M_ZERO) &&& M_ZERO ≠ 0 := by decide
  unfold get_page
  simp only [if_neg hmiss', if_true, kmalloc0_ap, _kmalloc, hready, Bool.true_eq_false, if_false, if_pos hzero,
    decide_eq_true hflag, h, error_bind]

/-- **The nesting has no end.**  No hole is left and the page at the end of the heap has no table: a
    request grows the heap, the growth requests a table, and the heap is still the same. -/
theorem alloc_never_returns {m : Machine} (span : PageSpan m.heap) (hready : m.heap_ready = true)
    (hhigh : m.heap.h_addr_max + 0x1000 < 4294967296)
    (hempty : m.heap.h_index.sa_size = 0)
    (hmiss : pd_table m.mem m.kernel_directory (m.heap.h_addr_end / 0x1000 / 1024) = 0)
    (htable : m.heap.h_addr_end + growth (sizeof_page_table + 20) ≤ m.heap.h_addr_max) (fuel : Nat) :
    ∀ {size : Nat} (page_align : Bool), m.heap.h_addr_end + growth (size + 20) ≤ m.heap.h_addr_max →
      alloc fuel size page_align m = .error .fuel := by
  induction fuel with
  | zero => intro size page_align _; rfl
  | succ fuel ih =>
      intro size page_align hmax
      obtain ⟨s1, s2, s3, s4, s5⟩ := id span
      obtain ⟨hd1, hd2, hd3⟩ := growth_facts (size + 20)
      have hroom : m.heap.h_addr_end + (size + 20) + 0x1000 < 4294967296 := by omega
      have hlen := span.grown_length hroom
      have hassert : add32 (m.heap.h_addr_end - m.heap.h_addr_start) (size + 20)
          > m.heap.h_addr_end - m.heap.h_addr_start := by
        rw [add32_of_lt (by omega)]
        omega
      have hlimit : add32 m.heap.h_addr_start (grown_length (size + 20) m) ≤ m.heap.h_addr_max := by
        rw [hlen, add32_of_lt (by omega)]
        omega
      have hfirst : add32 m.heap.h_addr_start (m.heap.h_addr_end - m.heap.h_addr_start) = m.heap.h_addr_end := by
        rw [add32_of_lt (by omega)]
        omega
      -- the first page of the loop
      have hloop : grow_loop (alloc fuel) (size + 20) m = .error .fuel := by
        have hpage := get_page_error hready hmiss (ih true htable)
        unfold grow_loop
        rw [hlen, span.length_eq, expand_loop, if_pos (by omega), hfirst, hpage, error_bind]
      rw [alloc_empty fuel (by omega) page_align hempty, alloc_grow_eq, span.length_eq, decide_eq_true hassert,
        decide_eq_true hlimit, KASSERT_true, KASSERT_true,
        ok_bind, ok_bind, hloop, error_bind, error_bind]

/-- **The end of the heap is a table's.**  One block takes the whole initial heap, a second one the space
    up to `0xC0400000`, where the next page table would have to start. -/
theorem full_heap_below_the_next_table :
    ∃ s₁ s₂, HeapStep freshHeap (.alloc 0x7EFEC false) s₁ ∧ HeapStep s₁ (.alloc 0x2FFFE8 false) s₂
      ∧ PageSpan s₂.machine.heap ∧ s₂.machine.heap_ready = true ∧ s₂.machine.heap.h_index.sa_size = 0
      ∧ s₂.machine.heap.h_addr_end = 0xC0400000 ∧ s₂.machine.heap.h_addr_max = 0xCFFFF000
      ∧ pd_table s₂.machine.mem s₂.machine.kernel_directory 769 = 0 := by
  obtain ⟨k, -, -⟩ := freshHeap_start.kernel
  have hdir : freshHeap.machine.kernel_directory = 0x1000 := by decide +kernel
  have hmiss : pd_table freshHeap.machine.mem 0x1000 769 = 0 := by decide +kernel
  have hframes : freshHeap.machine.frames = fun _ => 0#32 := rfl
  have fr : FreeFrom 0 freshHeap.machine := by
    refine ⟨by decide +kernel, fun l _ => ?_⟩
    rw [hframes]
    simp [frameSet]
  have hgrowth : growth (0x2FFFE8 + 20) = 0x300000 := rfl
  obtain ⟨s₁, s₂, run, -, -, hready, hempty, hstart, hend, hmax, hdir₂, htab⟩ :=
    filling_run 0x2FFFE8 k (by decide +kernel) freshHeap_start.max fr (by rw [hgrowth])
      (by rw [hgrowth]; decide) (by rw [hgrowth]; decide)
  rw [hgrowth] at hend
  refine ⟨s₁, s₂, run.1, run.2.1, ⟨by omega, by omega, by omega, by omega, by omega⟩, hready, hempty, hend, hmax, ?_⟩
  rw [hdir₂, htab 769 (by decide), hdir]
  exact hmiss

/-! ## §3. Deciding that a call is fine. -/

instance (size : Nat) (page_align : Bool) (hdr : Nat) (mem : Mem) : Decidable (CarveSafe size page_align hdr mem) :=
  inferInstanceAs (Decidable (_ → _))

/-- The nested call of `get_page`, evaluated. -/
theorem tableOk_iff {m : Machine} {a : Nat} :
    Guard.isolation.TableOk m a ↔ (pd_table m.mem m.kernel_directory (a / 0x1000 / 1024) = 0 →
      0 ≤ find_smallest_hole (sizeof_page_table + 20) true m
        ∧ CarveSafe sizeof_page_table true
          (m.heap.h_index.sa_array (find_smallest_hole (sizeof_page_table + 20) true m).toNat) m.mem) := by
  refine imp_congr_right fun _ => ⟨?_, fun ⟨hpos, hsafe⟩ => ⟨_, (Int.toNat_of_nonneg hpos).symm, hsafe⟩⟩
  rintro ⟨j, hj, hsafe⟩
  rw [hj]
  exact ⟨Int.natCast_nonneg j, hsafe⟩

instance (m : Machine) (a : Nat) : Decidable (Guard.isolation.TableOk m a) :=
  decidable_of_iff _ tableOk_iff.symm

/-- What holds of the result of a call, if it returns. -/
instance {α : Type} {P : α → Prop} [DecidablePred P] : (x : Result α) → Decidable (∀ a, x = .ok a → P a)
  | .ok a => decidable_of_iff (P a) ⟨fun h b hb => by rw [← Except.ok.inj hb]; exact h, fun h => h a rfl⟩
  | .error _ => isTrue fun _ h => absurd h (by simp)

/-- The loop of `expand`, evaluated. -/
instance decidableExpandOk (new_size : Nat) :
    (n i : Nat) → (m : Machine) → Decidable (Guard.isolation.ExpandOk new_size n i m)
  | 0, _, _ => isTrue trivial
  | n + 1, i, m =>
      have : ∀ m₂, Decidable (Guard.isolation.ExpandOk new_size n (add32 i 0x1000) m₂) :=
        decidableExpandOk new_size n (add32 i 0x1000)
      decidable_of_iff (i < new_size → Guard.isolation.TableOk m (add32 m.heap.h_addr_start i)
          ∧ ∀ r, get_page (alloc 1) (add32 m.heap.h_addr_start i) true m.kernel_directory m = .ok r →
            ∀ m₂, alloc_frame r.1 r.2.heap.h_su r.2.heap.h_ro r.2 = .ok m₂ →
              Guard.isolation.ExpandOk new_size n (add32 i 0x1000) m₂)
        (imp_congr_right fun _ => and_congr_right fun _ =>
          ⟨fun h page m₁ m₂ h₁ h₂ => h (page, m₁) h₁ m₂ h₂, fun h r h₁ m₂ h₂ => h r.1 r.2 m₂ h₁ h₂⟩)

instance (m : Machine) : Decidable (EndHole m) :=
  inferInstanceAs (Decidable (∀ a ∈ m.heap.h_index.entries, (∀ b ∈ m.heap.h_index.entries, b ≤ a) → _))

/-! ## §4. A call from a reachable state. -/

/-- **Growth is safe under re-entry.**  In every state reached from a heap just initialised by steps that
    are safe, a request whose rounds are fine, every nested call among them finding a hole, returns or
    stops the kernel; and if it returns, its block, the page tables made on the way and the blocks held
    before do not overlap and are inside the heap. -/
theorem growth_is_safe_under_reentry {start : Nat} {s x : Session} (st : HeapStart start s)
    {tr : List (HeapOp × Session)} (run : Trace HeapStep s tr) (safe : Along HeapSafe s tr)
    (hx : Reached s tr x) {size : Nat} {page_align : Bool} (hsize : size + 20 < 2147483648)
    (ok : Guard.isolation.AllocOk size page_align x.machine) :
    (∀ n, x.machine.heap.h_addr_max - x.machine.heap.h_addr_end < 4096 * n →
        alloc (n + 1) size page_align x.machine ≠ .error .fuel)
      ∧ ∀ fuel p m', alloc fuel size page_align x.machine = .ok (p, m') →
        ApartInside ((p, size) :: x.live ++ tablesMade x.machine m') m'.heap := by
  obtain ⟨regs, k⟩ := st.reached run safe hx
  refine ⟨fun n hn => k.alloc_returns hsize ok hn, fun fuel p m' h => ?_⟩
  obtain ⟨regs', k', hp⟩ := k.alloc hsize ok h
  exact k'.apartInside hp

/-- A heap that ends two pages below the reach of its page table. -/
def edgeHeap : Session :=
  match init_heap 0xC02FE000 0xC03FE000 0xD02FD000 0 0 plainKernel with
  | .ok m => ⟨{ m with heap_ready := true }, []⟩
  | .error _ => ⟨plainKernel, []⟩

theorem edgeHeap_start : HeapStart 0xC02FE000 edgeHeap :=
  ⟨by decide, by decide,
    ⟨plainKernel, _, 0, 0, pagingReady_of_table (by decide) (by decide) (by decide) rfl
      fun _ _ => plainKernel_table, rfl, rfl⟩, rfl⟩

/-- Its last two pages are the only hole. -/
def edgeSession : Session := after edgeHeap [.alloc 0x7CFCC false]

/-- A growth by three pages makes a table for the third one. -/
theorem edgeSession_pages : Guard.isolation.ExpandOk (grown_length 0x2034 edgeSession.machine)
    ((grown_length 0x2034 edgeSession.machine
        - sub32 edgeSession.machine.heap.h_addr_end edgeSession.machine.heap.h_addr_start) / 0x1000 + 1)
    (sub32 edgeSession.machine.heap.h_addr_end edgeSession.machine.heap.h_addr_start) edgeSession.machine := by
  decide +kernel

theorem edgeSession_space : ∀ m₁, grow_loop (alloc 1) 0x2034 edgeSession.machine = .ok m₁ → EndHole m₁ := by
  decide +kernel

/-- A request of more than two pages: the nested call finds room for the table in the hole. -/
theorem growth_is_safe_under_reentry_one_table :
    find_smallest_hole 0x2034 false edgeSession.machine = -1
      ∧ ¬ HasTables edgeSession.machine 0xC03FE 0xC0401
      ∧ alloc 65281 0x2020 false edgeSession.machine ≠ .error .fuel
      ∧ ∀ fuel p m', alloc fuel 0x2020 false edgeSession.machine = .ok (p, m') →
        ApartInside ((p, 0x2020) :: edgeSession.live ++ tablesMade edgeSession.machine m') m'.heap := by
  have run : Runs edgeHeap [.alloc 0x7CFCC false] = true := by decide +kernel
  have safe : Along HeapSafe edgeHeap (runOf edgeHeap [.alloc 0x7CFCC false]) :=
    ⟨Guard.AllocOk.of_hit (j := 0) (by decide +kernel) (fun h => absurd h (by decide)), trivial⟩
  have hx : Reached edgeHeap _ edgeSession := reached_after edgeHeap [.alloc 0x7CFCC false]
  obtain ⟨regs, k⟩ := edgeHeap_start.reached (trace_runOf _ _ run) safe hx
  have hmiss : find_smallest_hole 0x2034 false edgeSession.machine = -1 := by decide +kernel
  have hgrow : Guard.isolation.GrowOk 0x2034 edgeSession.machine :=
    ⟨by decide +kernel, edgeSession_pages, edgeSession_space⟩
  have hnone : pd_table edgeSession.machine.mem edgeSession.machine.kernel_directory (0xC0400 / 1024) = 0 := by
    decide +kernel
  obtain ⟨hends, hapart⟩ := growth_is_safe_under_reentry edgeHeap_start (trace_runOf _ _ run) safe hx
    (by decide) (k.allocOk_of_growOk hmiss hgrow)
  exact ⟨hmiss, fun h => h 0xC0400 (by decide) (by decide) hnone, hends 65280 (by decide +kernel), hapart⟩

/-- **Endless nesting.**  A request of one byte then never returns: whatever the depth of the recursion is
    bounded by, it is exceeded. -/
theorem nested_growth_never_returns :
    HeapStart 0xC0000000 freshHeap
      ∧ ∃ s₁ s₂, HeapStep freshHeap (.alloc 0x7EFEC false) s₁ ∧ HeapStep s₁ (.alloc 0x2FFFE8 false) s₂
        ∧ ∀ fuel, alloc fuel 1 false s₂.machine = .error .fuel := by
  obtain ⟨s₁, s₂, step₁, step₂, span, hready, hempty, hend, hmax, hmiss⟩ := full_heap_below_the_next_table
  refine ⟨freshHeap_start, s₁, s₂, step₁, step₂, fun fuel => ?_⟩
  apply alloc_never_returns span hready (by rw [hmax]; decide) hempty
  · rw [hend]
    exact hmiss
  · rw [hend, hmax]
    decide
  · rw [hend, hmax]
    decide

end JamesM
