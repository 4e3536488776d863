/-
  JamesM.Heap.Extend — where the space of a growth goes.

  A request that finds no hole grows the heap, and `alloc` adds the new space to the
  hole with the greatest address.  The code does not look where that hole ends: if
  it is not the last region, the hole is grown over the blocks after it.

  The page tables of the new range exist here, so that nothing is nested.

  Main result: `growth_extends_the_end`.
-/
import JamesM.Heap.Retry

namespace JamesM

open JamesM.ByteMem JamesM.Word32 JamesM.Lib

/-! ## §1. The pages. -/

/-- **Giving pages frames is nothing to the heap.**  Only blocks that hold page tables change. -/
theorem PagesGiven.kernel {regs : List Region} {live : List (Nat × Nat)} {lo hi : Nat} {m m' : Machine}
    (g : PagesGiven lo hi m m') (k : Kernel regs live m) (hmap : HasTables m lo hi) (hhi : hi ≤ 1048576) :
    Kernel regs live m' ∧ Preserves regs regs live m m'
      ∧ ∀ r ∈ regs, r.hole = true ∨ r.addr + 12 ∈ live.map Prod.fst →
        ∀ x, r.addr ≤ x → x < r.addr + r.size → m'.mem x = m.mem x := by
  have hheap : m'.heap = m.heap := by rw [g.heap]
  have hdir : m'.kernel_directory = m.kernel_directory := by rw [g.heap]
  have hhigh := k.heap.bounds.high
  have hmax := k.heap.bounds.max
  -- a byte that no page table holds
  have hoff : ∀ x, (∀ t, t < 1024 → pd_table m.mem m.kernel_directory t ≠ 0 →
      x < pd_table m.mem m.kernel_directory t ∨ pd_table m.mem m.kernel_directory t + 4096 ≤ x) →
      m'.mem x = m.mem x := by
    intro x hx
    apply g.off
    intro q hq1 hq2
    have := hx (q / 1024) (by omega) (hmap q hq1 hq2)
    unfold page_entry
    omega
  have hregion : ∀ r ∈ regs, r.hole = true ∨ r.addr + 12 ∈ live.map Prod.fst →
      ∀ x, r.addr ≤ x → x < r.addr + r.size → m'.mem x = m.mem x := by
    intro r hr hor x h1 h2
    apply hoff
    intro t ht hne
    have := (k.heap.table_apart (k.paging.place t ht hne) hr).2.2 hor
    omega
  refine ⟨⟨?_, ?_, k.block, k.nodup⟩, ⟨by rw [hheap], by rw [hheap], hdir, fun t ht _ => g.tables t ht,
    fun t ht hz hne => absurd ((g.tables t ht).trans hz) hne, fun _ h _ => h, fun l hl x h1 h2 => ?_⟩, hregion⟩
  · apply k.heap.of_agree hheap
    · intro r hr x h1 h2
      apply hoff
      intro t ht hne
      have := (k.heap.table_apart (k.paging.place t ht hne) hr).1
      omega
    · intro r hr _ x h1 h2
      apply hoff
      intro t ht hne
      have := (k.heap.table_apart (k.paging.place t ht hne) hr).2.1
      omega
  · exact k.paging.of_blocks (by rw [g.heap]) (by rw [g.heap]) hdir (by rw [hheap]) (by rw [hheap])
      (by rw [hheap]; omega) (by rw [hheap]; exact k.paging.mapped) g.tables fun r hr _ hl => ⟨hr, hl⟩
  · obtain ⟨r, hr, -, hra, hrs⟩ := k.block l hl
    exact hregion r hr (.inr (by rw [hra]; exact List.mem_map_of_mem hl)) x (by omega) (by omega)

/-! ## §2. The growth. -/

/-- The endmost hole, in another memory with the same headers. -/
theorem EndHole.of_headers {regs : List Region} {live : List (Nat × Nat)} {m m₁ : Machine} (hhole : EndHole m)
    (k : Kernel regs live m) (k₁ : Kernel regs live m₁) (hheap : m₁.heap = m.heap) : EndHole m₁ := by
  intro a ha hlast
  rw [hheap] at ha hlast ⊢
  obtain ⟨r, hr, -, rfl⟩ := k.heap.mem_index.mp ha
  have := hhole r.addr ha hlast
  rw [(k.heap.head r hr).size] at this
  rw [(k₁.heap.head r hr).size]
  exact this

/-- The parts of a growth over pages that have tables: first they are given frames, then the hole at the
    end gets the space. -/
theorem Kernel.grow_paged_parts {regs : List Region} {live : List (Nat × Nat)} {m m' : Machine}
    {f : AllocFn} {n : Nat} (k : Kernel regs live m)
    (hhole : ∀ m₁, grow_loop f n m = .ok m₁ → Kernel regs live m₁ → m₁.heap = m.heap → EndHole m₁)
    (hroom : m.heap.h_addr_end + n + 0x1000 < 4294967296)
    (hmap : HasTables m (m.heap.h_addr_end / 4096) ((m.heap.h_addr_end + growth n) / 4096))
    (h : alloc_grow f n m = .ok m') :
    ∃ m₁ pre olds g, PagesGiven (m.heap.h_addr_end / 4096) ((m.heap.h_addr_end + growth n) / 4096) m m₁
      ∧ Kernel regs live m₁ ∧ regs = pre ++ olds ∧ g.hole = true ∧ growth n ≤ g.size
      ∧ g.addr + g.size = m.heap.h_addr_end + growth n ∧ Kernel (pre ++ [g]) live m'
      ∧ Preserves regs (pre ++ [g]) live m₁ m' ∧ m'.heap.h_addr_end = m.heap.h_addr_end + growth n
      ∧ EqOutside g.addr (m.heap.h_addr_end + growth n) m₁.mem m'.mem
      ∧ ((olds = [] ∧ g.addr = m.heap.h_addr_end)
        ∨ ∃ g₀, olds = [g₀] ∧ g₀.hole = true ∧ g = { g₀ with size := g₀.size + growth n }) := by
  obtain ⟨b1, b2, b3, b4, b5, b6, b7⟩ := id k.heap.bounds
  have hspan := k.heap.bounds.pageSpan
  obtain ⟨hd1, hd2, hd3⟩ := growth_facts n
  obtain ⟨hmax, m₁, hloop, hspace⟩ := alloc_grow_ok hspan hroom h
  have hlen := hspan.grown_length hroom
  -- the pages
  have hg := hspan.pages k.paging.tables hroom hmax hmap hloop
  obtain ⟨k₁, hp₁, -⟩ := hg.kernel k hmap (by omega)
  have hheap₁ : m₁.heap = m.heap := by rw [hg.heap]
  have hmapped : ∀ q, m₁.heap.h_addr_start / 0x1000 ≤ q → q < (m₁.heap.h_addr_end + growth n) / 0x1000 →
      pd_table m₁.mem m₁.kernel_directory (q / 1024) ≠ 0 := by
    intro q h1 h2
    rw [hheap₁] at h1 h2
    rw [hp₁.directory, hg.tables _ (by omega)]
    by_cases hq : q < m.heap.h_addr_end / 0x1000
    · exact k.paging.mapped q h1 hq
    · exact hmap q (by omega) (by omega)
  -- the space
  have hend : add32 m₁.heap.h_addr_start (grown_length n m) = m₁.heap.h_addr_end + growth n := by
    rw [hheap₁, hlen, add32_of_lt (by omega)]
    omega
  rw [hend, ← hheap₁] at hspace
  obtain ⟨pre, olds, g, rfl, hgh, hgd, hge, k', hp', hend', hout, hcases⟩ :=
    k₁.give_space (hhole m₁ hloop k₁ hheap₁) (by omega) (by omega) (by rw [hheap₁]; exact hmax) hmapped hspace
  rw [hheap₁] at hge hend' hcases hout
  exact ⟨m₁, pre, olds, g, hg, k₁, rfl, hgh, hgd, hge, k', hp', hend', hout, hcases⟩

/-- **A growth over pages that have tables.**  The heap ends with a hole that has the new space: the hole
    that ended it before, or a new one. -/
theorem Kernel.grow_paged {regs : List Region} {live : List (Nat × Nat)} {m m' : Machine} {f : AllocFn}
    {n : Nat} (k : Kernel regs live m) (hhole : EndHole m)
    (hroom : m.heap.h_addr_end + n + 0x1000 < 4294967296)
    (hmap : HasTables m (m.heap.h_addr_end / 4096) ((m.heap.h_addr_end + growth n) / 4096))
    (h : alloc_grow f n m = .ok m') :
    ∃ pre olds g, regs = pre ++ olds ∧ g.hole = true ∧ growth n ≤ g.size
      ∧ g.addr + g.size = m.heap.h_addr_end + growth n ∧ Kernel (pre ++ [g]) live m'
      ∧ Preserves regs (pre ++ [g]) live m m' ∧ m'.heap.h_addr_end = m.heap.h_addr_end + growth n
      ∧ ((olds = [] ∧ g.addr = m.heap.h_addr_end)
        ∨ ∃ g₀, olds = [g₀] ∧ g₀.hole = true ∧ g = { g₀ with size := g₀.size + growth n })
      ∧ ∀ r ∈ pre, r.hole = true ∨ r.addr + 12 ∈ live.map Prod.fst →
        ∀ x, r.addr ≤ x → x < r.addr + r.size → m'.mem x = m.mem x := by
  obtain ⟨m₁, pre, olds, g, hg, k₁, rfl, hgh, hgd, hge, k', hp', hend', hout, hcases⟩ :=
    k.grow_paged_parts (fun m₁ _ => hhole.of_headers k) hroom hmap h
  have hhigh := k'.heap.bounds.high
  have hmax := k'.heap.bounds.max
  obtain ⟨-, hp₁, hbytes₁⟩ := hg.kernel k hmap (by omega)
  refine ⟨pre, olds, g, rfl, hgh, hgd, hge, k', hp₁.trans hp', hend', hcases, fun r hr hor x h1 h2 => ?_⟩
  have := k'.heap.tiled.around.1 r hr
  rw [hout x (by omega)]
  exact hbytes₁ r (by simp [hr]) hor x h1 h2

/-! ## §3. The request. -/

/-- What a request that grows the heap should do: the regions fill the heap up to its new end; the new
    space belongs to what was the hole at the old end, or starts there; the blocks stay, byte for byte if
    a client holds them; and neither the holes nor the block that is returned cover any of them. -/
structure Extended (regs regs' : List Region) (live : List (Nat × Nat)) (size p : Nat) (m m' : Machine) :
    Prop where
  chain : Chain regs' m'
  start : m'.heap.h_addr_start = m.heap.h_addr_start
  space : ∃ pre olds news, regs = pre ++ olds ∧ regs' = pre ++ news
    ∧ m.heap.h_addr_end < m'.heap.h_addr_end
    ∧ ((olds = [] ∧ Tiled m.heap.h_addr_end news m'.heap.h_addr_end)
      ∨ ∃ g, olds = [g] ∧ g.hole = true ∧ g.addr + g.size = m.heap.h_addr_end
        ∧ Tiled g.addr news m'.heap.h_addr_end)
  kept : ∀ r ∈ regs, r.hole = false → r ∈ regs' ∧ HdrAt m'.mem r ∧ FtrAt m'.mem r
  payload : ∀ r ∈ regs, r.hole = false → r.addr + 12 ∈ live.map Prod.fst →
    ∀ x, r.addr ≤ x → x < r.addr + r.size → m'.mem x = m.mem x
  block : ∃ b ∈ regs', b.hole = false ∧ b.addr + 12 = p ∧ size + 20 ≤ b.size
  apart : ∀ r ∈ regs, r.hole = false → ∀ g ∈ regs', g.hole = true ∨ g.addr + 12 = p →
    r.addr + r.size ≤ g.addr ∨ g.addr + g.size ≤ r.addr

/-- The rounds of a request that finds no hole. -/
theorem alloc_miss {fuel size p : Nat} {page_align : Bool} {m m' : Machine} (hsize : size + 20 < 4294967296)
    (hmiss : find_smallest_hole (size + 20) page_align m = -1)
    (h : alloc fuel size page_align m = .ok (p, m')) :
    ∃ f m₁, alloc_grow (alloc f) (size + 20) m = .ok m₁ ∧ alloc f size page_align m₁ = .ok (p, m') := by
  have hnew : add32 size (sizeof_header + sizeof_footer) = size + 20 := add32_of_lt hsize
  cases fuel with
  | zero => exact absurd h (by simp [alloc])
  | succ f =>
      rw [alloc] at h
      simp only [hnew, hmiss, if_true, bind_ok_iff] at h
      obtain ⟨m₁, hg, h⟩ := h
      exact ⟨f, m₁, hg, h⟩

/-- A request that finds a hole. -/
theorem alloc_hit_ok {fuel size p : Nat} {page_align : Bool} {m m' : Machine} (hsize : size + 20 < 4294967296)
    (hfound : find_smallest_hole (size + 20) page_align m ≠ -1)
    (h : alloc fuel size page_align m = .ok (p, m')) :
    ∃ j, j < m.heap.h_index.sa_size
      ∧ hole_fits m.mem (size + 20) page_align (m.heap.h_index.sa_array j) = true
      ∧ alloc_carve size page_align j m = .ok (p, m') := by
  cases fuel with
  | zero => exact absurd h (by simp [alloc])
  | succ f =>
      rcases find_smallest_hole_cases (size + 20) page_align m with ⟨j, hj, hlt, hfits, -⟩ | ⟨hmiss, -⟩
      · rw [alloc_hit hsize hj] at h
        exact ⟨j, hlt, hfits, h⟩
      · exact absurd hmiss hfound

/-- No hole of a chain is large enough for a request that finds none. -/
theorem Chain.miss {regs : List Region} {m : Machine} {n : Nat} (c : Chain regs m)
    (hmiss : find_smallest_hole n false m = -1) {r : Region} (hr : r ∈ regs) (hhole : r.hole = true) :
    r.size < n := by
  have hin : r.addr ∈ m.heap.h_index.entries := c.mem_index.mpr ⟨r, hr, hhole, rfl⟩
  obtain ⟨i, hi, hia⟩ := SortedArray.mem_entries.mp hin
  rcases find_smallest_hole_cases n false m with ⟨j, hj, -⟩ | ⟨-, hnone⟩
  · omega
  · have hno := hnone i hi
    rw [hia, hole_fits_false, (c.head r hr).size, decide_eq_false_iff_not] at hno
    omega

/-- **The condition is enough.** -/
theorem Kernel.extended {regs : List Region} {live : List (Nat × Nat)} {m m' : Machine} {fuel size p : Nat}
    (k : Kernel regs live m) (hhole : EndHole m)
    (hroom : m.heap.h_addr_end + (size + 20) + 0x1000 < 4294967296)
    (hmiss : find_smallest_hole (size + 20) false m = -1)
    (hmap : HasTables m (m.heap.h_addr_end / 4096) ((m.heap.h_addr_end + growth (size + 20)) / 4096))
    (h : JamesM.alloc fuel size false m = .ok (p, m')) : ∃ regs', Extended regs regs' live size p m m' := by
  obtain ⟨f, m₁, hgrow, h⟩ := alloc_miss (by omega) hmiss h
  obtain ⟨pre, olds, g, rfl, hgh, hgd, hge, k₁, hp₁, hend₁, hcases, hbytes₁⟩ :=
    k.grow_paged hhole hroom hmap hgrow
  obtain ⟨hd1, hd2, hd3⟩ := growth_facts (size + 20)
  have hmax := k₁.heap.bounds.max
  have hspan := k₁.heap.bounds.span
  have hlow := k₁.heap.bounds.low
  -- the holes that were too small still are
  have hsmall : ∀ r ∈ pre, r.hole = true → r.size < size + 20 := by
    intro r hr hrh
    exact k.heap.toChain.miss hmiss (by simp [hr]) hrh
  have hfound : find_smallest_hole (size + 20) false m₁ ≠ -1 := by
    intro hmiss₁
    have := k₁.heap.toChain.miss hmiss₁ (r := g) (by simp) hgh
    omega
  obtain ⟨hg1, hg2, hg3⟩ := k₁.heap.region_bounds (r := g) (by simp)
  obtain ⟨j, hj, hfits, hcarve⟩ := alloc_hit_ok (by omega) hfound h
  obtain ⟨pre', g', post', hregs, hg'h, -, hfit, hp', inv', hout, -, hm', -⟩ :=
    k₁.heap.carve hj hfits (by omega) (fun h => absurd h Bool.noConfusion) hcarve
  -- the hole that is cut is the last one
  have hcut : g' = g := by
    have hin : g' ∈ pre ++ [g] := by rw [hregs]; simp
    rcases List.mem_append.mp hin with hin | hin
    · have := hsmall g' hin hg'h
      have hfit : 0 + (size + 20) ≤ g'.size := hfit
      omega
    · exact List.mem_singleton.mp hin
  subst hcut
  have hsplit : pre = pre' ∧ post' = [] := by
    have hlast : (pre' ++ g' :: post').Pairwise (fun x y => x.addr + x.size ≤ y.addr) := by
      rw [← hregs]
      exact k₁.heap.tiled.sorted
    have hpost : post' = [] := by
      cases post' with
      | nil => rfl
      | cons r post' =>
          have hr : r ∈ pre ++ [g'] := by rw [hregs]; simp
          have h1 := (List.pairwise_cons.mp (List.pairwise_append.mp hlast).2.1).1 r List.mem_cons_self
          have h2 := k₁.heap.region_bounds hr
          omega
    rw [hpost] at hregs
    exact ⟨List.append_cancel_right hregs, hpost⟩
  obtain ⟨rfl, rfl⟩ := hsplit
  rw [List.append_nil] at inv'
  have hbefore := k₁.heap.tiled.around.1
  have htiled : Tiled g'.addr (carved g' size false) (g'.addr + g'.size) := tiled_carved hfit
  have hend' : m'.heap.h_addr_end = m₁.heap.h_addr_end := by rw [hm']
  -- the old blocks come before the space that was cut
  have hpre : ∀ r ∈ pre ++ olds, r.hole = false → r ∈ pre := by
    intro r hr hrb
    rcases List.mem_append.mp hr with hr | hr
    · exact hr
    · rcases hcases with ⟨rfl, -⟩ | ⟨g₀, rfl, hg₀, -⟩
      · exact absurd hr (by simp)
      · rw [List.mem_singleton.mp hr, hg₀] at hrb
        exact absurd hrb (by decide)
  have hp'' : p = g'.addr + 12 := hp'
  refine ⟨pre ++ carved g' size false, inv'.toChain, ?_, ⟨pre, olds, _, rfl, rfl, by omega, ?_⟩,
    fun r hr hrb => ?_, fun r hr hrb hl x h1 h2 => ?_, ?_, fun r hr hrb g hg hor => ?_⟩
  · rw [← hp₁.start, hm']
  · rw [hend', ← k₁.heap.tiled.cut.2]
    rcases hcases with ⟨rfl, hga⟩ | ⟨g₀, rfl, hg₀, hgg⟩
    · left
      rw [← hga]
      exact ⟨rfl, htiled⟩
    · right
      have ha : g'.addr = g₀.addr := by rw [hgg]
      have hs : g'.size = g₀.size + growth (size + 20) := by rw [hgg]
      refine ⟨g₀, rfl, hg₀, by omega, ?_⟩
      rw [← ha]
      exact htiled
  · have hin := List.mem_append_left (carved g' size false) (hpre r hr hrb)
    exact ⟨hin, inv'.head r hin, inv'.foot r hin hrb⟩
  · have hin := hpre r hr hrb
    have := hbefore r hin
    rw [hout x (by omega)]
    exact hbytes₁ r hin (.inr hl) x h1 h2
  · obtain ⟨b, hb, hbb, hba, hbs, -⟩ := exists_block_carved size hfit
    refine ⟨b, List.mem_append_right _ hb, hbb, ?_, hbs⟩
    rw [hp'', hba]
    rfl
  · have hin := List.mem_append_left (carved g' size false) (hpre r hr hrb)
    rcases inv'.apart hin hg with rfl | hd
    · rcases hor with hgh | hgp
      · rw [hrb] at hgh
        exact absurd hgh Bool.noConfusion
      · have h1 := hbefore r (hpre r hr hrb)
        have h2 := inv'.size r hin
        omega
    · exact hd

/-! ## §4. A hole that is not the last region. -/

/-- An unaligned block starts where its hole did. -/
theorem alloc_carve_place {size i p : Nat} {m m' : Machine} (h : alloc_carve size false i m = .ok (p, m')) :
    p = add32 (m.heap.h_index.sa_array i) sizeof_header := by
  unfold alloc_carve at h
  rw [bind_ok_iff] at h
  obtain ⟨hdr, hlook, h⟩ := h
  simp only [lookup_sorted_array, bind_ok_iff] at hlook
  obtain ⟨-, -, hlook⟩ := hlook
  have hhdr := Except.ok.inj hlook
  rw [bind_ok_iff] at h
  obtain ⟨r, hfront, h⟩ := h
  rw [bind_ok_iff] at h
  obtain ⟨m₂, -, h⟩ := h
  unfold carve_front at hfront
  rw [if_neg (fun h => absurd h.1 (by decide)), bind_ok_iff] at hfront
  obtain ⟨idx, -, hfront⟩ := hfront
  have hr := Except.ok.inj hfront
  have hp := (Prod.mk.inj (Except.ok.inj h)).1
  rw [← hp, ← hr, hhdr]

/-- The block comes out of the hole with the greatest address, wherever that is. -/
theorem Kernel.grown_place {regs : List Region} {live : List (Nat × Nat)} {m m' : Machine} {g : Region}
    {fuel size p : Nat} (k : Kernel regs live m) (hg : g ∈ regs) (hgh : g.hole = true)
    (hlast : ∀ b ∈ m.heap.h_index.entries, b ≤ g.addr)
    (hroom : m.heap.h_addr_end + (size + 20) + 0x1000 < 4294967296)
    (hmiss : find_smallest_hole (size + 20) false m = -1)
    (hmap : HasTables m (m.heap.h_addr_end / 4096) ((m.heap.h_addr_end + growth (size + 20)) / 4096))
    (h : JamesM.alloc fuel size false m = .ok (p, m')) : p = g.addr + 12 := by
  obtain ⟨f, m₁, hgrow, h⟩ := alloc_miss (by omega) hmiss h
  obtain ⟨b1, b2, b3, b4, b5, b6, b7⟩ := id k.heap.bounds
  have hspan := k.heap.bounds.pageSpan
  have hlen := hspan.grown_length hroom
  obtain ⟨hd1, hd2, hd3⟩ := growth_facts (size + 20)
  obtain ⟨hmax, m₀, hloop, hspace⟩ := alloc_grow_ok hspan hroom hgrow
  -- the pages leave the heap alone
  have hgiven := hspan.pages k.paging.tables hroom hmax hmap hloop
  obtain ⟨k₀, -, -⟩ := hgiven.kernel k hmap (by omega)
  have hheap₀ : m₀.heap = m.heap := by rw [hgiven.heap]
  have hend : add32 m₀.heap.h_addr_start (grown_length (size + 20) m)
      = m.heap.h_addr_end + growth (size + 20) := by
    rw [hheap₀, hlen, add32_of_lt (by omega)]
    omega
  rw [hend, hheap₀] at hspace
  have hdiff : sub32 (sub32 (m.heap.h_addr_end + growth (size + 20)) m.heap.h_addr_start)
      (m.heap.h_addr_end - m.heap.h_addr_start) = growth (size + 20) := by
    unfold sub32
    omega
  have hcount := k.heap.sa_size_lt
  have hgin : g.addr ∈ m.heap.h_index.entries := k.heap.mem_index.mpr ⟨g, hg, hgh, rfl⟩
  obtain ⟨hg1, hg2, hg3⟩ := k.heap.region_bounds hg
  rcases give_space_cases hspace hdiff (by omega) (show m.heap.h_index.sa_size ≤ _ by omega) with
    ⟨a, ha, -, halast, hm₁⟩ | ⟨hzero, -⟩
  swap
  · have := hzero g.addr hgin
    omega
  have hag : a = g.addr := Nat.le_antisymm (hlast a ha) (halast g.addr hgin)
  rw [hag] at hm₁
  dsimp only at hm₁
  rw [(k₀.heap.head g hg).size, add32_of_lt (by omega)] at hm₁
  have hfoot : sub32 (add32 g.addr (g.size + growth (size + 20))) sizeof_footer
      = g.addr + (g.size + growth (size + 20)) - 8 := by
    unfold sub32 add32 sizeof_footer
    omega
  rw [hfoot] at hm₁
  have hindex : m₁.heap.h_index = m.heap.h_index := by rw [hm₁]
  have hout : EqOutside (g.addr + 8) (g.addr + (g.size + growth (size + 20))) m₀.mem m₁.mem := by
    rw [hm₁]
    exact ((EqOutside.refl _ _ _).write32 _ (by omega) (by omega)).trans
      ((put_footer_eqOutside _ _ _).mono (by omega) (by omega))
  have hsize : hh_size m₁.mem g.addr = g.size + growth (size + 20) := by
    rw [hm₁]
    refine Eq.trans ((put_footer_eqOutside _ _ _).read32 (.inl ?_)) (read32_write32 _ _ ?_)
    · omega
    · omega
  -- the hole is found now, and no other
  have hfound : find_smallest_hole (size + 20) false m₁ ≠ -1 := by
    obtain ⟨i, hi, hia⟩ := SortedArray.mem_entries.mp hgin
    rcases find_smallest_hole_cases (size + 20) false m₁ with ⟨j, hj, -⟩ | ⟨-, hnone⟩
    · omega
    · have hno := hnone i (by rw [hindex]; exact hi)
      rw [hindex, hia, hole_fits_false, hsize, decide_eq_false_iff_not] at hno
      omega
  obtain ⟨j, hj, hfits, hcarve⟩ := alloc_hit_ok (by omega) hfound h
  rw [hindex] at hj hfits
  have hjin : m.heap.h_index.sa_array j ∈ m.heap.h_index.entries := SortedArray.mem_entries.mpr ⟨j, hj, rfl⟩
  obtain ⟨r, hr, hrh, hra⟩ := k.heap.mem_index.mp hjin
  have hrg : r = g := by
    rcases k.heap.apart hr hg with heq | hd | hd
    · exact heq
    · have hrsmall := k.heap.toChain.miss hmiss hr hrh
      have hr3 := (k.heap.region_bounds hr).2.2
      have hsame : hh_size m₁.mem r.addr = hh_size m₀.mem r.addr := hout.read32 (.inl (by omega))
      rw [hole_fits_false, decide_eq_true_eq, ← hra, hsame, (k₀.heap.head r hr).size] at hfits
      omega
    · have := hlast r.addr (by rw [hra]; exact hjin)
      omega
  rw [alloc_carve_place hcarve, hindex, ← hra, hrg, add32_of_lt (by unfold sizeof_header; omega)]
  rfl

/-- **The condition is needed.**  If the hole with the greatest address is not the last region, the block
    covers the one after that hole. -/
theorem Kernel.endHole_of_extended {regs regs' : List Region} {live : List (Nat × Nat)} {m m' : Machine}
    {fuel size p : Nat} (k : Kernel regs live m)
    (hroom : m.heap.h_addr_end + (size + 20) + 0x1000 < 4294967296)
    (hmiss : find_smallest_hole (size + 20) false m = -1)
    (hmap : HasTables m (m.heap.h_addr_end / 4096) ((m.heap.h_addr_end + growth (size + 20)) / 4096))
    (h : JamesM.alloc fuel size false m = .ok (p, m')) (ext : Extended regs regs' live size p m m') :
    EndHole m := by
  intro a ha hlast
  obtain ⟨g, hg, hgh, rfl⟩ := k.heap.mem_index.mp ha
  rw [(k.heap.head g hg).size]
  by_contra hne
  have hsmall := k.heap.toChain.miss hmiss hg hgh
  have hplace := k.grown_place hg hgh hlast hroom hmiss hmap h
  obtain ⟨pre, post, rfl⟩ := exists_cut hg
  cases post with
  | nil => exact hne k.heap.tiled.cut.2
  | cons b post =>
      have hb : b ∈ pre ++ g :: b :: post := by simp
      have hba : b.addr = g.addr + g.size := k.heap.tiled.cut.2.1
      have hg3 := (k.heap.region_bounds hg).2.2
      have hb3 := (k.heap.region_bounds hb).2.2
      have hblock : b.hole = false := by
        cases hbh : b.hole with
        | false => rfl
        | true =>
            have := hlast b.addr (k.heap.mem_index.mpr ⟨b, hb, hbh, rfl⟩)
            omega
      obtain ⟨new, hnew, -, hnp, hns⟩ := ext.block
      have := ext.apart b hb hblock new hnew (.inr hnp)
      omega

/-! ## §5. Whole runs. -/

/-- **Growing the heap.**  In every state of a run whose steps are safe, and for every unaligned request
    that finds no hole, over page tables that exist, without a sum that passes `2^32`: the request extends
    the heap at its end, and covers no block, exactly when the hole with the greatest address ends the
    heap (or there is no hole). -/
theorem growth_extends_the_end {start : Nat} {s x : Session} (st : HeapStart start s)
    {tr : List (HeapOp × Session)} (run : Trace HeapStep s tr) (safe : Along HeapSafe s tr)
    (hx : Reached s tr x) :
    ∃ regs, Kernel regs x.live x.machine
      ∧ ∀ (fuel size p : Nat) (m' : Machine), find_smallest_hole (size + 20) false x.machine = -1 →
        x.machine.heap.h_addr_end + (size + 20) + 0x1000 < 4294967296 →
        HasTables x.machine (x.machine.heap.h_addr_end / 4096)
          ((x.machine.heap.h_addr_end + growth (size + 20)) / 4096) →
        alloc fuel size false x.machine = .ok (p, m') →
        ((∃ regs', Extended regs regs' x.live size p x.machine m') ↔ EndHole x.machine) := by
  obtain ⟨regs, k⟩ := st.reached run safe hx
  refine ⟨regs, k, fun fuel size p m' hmiss hroom hmap h => ⟨fun ⟨regs', ext⟩ => ?_, fun hhole => ?_⟩⟩
  · exact k.endHole_of_extended hroom hmiss hmap h ext
  · exact k.extended hhole hroom hmiss hmap h

/-- A block of `0x7E000` bytes, then a page: the rest of the first hole gets two pages more. -/
theorem growth_extends_the_end_by_two_pages :
    ∃ (x : Session) (p : Nat) (m' : Machine), x = after freshHeap [.alloc 0x7E000 false]
      ∧ alloc 2 0x1000 false x.machine = .ok (p, m')
      ∧ ∃ regs regs', Extended regs regs' x.live 0x1000 p x.machine m' := by
  have run : Runs freshHeap [.alloc 0x7E000 false] = true := by decide +kernel
  have safe : Along HeapSafe freshHeap (runOf freshHeap [.alloc 0x7E000 false]) :=
    ⟨Guard.AllocOk.of_hit (j := 0) (by decide +kernel) (fun h => absurd h (by decide)), trivial⟩
  obtain ⟨regs, -, hall⟩ := growth_extends_the_end freshHeap_start (trace_runOf _ _ run) safe
    (reached_after freshHeap [.alloc 0x7E000 false])
  have hreturns : ∃ r, alloc 2 0x1000 false (after freshHeap [.alloc 0x7E000 false]).machine = .ok r :=
    exists_of_isOk (by decide +kernel)
  obtain ⟨⟨p, m'⟩, h⟩ := hreturns
  have htables : HasTables (after freshHeap [.alloc 0x7E000 false]).machine 0xC0100 0xC0102 := by
    intro q h1 h2
    rw [show q / 1024 = 768 by omega]
    decide +kernel
  have hend : EndHole (after freshHeap [.alloc 0x7E000 false]).machine := by
    unfold EndHole
    decide +kernel
  exact ⟨_, p, m', rfl, h, regs, (hall 2 0x1000 p m' (by decide +kernel) (by decide +kernel) htables h).mpr hend⟩

/-- **A hole grown over a block.**  A small block, a large one up to the end of the heap; the small one is
    freed, and a request that does not fit there gets the grown hole, over the large block. -/
theorem growth_covers_a_live_block :
    HeapStart 0xC0000000 freshHeap
      ∧ ∃ (x : Session) (p : Nat) (m' : Machine),
        x = after freshHeap [.alloc 100 false, .alloc 520052 false, .free 0xC008100C]
          ∧ Trace HeapStep freshHeap
              (runOf freshHeap [.alloc 100 false, .alloc 520052 false, .free 0xC008100C])
          ∧ find_smallest_hole 1020 false x.machine = -1
          ∧ HasTables x.machine (x.machine.heap.h_addr_end / 4096)
              ((x.machine.heap.h_addr_end + growth 1020) / 4096)
          ∧ alloc 2 1000 false x.machine = .ok (p, m')
          ∧ (∃ regs, Kernel regs x.live x.machine)
          ∧ ∀ regs regs', Kernel regs x.live x.machine → ¬ Extended regs regs' x.live 1000 p x.machine m' := by
  have run : Trace HeapStep freshHeap
      (runOf freshHeap [.alloc 100 false, .alloc 520052 false, .free 0xC008100C]) :=
    trace_runOf _ _ (by decide +kernel)
  have safe : Along HeapSafe freshHeap
      (runOf freshHeap [.alloc 100 false, .alloc 520052 false, .free 0xC008100C]) := by
    refine ⟨Guard.AllocOk.of_hit (j := 0) (by decide +kernel) (fun h => absurd h (by decide)),
      Guard.AllocOk.of_hit (j := 0) (by decide +kernel) (fun h => absurd h (by decide)),
      ⟨fun h => ?_, fun h => ?_⟩, trivial⟩
    · exact absurd h (by decide +kernel)
    · exact absurd h (by decide +kernel)
  have hsound := freshHeap_start.reached run safe (reached_after _ _)
  have hp : (alloc 2 1000 false
      (after freshHeap [.alloc 100 false, .alloc 520052 false, .free 0xC008100C]).machine).map Prod.fst
        = .ok 0xC008100C := by decide +kernel
  obtain ⟨⟨p, m'⟩, h⟩ := exists_of_isOk (x := alloc 2 1000 false
    (after freshHeap [.alloc 100 false, .alloc 520052 false, .free 0xC008100C]).machine) (by decide +kernel)
  have hend : (after freshHeap [.alloc 100 false, .alloc 520052 false, .free 0xC008100C]).machine.heap.h_addr_end
      = 0xC0100000 := by decide +kernel
  refine ⟨freshHeap_start, _, p, m', rfl, run, by decide +kernel, ?_, h, hsound, fun regs regs' k ext => ?_⟩
  · intro q h1 h2
    rw [hend] at h1 h2
    have hg : growth 1020 = 4096 := by decide
    rw [show q / 1024 = 768 by omega]
    decide +kernel
  · rw [h] at hp
    have hp : p = 0xC008100C := Except.ok.inj hp
    -- the large block is still held
    obtain ⟨r, hr, hrb, hra, hrs⟩ := k.block (0xC0081084, 520052) (by decide +kernel)
    obtain ⟨b, hb, -, hbp, hbs⟩ := ext.block
    have := ext.apart r hr hrb b hb (.inr hbp)
    dsimp only at hra hrs
    omega

end JamesM
