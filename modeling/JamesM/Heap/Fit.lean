/-
  JamesM.Heap.Fit — an unaligned request that finds a hole.

  `WellFormed regs m` is the whole representation of the heap in one statement: the
  header chain, the boundary tags, the index as the ordered list of the holes.  It
  says nothing about pages or about the place of the heap.

  The requests that go well in every well-formed heap are the unaligned ones that
  find a hole.

  Main result: `unaligned_alloc_best_fit`.
-/
import JamesM.Heap.BestFit

namespace JamesM

open JamesM.ByteMem JamesM.Word32 JamesM.Lib

/-! ## §1. Well-formed heaps. -/

/-- Memory holds the footer of the region, unless the region is a hole that ends the heap. -/
def TaggedAt (regs : List Region) (m : Machine) : Prop :=
  ∀ r ∈ regs, FtrAt m.mem r ∨ (r.hole = true ∧ r.addr + r.size = m.heap.h_addr_end)

/-- The representation of the heap. -/
structure WellFormed (regs : List Region) (m : Machine) : Prop where
  chain : Chain regs m
  high : m.heap.h_addr_end < 4294967296
  small : ∀ r ∈ regs, r.size < 2147483648
  tagged : TaggedAt regs m
  sorted : Ordered m
  room : m.heap.h_index.sa_size ≤ m.heap.h_index.sa_maxsize

/-- The footers, where the holes in the index have theirs. -/
theorem HeapInv.taggedAt {regs : List Region} {m : Machine} (inv : HeapInv regs m)
    (hfoot : ∀ b ∈ m.heap.h_index.entries,
      hf_magic m.mem (b + hh_size m.mem b - 8) = VM_HEAP_FTR_MAGIC
        ∧ hf_header m.mem (b + hh_size m.mem b - 8) = b) : TaggedAt regs m := by
  intro r hr
  left
  cases hrh : r.hole with
  | false => exact inv.foot r hr hrh
  | true =>
      obtain ⟨h1, h2⟩ := hfoot r.addr (inv.mem_index.mpr ⟨r, hr, hrh, rfl⟩)
      rw [(inv.head r hr).size] at h1 h2
      exact ⟨h1, h2⟩

/-- The tags after a row of tagged regions took the place of one region. -/
theorem TaggedAt.splice {pre post mids : List Region} {g : Region} {m m' : Machine}
    (tags : TaggedAt (pre ++ g :: post) m) (c : Chain (pre ++ g :: post) m)
    (hend : m'.heap.h_addr_end = m.heap.h_addr_end) (hmids : ∀ r ∈ mids, FtrAt m'.mem r)
    (hmem : EqOutside g.addr (g.addr + g.size) m.mem m'.mem) : TaggedAt (pre ++ mids ++ post) m' := by
  intro r hr
  obtain ⟨hbefore, hafter⟩ := c.tiled.around
  have hkeep : r ∈ pre ++ g :: post → r.addr + r.size ≤ g.addr ∨ g.addr + g.size ≤ r.addr →
      FtrAt m'.mem r ∨ (r.hole = true ∧ r.addr + r.size = m'.heap.h_addr_end) := by
    intro hr hoff
    have hs := c.size r hr
    rcases tags r hr with htag | hlast
    · exact .inl (htag.of_eqOutside hs hmem (by omega))
    · rw [hend]
      exact .inr hlast
  simp only [List.mem_append] at hr
  rcases hr with (hr | hr) | hr
  · exact hkeep (by simp [hr]) (.inl (hbefore r hr))
  · exact .inl (hmids r hr)
  · exact hkeep (by simp [hr]) (.inr (hafter r hr))

/-! ## §2. The call returns. -/

theorem carve_rest_returns (size new_size pos left : Nat) {m : Machine}
    (hcmp : m.heap.h_index.sa_cmp = some vm_heap_header_cmp)
    (hroom : m.heap.h_index.sa_size < m.heap.h_index.sa_maxsize) :
    ∃ m', carve_rest size new_size pos left m = .ok m'
      ∧ m'.heap.h_index.sa_size ≤ m'.heap.h_index.sa_maxsize
      ∧ m'.heap.h_index.sa_maxsize = m.heap.h_index.sa_maxsize := by
  unfold carve_rest
  by_cases hpos : sub32 left new_size > 0
  · rw [if_pos hpos]
    apply bind_returns (insert_sorted_array_returns _ _ hcmp hroom)
    intro idx _ hidx
    refine ⟨_, rfl, ?_, hidx.2⟩
    show idx.sa_size ≤ idx.sa_maxsize
    omega
  · rw [if_neg hpos]
    exact ⟨_, rfl, Nat.le_of_lt hroom, rfl⟩

/-- The hole is taken out of the index, or stays there as the hole in front. -/
theorem carve_front_returns (page_align : Bool) {i : Nat} (pos left : Nat) {m : Machine}
    (hi : i < m.heap.h_index.sa_size)
    (hroom : m.heap.h_index.sa_size + page_align.toNat ≤ m.heap.h_index.sa_maxsize) :
    ∃ r, carve_front page_align i pos left m = .ok r
      ∧ r.2.2.heap.h_index.sa_cmp = m.heap.h_index.sa_cmp
      ∧ r.2.2.heap.h_index.sa_size < r.2.2.heap.h_index.sa_maxsize
      ∧ r.2.2.heap.h_index.sa_maxsize = m.heap.h_index.sa_maxsize := by
  unfold carve_front
  by_cases hfront : page_align = true ∧ pos &&& 0xFFFFF000 ≠ 0
  · rw [if_pos hfront]
    rw [hfront.1] at hroom
    exact ⟨_, rfl, rfl, hroom, rfl⟩
  · rw [if_neg hfront]
    apply bind_returns (remove_sorted_array_returns hi)
    intro idx hrem hidx
    obtain ⟨-, -, hcmp, -⟩ := remove_sorted_array_entries hrem
    refine ⟨_, rfl, hcmp, ?_, hidx.2⟩
    show idx.sa_size < idx.sa_maxsize
    omega

/-- The index has room for the rest of the hole: the hole itself was taken out, or there was room for one
    hole more. -/
theorem alloc_carve_returns (size : Nat) (page_align : Bool) {i : Nat} {m : Machine}
    (hi : i < m.heap.h_index.sa_size) (hcmp : m.heap.h_index.sa_cmp = some vm_heap_header_cmp)
    (hroom : m.heap.h_index.sa_size + page_align.toNat ≤ m.heap.h_index.sa_maxsize) :
    ∃ r, alloc_carve size page_align i m = .ok r
      ∧ r.2.heap.h_index.sa_size ≤ r.2.heap.h_index.sa_maxsize
      ∧ r.2.heap.h_index.sa_maxsize = m.heap.h_index.sa_maxsize := by
  unfold alloc_carve
  rw [lookup_sorted_array_returns hi, ok_bind]
  refine bind_returns (carve_front_returns page_align _ _ hi hroom) fun r _ hr => ?_
  refine bind_returns (carve_rest_returns _ _ _ _ (hr.1.trans hcmp) hr.2.1) fun m₂ _ hle => ?_
  exact ⟨_, rfl, hle.1, hle.2.trans hr.2.2⟩

/-! ## §3. A request out of the only hole. -/

/-- A request out of the only hole, which ends the heap. -/
theorem HeapInv.tail_request (blocks : List Region) (size : Nat) {g : Region} {m : Machine}
    (inv : HeapInv (blocks ++ [g]) m) (hblocks : holes blocks = []) (hhole : g.hole = true)
    (hfit : size + 20 ≤ g.size) (hsize : size + 20 < 2147483648)
    (hroom : m.heap.h_index.sa_size ≤ m.heap.h_index.sa_maxsize) (fuel : Nat) :
    Guard.isolation.AllocOk size false m ∧ find_smallest_hole (size + 20) false m ≠ -1
      ∧ ∃ m', JamesM.alloc (fuel + 1) size false m = .ok (g.addr + 12, m')
        ∧ HeapInv (blocks ++ carved g size false) m' ∧ EqOutside g.addr (g.addr + g.size) m.mem m'.mem
        ∧ m'.heap.h_index.sa_size ≤ m'.heap.h_index.sa_maxsize
        ∧ m'.heap.h_index.sa_maxsize = m.heap.h_index.sa_maxsize
        ∧ m' = { m with mem := m'.mem, heap := { m.heap with h_index := m'.heap.h_index } } := by
  have hg : g ∈ blocks ++ [g] := by simp
  -- the index lists this hole and nothing else
  have hlist : holes (blocks ++ [g]) = [g.addr] := by
    rw [holes_append, hblocks, holes_cons, if_pos hhole]
    rfl
  have hentries : m.heap.h_index.entries = [g.addr] := by
    have hperm := inv.index
    rw [hlist] at hperm
    exact List.perm_singleton.mp hperm
  have hone : m.heap.h_index.sa_size = 1 := by
    rw [← SortedArray.length_entries, hentries]
    rfl
  have hslot : m.heap.h_index.sa_array 0 = g.addr := by
    have hin : m.heap.h_index.sa_array 0 ∈ m.heap.h_index.entries :=
      SortedArray.mem_entries.mpr ⟨0, by omega, rfl⟩
    rw [hentries] at hin
    exact List.mem_singleton.mp hin
  have hfits : hole_fits m.mem (size + 20) false (m.heap.h_index.sa_array 0) = true := by
    rw [hole_fits_false, decide_eq_true_eq, hslot, (inv.head g hg).size]
    omega
  have hhit : find_smallest_hole (size + 20) false m = ((0 : Nat) : Int) := by
    rcases find_smallest_hole_cases (size + 20) false m with ⟨j, hj, hlt, -⟩ | ⟨-, hmiss⟩
    · rw [hj, show j = 0 by omega]
    · rw [hmiss 0 (by omega)] at hfits
      exact absurd hfits (by decide)
  have hsafe : CarveSafe size false (m.heap.h_index.sa_array 0) m.mem := fun h => absurd h (by decide)
  refine ⟨Guard.AllocOk.of_hit hhit hsafe, by omega, ?_⟩
  obtain ⟨⟨p, m'⟩, hcarve, hroom', hmaxsize⟩ := alloc_carve_returns size false (i := 0) (by omega) inv.cmp hroom
  obtain ⟨pre, g', post, hregs, hhole', haddr, -, hp, inv', hout, -, hm', -⟩ :=
    inv.carve (by omega) hfits hsize hsafe hcarve
  -- the hole that was cut is this one
  have hgg : g' = g := inv.eq_of_addr (by rw [hregs]; simp) hg (haddr.trans hslot)
  subst hgg
  obtain ⟨hpre, hpost⟩ : pre = blocks ∧ post = [] := by
    have hlast : g'.addr + g'.size = m.heap.h_addr_end := inv.tiled.cut.2
    have hafter := inv.tiled
    rw [hregs] at hafter
    cases post with
    | nil => exact ⟨(List.append_inj_left' hregs rfl).symm, rfl⟩
    | cons r post =>
        have h1 := hafter.around.2 r List.mem_cons_self
        have h2 := inv.region_bounds (r := r) (by rw [hregs]; simp)
        omega
  subst hpre hpost
  rw [List.append_nil] at inv'
  refine ⟨m', ?_, inv', hout, hroom', hmaxsize, hm'⟩
  have hp : p = g'.addr + 12 := hp
  rw [alloc_hit (by omega) hhit, hcarve, hp]

/-! ## §4. What the call does. -/

/-- The result of an unaligned request: out of the hole `g` the block of `n` bytes at its start, and the
    rest, a hole or nothing. -/
structure CutOut (size : Nat) (g : Region) (n : Nat) (rest : List Region) : Prop where
  enough : size + 20 ≤ n
  tight : n < size + 40
  rest : (rest = [] ∧ n = g.size) ∨ rest = [⟨g.addr + n, g.size - n, true⟩]

theorem cutBlock_cutOut {g : Region} {size : Nat} (hfit : size + 20 ≤ g.size) :
    ∃ n rest, cutBlock g.addr g.size size = ⟨g.addr, n, false⟩ :: rest ∧ CutOut size g n rest := by
  unfold cutBlock
  by_cases hall : g.size < size + 40
  · rw [if_pos hall]
    exact ⟨g.size, [], rfl, hfit, hall, .inl ⟨rfl, rfl⟩⟩
  · rw [if_neg hall]
    exact ⟨size + 20, _, rfl, Nat.le_refl _, by omega, .inr rfl⟩

/-- **An unaligned request from a hole.**  In every well-formed heap, a request that finds a hole
    returns.  The hole is a smallest one that is large enough; the block starts where the hole did, with
    less than 20 bytes to spare; what is left is one hole right after it; the heap is well formed again,
    with the same bounds; and nothing outside the hole has changed. -/
theorem unaligned_alloc_best_fit {regs : List Region} {m : Machine} (wf : WellFormed regs m) {size : Nat}
    (hsize : size + 20 < 2147483648) (hfound : find_smallest_hole (size + 20) false m ≠ -1) (fuel : Nat) :
    ∃ pre g post n rest m', regs = pre ++ g :: post ∧ g.hole = true ∧ size + 20 ≤ g.size
      ∧ (∀ r ∈ regs, r.hole = true → size + 20 ≤ r.size → g.size ≤ r.size)
      ∧ alloc (fuel + 1) size false m = .ok (g.addr + 12, m')
      ∧ CutOut size g n rest
      ∧ WellFormed (pre ++ ⟨g.addr, n, false⟩ :: rest ++ post) m'
      ∧ m'.heap.h_addr_start = m.heap.h_addr_start ∧ m'.heap.h_addr_end = m.heap.h_addr_end
      ∧ m'.heap.h_addr_max = m.heap.h_addr_max
      ∧ ∀ x, x < g.addr ∨ g.addr + g.size ≤ x → m'.mem x = m.mem x := by
  have c := wf.chain
  rcases find_smallest_hole_cases (size + 20) false m with ⟨j, hj, hlt, hfits, -⟩ | ⟨hmiss, -⟩
  · obtain ⟨-, hlarge, hleast⟩ := wf.sorted.found hj
    obtain ⟨⟨p, m'⟩, hcarve, hroom, -⟩ := alloc_carve_returns size false hlt c.cmp wf.room
    have hfit : ∀ g ∈ regs, g.addr = m.heap.h_index.sa_array j →
        carve_gap false g.addr + (size + 20) ≤ g.size := by
      intro g hg haddr
      rw [← haddr, (c.head g hg).size] at hlarge
      show 0 + (size + 20) ≤ g.size
      omega
    obtain ⟨pre, g, post, rfl, hhole, haddr, hfit, hp, c', hout, hfoot, hm', hentries⟩ :=
      c.carve wf.high (fun h => absurd h (by decide)) hlt hfit (fun h => absurd h (by decide)) hcarve
    have hg : g ∈ pre ++ g :: post := by simp
    have hgsize := (c.head g hg).size
    have hgfit : size + 20 ≤ g.size := by
      have : carve_gap false g.addr = 0 := rfl
      omega
    have hp' : p = g.addr + 12 := hp
    obtain ⟨n, rest, hcut, hcutout⟩ := cutBlock_cutOut hgfit
    have hregs : pre ++ carved g size false ++ post = pre ++ ⟨g.addr, n, false⟩ :: rest ++ post := by
      rw [← hcut]
      rfl
    -- no region has grown
    have hsmall : ∀ r ∈ pre ++ carved g size false ++ post, r.size < 2147483648 := by
      have hgs := wf.small g hg
      intro r hr
      simp only [List.mem_append] at hr
      rcases hr with (hr | hr) | hr
      · exact wf.small r (by simp [hr])
      · have hb := (tiled_carved hfit).bounds r hr
        omega
      · exact wf.small r (by simp [hr])
    have hord : Ordered m' := by
      apply c.carve_ordered wf.sorted c' ?_ hlt haddr (fun h => absurd h (by decide)) hentries
      intro r hr
      rw [(c'.head r hr).size]
      exact hsmall r hr
    have htags : TaggedAt (pre ++ carved g size false ++ post) m' :=
      wf.tagged.splice c (by rw [hm']) hfoot hout
    have hend : m'.heap.h_addr_end = m.heap.h_addr_end := by rw [hm']
    have hwf : WellFormed (pre ++ carved g size false ++ post) m' :=
      ⟨c', by rw [hend]; exact wf.high, hsmall, htags, hord, hroom⟩
    rw [hregs] at hwf
    refine ⟨pre, g, post, n, rest, m', rfl, hhole, hgfit, ?_, ?_, hcutout, hwf, by rw [hm'], hend,
      by rw [hm'], hout⟩
    · intro r hr hrh hrs
      have hle := hleast r.addr (c.mem_index.mpr ⟨r, hr, hrh, rfl⟩)
      rw [(c.head r hr).size, ← haddr, hgsize] at hle
      exact hle hrs
    · rw [alloc_hit (by omega) hj, hcarve, hp']
  · exact absurd hmiss hfound

/-- A request of 50 bytes, with two holes in the heap: it gets the smaller one. -/
theorem unaligned_alloc_best_fit_two_holes :
    ∃ x : Session, x = after freshHeap [.alloc 100 false, .alloc 200 false, .free 0xC008100C]
      ∧ x.machine.heap.h_index.entries = [0xC0081000, 0xC0081154]
      ∧ ∃ regs g n rest m', WellFormed regs x.machine ∧ g ∈ regs ∧ g.addr = 0xC0081000
        ∧ CutOut 50 g n rest ∧ alloc 1 50 false x.machine = .ok (0xC008100C, m') := by
  have run := trace_runOf freshHeap [.alloc 100 false, .alloc 200 false, .free 0xC008100C] (by decide +kernel)
  have safe : Along HeapSafe freshHeap
      (runOf freshHeap [.alloc 100 false, .alloc 200 false, .free 0xC008100C]) := by
    refine ⟨Guard.AllocOk.of_hit (j := 0) (by decide +kernel) (fun h => absurd h (by decide)),
      Guard.AllocOk.of_hit (j := 0) (by decide +kernel) (fun h => absurd h (by decide)),
      ⟨fun h => ?_, fun h => ?_⟩, trivial⟩
    · exact absurd h (by decide +kernel)
    · exact absurd h (by decide +kernel)
  obtain ⟨regs, k⟩ := freshHeap_start.reached run safe (reached_after _ _)
  have htwo : (after freshHeap [.alloc 100 false, .alloc 200 false,
      .free 0xC008100C]).machine.heap.h_index.entries = [0xC0081000, 0xC0081154] := by decide +kernel
  have htags := k.heap.taggedAt (by
    rw [htwo]
    intro b hb
    rcases List.mem_pair.mp hb with rfl | rfl
    · decide +kernel
    · decide +kernel)
  have hsorted : Ordered (after freshHeap [.alloc 100 false, .alloc 200 false, .free 0xC008100C]).machine := by
    unfold Ordered
    rw [htwo]
    exact List.pairwise_pair.mpr (by decide +kernel)
  have hsmall : ∀ r ∈ regs, r.size < 2147483648 := by
    intro r hr
    rw [← (k.heap.head r hr).size]
    exact k.heap.size_lt hr
  have wf : WellFormed regs (after freshHeap [.alloc 100 false, .alloc 200 false, .free 0xC008100C]).machine :=
    ⟨k.heap.toChain, by decide +kernel, hsmall, htags, hsorted, by decide +kernel⟩
  have hfound : find_smallest_hole (50 + 20) false
      (after freshHeap [.alloc 100 false, .alloc 200 false, .free 0xC008100C]).machine ≠ -1 := by decide +kernel
  obtain ⟨pre, g, post, n, rest, m', hregs, hhole, -, hleast, halloc, hcut, -⟩ :=
    unaligned_alloc_best_fit wf (by decide) hfound 0
  have hg : g ∈ regs := by rw [hregs]; simp
  have haddr : g.addr = 0xC0081000 := by
    have hin := k.heap.mem_index.mpr ⟨g, hg, hhole, rfl⟩
    rw [htwo] at hin
    rcases List.mem_pair.mp hin with h | h
    · exact h
    · -- the other hole is larger
      obtain ⟨r, hr, hrh, hra⟩ := k.heap.mem_index.mp (show 0xC0081000 ∈ _ by rw [htwo]; simp)
      have hgsize := (k.heap.head g hg).size
      have hrsize := (k.heap.head r hr).size
      rw [h] at hgsize
      rw [hra] at hrsize
      have hle := hleast r hr hrh (by rw [← hrsize]; decide +kernel)
      rw [← hgsize, ← hrsize] at hle
      exact absurd hle (by decide +kernel)
  rw [haddr] at halloc
  exact ⟨_, rfl, htwo, regs, g, n, rest, m', wf, hg, haddr, hcut, halloc⟩

end JamesM
