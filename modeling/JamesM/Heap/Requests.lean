/-
  JamesM.Heap.Requests — what a request hands out.

  Two things can make a block smaller than it should be.  The size of a request is
  not checked: `size + 20` may wrap, and the page-aligned search compares signed
  numbers.  And a page-aligned block is cut out of its hole with a decision ("is the
  rest too small for a hole?") that is taken before the room in front is taken away.

  Main results: `block_large_enough`, `aligned_block_cut_out`.
-/
import JamesM.Heap.Fit

namespace JamesM

open JamesM.ByteMem JamesM.Word32 JamesM.Lib

/-! ## §1. Sizes. -/

/-- Requests that are served are small: the heap has no room for others. -/
theorem Guard.AllocOk.served {regs : List Region} {live : List (Nat × Nat)} {m m' : Machine}
    {fuel size p : Nat} {page_align : Bool} (ok : Guard.isolation.AllocOk size page_align m)
    (k : Kernel regs live m) (hsize : size + 20 < 4294967296)
    (h : alloc fuel size page_align m = .ok (p, m')) : size + 20 ≤ 0x10000000 := by
  obtain ⟨b1, b2, b3, b4, b5, b6, b7⟩ := id k.heap.bounds
  cases fuel with
  | zero => exact absurd h (by simp [alloc])
  | succ fuel =>
      rcases ok.alloc_cases hsize h with ⟨j, -, hlt, hfits, hcarve, -⟩ | ⟨m₁, hgrow, hretry, -⟩
      · obtain ⟨pre, g, post, rfl, -, haddr⟩ := k.heap.slot hlt
        have hg : g ∈ pre ++ g :: post := by simp
        have hb := k.heap.region_bounds hg
        have hgsize := (k.heap.head g hg).size
        have hsafe : CarveSafe size page_align (m.heap.h_index.sa_array j) m.mem := hcarve
        rw [← haddr] at hfits hsafe
        cases page_align with
        | false =>
            rw [hole_fits_false, decide_eq_true_eq, hgsize] at hfits
            omega
        | true =>
            -- the signed test says nothing here, the guard does
            have := (hsafe rfl).2
            rw [hgsize] at this
            omega
      · obtain ⟨hmax, -⟩ := alloc_grow_ok k.heap.bounds.pageSpan hgrow.room hretry.2
        obtain ⟨hd1, hd2, hd3⟩ := growth_facts (size + 20)
        omega

/-- What a page-aligned request that finds a hole should do: the block is page aligned and large enough;
    the regions fill the heap again, each with a header and a footer of its own, the index lists the
    holes; and the blocks that were there have not changed. -/
structure AlignedCut (regs regs' : List Region) (size p : Nat) (m m' : Machine) : Prop where
  aligned : p % 0x1000 = 0
  block : ∃ b ∈ regs', b.hole = false ∧ b.addr + 12 = p ∧ p + size ≤ b.addr + b.size - 8
  chain : Chain regs' m'
  start : m'.heap.h_addr_start = m.heap.h_addr_start
  end_ : m'.heap.h_addr_end = m.heap.h_addr_end
  foot : ∀ r ∈ regs', FtrAt m'.mem r
  kept : ∀ r ∈ regs, r.hole = false → r ∈ regs' ∧ ∀ x, r.addr ≤ x → x < r.addr + r.size → m'.mem x = m.mem x

/-- The request on a heap whose other regions have their footers. -/
theorem HeapInv.aligned_cut {regs : List Region} {m m' : Machine} {size i p : Nat} (inv : HeapInv regs m)
    (hi : i < m.heap.h_index.sa_size)
    (hfits : hole_fits m.mem (size + 20) true (m.heap.h_index.sa_array i) = true)
    (hsmall : size + 20 < 2147483648) (hsafe : CarveSafe size true (m.heap.h_index.sa_array i) m.mem)
    (hfoot : ∀ r ∈ regs, r.addr ≠ m.heap.h_index.sa_array i → FtrAt m.mem r)
    (h : alloc_carve size true i m = .ok (p, m')) : ∃ regs', AlignedCut regs regs' size p m m' := by
  obtain ⟨pre, g, post, rfl, hhole, haddr, hfit, hp, inv', hout, hcut, hm', -⟩ :=
    inv.carve hi hfits hsmall hsafe h
  have hg : g ∈ pre ++ g :: post := by simp
  have hother : ∀ r ∈ pre ++ g :: post, r ≠ g →
      r ∈ pre ++ carved g size true ++ post ∧ (r.addr + r.size ≤ g.addr ∨ g.addr + g.size ≤ r.addr) := by
    intro r hr hne
    constructor
    · simp only [List.mem_append, List.mem_cons] at hr ⊢
      tauto
    · rcases inv.apart hr hg with h | h
      · exact absurd h hne
      · exact h
  refine ⟨_, ?_, ?_, inv'.toChain, by rw [hm'], by rw [hm'], fun r hr => ?_, fun r hr hrb => ?_⟩
  · -- the header ends where the page begins
    have hoff := (hsafe rfl).1
    rw [← haddr] at hoff
    rw [hp]
    show (g.addr + (0xFF4 - g.addr % 0x1000) + 12) % 0x1000 = 0
    omega
  · obtain ⟨b, hb, hbb, hba, hbs, -⟩ := exists_block_carved size hfit
    exact ⟨b, by simp [hb], hbb, by rw [hp, hba], by omega⟩
  · by_cases hr' : r ∈ carved g size true
    · exact hcut r hr'
    · have hin : r ∈ pre ++ g :: post := by
        simp only [List.mem_append, List.mem_cons] at hr ⊢
        tauto
      have hne : r ≠ g := by
        intro hrg
        have h1 := inv'.size r hr
        -- the hole is not among the regions any more
        obtain ⟨b, hb, hbb, hba, hbs, hb1, hb2⟩ := exists_block_carved size hfit
        rcases inv'.apart hr (show b ∈ pre ++ carved g size true ++ post by simp [hb]) with heq | hd
        · rw [← heq, hrg, hhole] at hbb
          exact absurd hbb Bool.noConfusion
        · rw [hrg] at hd
          omega
      have hoff := (hother r hin hne).2
      have hs := inv.size r hin
      apply (hfoot r hin ?_).of_eqOutside hs hout (by omega)
      intro heq
      exact hne (inv.eq_of_addr hin hg (heq.trans haddr.symm))
  · have hne : r ≠ g := fun h => by rw [h, hhole] at hrb; exact absurd hrb (by decide)
    obtain ⟨hin, hoff⟩ := hother r hr hne
    exact ⟨hin, fun x h1 h2 => hout x (by omega)⟩

/-- **A page-aligned block.**  In every state of a run whose steps are safe, and for every page-aligned
    request that finds a hole: if the hole begins low enough in its page, if what is left behind the block
    is nothing or enough for a hole, and if the other regions have their footers, the request cuts its
    block out as it should.  It returns unless the index is full. -/
theorem aligned_block_cut_out {start : Nat} {s x : Session} (st : HeapStart start s)
    {tr : List (HeapOp × Session)} (run : Trace HeapStep s tr) (safe : Along HeapSafe s tr)
    (hx : Reached s tr x) :
    ∃ regs, Kernel regs x.live x.machine
      ∧ ∀ (fuel size j : Nat), size + 20 < 2147483648 →
        find_smallest_hole (size + 20) true x.machine = (j : Int) →
        CarveSafe size true (x.machine.heap.h_index.sa_array j) x.machine.mem →
        (∀ r ∈ regs, r.addr ≠ x.machine.heap.h_index.sa_array j → FtrAt x.machine.mem r) →
        (x.machine.heap.h_index.sa_size < x.machine.heap.h_index.sa_maxsize →
          ∃ p m', alloc (fuel + 1) size true x.machine = .ok (p, m'))
        ∧ ∀ (p : Nat) (m' : Machine), alloc (fuel + 1) size true x.machine = .ok (p, m') →
          ∃ regs', AlignedCut regs regs' size p x.machine m' := by
  obtain ⟨regs, k⟩ := st.reached run safe hx
  refine ⟨regs, k, fun fuel size j hsize hj hsafe hfoot => ?_⟩
  rw [alloc_hit (by omega) hj]
  rcases find_smallest_hole_cases (size + 20) true x.machine with ⟨i, hi, hlt, hfits, -⟩ | ⟨hmiss, -⟩
  swap
  · omega
  rw [show i = j by omega] at hlt hfits
  constructor
  · intro hroom
    obtain ⟨⟨p, m'⟩, h, -⟩ := alloc_carve_returns size true hlt k.heap.cmp hroom
    exact ⟨p, m', h⟩
  · intro p m' h
    exact k.heap.aligned_cut hlt hfits hsize hsafe hfoot h

/-- 100 bytes at a page boundary of the fresh heap. -/
theorem aligned_block_cut_out_fresh :
    ∃ p m', alloc 1 100 true freshHeap.machine = .ok (p, m')
      ∧ ∃ regs regs', AlignedCut regs regs' 100 p freshHeap.machine m' := by
  obtain ⟨⟨p, m'⟩, h⟩ := exists_of_isOk (x := alloc 1 100 true freshHeap.machine) (by decide +kernel)
  obtain ⟨regs, k, hall⟩ := aligned_block_cut_out freshHeap_start
    (show Trace HeapStep freshHeap [] from trivial) trivial (.inl rfl)
  refine ⟨p, m', h, regs, (hall 0 100 0 (by decide) (by decide +kernel) ?_ ?_).2 p m' h⟩
  · intro _
    decide +kernel
  · -- there is no other region
    intro r hr hne
    have hstart : freshHeap.machine.heap.h_addr_start = 0xC0081000 := by decide +kernel
    have hend : freshHeap.machine.heap.h_addr_end = 0xC0100000 := by decide +kernel
    have hslot : freshHeap.machine.heap.h_index.sa_array 0 = 0xC0081000 := by decide +kernel
    have hin : (0xC0081000 : Nat) ∈ freshHeap.machine.heap.h_index.entries := by decide +kernel
    obtain ⟨g, hg, -, hga⟩ := k.heap.mem_index.mp hin
    have hgsize := (k.heap.head g hg).size
    rw [hga, show hh_size freshHeap.machine.mem 0xC0081000 = 0x7F000 by decide +kernel] at hgsize
    have hb := k.heap.region_bounds hr
    rcases k.heap.apart hr hg with heq | hd
    · rw [heq, hga, hslot] at hne
      exact absurd rfl hne
    · omega

/-- **A header overwritten.**  The hole begins 28 bytes before a page boundary: the hole that is made in
    front of the block has 16 bytes, and its footer is written into its header. -/
theorem aligned_block_overwrites_a_header :
    HeapStart 0xC0000000 freshHeap
      ∧ ∃ (x : Session) (p : Nat) (m' : Machine), x = after freshHeap [.alloc 0xFD0 false]
        ∧ Trace HeapStep freshHeap (runOf freshHeap [.alloc 0xFD0 false])
        ∧ (∃ regs, Kernel regs x.live x.machine)
        ∧ find_smallest_hole 120 true x.machine ≠ -1
        ∧ alloc 1 100 true x.machine = .ok (p, m')
        ∧ ∀ regs regs', ¬ AlignedCut regs regs' 100 p x.machine m' := by
  have run := trace_runOf freshHeap [.alloc 0xFD0 false] (by decide +kernel)
  have safe : Along HeapSafe freshHeap (runOf freshHeap [.alloc 0xFD0 false]) :=
    ⟨Guard.AllocOk.of_hit (j := 0) (by decide +kernel) (fun h => absurd h (by decide)), trivial⟩
  obtain ⟨⟨p, m'⟩, h⟩ := exists_of_isOk
    (x := alloc 1 100 true (after freshHeap [.alloc 0xFD0 false]).machine) (by decide +kernel)
  have hseen : (alloc 1 100 true (after freshHeap [.alloc 0xFD0 false]).machine).map
      (fun r => (decide (0xC0081FE4 ∈ r.2.heap.h_index.entries), hh_size r.2.mem 0xC0081FE4,
        r.2.heap.h_addr_end)) = .ok (true, VM_HEAP_FTR_MAGIC, 0xC0100000) := by decide +kernel
  rw [h] at hseen
  have hseen := Except.ok.inj hseen
  simp only [Prod.mk.injEq, decide_eq_true_eq] at hseen
  obtain ⟨hin, hsize, hend⟩ := hseen
  refine ⟨freshHeap_start, _, p, m', rfl, run, freshHeap_start.reached run safe (reached_after _ _),
    by decide +kernel, h, fun regs regs' cut => ?_⟩
  obtain ⟨g, hg, -, hga⟩ := cut.chain.mem_index.mp hin
  have hgsize := (cut.chain.head g hg).size
  rw [hga, hsize] at hgsize
  have hb := cut.chain.region_bounds hg
  have hmagic : VM_HEAP_FTR_MAGIC = 0xBA098321 := rfl
  omega

end JamesM
