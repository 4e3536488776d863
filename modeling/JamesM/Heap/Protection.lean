/-
  JamesM.Heap.Protection — the protection of the pages that `expand` adds.

  The heap says of its pages whether they are for the supervisor only (`h_su`) and
  whether they are read-only (`h_ro`).  `alloc_frame` takes "is it the kernel's?" and
  "is it writeable?": `expand` passes `h_ro` for the latter, so every page it gives a
  frame gets the opposite of what was asked for.  A page that has a frame already
  is left as it is.

  Main result: `expand_protects`.
-/
import JamesM.Heap.Isolation
import JamesM.Heap.Pages

namespace JamesM

open JamesM.ByteMem JamesM.Word32 JamesM.Lib

/-! ## §1. What is asked for. -/

/-- The page is present, with the protection the heap asks for. -/
structure Protected (h : VmHeap) (pg : VmPage) : Prop where
  present : pg.p_present = 1
  user : pg.p_user = 0 ↔ h.h_su ≠ 0
  rw : pg.p_rw = 1 ↔ h.h_ro = 0

/-- What `expand(new_size, heap)` should do. -/
structure ExpandedWell (new_size : Nat) (m m' : Machine) : Prop where
  length : m'.heap.h_addr_start + new_size ≤ m'.heap.h_addr_end
  max : m'.heap.h_addr_end ≤ m'.heap.h_addr_max
  inside : ∀ q, m.heap.h_addr_end / 4096 ≤ q → q < m'.heap.h_addr_end / 4096 →
    Protected m.heap (pageAt m' q)
  outside : ∀ q, q < 1048576 → q < m.heap.h_addr_end / 4096 ∨ m'.heap.h_addr_end / 4096 ≤ q →
    pd_table m.mem m.kernel_directory (q / 1024) ≠ 0 → pageAt m' q = pageAt m q

/-- Every page that `expand(new_size, heap)` adds has a frame already, and the right protection. -/
def Premapped (new_size : Nat) (m : Machine) : Prop :=
  ∀ q, m.heap.h_addr_end / 4096 ≤ q → q < (m.heap.h_addr_start + following_page new_size) / 4096 →
    pd_table m.mem m.kernel_directory (q / 1024) ≠ 0 ∧ (pageAt m q).p_frame ≠ 0
      ∧ Protected m.heap (pageAt m q)

/-! ## §2. `expand`. -/

/-- The parts of `expand`. -/
theorem expand_ok {f : AllocFn} {new_size : Nat} {m m' : Machine} (b : PageSpan m.heap)
    (hroom : m.heap.h_addr_start + new_size + 0x1000 < 4294967296) (h : expand f new_size m = .ok m') :
    m.heap.h_addr_end < m.heap.h_addr_start + new_size
      ∧ following_page new_size = 4096 * (new_size / 4096) + 4096
      ∧ m.heap.h_addr_start + following_page new_size ≤ m.heap.h_addr_max
      ∧ ∃ n m₁, expand_loop f (following_page new_size) n (m.heap.h_addr_end - m.heap.h_addr_start) m = .ok m₁
        ∧ m' = { m₁ with heap :=
          { m₁.heap with h_addr_end := add32 m₁.heap.h_addr_start (following_page new_size) } } := by
  unfold expand at h
  rw [b.length_eq] at h
  simp only [bind_ok_iff, KASSERT_eq_ok, decide_eq_true_eq] at h
  obtain ⟨-, hgreater, -, hmax, m₁, hloop, h⟩ := h
  obtain ⟨b1, b2, b3, b4, b5⟩ := b
  have hpage : following_page new_size = 4096 * (new_size / 4096) + 4096 :=
    following_page_of_le (by omega) (by omega)
  rw [add32_of_lt (by omega)] at hmax
  exact ⟨by omega, hpage, hmax, _, m₁, hloop, (Except.ok.inj h).symm⟩

/-- **`expand` over pages that have tables**: what becomes of the pages and of the bounds. -/
theorem expand_given {f : AllocFn} {new_size : Nat} {m m' : Machine} (b : PageSpan m.heap)
    (tb : Tables m.kernel_directory m.mem)
    (hroom : m.heap.h_addr_start + new_size + 0x1000 < 4294967296)
    (hmap : HasTables m (m.heap.h_addr_end / 4096) ((m.heap.h_addr_start + following_page new_size) / 4096))
    (h : expand f new_size m = .ok m') :
    m'.heap.h_addr_start = m.heap.h_addr_start ∧ m'.heap.h_addr_max = m.heap.h_addr_max
      ∧ m'.heap.h_addr_end = m.heap.h_addr_start + following_page new_size
      ∧ m.heap.h_addr_start + new_size ≤ m'.heap.h_addr_end ∧ m'.heap.h_addr_end ≤ m.heap.h_addr_max
      ∧ (∀ q, m.heap.h_addr_end / 4096 ≤ q → q < m'.heap.h_addr_end / 4096 →
        Given m.heap.h_su m.heap.h_ro (pageAt m q) (pageAt m' q))
      ∧ ∀ q, q < 1048576 → q < m.heap.h_addr_end / 4096 ∨ m'.heap.h_addr_end / 4096 ≤ q →
        pd_table m.mem m.kernel_directory (q / 1024) ≠ 0 → pageAt m' q = pageAt m q := by
  obtain ⟨hgreater, hpage, hmax, n, m₁, hloop, hm'⟩ := expand_ok b hroom h
  obtain ⟨b1, b2, b3, b4, b5⟩ := id b
  have hs : m.heap.h_addr_start + (m.heap.h_addr_end - m.heap.h_addr_start) = m.heap.h_addr_end := by omega
  have pg : AtPage (following_page new_size) (m.heap.h_addr_end - m.heap.h_addr_start) m :=
    ⟨tb, b1, by omega, by omega, by omega, by rw [hs]; exact hmap⟩
  have hg := expand_loop_pages _ pg (by omega) hloop
  rw [hs] at hg
  have hheap : m₁.heap = m.heap := by rw [hg.heap]
  have hend : m'.heap.h_addr_end = m.heap.h_addr_start + following_page new_size := by
    rw [hm', hheap]
    exact add32_of_lt (by omega)
  have hpages : ∀ q, pageAt m' q = pageAt m₁ q := by
    intro q
    rw [hm']
    rfl
  refine ⟨by rw [hm', hheap], by rw [hm', hheap], hend, by omega, by omega, fun q h1 h2 => ?_, fun q hq hor hne => ?_⟩
  · rw [hpages]
    exact hg.page q h1 (by omega)
  · rw [hpages]
    exact hg.other tb hmap (by omega) hq (by omega) hne

/-- A page that gets a frame gets the wrong protection. -/
theorem Given.not_protected {h : VmHeap} {pg pg' : VmPage} (g : Given h.h_su h.h_ro pg pg')
    (hnew : pg.p_frame = 0) : ¬ Protected h pg' := by
  rcases g with ⟨hold, -⟩ | ⟨-, -, hrw, -⟩
  · exact absurd hnew hold
  · intro hp
    have := hp.rw
    rw [hrw] at this
    by_cases hro : h.h_ro = 0
    · rw [if_neg (not_not.mpr hro)] at this
      exact absurd (this.mpr hro) (by decide)
    · rw [if_pos hro] at this
      exact hro (this.mp rfl)

/-! ## §3. Whole runs. -/

/-- **The protection of the heap's pages.**  For every heap, in every state of a run whose steps are safe,
    and for every size that `expand` accepts without a sum that passes `2^32`: if the pages that are added
    have frames already, and the right protection, `expand` does what it should; and it does so for no
    other pages that have page tables. -/
theorem expand_protects {start : Nat} {s x : Session} (st : HeapStart start s)
    {tr : List (HeapOp × Session)} (run : Trace HeapStep s tr) (safe : Along HeapSafe s tr)
    (hx : Reached s tr x) {fuel new_size : Nat} {m' : Machine}
    (hroom : x.machine.heap.h_addr_start + new_size + 0x1000 < 4294967296)
    (h : expand (alloc fuel) new_size x.machine = .ok m') :
    (Premapped new_size x.machine → ExpandedWell new_size x.machine m')
      ∧ (HasTables x.machine (x.machine.heap.h_addr_end / 4096)
          ((x.machine.heap.h_addr_start + following_page new_size) / 4096) →
        ExpandedWell new_size x.machine m' → Premapped new_size x.machine) := by
  obtain ⟨regs, k⟩ := st.reached run safe hx
  constructor
  · intro hpre
    obtain ⟨hs, hmax, hend, hlen, hle, hin, hout⟩ := expand_given k.heap.bounds.pageSpan k.paging.tables hroom
      (fun q h1 h2 => (hpre q h1 h2).1) h
    refine ⟨by omega, by omega, fun q h1 h2 => ?_, hout⟩
    obtain ⟨-, hframe, hprot⟩ := hpre q h1 (by omega)
    rcases hin q h1 h2 with ⟨-, heq⟩ | ⟨hnew, -⟩
    · rw [heq]
      exact hprot
    · exact absurd hnew hframe
  · intro hmap hwell q h1 h2
    obtain ⟨hs, hmax, hend, hlen, hle, hin, hout⟩ := expand_given k.heap.bounds.pageSpan k.paging.tables hroom
      hmap h
    have hgiven := hin q h1 (by omega)
    have hprot := hwell.inside q h1 (by omega)
    have hframe : (pageAt x.machine q).p_frame ≠ 0 := fun hnew => hgiven.not_protected hnew hprot
    refine ⟨hmap q h1 h2, hframe, ?_⟩
    rcases hgiven with ⟨-, heq⟩ | ⟨hnew, -⟩
    · rw [heq] at hprot
      exact hprot
    · exact absurd hnew hframe

/-- The plain kernel with a writeable user page at `0xC0100000`, just above its initial heap. -/
def mappedKernel : Machine := { plainKernel with mem := write32 plainKernel.mem 0x4400 0x5007 }

/-- Its heap, just initialised. -/
def mappedHeap : Session :=
  match init_heap 0xC0000000 0xC0100000 0xCFFFF000 0 0 mappedKernel with
  | .ok m => ⟨{ m with heap_ready := true }, []⟩
  | .error _ => ⟨mappedKernel, []⟩

theorem mappedHeap_start : HeapStart 0xC0000000 mappedHeap := by
  have htab : ∀ t, t < 1024 → pd_table mappedKernel.mem 0x1000 t = if t = 768 then 0x4000 else 0 := by
    intro t ht
    rw [← plainKernel_table]
    exact read32_write32_ne _ _ (.inl (by omega))
  exact ⟨by decide, by decide,
    ⟨mappedKernel, _, 0, 0, pagingReady_of_table (by decide) (by decide) (by decide) rfl htab, rfl, rfl⟩, rfl⟩

/-- One page more, which is mapped already. -/
theorem expand_protects_a_mapped_page :
    ∃ m', expand (alloc 1) 0x7F001 mappedHeap.machine = .ok m'
      ∧ ExpandedWell 0x7F001 mappedHeap.machine m' := by
  obtain ⟨m', h⟩ := exists_of_isOk (x := expand (alloc 1) 0x7F001 mappedHeap.machine) (by decide +kernel)
  have hend : mappedHeap.machine.heap.h_addr_end / 4096 = 0xC0100 := by decide +kernel
  have hnew : (mappedHeap.machine.heap.h_addr_start + following_page 0x7F001) / 4096 = 0xC0101 := by
    decide +kernel
  have run : Trace HeapStep mappedHeap [] := trivial
  refine ⟨m', h, (expand_protects mappedHeap_start run trivial (.inl rfl) (by decide +kernel) h).1 ?_⟩
  intro q h1 h2
  have hq : q = 0xC0100 := by omega
  subst hq
  exact ⟨by decide +kernel, by decide +kernel, by decide +kernel, by decide +kernel, by decide +kernel⟩

/-- **Not writeable.**  The heap asks for writeable pages (`h_ro` is 0); one page more is not. -/
theorem expand_adds_a_page_that_is_not_writeable :
    HeapStart 0xC0000000 freshHeap
      ∧ ∃ m', expand (alloc 1) 0x7F001 freshHeap.machine = .ok m'
        ∧ ¬ ExpandedWell 0x7F001 freshHeap.machine m' := by
  obtain ⟨m', h⟩ := exists_of_isOk (x := expand (alloc 1) 0x7F001 freshHeap.machine) (by decide +kernel)
  have hend : freshHeap.machine.heap.h_addr_end / 4096 = 0xC0100 := by decide +kernel
  have hend' : (expand (alloc 1) 0x7F001 freshHeap.machine).map (fun m => m.heap.h_addr_end / 4096)
      = .ok 0xC0101 := by decide +kernel
  have hpage : (expand (alloc 1) 0x7F001 freshHeap.machine).map (fun m => (pageAt m 0xC0100).p_rw)
      = .ok 0 := by decide +kernel
  have hro : freshHeap.machine.heap.h_ro = 0 := by decide +kernel
  rw [h] at hend' hpage
  refine ⟨freshHeap_start, m', h, fun hwell => ?_⟩
  have hlast : m'.heap.h_addr_end / 4096 = 0xC0101 := Except.ok.inj hend'
  have hrw : (pageAt m' 0xC0100).p_rw = 0 := Except.ok.inj hpage
  have hprot := (hwell.inside 0xC0100 (by omega) (by omega)).rw.mpr hro
  omega

end JamesM
