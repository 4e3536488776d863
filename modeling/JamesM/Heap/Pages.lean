/-
  JamesM.Heap.Pages — growing the heap over pages that have page tables.

  Where the tables exist, `expand` never calls back into the allocator: its loop
  walks up the pages and gives each a frame, unless it has one.  `PagesGiven` says
  what that does to the entries of the pages, and that it does nothing else.

  Main results: `PageSpan.pages`, `expand_loop_returns`.
-/
import JamesM.Heap.Grow

namespace JamesM

open JamesM.ByteMem JamesM.Word32 JamesM.Lib

/-! ## §1. One page. -/

/-- The entry of page `q` in the kernel's directory. -/
def pageAt (m : Machine) (q : Nat) : VmPage := read_page m.mem (page_entry m.mem m.kernel_directory q)

/-- The pages from `lo` up to `hi` have page tables. -/
def HasTables (m : Machine) (lo hi : Nat) : Prop :=
  ∀ q, lo ≤ q → q < hi → pd_table m.mem m.kernel_directory (q / 1024) ≠ 0

/-- What `alloc_frame` leaves in an entry: the old one if it had a frame, or a present page with the
    flags of the call. -/
def Given (is_kernel is_writeable : Int) (pg pg' : VmPage) : Prop :=
  (pg.p_frame ≠ 0 ∧ pg' = pg)
    ∨ (pg.p_frame = 0 ∧ pg'.p_present = 1 ∧ pg'.p_rw = (if is_writeable ≠ 0 then 1 else 0)
      ∧ pg'.p_user = (if is_kernel ≠ 0 then 0 else 1))

theorem alloc_frame_given {p : Nat} {k w : Int} {m m' : Machine} (h : alloc_frame p k w m = .ok m') :
    m' = { m with mem := m'.mem, frames := m'.frames } ∧ EqOutside p (p + 4) m.mem m'.mem
      ∧ Given k w (read_page m.mem p) (read_page m'.mem p) := by
  rcases alloc_frame_cases h with ⟨hf, rfl⟩ | ⟨hf, -, rfl⟩
  · exact ⟨rfl, EqOutside.refl _ _ _, .inl ⟨hf, rfl⟩⟩
  · refine ⟨rfl, (EqOutside.refl _ _ _).write32 _ (Nat.le_refl _) (Nat.le_refl _), .inr ⟨hf, ?_⟩⟩
    rw [read_page_write_page, VmPage.decode_encode]
    refine ⟨rfl, ?_, ?_⟩
    · dsimp only
      split <;> rfl
    · dsimp only
      split <;> rfl

theorem get_page_hit (f : AllocFn) {a dir : Nat} {m : Machine}
    (h : pd_table m.mem dir (a / 0x1000 / 1024) ≠ 0) (create : Bool) :
    get_page f a create dir m = .ok (page_entry m.mem dir (a / 0x1000), m) := by
  unfold get_page
  rw [if_pos (show read32 m.mem (dir + 4 * (a / 0x1000 / 1024)) ≠ 0 from h), lookup_page_eq, if_pos h]

/-! ## §2. The loop. -/

/-- The pages from `lo` up to `hi` were given frames; nothing else has changed. -/
structure PagesGiven (lo hi : Nat) (m m' : Machine) : Prop where
  heap : m' = { m with mem := m'.mem, frames := m'.frames }
  tables : ∀ t, t < 1024 → pd_table m'.mem m.kernel_directory t = pd_table m.mem m.kernel_directory t
  off : ∀ x, (∀ q, lo ≤ q → q < hi → x < page_entry m.mem m.kernel_directory q
    ∨ page_entry m.mem m.kernel_directory q + 4 ≤ x) → m'.mem x = m.mem x
  page : ∀ q, lo ≤ q → q < hi → Given m.heap.h_su m.heap.h_ro (pageAt m q) (pageAt m' q)

theorem PagesGiven.refl (lo : Nat) (m : Machine) : PagesGiven lo lo m m :=
  ⟨rfl, fun _ _ => rfl, fun _ _ => rfl, fun q h1 h2 => absurd h1 (by omega)⟩

/-- The entries of pages that are not among the given ones. -/
theorem PagesGiven.other {lo hi : Nat} {m m' : Machine} (g : PagesGiven lo hi m m')
    (tb : Tables m.kernel_directory m.mem) (hmap : HasTables m lo hi) (hhi : hi ≤ 1048576) {r : Nat}
    (hr : r < 1048576) (hne : r < lo ∨ hi ≤ r) (htab : pd_table m.mem m.kernel_directory (r / 1024) ≠ 0) :
    pageAt m' r = pageAt m r := by
  have hdir : m'.kernel_directory = m.kernel_directory := by rw [g.heap]
  unfold pageAt read_page page_entry
  rw [hdir, g.tables _ (by omega)]
  congr 1
  apply read32_congr
  intro x h1 h2
  apply g.off
  intro q hq1 hq2
  have := tb.entries_apart (q := q) (r := r) (by omega) hr (by omega) (hmap q hq1 hq2) htab
  unfold page_entry at this ⊢
  omega

/-- One page more. -/
theorem PagesGiven.cons {lo hi : Nat} {m m₁ m' : Machine} (hlo : lo < hi) (hhi : hi ≤ 1048576)
    (tb : Tables m.kernel_directory m.mem) (hmap : HasTables m lo hi)
    (hone : alloc_frame (page_entry m.mem m.kernel_directory lo) m.heap.h_su m.heap.h_ro m = .ok m₁)
    (g : PagesGiven (lo + 1) hi m₁ m') : PagesGiven lo hi m m' := by
  obtain ⟨hm₁, hout, hgiven⟩ := alloc_frame_given hone
  have hdir : m₁.kernel_directory = m.kernel_directory := by rw [hm₁]
  have hheap : m₁.heap = m.heap := by rw [hm₁]
  have hentry : IsEntry m.kernel_directory m.mem (page_entry m.mem m.kernel_directory lo) :=
    isEntry_page_entry (by omega) (hmap lo (Nat.le_refl _) hlo)
  have htab₁ : ∀ t, t < 1024 → pd_table m₁.mem m.kernel_directory t = pd_table m.mem m.kernel_directory t := by
    rcases alloc_frame_cases hone with ⟨-, rfl⟩ | ⟨-, -, rfl⟩
    · intro t _
      rfl
    · exact (tb.store_frame hentry _).1
  have hpe : ∀ q, q < 1048576 →
      page_entry m₁.mem m.kernel_directory q = page_entry m.mem m.kernel_directory q := by
    intro q hq
    rw [page_entry, page_entry, htab₁ _ (by omega)]
  have hg := g.tables
  have hoff := g.off
  rw [hdir] at hg hoff
  -- the entries of the later pages are not touched by the first store
  have hlater : ∀ q, q < 1048576 → q ≠ lo → pd_table m.mem m.kernel_directory (q / 1024) ≠ 0 →
      pageAt m₁ q = pageAt m q := by
    intro q hq hne ht
    have hap := tb.entries_apart (q := q) (r := lo) hq (by omega) hne ht (hmap lo (Nat.le_refl _) hlo)
    unfold pageAt read_page
    rw [hdir, hpe q hq, hout.read32 (by omega)]
  refine ⟨?_, fun t ht => (hg t ht).trans (htab₁ t ht), fun x hx => ?_, fun q h1 h2 => ?_⟩
  · rw [g.heap, hm₁]
  · have h1 : m'.mem x = m₁.mem x := by
      apply hoff
      intro q hq1 hq2
      rw [hpe q (by omega)]
      exact hx q (by omega) hq2
    rw [h1]
    exact hout x (by have := hx lo (Nat.le_refl _) hlo; omega)
  · by_cases hq : q = lo
    · subst hq
      have hmap₁ : HasTables m₁ (q + 1) hi := by
        intro r hr1 hr2
        rw [hdir, htab₁ _ (by omega)]
        exact hmap r (by omega) hr2
      have hsame : pageAt m' q = pageAt m₁ q := by
        apply g.other (by rw [hdir]; exact tb.congr htab₁) hmap₁ hhi (by omega) (.inl (by omega))
        rw [hdir, htab₁ _ (by omega)]
        exact hmap q (Nat.le_refl _) hlo
      rw [hsame]
      unfold pageAt
      rw [hdir, hpe q (by omega)]
      exact hgiven
    · have hlast := g.page q (by omega) h2
      rw [hheap, hlater q (by omega) hq (hmap q h1 h2)] at hlast
      exact hlast

/-- Before a round of the loop of `expand`: the page at offset `i` and those up to `new_size` have tables. -/
structure AtPage (new_size i : Nat) (m : Machine) : Prop where
  tables : Tables m.kernel_directory m.mem
  start_aligned : m.heap.h_addr_start % 4096 = 0
  aligned : i % 4096 = 0
  size_aligned : new_size % 4096 = 0
  high : m.heap.h_addr_start + new_size < 4294967296
  mapped : HasTables m ((m.heap.h_addr_start + i) / 4096) ((m.heap.h_addr_start + new_size) / 4096)

theorem AtPage.get_page {new_size i : Nat} {m : Machine} (pg : AtPage new_size i m) (hlt : i < new_size)
    (f : AllocFn) :
    JamesM.get_page f (add32 m.heap.h_addr_start i) true m.kernel_directory m
      = .ok (page_entry m.mem m.kernel_directory ((m.heap.h_addr_start + i) / 4096), m) := by
  obtain ⟨-, hs, hi, hnew, hhigh, -⟩ := id pg
  rw [add32_of_lt (by omega), get_page_hit f (pg.mapped _ (Nat.le_refl _) (by omega)) true]

/-- The next round. -/
theorem AtPage.next {new_size i : Nat} {m m₁ : Machine} (pg : AtPage new_size i m) (hlt : i < new_size)
    (hf : alloc_frame (page_entry m.mem m.kernel_directory ((m.heap.h_addr_start + i) / 4096))
      m.heap.h_su m.heap.h_ro m = .ok m₁) :
    add32 i 0x1000 = i + 4096 ∧ m₁.heap = m.heap ∧ AtPage new_size (i + 4096) m₁ := by
  obtain ⟨tb, hs, hi, hnew, hhigh, hmap⟩ := pg
  obtain ⟨hm₁, -, -⟩ := alloc_frame_given hf
  have hdir : m₁.kernel_directory = m.kernel_directory := by rw [hm₁]
  have hstart : m₁.heap.h_addr_start = m.heap.h_addr_start := by rw [hm₁]
  have hone : PagesGiven ((m.heap.h_addr_start + i) / 4096) ((m.heap.h_addr_start + i) / 4096 + 1) m m₁ := by
    apply PagesGiven.cons (by omega) (by omega) tb (fun q h1 h2 => hmap q h1 (by omega)) hf
    exact .refl _ _
  refine ⟨add32_of_lt (by omega), by rw [hm₁], by rw [hdir]; exact tb.congr hone.tables, by rw [hstart]; exact hs,
    by omega, hnew, by rw [hstart]; exact hhigh, fun q h1 h2 => ?_⟩
  rw [hstart] at h1 h2
  rw [hdir, hone.tables _ (by omega)]
  exact hmap q (by omega) h2

/-- **The loop of `expand`**, from a page boundary, over pages that have tables. -/
theorem expand_loop_pages {f : AllocFn} {new_size : Nat} (n : Nat) :
    ∀ {i : Nat} {m m' : Machine}, AtPage new_size i m → i ≤ new_size → expand_loop f new_size n i m = .ok m' →
      PagesGiven ((m.heap.h_addr_start + i) / 4096) ((m.heap.h_addr_start + new_size) / 4096) m m' := by
  induction n with
  | zero =>
      intro i m m' pg hle h
      rw [expand_loop] at h
      by_cases hlt : i < new_size
      · rw [if_pos hlt] at h
        exact absurd h (by simp)
      · rw [if_neg hlt] at h
        rw [← Except.ok.inj h, show i = new_size by omega]
        exact .refl _ _
  | succ n ih =>
      intro i m m' pg hle h
      obtain ⟨-, hs, hi, hnew, hhigh, -⟩ := id pg
      by_cases hlt : i < new_size
      · obtain ⟨page, m₀, m₁, hg, hf, hrest⟩ := expand_loop_succ hlt h
        rw [pg.get_page hlt] at hg
        obtain ⟨rfl, rfl⟩ := Prod.mk.inj (Except.ok.inj hg)
        obtain ⟨hi', hheap, pg₁⟩ := pg.next hlt hf
        rw [hi'] at hrest
        have hlast := ih pg₁ (by omega) hrest
        rw [hheap, show (m.heap.h_addr_start + (i + 4096)) / 4096 = (m.heap.h_addr_start + i) / 4096 + 1
          by omega] at hlast
        exact PagesGiven.cons (by omega) (by omega) pg.tables pg.mapped hf hlast
      · rw [expand_loop, if_neg hlt] at h
        rw [← Except.ok.inj h, show i = new_size by omega]
        exact .refl _ _

/-- The loop has rounds enough. -/
theorem expand_loop_returns {f : AllocFn} {new_size : Nat} (n : Nat) :
    ∀ {i : Nat} {m : Machine}, AtPage new_size i m → new_size ≤ i + 4096 * n →
      expand_loop f new_size n i m ≠ .error .fuel := by
  induction n with
  | zero =>
      intro i m _ hn
      rw [expand_loop, if_neg (by omega)]
      simp
  | succ n ih =>
      intro i m pg hn
      rw [expand_loop]
      by_cases hlt : i < new_size
      · rw [if_pos hlt, pg.get_page hlt, ok_bind]
        apply bind_ne_fuel (alloc_frame_ne_fuel _ _ _ _)
        intro m₁ hf
        obtain ⟨hi', -, pg₁⟩ := pg.next hlt hf
        rw [hi']
        exact ih pg₁ (by omega)
      · rw [if_neg hlt]
        simp

/-! ## §3. The growth of a request. -/

/-- Before the loop of a growth by `growth n` bytes. -/
theorem PageSpan.atPage {n : Nat} {m : Machine} (span : PageSpan m.heap) (tb : Tables m.kernel_directory m.mem)
    (hmax : m.heap.h_addr_end + growth n ≤ m.heap.h_addr_max)
    (hmap : HasTables m (m.heap.h_addr_end / 4096) ((m.heap.h_addr_end + growth n) / 4096)) :
    AtPage (m.heap.h_addr_end - m.heap.h_addr_start + growth n) (m.heap.h_addr_end - m.heap.h_addr_start) m := by
  obtain ⟨s1, s2, s3, s4, s5⟩ := span
  obtain ⟨hd1, -, -⟩ := growth_facts n
  have hs : m.heap.h_addr_start + (m.heap.h_addr_end - m.heap.h_addr_start) = m.heap.h_addr_end := by omega
  have he : m.heap.h_addr_start + (m.heap.h_addr_end - m.heap.h_addr_start + growth n)
      = m.heap.h_addr_end + growth n := by omega
  exact ⟨tb, s1, by omega, by omega, by omega, by rw [hs, he]; exact hmap⟩

/-- **The pages of a growth.** -/
theorem PageSpan.pages {f : AllocFn} {n : Nat} {m m₁ : Machine} (span : PageSpan m.heap)
    (tb : Tables m.kernel_directory m.mem) (hroom : m.heap.h_addr_end + n + 0x1000 < 4294967296)
    (hmax : m.heap.h_addr_end + growth n ≤ m.heap.h_addr_max)
    (hmap : HasTables m (m.heap.h_addr_end / 4096) ((m.heap.h_addr_end + growth n) / 4096))
    (hloop : grow_loop f n m = .ok m₁) :
    PagesGiven (m.heap.h_addr_end / 4096) ((m.heap.h_addr_end + growth n) / 4096) m m₁ := by
  obtain ⟨s1, s2, s3, s4, s5⟩ := id span
  unfold grow_loop at hloop
  rw [span.length_eq, span.grown_length hroom] at hloop
  have hs : m.heap.h_addr_start + (m.heap.h_addr_end - m.heap.h_addr_start) = m.heap.h_addr_end := by omega
  have he : m.heap.h_addr_start + (m.heap.h_addr_end - m.heap.h_addr_start + growth n)
      = m.heap.h_addr_end + growth n := by omega
  have hgiven := expand_loop_pages _ (span.atPage tb hmax hmap) (by omega) hloop
  rw [hs, he] at hgiven
  exact hgiven

end JamesM
