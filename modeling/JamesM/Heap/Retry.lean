/-
  JamesM.Heap.Retry — how often a request grows the heap.

  After a failed search `alloc` grows the heap by more than the request and calls
  itself again with the same arguments.  The space goes to the hole with the
  greatest address, wherever that hole ends.  `Round k m` keeps what the next search
  needs to know: that hole has at least `k` bytes.  Every growth adds a page and the
  request to `k`; a page-aligned search asks for the request and up to a page.

  `alloc_logged` is `alloc` with a log of its calls of `expand`, those of the nested
  calls of `alloc` included.  `alloc_logged_val` says that nothing else changed.

  Main result: `alloc_expands_at_most_twice`.
-/
import JamesM.Heap.Isolation
import JamesM.Heap.Pages
import JamesM.Lib.Logged

namespace JamesM

open JamesM.ByteMem JamesM.Word32 JamesM.Lib

/-! ## §1. `alloc`, with a log. -/

/-- A routine that logs the lengths it asks of `expand`. -/
abbrev Expanding := Logged Nat Halt

abbrev LoggedAlloc := Nat → Bool → Machine → Expanding (Nat × Machine)

/-- The function without its log. -/
def LoggedAlloc.plain (f : LoggedAlloc) : AllocFn := fun len page_align m => (f len page_align m).val

/-- `_kmalloc`: what follows its call of `alloc` gets the result of that call. -/
def _kmalloc_logged (f : LoggedAlloc) (len : Nat) (phys : Bool) (flags : Nat) (m : Machine) :
    Expanding (Nat × Option Nat × Machine) :=
  if m.heap_ready = false then Logged.lift (_kmalloc f.plain len phys flags m)
  else do
    let r ← f len (decide (flags &&& M_ALIGNED ≠ 0)) m
    Logged.lift (_kmalloc (fun _ _ _ => .ok r) len phys flags m)

/-- `get_page`. -/
def get_page_logged (f : LoggedAlloc) (address : Nat) (create : Bool) (dir : Nat) (m : Machine) :
    Expanding (Nat × Machine) :=
  let page := address / 0x1000
  let table_idx := page / 1024
  if read32 m.mem (dir + 4 * table_idx) ≠ 0 then pure (lookup_page m.mem address dir, m)
  else if create then do
    let r ← _kmalloc_logged f sizeof_page_table true (M_ALIGNED ||| M_ZERO) m
    let mem := write32 r.2.2.mem (dir + 4 * table_idx) r.1
    let mem := write32 mem (dir + 4096 + 4 * table_idx) (r.2.1.getD 0 ||| 0x7)
    pure (r.1 + 4 * (page % 1024), { r.2.2 with mem := mem })
  else pure (0, m)

/-- The loop of `expand`. -/
def expand_loop_logged (f : LoggedAlloc) (new_size : Nat) : Nat → Nat → Machine → Expanding Machine
  | 0, i, m => if i < new_size then Logged.lift (.error .fuel) else pure m
  | n + 1, i, m =>
      if i < new_size then do
        let r ← get_page_logged f (add32 m.heap.h_addr_start i) true m.kernel_directory m
        let m ← Logged.lift (alloc_frame r.1 r.2.heap.h_su r.2.heap.h_ro r.2)
        expand_loop_logged f new_size n (add32 i 0x1000) m
      else pure m

/-- `expand`. -/
def expand_logged (f : LoggedAlloc) (new_size : Nat) (m : Machine) : Expanding Machine := do
  Logged.touch new_size
  Logged.lift (KASSERT "expand to a greater size"
    (decide (new_size > sub32 m.heap.h_addr_end m.heap.h_addr_start)))
  let new_size := following_page new_size
  Logged.lift (KASSERT "don't overflow the heap"
    (decide (add32 m.heap.h_addr_start new_size ≤ m.heap.h_addr_max)))
  let old_size := sub32 m.heap.h_addr_end m.heap.h_addr_start
  let m ← expand_loop_logged f new_size ((new_size - old_size) / 0x1000 + 1) old_size m
  pure { m with heap := { m.heap with h_addr_end := add32 m.heap.h_addr_start new_size } }

/-- What `alloc` does after a failed search. -/
def alloc_grow_logged (f : LoggedAlloc) (new_size : Nat) (m : Machine) : Expanding Machine := do
  let old_length := sub32 m.heap.h_addr_end m.heap.h_addr_start
  let old_end_address := m.heap.h_addr_end
  let m ← expand_logged f (add32 old_length new_size) m
  Logged.lift (give_space old_length old_end_address m)

/-- `alloc`, in its own rounds and in the calls that `expand` makes. -/
def alloc_logged : Nat → LoggedAlloc
  | 0, _, _, _ => Logged.lift (.error .fuel)
  | fuel + 1, size, page_align, m =>
      let new_size := add32 size (sizeof_header + sizeof_footer)
      let i := find_smallest_hole new_size page_align m
      if i = -1 then do
        let m ← alloc_grow_logged (alloc_logged fuel) new_size m
        alloc_logged fuel size page_align m
      else Logged.lift (alloc_carve size page_align i.toNat m)

/-- The number of times `alloc` calls `expand`. -/
def expand_calls (fuel size : Nat) (page_align : Bool) (m : Machine) : Nat :=
  (alloc_logged fuel size page_align m).log.length

/-! ## §2. The log changes nothing. -/

theorem _kmalloc_logged_val (f : LoggedAlloc) (len : Nat) (phys : Bool) (flags : Nat) (m : Machine) :
    (_kmalloc_logged f len phys flags m).val = _kmalloc f.plain len phys flags m := by
  unfold _kmalloc_logged
  cases hready : m.heap_ready with
  | false => rw [if_pos rfl, Logged.val_lift]
  | true =>
      rw [if_neg (by decide), Logged.val_bind]
      simp only [Logged.val_lift, _kmalloc, hready, LoggedAlloc.plain]
      cases (f len (decide (flags &&& M_ALIGNED ≠ 0)) m).val with
      | error e => rfl
      | ok r => rfl

theorem get_page_logged_val (f : LoggedAlloc) (address : Nat) (create : Bool) (dir : Nat) (m : Machine) :
    (get_page_logged f address create dir m).val = get_page f.plain address create dir m := by
  unfold get_page_logged get_page
  simp only [Logged.val_ite, Logged.val_pure, Logged.val_bind, _kmalloc_logged_val]
  rfl

theorem expand_loop_logged_val (f : LoggedAlloc) (new_size n : Nat) :
    ∀ (i : Nat) (m : Machine),
      (expand_loop_logged f new_size n i m).val = expand_loop f.plain new_size n i m := by
  induction n with
  | zero =>
      intro i m
      unfold expand_loop_logged expand_loop
      simp only [Logged.val_ite, Logged.val_lift, Logged.val_pure]
  | succ n ih =>
      intro i m
      unfold expand_loop_logged expand_loop
      simp only [Logged.val_ite, Logged.val_bind, Logged.val_lift, Logged.val_pure, get_page_logged_val, ih]

theorem alloc_grow_logged_val (f : LoggedAlloc) (new_size : Nat) (m : Machine) :
    (alloc_grow_logged f new_size m).val = alloc_grow f.plain new_size m := by
  unfold alloc_grow_logged alloc_grow expand_logged expand
  simp only [Logged.val_bind, Logged.val_touch, Logged.val_lift, Logged.val_pure, ok_bind, expand_loop_logged_val]

/-- The log changes nothing. -/
theorem alloc_logged_val (fuel : Nat) : ∀ (size : Nat) (page_align : Bool) (m : Machine),
    (alloc_logged fuel size page_align m).val = alloc fuel size page_align m := by
  induction fuel with
  | zero =>
      intro size page_align m
      rfl
  | succ fuel ih =>
      intro size page_align m
      have hplain : (alloc_logged fuel).plain = alloc fuel := by
        funext size page_align m
        exact ih size page_align m
      unfold alloc_logged alloc
      simp only [Logged.val_ite, Logged.val_bind, Logged.val_lift, alloc_grow_logged_val, hplain, ih]

theorem AtPage.get_page_logged {new_size i : Nat} {m : Machine} (pg : AtPage new_size i m) (hlt : i < new_size)
    (f : LoggedAlloc) :
    JamesM.get_page_logged f (add32 m.heap.h_addr_start i) true m.kernel_directory m
      = pure (page_entry m.mem m.kernel_directory ((m.heap.h_addr_start + i) / 4096), m) := by
  have hhigh := pg.high
  have hhit := pg.mapped _ (Nat.le_refl _) (by have := pg.aligned; have := pg.size_aligned; omega)
  unfold JamesM.get_page_logged
  have hread : read32 m.mem (m.kernel_directory + 4 * ((m.heap.h_addr_start + i) / 0x1000 / 1024)) ≠ 0 := hhit
  rw [add32_of_lt (by omega), if_pos hread, lookup_page_eq, if_pos hhit]

/-- Where the page tables exist, no growth is nested. -/
theorem expand_loop_logs_nothing {f : LoggedAlloc} {new_size : Nat} (n : Nat) :
    ∀ {i : Nat} {m : Machine}, AtPage new_size i m →
      (expand_loop_logged f new_size n i m).log.length ≤ 0 := by
  induction n with
  | zero =>
      intro i m _
      unfold expand_loop_logged
      split
      · exact Nat.le_refl _
      · exact Nat.le_refl _
  | succ n ih =>
      intro i m pg
      unfold expand_loop_logged
      by_cases hlt : i < new_size
      · rw [if_pos hlt, pg.get_page_logged hlt]
        apply Logged.length_bind_le (a := 0) (b := 0) (Nat.le_refl _)
        intro r hr
        have hr := Except.ok.inj hr
        subst hr
        apply Logged.length_bind_le (a := 0) (b := 0) (Nat.le_refl _)
        intro m₁ hf
        obtain ⟨hi', -, pg₁⟩ := pg.next hlt hf
        rw [hi']
        exact ih pg₁
      · rw [if_neg hlt]
        exact Nat.le_refl _

/-! ## §3. Rounds. -/

/-- Between two rounds: the bounds, the page tables, which keep out of the heap's way, and the hole with
    the greatest address, which has at least `k` bytes. -/
structure Round (k : Nat) (m : Machine) : Prop where
  span : PageSpan m.heap
  max_le : m.heap.h_addr_max ≤ 0xD0000000
  small : m.heap.h_addr_max < m.heap.h_addr_start + 0x10000000
  dir_off : m.kernel_directory + 8196 ≤ m.heap.h_addr_start ∨ m.heap.h_addr_max ≤ m.kernel_directory
  tables : Tables m.kernel_directory m.mem
  mapped : HasTables m (m.heap.h_addr_end / 4096) ((m.heap.h_addr_max + 4095) / 4096)
  place : ∀ t, t < 1024 → pd_table m.mem m.kernel_directory t ≠ 0 →
    pd_table m.mem m.kernel_directory t + 4096 ≤ m.heap.h_addr_start
      ∨ m.heap.h_addr_max ≤ pd_table m.mem m.kernel_directory t
      ∨ pd_table m.mem m.kernel_directory t + 4096 ≤ m.heap.h_addr_end
  count : m.heap.h_index.sa_size ≤ 0x10000000 + min k 1
  last : ∀ a ∈ m.heap.h_index.entries, (∀ b ∈ m.heap.h_index.entries, b ≤ a) →
    m.heap.h_addr_start ≤ a ∧ a + hh_size m.mem a ≤ m.heap.h_addr_end
      ∧ ∀ t, t < 1024 → pd_table m.mem m.kernel_directory t ≠ 0 →
        pd_table m.mem m.kernel_directory t + 4096 ≤ m.heap.h_addr_start
          ∨ m.heap.h_addr_max ≤ pd_table m.mem m.kernel_directory t
          ∨ pd_table m.mem m.kernel_directory t + 4096 ≤ a
          ∨ a + 12 ≤ pd_table m.mem m.kernel_directory t
  top : 0 < k → ∃ a ∈ m.heap.h_index.entries, 0 < a ∧ (∀ b ∈ m.heap.h_index.entries, b ≤ a)
    ∧ k ≤ hh_size m.mem a

/-- The pages do not change the size in the header of the last hole. -/
theorem Round.size_kept {k d : Nat} {m m₁ : Machine} (r : Round k m)
    (hmax : m.heap.h_addr_end + d ≤ m.heap.h_addr_max) (hd : 12 ≤ d)
    (g : PagesGiven (m.heap.h_addr_end / 4096) ((m.heap.h_addr_end + d) / 4096) m m₁)
    {a : Nat} (ha : a ∈ m.heap.h_index.entries) (hlast : ∀ b ∈ m.heap.h_index.entries, b ≤ a) :
    hh_size m₁.mem a = hh_size m.mem a := by
  obtain ⟨h1, h2, h3⟩ := r.last a ha hlast
  have hhigh := r.span.high
  apply read32_congr
  intro x hx1 hx2
  apply g.off
  intro q hq1 hq2
  have hmap := r.mapped q hq1 (by omega)
  have := h3 (q / 1024) (by omega) hmap
  unfold page_entry
  omega

/-- The next round, from what has become of the last hole. -/
theorem Round.next {k k' d a : Nat} {m m' : Machine} (r : Round k m) (hd : d % 4096 = 0)
    (hmax : m.heap.h_addr_end + d ≤ m.heap.h_addr_max) {idx : SortedArray Mem Nat}
    (hheap : m'.heap = { m.heap with h_addr_end := m.heap.h_addr_end + d, h_index := idx })
    (hdir : m'.kernel_directory = m.kernel_directory)
    (htab : ∀ t, t < 1024 → pd_table m'.mem m.kernel_directory t = pd_table m.mem m.kernel_directory t)
    (hcount : idx.sa_size ≤ 0x10000000 + min k' 1) (ha : a ∈ idx.entries) (hapos : 0 < a)
    (hlast : ∀ b ∈ idx.entries, b ≤ a) (hstart : m.heap.h_addr_start ≤ a)
    (hend : a + hh_size m'.mem a ≤ m.heap.h_addr_end + d) (hk : k' ≤ hh_size m'.mem a)
    (hoff : ∀ t, t < 1024 → pd_table m.mem m.kernel_directory t ≠ 0 →
      pd_table m.mem m.kernel_directory t + 4096 ≤ m.heap.h_addr_start
        ∨ m.heap.h_addr_max ≤ pd_table m.mem m.kernel_directory t
        ∨ pd_table m.mem m.kernel_directory t + 4096 ≤ a
        ∨ a + 12 ≤ pd_table m.mem m.kernel_directory t) : Round k' m' := by
  obtain ⟨s1, s2, s3, s4, s5⟩ := id r.span
  refine ⟨?_, ?_, ?_, ?_, ?_, ?_, ?_, ?_, ?_, ?_⟩
  · rw [hheap]
    exact ⟨s1, by dsimp only; omega, by dsimp only; omega, hmax, s5⟩
  · rw [hheap]
    exact r.max_le
  · rw [hheap]
    exact r.small
  · rw [hheap, hdir]
    exact r.dir_off
  · rw [hdir]
    exact r.tables.congr htab
  · intro q h1 h2
    rw [hheap] at h1 h2
    dsimp only at h1 h2
    rw [hdir, htab _ (by have := r.max_le; omega)]
    exact r.mapped q (by omega) h2
  · intro t ht hne
    rw [hdir, htab t ht] at hne ⊢
    rw [hheap]
    have := r.place t ht hne
    dsimp only
    omega
  · rw [hheap]
    exact hcount
  · intro b hb hblast
    rw [hheap] at hb hblast ⊢
    have hab : b = a := Nat.le_antisymm (hlast b hb) (hblast a ha)
    subst hab
    refine ⟨hstart, hend, fun t ht hne => ?_⟩
    rw [hdir, htab t ht] at hne ⊢
    exact hoff t ht hne
  · intro _
    rw [hheap]
    exact ⟨a, ha, hapos, hlast, hk⟩

/-- The last hole grows by `d` bytes. -/
theorem Round.grow_last {k d a : Nat} {m m₁ m' : Machine} (r : Round k m) (hd : d % 4096 = 0) (hd0 : 0 < d)
    (hmax : m.heap.h_addr_end + d ≤ m.heap.h_addr_max)
    (g : PagesGiven (m.heap.h_addr_end / 4096) ((m.heap.h_addr_end + d) / 4096) m m₁)
    (ha : a ∈ m.heap.h_index.entries) (hapos : 0 < a) (halast : ∀ b ∈ m.heap.h_index.entries, b ≤ a)
    (hheap : m'.heap = { m.heap with h_addr_end := m.heap.h_addr_end + d })
    (hdir : m'.kernel_directory = m.kernel_directory)
    (hmem : m'.mem = put_footer (write32 m₁.mem (a + 8) (add32 (hh_size m₁.mem a) d))
      (sub32 (add32 a (add32 (hh_size m₁.mem a) d)) sizeof_footer) a) : Round (k + d) m' := by
  obtain ⟨hl1, hl2, hl3⟩ := r.last a ha halast
  have hhigh := r.span.high
  have hdoff := r.dir_off
  have hcount := r.count
  rw [r.size_kept hmax (by omega) g ha halast, add32_of_lt (by omega)] at hmem
  -- if there was a last hole with `k` bytes, this is it
  have hk : k ≤ hh_size m.mem a := by
    by_cases hk0 : k = 0
    · omega
    · obtain ⟨b, hb, -, hblast, hkb⟩ := r.top (by omega)
      rw [Nat.le_antisymm (halast b hb) (hblast a ha)] at hkb
      exact hkb
  generalize hsz : hh_size m.mem a = sz at hmem hl2 hk
  have hfoot : sub32 (add32 a (sz + d)) sizeof_footer = a + (sz + d) - 8 := by
    unfold sub32 add32 sizeof_footer
    omega
  rw [hfoot] at hmem
  have hout : EqOutside (a + 8) (a + (sz + d)) m₁.mem m'.mem := by
    rw [hmem]
    exact ((EqOutside.refl _ _ _).write32 _ (by omega) (by omega)).trans
      ((put_footer_eqOutside _ _ _).mono (by omega) (by omega))
  have hread : hh_size (write32 m₁.mem (a + 8) (sz + d)) a = sz + d := read32_write32 _ _ (by omega)
  have hsize : hh_size m'.mem a = sz + d := by
    rw [hmem]
    exact ((put_footer_eqOutside _ _ _).read32 (.inl (by omega))).trans hread
  have htab : ∀ t, t < 1024 → pd_table m'.mem m.kernel_directory t = pd_table m.mem m.kernel_directory t := by
    intro t ht
    rw [← g.tables t ht]
    exact hout.read32 (by omega)
  exact r.next hd hmax hheap hdir htab (by omega) ha hapos halast hl1 (by omega) (by omega) hl3

/-- The new `d` bytes become the only hole. -/
theorem Round.grow_first {k d : Nat} {m m₁ m' : Machine} {idx : SortedArray Mem Nat} (r : Round k m)
    (hd : d % 4096 = 0) (hd0 : 0 < d) (hmax : m.heap.h_addr_end + d ≤ m.heap.h_addr_max)
    (g : PagesGiven (m.heap.h_addr_end / 4096) ((m.heap.h_addr_end + d) / 4096) m m₁)
    (hzero : ∀ b ∈ m.heap.h_index.entries, b = 0)
    (hins : insert_sorted_array m'.mem m.heap.h_index m.heap.h_addr_end = .ok idx)
    (hheap : m'.heap = { m.heap with h_addr_end := m.heap.h_addr_end + d, h_index := idx })
    (hdir : m'.kernel_directory = m.kernel_directory)
    (hmem : m'.mem = put_footer (put_header m₁.mem m.heap.h_addr_end 1 d)
      (sub32 (add32 m.heap.h_addr_end d) sizeof_footer) m.heap.h_addr_end) : Round (k + d) m' := by
  obtain ⟨s1, s2, s3, s4, s5⟩ := id r.span
  have hdoff := r.dir_off
  have hcount := r.count
  have hfoot : sub32 (add32 m.heap.h_addr_end d) sizeof_footer = m.heap.h_addr_end + d - 8 := by
    unfold sub32 add32 sizeof_footer
    omega
  rw [hfoot] at hmem
  have hout : EqOutside m.heap.h_addr_end (m.heap.h_addr_end + d) m₁.mem m'.mem := by
    rw [hmem]
    exact ((put_header_eqOutside _ _ _ _).mono (by omega) (by omega)).trans
      ((put_footer_eqOutside _ _ _).mono (by omega) (by omega))
  have hsize : hh_size m'.mem m.heap.h_addr_end = d := by
    rw [hmem]
    have hhdr := hdrAt_put_header m₁.mem ⟨m.heap.h_addr_end, d, true⟩ (by dsimp only; omega)
    exact (hhdr.of_eqOutside (put_footer_eqOutside _ _ _) (.inl (by dsimp only; omega))).size
  have htab : ∀ t, t < 1024 → pd_table m'.mem m.kernel_directory t = pd_table m.mem m.kernel_directory t := by
    intro t ht
    rw [← g.tables t ht]
    exact hout.read32 (by omega)
  have hk0 : k = 0 := by
    by_contra hk0
    obtain ⟨b, hb, hbpos, -, -⟩ := r.top (by omega)
    have := hzero b hb
    omega
  -- the index has got one entry more
  obtain ⟨cmp, hcmp⟩ : ∃ cmp, m.heap.h_index.sa_cmp = some cmp := by
    cases hcmp : m.heap.h_index.sa_cmp with
    | none =>
        unfold insert_sorted_array at hins
        rw [hcmp] at hins
        exact absurd hins (by simp)
    | some cmp => exact ⟨cmp, rfl⟩
  obtain ⟨-, -, -, hentries⟩ := insert_sorted_array_entries hcmp hins
  have hlength : idx.sa_size = m.heap.h_index.sa_size + 1 := by
    rw [← idx.length_entries, hentries, List.orderedInsert_length, m.heap.h_index.length_entries]
  have hin : m.heap.h_addr_end ∈ idx.entries := by
    rw [hentries]
    exact (List.mem_orderedInsert _).mpr (.inl rfl)
  have hlast : ∀ b ∈ idx.entries, b ≤ m.heap.h_addr_end := by
    intro b hb
    rw [hentries] at hb
    rcases (List.mem_orderedInsert _).mp hb with rfl | hb
    · exact Nat.le_refl _
    · rw [hzero b hb]
      exact Nat.zero_le _
  apply r.next hd hmax hheap hdir htab (by omega) hin (by omega) hlast (by omega) (by omega) (by omega)
  intro t ht hne
  have := r.place t ht hne
  omega

/-- **One growth.**  The hole with the greatest address has got all of the new space. -/
theorem Round.grow {k n : Nat} {f : AllocFn} {m m' : Machine} (r : Round k m) (hn : n ≤ 0x10000014)
    (h : alloc_grow f n m = .ok m') : Round (k + growth n) m' := by
  obtain ⟨s1, s2, s3, s4, s5⟩ := id r.span
  have hle := r.max_le
  have hcount := r.count
  obtain ⟨hd1, hd2, hd3⟩ := growth_facts n
  have hroom : m.heap.h_addr_end + n + 0x1000 < 4294967296 := by omega
  obtain ⟨hmax, m₁, hloop, hspace⟩ := alloc_grow_ok r.span hroom h
  have hg := r.span.pages r.tables hroom hmax (fun q h1 h2 => r.mapped q h1 (by omega)) hloop
  have hheap : m₁.heap = m.heap := by rw [hg.heap]
  have hdir : m₁.kernel_directory = m.kernel_directory := by rw [hg.heap]
  have hend : add32 m₁.heap.h_addr_start (grown_length n m) = m.heap.h_addr_end + growth n := by
    rw [hheap, r.span.grown_length hroom, add32_of_lt (by omega)]
    omega
  rw [hend, hheap] at hspace
  have hdiff : sub32 (sub32 (m.heap.h_addr_end + growth n) m.heap.h_addr_start)
      (m.heap.h_addr_end - m.heap.h_addr_start) = growth n := by
    have hinner : sub32 (m.heap.h_addr_end + growth n) m.heap.h_addr_start
        = m.heap.h_addr_end + growth n - m.heap.h_addr_start := sub32_of_le (by omega) (by omega)
    rw [hinner, sub32_of_le (by omega) (by omega)]
    omega
  rcases give_space_cases hspace hdiff (by omega) (show m.heap.h_index.sa_size ≤ _ by omega) with
    ⟨a, ha, hapos, halast, hm'⟩ | ⟨hzero, idx, hins, hm'⟩
  · exact r.grow_last hd1 (by omega) hmax hg ha hapos halast (by rw [hm']) (by rw [hm']; exact hdir) (by rw [hm'])
  · exact r.grow_first hd1 (by omega) hmax hg hzero (by rw [hm']; exact hins) (by rw [hm'])
      (by rw [hm']; exact hdir) (by rw [hm'])

/-- The loop of a growth has rounds enough. -/
theorem Round.grow_returns {k n : Nat} {f : AllocFn} {m : Machine} (r : Round k m) (hn : n ≤ 0x10000014) :
    alloc_grow f n m ≠ .error .fuel := by
  obtain ⟨s1, s2, s3, s4, s5⟩ := id r.span
  have hle := r.max_le
  obtain ⟨hd1, hd2, hd3⟩ := growth_facts n
  have hroom : m.heap.h_addr_end + n + 0x1000 < 4294967296 := by omega
  have hlen := r.span.grown_length hroom
  have he : m.heap.h_addr_start + (m.heap.h_addr_end - m.heap.h_addr_start + growth n)
      = m.heap.h_addr_end + growth n := by omega
  rw [alloc_grow_eq]
  apply bind_ne_fuel (KASSERT_ne_fuel _ _)
  intro _ _
  apply bind_ne_fuel (KASSERT_ne_fuel _ _)
  intro _ hmax
  rw [KASSERT_eq_ok, decide_eq_true_eq, hlen, add32_of_lt (by omega), he] at hmax
  apply bind_ne_fuel ?_ (fun _ _ => give_space_ne_fuel _ _ _)
  unfold grow_loop
  rw [r.span.length_eq, hlen]
  exact expand_loop_returns _ (r.span.atPage r.tables (by omega) fun q h1 h2 => r.mapped q h1 (by omega)) (by omega)

/-! ## §4. The searches. -/

theorem Round.found_unaligned {k n : Nat} {m : Machine} (r : Round k m) (hk : 0 < k) (hn : n ≤ k) :
    find_smallest_hole n false m ≠ -1 := by
  obtain ⟨a, ha, -, -, hsize⟩ := r.top hk
  obtain ⟨i, hi, rfl⟩ := SortedArray.mem_entries.mp ha
  rcases find_smallest_hole_cases n false m with ⟨j, hj, -⟩ | ⟨-, hnone⟩
  · omega
  · have hno := hnone i hi
    rw [hole_fits_false, decide_eq_false_iff_not] at hno
    omega

theorem Round.found_aligned {k n : Nat} {m : Machine} (r : Round k m) (hk : 0 < k)
    (hn : n + 0x1000 ≤ k) : find_smallest_hole n true m ≠ -1 := by
  obtain ⟨a, ha, -, hlast, hsize⟩ := r.top hk
  obtain ⟨h1, h2, -⟩ := r.last a ha hlast
  have hmax := r.span.max
  have hsmall := r.small
  have hle := r.max_le
  obtain ⟨i, hi, rfl⟩ := SortedArray.mem_entries.mp ha
  rcases find_smallest_hole_cases n true m with ⟨j, hj, -⟩ | ⟨-, hnone⟩
  · omega
  · have hno := hnone i hi
    unfold hole_fits at hno
    rw [if_pos rfl, decide_eq_false_iff_not] at hno
    exfalso
    apply hno
    -- at most a page is lost in front
    have hoff : ∀ x : Nat, (if x &&& 0xFFFFF000 ≠ 0 then 0x1000 - x % 0x1000 else 0) ≤ 0x1000 := by
      intro x
      split <;> omega
    have hthis := hoff (add32 (m.heap.h_index.sa_array i) sizeof_header)
    rw [sub32_of_le (by omega) (by omega), toInt32_of_lt (by omega), toInt32_of_lt (by omega)]
    omega

/-! ## §5. How often. -/

/-- A growth is one call of `expand`: nothing is nested in it. -/
theorem Round.grow_once {k n : Nat} {f : LoggedAlloc} {m : Machine} (r : Round k m) (hn : n ≤ 0x10000014) :
    (alloc_grow_logged f n m).log.length ≤ 1 := by
  obtain ⟨s1, s2, s3, s4, s5⟩ := id r.span
  have hle := r.max_le
  obtain ⟨hd1, hd2, hd3⟩ := growth_facts n
  have hlen := r.span.grown_length (show m.heap.h_addr_end + n + 0x1000 < 4294967296 by omega)
  unfold grown_length at hlen
  unfold alloc_grow_logged expand_logged
  apply Logged.length_bind_le (a := 1) (b := 0) ?_ (fun _ _ => Nat.le_refl _)
  apply Logged.length_bind_le (a := 1) (b := 0) (Nat.le_refl _)
  intro _ _
  apply Logged.length_bind_le (a := 0) (b := 0) (Nat.le_refl _)
  intro _ _
  dsimp only
  rw [hlen, r.span.length_eq]
  apply Logged.length_bind_le (a := 0) (b := 0) (Nat.le_refl _)
  intro _ hmax
  rw [Logged.val_lift, KASSERT_eq_ok, decide_eq_true_eq, add32_of_lt (by omega)] at hmax
  apply Logged.length_bind_le (a := 0) (b := 0) ?_ (fun _ _ => Nat.le_refl _)
  exact expand_loop_logs_nothing _ (r.span.atPage r.tables (by omega) fun q h1 h2 => r.mapped q h1 (by omega))

/-- A call that finds a hole returns without growing the heap. -/
theorem alloc_found (fuel : Nat) {size : Nat} {page_align : Bool} {m : Machine} (hsize : size < 0x10000000)
    (hfound : find_smallest_hole (size + 20) page_align m ≠ -1) :
    alloc (fuel + 1) size page_align m ≠ .error .fuel ∧ expand_calls (fuel + 1) size page_align m = 0 := by
  have hnew : add32 size (sizeof_header + sizeof_footer) = size + 20 :=
    add32_of_lt (show size + 20 < 4294967296 by omega)
  unfold expand_calls alloc_logged
  rw [alloc]
  simp only [hnew, if_neg hfound]
  exact ⟨alloc_carve_ne_fuel _ _ _ _, rfl⟩

/-- **One round**: `alloc` finds a hole, or it grows the heap once and starts over. -/
theorem Round.alloc_round {k fuel size n : Nat} {page_align : Bool} {m : Machine} (r : Round k m)
    (hsize : size < 0x10000000)
    (hnext : ∀ m', Round (k + growth (size + 20)) m' →
      alloc fuel size page_align m' ≠ .error .fuel ∧ expand_calls fuel size page_align m' ≤ n) :
    alloc (fuel + 1) size page_align m ≠ .error .fuel
      ∧ expand_calls (fuel + 1) size page_align m ≤ n + 1 := by
  have hnew : add32 size (sizeof_header + sizeof_footer) = size + 20 :=
    add32_of_lt (show size + 20 < 4294967296 by omega)
  by_cases hfound : find_smallest_hole (size + 20) page_align m = -1
  · constructor
    · rw [alloc]
      simp only [hnew, if_pos hfound]
      apply bind_ne_fuel (r.grow_returns (by omega))
      intro m' hm'
      exact (hnext m' (r.grow (by omega) hm')).1
    · unfold expand_calls alloc_logged
      simp only [hnew, if_pos hfound]
      rw [Nat.add_comm n 1]
      apply Logged.length_bind_le (r.grow_once (by omega))
      intro m' hm'
      rw [alloc_grow_logged_val] at hm'
      exact (hnext m' (r.grow (by omega) hm')).2
  · obtain ⟨h1, h2⟩ := alloc_found fuel hsize hfound
    exact ⟨h1, by omega⟩

/-- A heap with a header chain and an index, page aligned, with its page tables in place up to its limit:
    the tables and the directory are outside the heap's address range, or in blocks of the heap. -/
structure PagedHeap (regs : List Region) (m : Machine) : Prop where
  tiled : Tiled m.heap.h_addr_start regs m.heap.h_addr_end
  size : ∀ r ∈ regs, 0 < r.size
  head : ∀ r ∈ regs, HdrAt m.mem r
  index : m.heap.h_index.entries.Perm (holes regs)
  start_aligned : m.heap.h_addr_start % 0x1000 = 0
  length : ∃ n, 0 < n ∧ m.heap.h_addr_end = m.heap.h_addr_start + 0x1000 * n
  max : m.heap.h_addr_end ≤ m.heap.h_addr_max
  max_le : m.heap.h_addr_max ≤ 0xD0000000
  small : m.heap.h_addr_max - m.heap.h_addr_start < 0x10000000
  dir_off : m.kernel_directory + 8196 ≤ m.heap.h_addr_start ∨ m.heap.h_addr_max ≤ m.kernel_directory
  tables : Tables m.kernel_directory m.mem
  mapped : HasTables m (m.heap.h_addr_start / 4096) ((m.heap.h_addr_max + 4095) / 4096)
  place : ∀ t, t < 1024 → pd_table m.mem m.kernel_directory t ≠ 0 →
    TablePlace regs [] m.heap (pd_table m.mem m.kernel_directory t)

/-- Before the first round. -/
theorem PagedHeap.round {regs : List Region} {m : Machine} (h : PagedHeap regs m) : Round 0 m := by
  obtain ⟨n, hn, hend⟩ := h.length
  have hs := h.start_aligned
  have hmax := h.max
  have hle := h.max_le
  have hsmall := h.small
  refine ⟨⟨hs, by omega, by omega, hmax, by omega⟩, hle, by omega, h.dir_off, h.tables,
    fun q h1 h2 => h.mapped q (by omega) h2, fun t ht hne => ?_, ?_, fun a ha _ => ?_,
    fun h0 => absurd h0 (by omega)⟩
  · rcases h.place t ht hne with h1 | h1 | ⟨r, hr, -, h2, h3, -⟩
    · exact .inl h1
    · exact .inr (.inl h1)
    · have := (h.tiled.bounds r hr).2
      exact .inr (.inr (by omega))
  · -- no more holes than bytes
    have h1 := h.index.length_eq
    have h2 : (holes regs).length ≤ regs.length := by
      unfold holes
      rw [List.length_map]
      exact List.length_filter_le _ _
    have h3 := h.tiled.length_le (n := 1) h.size
    rw [SortedArray.length_entries] at h1
    omega
  · obtain ⟨g, hg, hhole, rfl⟩ := mem_holes.mp (h.index.mem_iff.mp ha)
    obtain ⟨hg1, hg2⟩ := h.tiled.bounds g hg
    rw [(h.head g hg).size]
    refine ⟨hg1, hg2, fun t ht hne => ?_⟩
    rcases h.place t ht hne with h1 | h1 | ⟨r, hr, hrb, h2, h3, -⟩
    · exact .inl h1
    · exact .inr (.inl h1)
    · rcases h.tiled.apart hg hr with rfl | hd | hd
      · rw [hhole] at hrb
        exact absurd hrb Bool.noConfusion
      · omega
      · omega

/-- **`alloc` starts over a bounded number of times.**  On every such heap and for every request below
    `0x10000000` bytes, `alloc` returns or stops the kernel, and it has called `expand` at most once, or
    at most twice for a page-aligned block; counted in the log of `alloc_logged`, which is `alloc`. -/
theorem alloc_expands_at_most_twice {regs : List Region} {m : Machine} (h : PagedHeap regs m) {size : Nat}
    (hsize : size < 0x10000000) (page_align : Bool) (fuel : Nat) :
    (alloc_logged (fuel + 3) size page_align m).val = alloc (fuel + 3) size page_align m
      ∧ alloc (fuel + 3) size page_align m ≠ .error .fuel
      ∧ expand_calls (fuel + 3) size page_align m ≤ if page_align then 2 else 1 := by
  obtain ⟨hd1, hd2, hd3⟩ := growth_facts (size + 20)
  refine ⟨alloc_logged_val (fuel + 3) size page_align m, ?_⟩
  cases page_align with
  | false =>
      apply h.round.alloc_round hsize
      intro m₁ r₁
      obtain ⟨h1, h2⟩ := alloc_found (fuel + 1) hsize (r₁.found_unaligned (by omega) (n := size + 20) (by omega))
      exact ⟨h1, Nat.le_of_eq h2⟩
  | true =>
      apply h.round.alloc_round hsize
      intro m₁ r₁
      apply r₁.alloc_round hsize
      intro m₂ r₂
      -- two growths make room for the request and a page
      have htwo : size + 20 + 0x1000 ≤ 0 + growth (size + 20) + growth (size + 20) := by
        unfold growth
        omega
      obtain ⟨h1, h2⟩ := alloc_found fuel hsize (r₂.found_aligned (by omega) htwo)
      exact ⟨h1, Nat.le_of_eq h2⟩

/-- A fresh heap that may grow to 4 MB, as far as its one page table reaches. -/
def tightHeap : Machine :=
  { freshHeap.machine with heap := { freshHeap.machine.heap with h_addr_max := 0xC0400000 } }

theorem tightHeap_paged : PagedHeap [firstHole 0xC0000000] tightHeap := by
  obtain ⟨k, hentries, hend⟩ := freshHeap_start.kernel
  have hstart : freshHeap.machine.heap.h_addr_start = 0xC0081000 := by decide +kernel
  have hmax : freshHeap.machine.heap.h_addr_max = 0xCFFFF000 := by decide +kernel
  refine ⟨k.heap.tiled, k.heap.size_pos, k.heap.head, k.heap.index, k.heap.bounds.start_aligned,
    ⟨127, by decide, ?_⟩, ?_, by decide, ?_, ?_, k.paging.tables, ?_, ?_⟩
  · show freshHeap.machine.heap.h_addr_end = freshHeap.machine.heap.h_addr_start + 0x1000 * 127
    omega
  · show freshHeap.machine.heap.h_addr_end ≤ 0xC0400000
    omega
  · show 0xC0400000 - freshHeap.machine.heap.h_addr_start < 0x10000000
    omega
  · have := k.paging.dir_off
    show freshHeap.machine.kernel_directory + 8196 ≤ freshHeap.machine.heap.h_addr_start
      ∨ 0xC0400000 ≤ freshHeap.machine.kernel_directory
    omega
  · -- one table serves all of it
    intro q h1 h2
    have h1 : freshHeap.machine.heap.h_addr_start / 4096 ≤ q := h1
    have h2 : q < (0xC0400000 + 4095) / 4096 := h2
    have hone := k.paging.mapped 0xC0081 (by omega) (by omega)
    rw [show (0xC0081 : Nat) / 1024 = q / 1024 by omega] at hone
    exact hone
  · intro t ht hne
    rcases k.paging.place t ht hne with h | h | ⟨r, hr, hrb, -⟩
    · exact .inl h
    · rw [hmax] at h
      exact .inr (.inl (Nat.le_trans (by decide) h))
    · rw [List.mem_singleton.mp hr] at hrb
      exact absurd hrb (by decide)

/-- A page-aligned megabyte from it. -/
theorem tightHeap_expands_at_most_twice :
    alloc 3 0x100000 true tightHeap ≠ .error .fuel ∧ expand_calls 3 0x100000 true tightHeap ≤ 2 :=
  (alloc_expands_at_most_twice tightHeap_paged (by decide) true 0).2

end JamesM
