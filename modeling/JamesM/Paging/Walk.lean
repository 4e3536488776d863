/-
  JamesM.Paging.Walk — the kernel's page walk and the CPU's page walk.

  A directory keeps two parallel arrays: `pd_tables`, the pointers the kernel
  follows, and `pd_tblphys`, the words the MMU follows.  `get_page` is the only
  writer of both.

  Main results:
    * `get_page_create` — what a creating call does in the placement phase;
    * `page_walks_agree` — after any mix of `get_page` calls and of stores through
      the entries it returned, both walks end at the same word for every address,
      the words of different pages do not overlap, and no later call disturbs a
      table that exists.
-/
import JamesM.Paging.Placement

namespace JamesM

open JamesM.ByteMem JamesM.Word32

/-! ## §1. The directory in memory. -/

/-- `dir->pd_tables[t]`. -/
def pd_table (mem : Mem) (dir t : Nat) : Nat := read32 mem (dir + 4 * t)

/-- `dir->pd_tblphys[t]`. -/
def pd_tblphys (mem : Mem) (dir t : Nat) : Nat := read32 mem (dir + 4096 + 4 * t)

/-- The entry of page number `q`, where its table exists. -/
def page_entry (mem : Mem) (dir q : Nat) : Nat := pd_table mem dir (q / 1024) + 4 * (q % 1024)

/-- The entry the MMU uses for address `a`. -/
def mmu_entry (mem : Mem) (dir a : Nat) : Nat :=
  (pd_tblphys mem dir (a >>> 22) &&& 0xFFFFF000) + 4 * ((a >>> 12) &&& 0x3FF)

/-- The tables of a directory overlap neither it nor each other. -/
structure Tables (dir : Nat) (mem : Mem) : Prop where
  off_dir : ∀ t, t < 1024 → pd_table mem dir t ≠ 0 →
    pd_table mem dir t + 4096 ≤ dir ∨ dir + 8196 ≤ pd_table mem dir t
  apart : ∀ t s, t < 1024 → s < 1024 → t ≠ s → pd_table mem dir t ≠ 0 → pd_table mem dir s ≠ 0 →
    pd_table mem dir t + 4096 ≤ pd_table mem dir s ∨ pd_table mem dir s + 4096 ≤ pd_table mem dir t

/-- `p` points to an entry of an existing table. -/
def IsEntry (dir : Nat) (mem : Mem) (p : Nat) : Prop :=
  ∃ t j, t < 1024 ∧ j < 1024 ∧ pd_table mem dir t ≠ 0 ∧ p = pd_table mem dir t + 4 * j

theorem lookup_page_eq (mem : Mem) (a dir : Nat) :
    lookup_page mem a dir =
      if pd_table mem dir (a / 4096 / 1024) ≠ 0 then page_entry mem dir (a / 4096) else 0 := rfl

theorem lookup_page_ne_zero {mem : Mem} {a dir : Nat} :
    lookup_page mem a dir ≠ 0 ↔ pd_table mem dir (a / 4096 / 1024) ≠ 0 := by
  rw [lookup_page_eq]
  by_cases h : pd_table mem dir (a / 4096 / 1024) ≠ 0
  · rw [if_pos h]
    unfold page_entry
    exact ⟨fun _ => h, fun _ => by omega⟩
  · rw [if_neg h]
    exact ⟨fun h' => absurd rfl h', fun h' => absurd h' h⟩

theorem get_page_lookup (alloc : AllocFn) (a dir : Nat) (m : Machine) :
    get_page alloc a false dir m = .ok (lookup_page m.mem a dir, m) := by
  unfold get_page
  by_cases h : read32 m.mem (dir + 4 * (a / 0x1000 / 1024)) ≠ 0
  · simp only [if_pos h]
  · simp only [if_neg h, Bool.false_eq_true, if_false]
    rw [lookup_page_eq, if_neg (show ¬ pd_table m.mem dir (a / 4096 / 1024) ≠ 0 from h)]

/-- Entries of different pages do not overlap. -/
theorem Tables.entries_apart {dir : Nat} {mem : Mem} (tb : Tables dir mem) {q r : Nat}
    (hq : q < 1048576) (hr : r < 1048576) (hne : q ≠ r)
    (h1 : pd_table mem dir (q / 1024) ≠ 0) (h2 : pd_table mem dir (r / 1024) ≠ 0) :
    page_entry mem dir q + 4 ≤ page_entry mem dir r
      ∨ page_entry mem dir r + 4 ≤ page_entry mem dir q := by
  unfold page_entry
  by_cases ht : q / 1024 = r / 1024
  · rw [ht]; omega
  · rcases tb.apart _ _ (by omega) (by omega) ht h1 h2 with h | h <;> omega

/-- A store into an existing table leaves both arrays of the directory alone. -/
theorem Tables.store_frame {dir : Nat} {mem : Mem} (tb : Tables dir mem) {p : Nat}
    (hp : IsEntry dir mem p) (w : Nat) :
    (∀ t, t < 1024 → pd_table (write32 mem p w) dir t = pd_table mem dir t)
      ∧ ∀ t, t < 1024 → pd_tblphys (write32 mem p w) dir t = pd_tblphys mem dir t := by
  obtain ⟨s, j, hs, hj, hne, rfl⟩ := hp
  have hoff := tb.off_dir s hs hne
  exact ⟨fun t ht => read32_write32_ne _ _ (by omega), fun t ht => read32_write32_ne _ _ (by omega)⟩

/-- Facts about the directory survive any change that keeps its pointers. -/
theorem Tables.congr {dir : Nat} {mem mem' : Mem} (tb : Tables dir mem)
    (h : ∀ t, t < 1024 → pd_table mem' dir t = pd_table mem dir t) : Tables dir mem' := by
  refine ⟨fun t ht hne => ?_, fun t s ht hs hts h1 h2 => ?_⟩
  · rw [h t ht] at hne ⊢
    exact tb.off_dir t ht hne
  · rw [h t ht] at h1 ⊢
    rw [h s hs] at h2 ⊢
    exact tb.apart t s ht hs hts h1 h2

theorem IsEntry.congr {dir : Nat} {mem mem' : Mem} {p : Nat} (hp : IsEntry dir mem p)
    (h : ∀ t, t < 1024 → pd_table mem dir t ≠ 0 → pd_table mem' dir t = pd_table mem dir t) :
    IsEntry dir mem' p := by
  obtain ⟨t, j, ht, hj, hne, rfl⟩ := hp
  exact ⟨t, j, ht, hj, by rw [h t ht hne]; exact hne, by rw [h t ht hne]⟩

/-- The entry of a page whose table exists is an entry. -/
theorem isEntry_page_entry {dir : Nat} {mem : Mem} {q : Nat} (hq : q < 1048576)
    (h : pd_table mem dir (q / 1024) ≠ 0) : IsEntry dir mem (page_entry mem dir q) :=
  ⟨q / 1024, q % 1024, by omega, by omega, h, rfl⟩

/-- A store to the entry of one page moves no entry and changes no other one. -/
theorem Tables.store_page {dir : Nat} {mem mem' : Mem} (tb : Tables dir mem) {q w : Nat}
    (hq : q < 1048576) (h : pd_table mem dir (q / 1024) ≠ 0) (hw : w < 4294967296)
    (hmem : mem' = write32 mem (page_entry mem dir q) w) :
    (∀ t, t < 1024 → pd_table mem' dir t = pd_table mem dir t)
      ∧ (∀ r, r < 1048576 → page_entry mem' dir r = page_entry mem dir r)
      ∧ ∀ r, r < 1048576 → pd_table mem dir (r / 1024) ≠ 0 →
        read32 mem' (page_entry mem' dir r) = if r = q then w else read32 mem (page_entry mem dir r) := by
  have htab : ∀ t, t < 1024 → pd_table mem' dir t = pd_table mem dir t := by
    rw [hmem]
    exact (tb.store_frame (isEntry_page_entry hq h) w).1
  have hpe : ∀ r, r < 1048576 → page_entry mem' dir r = page_entry mem dir r := fun r hr => by
    rw [page_entry, page_entry, htab _ (by omega)]
  refine ⟨htab, hpe, fun r hr hrt => ?_⟩
  rw [hpe r hr, hmem]
  by_cases hrq : r = q
  · rw [if_pos hrq, hrq, read32_write32 _ _ hw]
  · rw [if_neg hrq, read32_write32_ne _ _ (tb.entries_apart hr hq hrq hrt h)]

/-! ## §2. Tables made by the placement allocator. -/

/-- Where the placement allocator puts the next page table. -/
def next_table (m : Machine) : Nat := placement_start (M_ALIGNED ||| M_ZERO) m.placement_address

theorem next_table_eq (m : Machine) :
    next_table m = 0x1000 * (m.placement_address / 0x1000) + 0x1000 := by
  unfold next_table placement_start
  rw [if_pos (by decide)]

/-- The directory in the placement phase: tables are page aligned, between the directory and the bump
    pointer, and `pd_tblphys` is the table's own address with the low flag bits. -/
structure PlacedTables (dir : Nat) (m : Machine) : Prop where
  ready : m.heap_ready = false
  low : 0x1000 ≤ m.placement_address
  high : m.placement_address < 4294967296
  above : dir + 8196 ≤ m.placement_address
  table : ∀ t, t < 1024 → pd_table m.mem dir t ≠ 0 → pd_table m.mem dir t % 4096 = 0
    ∧ dir + 8196 ≤ pd_table m.mem dir t ∧ pd_table m.mem dir t + 4096 ≤ m.placement_address
  apart : ∀ t s, t < 1024 → s < 1024 → t ≠ s → pd_table m.mem dir t ≠ 0 → pd_table m.mem dir s ≠ 0 →
    pd_table m.mem dir t + 4096 ≤ pd_table m.mem dir s
      ∨ pd_table m.mem dir s + 4096 ≤ pd_table m.mem dir t
  phys : ∀ t, t < 1024 → pd_tblphys m.mem dir t
    = if pd_table m.mem dir t = 0 then 0 else pd_table m.mem dir t + 7

theorem PlacedTables.tables {dir : Nat} {m : Machine} (pt : PlacedTables dir m) :
    Tables dir m.mem :=
  ⟨fun t ht hne => .inr (pt.table t ht hne).2.1, pt.apart⟩

/-- The memory after the next table was made for directory slot `t`. -/
def table_made (m : Machine) (dir t : Nat) : Mem :=
  write32 (write32 (bzero m.mem (next_table m) 4096) (dir + 4 * t) (next_table m))
    (dir + 4096 + 4 * t) (next_table m + 7)

/-- **A creating call.**  Where the table is missing, `get_page` clears a fresh page-aligned table
    at the bump pointer and enters it in both arrays. -/
theorem get_page_create (alloc : AllocFn) {address dir : Nat} {m : Machine}
    (hready : m.heap_ready = false) (hlow : 0x1000 ≤ m.placement_address)
    (hhigh : m.placement_address < 4294967296) (hwrap : next_table m + 4096 < 4294967296)
    (hmiss : pd_table m.mem dir (address / 4096 / 1024) = 0) :
    get_page alloc address true dir m = .ok
      (next_table m + 4 * (address / 4096 % 1024),
        { m with placement_address := next_table m + 4096
                 mem := table_made m dir (address / 4096 / 1024) }) := by
  have hk := _kmalloc_placement alloc true hready hlow hhigh hwrap
  -- the flag bits of `pd_tblphys` are free in a page-aligned address
  have hor : next_table m ||| 0x7 = next_table m + 7 := by
    have h := Nat.two_pow_add_eq_or_of_lt (show 7 < 2 ^ 3 by decide) (next_table m / 8)
    have h8 : 2 ^ 3 * (next_table m / 8) = next_table m := by
      rw [next_table_eq]; omega
    rw [h8] at h
    exact h.symm
  have hmiss' : ¬ read32 m.mem (dir + 4 * (address / 0x1000 / 1024)) ≠ 0 := fun h => h hmiss
  unfold get_page
  simp only [if_neg hmiss', if_true, kmalloc0_ap, sizeof_page_table, hk, ok_bind, Option.getD_some]
  rw [if_pos (by decide)]
  unfold table_made
  rw [← hor]
  rfl

/-- A table the placement allocator adds to the directory keeps every fact about it. -/
theorem PlacedTables.create {dir : Nat} {m : Machine} (pt : PlacedTables dir m) (m' : Machine) (t : Nat)
    (ht : t < 1024) (hwrap : next_table m + 4096 < 4294967296)
    (hready : m'.heap_ready = false)
    (hplace : m'.placement_address = next_table m + 4096) (hmem : m'.mem = table_made m dir t) :
    PlacedTables dir m'
      ∧ pd_table m'.mem dir t = next_table m
      ∧ ∀ s, s < 1024 → s ≠ t → pd_table m'.mem dir s = pd_table m.mem dir s := by
  have habove := pt.above
  have hnext : m.placement_address ≤ next_table m := le_placement_start _ _
  have heq := next_table_eq m
  -- the words of the directory after the three stores
  have hsame : pd_table m'.mem dir t = next_table m := by
    rw [hmem, pd_table, table_made, read32_write32_ne _ _ (by omega), read32_write32 _ _ (by omega)]
  have hother : ∀ s, s < 1024 → s ≠ t → pd_table m'.mem dir s = pd_table m.mem dir s := by
    intro s hs hst
    rw [hmem, pd_table, table_made, read32_write32_ne _ _ (by omega), read32_write32_ne _ _ (by omega),
      (bzero_eqOutside m.mem (next_table m) 4096).read32 (by omega)]
    rfl
  have hpsame : pd_tblphys m'.mem dir t = next_table m + 7 := by
    rw [hmem, pd_tblphys, table_made, read32_write32 _ _ (by omega)]
  have hpother : ∀ s, s < 1024 → s ≠ t → pd_tblphys m'.mem dir s = pd_tblphys m.mem dir s := by
    intro s hs hst
    rw [hmem, pd_tblphys, table_made, read32_write32_ne _ _ (by omega),
      read32_write32_ne _ _ (by omega),
      (bzero_eqOutside m.mem (next_table m) 4096).read32 (by omega)]
    rfl
  refine ⟨⟨hready, by omega, by omega, by omega, fun s hs hne => ?_, fun s u hs hu hsu h1 h2 => ?_,
    fun s hs => ?_⟩, hsame, hother⟩
  · by_cases hst : s = t
    · subst hst; rw [hsame]; omega
    · rw [hother s hs hst] at hne ⊢
      have := pt.table s hs hne
      omega
  · by_cases hst : s = t
    · have hut : u ≠ t := fun h => hsu (hst.trans h.symm)
      rw [hst, hsame]
      rw [hother u hu hut] at h2 ⊢
      have := pt.table u hu h2
      omega
    · rw [hother s hs hst] at h1 ⊢
      by_cases hut : u = t
      · rw [hut, hsame]
        have := pt.table s hs h1
        omega
      · rw [hother u hu hut] at h2 ⊢
        exact pt.apart s u hs hu hsu h1 h2
  · by_cases hst : s = t
    · subst hst
      rw [hpsame, hsame, if_neg (by omega)]
    · rw [hpother s hs hst, hother s hs hst]
      exact pt.phys s hs

/-- A store through an entry keeps every fact about the directory. -/
theorem PlacedTables.store {dir : Nat} {m m' : Machine} (pt : PlacedTables dir m) {p : Nat}
    (hp : IsEntry dir m.mem p) {w : Nat} (hready : m'.heap_ready = false)
    (hplace : m'.placement_address = m.placement_address) (hmem : m'.mem = write32 m.mem p w) :
    PlacedTables dir m' := by
  obtain ⟨h1, h2⟩ := pt.tables.store_frame hp w
  rw [← hmem] at h1 h2
  refine ⟨hready, by rw [hplace]; exact pt.low, by rw [hplace]; exact pt.high,
    by rw [hplace]; exact pt.above, fun t ht hne => ?_, (pt.tables.congr h1).apart, fun t ht => ?_⟩
  · rw [h1 t ht] at hne ⊢
    rw [hplace]
    exact pt.table t ht hne
  · rw [h2 t ht, h1 t ht]
    exact pt.phys t ht

/-! ## §3. Runs of `get_page`. -/

/-- The call has to make a table. -/
def Creates (m : Machine) (dir address : Nat) (create : Bool) : Prop :=
  create = true ∧ pd_table m.mem dir (address / 4096 / 1024) = 0

/-- The machines reachable from `m₀` by `get_page` calls on `dir`, none of which wraps the bump
    pointer, and by stores through the pointers they returned (listed, newest first). -/
inductive PageRun (alloc : AllocFn) (dir : Nat) (m₀ : Machine) : List Nat → Machine → Prop where
  | start : PageRun alloc dir m₀ [] m₀
  | get {ptrs : List Nat} {m m' : Machine} {p : Nat} (address : Nat) (create : Bool) :
      PageRun alloc dir m₀ ptrs m → address < 4294967296 →
      (Creates m dir address create → next_table m + 4096 < 4294967296) →
      get_page alloc address create dir m = .ok (p, m') → PageRun alloc dir m₀ (p :: ptrs) m'
  | store {ptrs : List Nat} {m : Machine} {p : Nat} (w : Nat) :
      PageRun alloc dir m₀ ptrs m → p ∈ ptrs → p ≠ 0 →
      PageRun alloc dir m₀ ptrs { m with mem := write32 m.mem p w }

/-- The directory a run starts from: zeroed, page aligned, below the bump pointer. -/
structure ZeroedDirectory (dir : Nat) (m : Machine) : Prop where
  ready : m.heap_ready = false
  low : 0x1000 ≤ m.placement_address
  high : m.placement_address < 4294967296
  aligned : dir % 0x1000 = 0
  above : dir + sizeof_page_directory ≤ m.placement_address
  zero : ∀ x, dir ≤ x → x < dir + sizeof_page_directory → m.mem x = 0

theorem ZeroedDirectory.word {dir : Nat} {m : Machine} (z : ZeroedDirectory dir m) {a : Nat}
    (h1 : dir ≤ a) (h2 : a + 4 ≤ dir + sizeof_page_directory) : read32 m.mem a = 0 := by
  unfold read32
  rw [z.zero a h1 (by omega), z.zero (a + 1) (by omega) (by omega), z.zero (a + 2) (by omega) (by omega),
    z.zero (a + 3) (by omega) (by omega)]
  rfl

theorem ZeroedDirectory.placed {dir : Nat} {m : Machine} (z : ZeroedDirectory dir m) :
    PlacedTables dir m ∧ ∀ t, t < 1024 → pd_table m.mem dir t = 0 := by
  have h0 : ∀ t, t < 1024 → pd_table m.mem dir t = 0 := fun t ht =>
    z.word (by omega) (by unfold sizeof_page_directory; omega)
  have hp0 : ∀ t, t < 1024 → pd_tblphys m.mem dir t = 0 := fun t ht =>
    z.word (by omega) (by unfold sizeof_page_directory; omega)
  refine ⟨⟨z.ready, z.low, z.high, z.above, fun t ht hne => absurd (h0 t ht) hne,
    fun t s ht hs hts h1 h2 => absurd (h0 t ht) h1, fun t ht => ?_⟩, h0⟩
  rw [hp0 t ht, h0 t ht, if_pos rfl]

/-- What one `get_page` call does to a well-formed directory: it returns the entry of the address
    (or NULL), every table it had stays where it is, and so does every word of these tables. -/
theorem PlacedTables.get_page_spec {alloc : AllocFn} {dir address p : Nat} {create : Bool}
    {m m' : Machine} (pt : PlacedTables dir m) (haddr : address < 4294967296)
    (hwrap : Creates m dir address create → next_table m + 4096 < 4294967296)
    (h : get_page alloc address create dir m = .ok (p, m')) :
    PlacedTables dir m'
      ∧ (p ≠ 0 → IsEntry dir m'.mem p)
      ∧ (∀ t, t < 1024 → pd_table m.mem dir t ≠ 0 → pd_table m'.mem dir t = pd_table m.mem dir t)
      ∧ ∀ e, IsEntry dir m.mem e → read32 m'.mem e = read32 m.mem e := by
  by_cases hmiss : pd_table m.mem dir (address / 4096 / 1024) = 0
  · cases create with
    | false =>
        rw [get_page_lookup] at h
        simp only [Except.ok.injEq, Prod.mk.injEq] at h
        obtain ⟨rfl, rfl⟩ := h
        refine ⟨pt, fun hp => ?_, fun _ _ _ => rfl, fun _ _ => rfl⟩
        exact absurd hmiss (lookup_page_ne_zero.mp hp)
    | true =>
        have hw := hwrap ⟨rfl, hmiss⟩
        rw [get_page_create alloc pt.ready pt.low pt.high hw hmiss] at h
        simp only [Except.ok.injEq, Prod.mk.injEq] at h
        obtain ⟨rfl, hm'⟩ := h
        obtain ⟨h1, h2, h3⟩ := pt.create m' (address / 4096 / 1024) (by omega) hw
          (by rw [← hm']; exact pt.ready) (by rw [← hm']) (by rw [← hm'])
        refine ⟨h1, fun _ => ⟨address / 4096 / 1024, address / 4096 % 1024, by omega, by omega, ?_, ?_⟩,
          fun t ht hne => ?_, fun e he => ?_⟩
        · rw [h2, next_table_eq]; omega
        · rw [h2]
        · refine h3 t ht fun hts => hne ?_
          rw [hts]; exact hmiss
        · -- an entry of an old table is below the bump pointer and above the directory
          obtain ⟨s, j, hs, hj, hne, rfl⟩ := he
          have htab := pt.table s hs hne
          have hnext : m.placement_address ≤ next_table m := le_placement_start _ _
          rw [← hm']
          show read32 (table_made m dir _) _ = _
          rw [table_made, read32_write32_ne _ _ (by omega), read32_write32_ne _ _ (by omega),
            (bzero_eqOutside m.mem (next_table m) 4096).read32 (by omega)]
  · have hread : get_page alloc address create dir m = .ok (lookup_page m.mem address dir, m) := by
      unfold get_page
      rw [if_pos (show read32 m.mem (dir + 4 * (address / 0x1000 / 1024)) ≠ 0 from hmiss)]
    rw [hread] at h
    simp only [Except.ok.injEq, Prod.mk.injEq] at h
    obtain ⟨rfl, rfl⟩ := h
    refine ⟨pt, fun _ => ?_, fun _ _ _ => rfl, fun _ _ => rfl⟩
    rw [lookup_page_eq, if_pos hmiss]
    exact isEntry_page_entry (by omega) hmiss

theorem PageRun.inv {alloc : AllocFn} {dir : Nat} {m₀ m : Machine} {ptrs : List Nat}
    (z : ZeroedDirectory dir m₀) (run : PageRun alloc dir m₀ ptrs m) :
    PlacedTables dir m ∧ ∀ p ∈ ptrs, p ≠ 0 → IsEntry dir m.mem p := by
  induction run with
  | start => exact ⟨z.placed.1, by simp⟩
  | get address create _ haddr hwrap h ih =>
      obtain ⟨pt, hptrs⟩ := ih
      obtain ⟨h1, h2, h3, -⟩ := pt.get_page_spec haddr hwrap h
      refine ⟨h1, fun p hp hne => ?_⟩
      rcases List.mem_cons.mp hp with rfl | hp
      · exact h2 hne
      · exact (hptrs p hp hne).congr h3
  | store w _ hp hne ih =>
      obtain ⟨pt, hptrs⟩ := ih
      have hentry := hptrs _ hp hne
      refine ⟨pt.store hentry pt.ready rfl rfl, fun q hq hqne => ?_⟩
      exact (hptrs q hq hqne).congr fun t ht _ => (pt.tables.store_frame hentry w).1 t ht

/-- In a well-formed directory the MMU walk ends at the kernel's entry. -/
theorem PlacedTables.mmu_entry_eq {dir a : Nat} {m : Machine} (pt : PlacedTables dir m)
    (ha : a < 4294967296) :
    (lookup_page m.mem a dir ≠ 0 ↔ pd_tblphys m.mem dir (a >>> 22) % 2 = 1)
      ∧ (lookup_page m.mem a dir ≠ 0 → lookup_page m.mem a dir = mmu_entry m.mem dir a) := by
  have h22 : a >>> 22 = a / 4096 / 1024 := by rw [Nat.shiftRight_eq_div_pow]; omega
  have h12 : (a >>> 12) &&& 0x3FF = a / 4096 % 1024 := by
    rw [Nat.shiftRight_eq_div_pow]
    exact Nat.and_two_pow_sub_one_eq_mod _ 10
  have hphys := pt.phys (a / 4096 / 1024) (by omega)
  unfold mmu_entry
  rw [lookup_page_ne_zero, lookup_page_eq, h22, h12, hphys]
  by_cases hne : pd_table m.mem dir (a / 4096 / 1024) ≠ 0
  · have htab := pt.table _ (show a / 4096 / 1024 < 1024 by omega) hne
    have hhigh := pt.high
    rw [if_neg hne, if_pos hne, land_page (by omega)]
    refine ⟨⟨fun _ => by omega, fun _ => hne⟩, fun _ => ?_⟩
    unfold page_entry
    omega
  · rw [if_pos (not_not.mp hne)]
    exact ⟨⟨fun h => absurd h hne, fun h => absurd h (by decide)⟩, fun h => absurd h hne⟩

/-- **Both walks agree, over every run.**  For every 32-bit address the kernel finds an entry exactly
    when the MMU's directory word is present, and then it is the word the MMU uses; entries of
    different pages are words that do not overlap; and no further `get_page` call moves or changes an
    entry of a table that exists. -/
theorem page_walks_agree (alloc : AllocFn) {dir : Nat} {m₀ m : Machine} {ptrs : List Nat}
    (z : ZeroedDirectory dir m₀) (run : PageRun alloc dir m₀ ptrs m) :
    (∀ a, a < 4294967296 → ∃ p, get_page alloc a false dir m = .ok (p, m)
        ∧ (p ≠ 0 ↔ pd_tblphys m.mem dir (a >>> 22) % 2 = 1)
        ∧ (p ≠ 0 → p = mmu_entry m.mem dir a))
      ∧ (∀ a b, a < 4294967296 → b < 4294967296 → a / 0x1000 ≠ b / 0x1000 →
          ∀ p q, get_page alloc a false dir m = .ok (p, m) → get_page alloc b false dir m = .ok (q, m) →
          p ≠ 0 → q ≠ 0 → p + 4 ≤ q ∨ q + 4 ≤ p)
      ∧ ∀ address create p m', address < 4294967296 →
          (Creates m dir address create → next_table m + 4096 < 4294967296) →
          get_page alloc address create dir m = .ok (p, m') →
          ∀ a e, a < 4294967296 → get_page alloc a false dir m = .ok (e, m) → e ≠ 0 →
            get_page alloc a false dir m' = .ok (e, m') ∧ read32 m'.mem e = read32 m.mem e := by
  obtain ⟨pt, -⟩ := run.inv z
  refine ⟨fun a ha => ⟨_, get_page_lookup alloc a dir m, pt.mmu_entry_eq ha⟩, ?_, ?_⟩
  · intro a b ha hb hab p q hp hq hpne hqne
    rw [get_page_lookup] at hp hq
    simp only [Except.ok.injEq, Prod.mk.injEq, and_true] at hp hq
    subst hp hq
    have h1 := lookup_page_ne_zero.mp hpne
    have h2 := lookup_page_ne_zero.mp hqne
    rw [lookup_page_eq, if_pos h1, lookup_page_eq, if_pos h2]
    exact pt.tables.entries_apart (by omega) (by omega) hab h1 h2
  · intro address create p m' haddr hwrap h a e ha he hne
    obtain ⟨-, -, hkeep, hwords⟩ := pt.get_page_spec haddr hwrap h
    rw [get_page_lookup] at he
    simp only [Except.ok.injEq, Prod.mk.injEq, and_true] at he
    subst he
    have h1 := lookup_page_ne_zero.mp hne
    have hsame := hkeep (a / 4096 / 1024) (by omega) h1
    have hentry : lookup_page m.mem a dir = page_entry m.mem dir (a / 4096) := by
      rw [lookup_page_eq, if_pos h1]
    refine ⟨?_, hwords _ ?_⟩
    · rw [get_page_lookup, hentry, lookup_page_eq, if_pos (by rw [hsame]; exact h1)]
      unfold page_entry
      rw [hsame]
    · rw [hentry]
      exact isEntry_page_entry (by omega) h1

/-- A directory at 1 MB, one table made for the heap, and a store through the entry returned. -/
theorem page_walks_agree_one_table :
    ∃ m, PageRun (fun _ _ _ => .error .fuel) 0x100000 (Machine.bare 0x103000) [0x104000] m
      ∧ ∃ p, get_page (fun _ _ _ => .error .fuel) 0xC0000000 false 0x100000 m = .ok (p, m)
        ∧ (p ≠ 0 ↔ pd_tblphys m.mem 0x100000 (0xC0000000 >>> 22) % 2 = 1)
        ∧ (p ≠ 0 → p = mmu_entry m.mem 0x100000 0xC0000000) := by
  have z : ZeroedDirectory 0x100000 (Machine.bare 0x103000) :=
    ⟨rfl, by decide, by decide, by decide, by decide, fun _ _ _ => rfl⟩
  have run : PageRun (fun _ _ _ => .error .fuel) 0x100000 (Machine.bare 0x103000) [0x104000] _ :=
    .store 0x00105003 (.get 0xC0000000 true .start (by decide) (fun _ => by decide)
      (get_page_create _ rfl (by decide) (by decide) (by decide) (by decide)))
      (List.mem_singleton_self 0x104000) (by decide)
  exact ⟨_, run, (page_walks_agree _ z run).1 0xC0000000 (by decide)⟩

end JamesM
