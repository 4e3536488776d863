/-
  JamesM.Boot.Bitset — where the frame bitset lies among the other boot structures.

  `init_paging` asks for `INDEX_FROM_BIT(nframes)` BYTES for the bitset, and the
  routines of the bitset index as many 32-bit WORDS.  So three quarters of the words
  lie behind the region that was allocated and cleared for them.  What is there is
  the gap up to the page directory, which starts on the next page boundary, or the
  directory itself.

  `Machine` keeps the words beside its memory.  `OwnBitset` is when that is no
  difference: there are zeros behind the region, and enough of them in front of the
  directory.  `with_bitset` is the memory of the kernel then.

  Main result: `bitset_outgrows_its_region`.
-/
import JamesM.Boot.Frame

namespace JamesM

open JamesM.ByteMem JamesM.Word32

/-! ## §1. What the bitset needs. -/

/-- The bytes of the words `frames[0]` to `frames[INDEX_FROM_BIT(nframes) - 1]`; `frames_stored` and
    `frames_read` say that no other word is touched. -/
def bitset_bytes (nframes : Nat) : Nat := 4 * INDEX_FROM_BIT nframes

/-- `n` bytes at `a` and `k` bytes at `b` have no byte in common. -/
def Apart (a n b k : Nat) : Prop := a + n ≤ b ∨ b + k ≤ a

/-- The words lie inside the region that `kmalloc0` returned, of `INDEX_FROM_BIT(nframes)` bytes. -/
def BitsetInside (pl : BootPlaces) (nframes : Nat) : Prop :=
  ∀ i, i < INDEX_FROM_BIT nframes →
    pl.frames ≤ pl.frames + 4 * i ∧ pl.frames + 4 * i + 4 ≤ pl.frames + INDEX_FROM_BIT nframes

/-- They start out zero. -/
def BitsetZero (pl : BootPlaces) (nframes : Nat) : Prop :=
  ∀ x, pl.frames ≤ x → x < pl.frames + bitset_bytes nframes → pl.bits x = 0

/-- They share no byte with the directory, a page table or the heap descriptor. -/
structure BitsetApart (pl : BootPlaces) (m : Machine) : Prop where
  directory : Apart pl.frames (bitset_bytes m.nframes) pl.directory sizeof_page_directory
  tables : ∀ t, t < 1024 → pd_table m.mem pl.directory t ≠ 0 →
    Apart pl.frames (bitset_bytes m.nframes) (pd_table m.mem pl.directory t) sizeof_page_table
  heap : Apart pl.frames (bitset_bytes m.nframes) pl.heap sizeof_heap

/-- All of it. -/
structure BitsetOwn (pl : BootPlaces) (m : Machine) : Prop where
  inside : BitsetInside pl m.nframes
  zero : BitsetZero pl m.nframes
  apart : BitsetApart pl m

/-! ## §2. Where it is put. -/

/-- While there is no heap, an allocation returns. -/
theorem _kmalloc_returns (alloc : AllocFn) (len : Nat) (phys : Bool) (flags : Nat) {m : Machine}
    (hready : m.heap_ready = false) :
    ∃ addr ph m', _kmalloc alloc len phys flags m = .ok (addr, ph, m') ∧ m'.heap_ready = false
      ∧ m'.nframes = m.nframes := by
  unfold _kmalloc
  rw [if_pos hready, ok_bind]
  dsimp only
  by_cases hzero : flags &&& M_ZERO ≠ 0
  · rw [if_pos hzero]
    exact ⟨_, _, _, rfl, hready, rfl⟩
  · rw [if_neg hzero]
    exact ⟨_, _, _, rfl, hready, rfl⟩

theorem get_page_returns (alloc : AllocFn) (a : Nat) (create : Bool) (dir : Nat) {m : Machine}
    (hready : m.heap_ready = false) :
    ∃ p m', get_page alloc a create dir m = .ok (p, m') ∧ m'.heap_ready = false ∧ m'.nframes = m.nframes := by
  unfold get_page
  dsimp only
  by_cases ht : read32 m.mem (dir + 4 * (a / 0x1000 / 1024)) ≠ 0
  · rw [if_pos ht]
    exact ⟨_, m, rfl, hready, rfl⟩
  · rw [if_neg ht]
    by_cases hc : create = true
    · obtain ⟨table, tmp, m', h, hready', hn⟩ :=
        _kmalloc_returns alloc sizeof_page_table true (M_ALIGNED ||| M_ZERO) hready
      have h : kmalloc0_ap alloc sizeof_page_table m = .ok (table, tmp, m') := h
      rw [if_pos hc, h, ok_bind]
      exact ⟨_, _, rfl, hready', hn⟩
    · rw [if_neg hc]
      exact ⟨_, m, rfl, hready, rfl⟩

theorem make_heap_tables_returns (alloc : AllocFn) : ∀ (n i : Nat) {m : Machine}, m.heap_ready = false →
    ∃ m', make_heap_tables alloc n i m = .ok m' ∧ m'.heap_ready = false ∧ m'.nframes = m.nframes := by
  intro n
  induction n with
  | zero =>
      intro i m hready
      exact ⟨m, rfl, hready, rfl⟩
  | succ n ih =>
      intro i m hready
      obtain ⟨p, m₁, hget, hready₁, hn₁⟩ := get_page_returns alloc i true m.kernel_directory hready
      obtain ⟨m₂, hrest, hready₂, hn₂⟩ := ih (add32 i 0x1000) hready₁
      refine ⟨m₂, ?_, hready₂, hn₂.trans hn₁⟩
      rw [make_heap_tables, hget, ok_bind]
      exact hrest

/-- The setup returns from every state without a heap, whether or not the bump pointer wraps. -/
theorem init_paging_places_returns (alloc : AllocFn) {m : Machine} (hready : m.heap_ready = false) :
    ∃ pl m', init_paging_places alloc m = .ok (pl, m') ∧ m'.nframes = 4096 := by
  obtain ⟨frames, _, m₁, h1, hready₁, -⟩ :=
    _kmalloc_returns alloc (INDEX_FROM_BIT (0x1000000 / 0x1000)) false M_ZERO hready
  generalize hm₂ : ({ m₁ with nframes := 0x1000000 / 0x1000, frames := fun _ => 0#32 } : Machine) = m₂
  have hready₂ : m₂.heap_ready = false := by rw [← hm₂]; exact hready₁
  have hn₂ : m₂.nframes = 4096 := by rw [← hm₂]
  obtain ⟨dir, _, m₃, h3, hready₃, hn₃⟩ :=
    _kmalloc_returns alloc sizeof_page_directory false (M_ALIGNED ||| M_ZERO) hready₂
  obtain ⟨m₄, h4, hready₄, hn₄⟩ := make_heap_tables_returns alloc heap_initial_pages VM_KERN_HEAP_START
    (m := { m₃ with kernel_directory := dir }) hready₃
  obtain ⟨heap, _, m₅, h5, -, hn₅⟩ := _kmalloc_returns alloc sizeof_heap false M_ZERO hready₄
  have h1 : kmalloc0 alloc (INDEX_FROM_BIT (0x1000000 / 0x1000)) m = _ := h1
  have h3 : kmalloc0_a alloc sizeof_page_directory m₂ = _ := h3
  have h5 : kmalloc0 alloc sizeof_heap m₄ = _ := h5
  refine ⟨⟨frames, m₁.mem, dir, heap⟩, m₅, ?_, by rw [hn₅, hn₄, ← hn₂]; exact hn₃⟩
  simp only [init_paging_places, h1, ok_bind, hm₂, h3, h4, h5]

/-- The last word is behind the region, wherever that is. -/
theorem bitset_not_inside (pl : BootPlaces) {nframes : Nat} (hn : nframes = 4096) : ¬ BitsetInside pl nframes := by
  have hidx : INDEX_FROM_BIT nframes = 128 := by rw [hn]; decide
  intro hin
  have := (hin 127 (by omega)).2
  omega

theorem bitset_bytes_eq {nframes : Nat} (hn : nframes = 4096) : bitset_bytes nframes = 512 := by
  rw [hn]
  decide

/-- The region is cleared, what is behind it is not. -/
theorem bitset_zero_iff {pl : BootPlaces} {mem : Mem} {nframes : Nat} (hn : nframes = 4096)
    (hbits : pl.bits = bzero mem pl.frames 128) :
    BitsetZero pl nframes ↔ ∀ x, pl.frames + 128 ≤ x → x < pl.frames + 512 → mem x = 0 := by
  unfold BitsetZero
  rw [bitset_bytes_eq hn, hbits]
  constructor
  · intro hz x h1 h2
    rw [← hz x (by omega) (by omega), bzero_eqOutside mem pl.frames 128 x (by omega)]
  · intro hz x h1 h2
    by_cases hx : x < pl.frames + 128
    · exact bzero_in ⟨h1, hx⟩
    · rw [bzero_eqOutside mem pl.frames 128 x (by omega)]
      exact hz x (by omega) (by omega)

/-- The structures start with the directory, on the page behind the region. -/
theorem Booted.bitset_apart_iff {dir K : Nat} {m : Machine} {pl : BootPlaces} (bt : Booted dir K m)
    (hd : pl.directory = dir) (hdir : dir = directory_place pl.frames) (hheap : dir + 8196 ≤ pl.heap) :
    BitsetApart pl m ↔ (pl.frames + 128) % 0x1000 ≤ 0xE80 := by
  have hsize := bitset_bytes_eq bt.nframes
  unfold directory_place at hdir
  constructor
  · intro hapart
    have := hapart.directory
    unfold Apart sizeof_page_directory at this
    omega
  · intro hroom
    -- everything else is above the directory
    refine ⟨?_, fun t ht hne => ?_, ?_⟩
    · left
      omega
    · left
      rw [hd] at hne ⊢
      have := bt.table t ht hne
      omega
    · left
      omega

/-! ## §3. What it gets. -/

/-- **The bitset.**  However `init_paging` is entered, whether it returns, panics or wraps around, the words
    of the bitset do not lie inside their region.  When it returns, they started out zero only if the 384 bytes
    behind the region were zero before; and they keep clear of the other structures exactly when the region ends
    at most `0xE80` bytes into its page. -/
theorem bitset_outgrows_its_region {m₀ : Machine} (hready : m₀.heap_ready = false)
    (hlow : 0x1000 ≤ m₀.placement_address) :
    ∃ pl m₁, init_paging_places (alloc 0) m₀ = .ok (pl, m₁) ∧ ¬ BitsetOwn pl m₁ ∧ ¬ BitsetInside pl m₁.nframes
      ∧ ∀ rounds m, BootNoWrap rounds m₀ → init_paging rounds m₀ = .ok m →
        pl.frames = m₀.placement_address ∧ pl.directory = m.kernel_directory
          ∧ ¬ BitsetOwn pl m ∧ ¬ BitsetInside pl m.nframes
          ∧ (BitsetZero pl m.nframes
            ↔ ∀ x, m₀.placement_address + 128 ≤ x → x < m₀.placement_address + 512 → m₀.mem x = 0)
          ∧ (BitsetApart pl m ↔ (m₀.placement_address + 128) % 0x1000 ≤ 0xE80) := by
  obtain ⟨pl, m₁, hplaces, hn₁⟩ := init_paging_places_returns (alloc 0) hready
  refine ⟨pl, m₁, hplaces, fun own => bitset_not_inside pl hn₁ own.inside, bitset_not_inside pl hn₁,
    fun rounds m hwrap h => ?_⟩
  obtain ⟨pl', m₁', hplaces', hf, hbits, hd, hdir, hheap, -⟩ :=
    init_paging_places_spec (alloc 0) hready hlow hwrap.setup
  obtain ⟨rfl, rfl⟩ := Prod.mk.inj (Except.ok.inj (hplaces.symm.trans hplaces'))
  obtain ⟨m₂, K, hsetup, bt⟩ := init_paging_booted hready hlow hwrap h
  obtain rfl : m₂ = m₁ := Except.ok.inj (hsetup.symm.trans (init_paging_setup_of_places hplaces))
  have hinside := bitset_not_inside pl bt.nframes
  refine ⟨hf, hd.trans bt.directory.symm, fun own => hinside own.inside, hinside, ?_, ?_⟩
  · have hcleared : pl.bits = bzero m₀.mem pl.frames 128 := by rw [hbits, hf]
    have hzero := bitset_zero_iff bt.nframes hcleared
    rwa [hf] at hzero
  · have hapart := bt.bitset_apart_iff hd (by rw [hdir, hf, directory_place]) hheap
    rwa [hf] at hapart

/-- The boot with the kernel and the ramdisk ending at 1 MB. -/
theorem bitset_outgrows_its_region_at_1M :
    ∃ m pl m₁, init_paging 1024 (Machine.bare 0x100000) = .ok m
      ∧ init_paging_places (alloc 0) (Machine.bare 0x100000) = .ok (pl, m₁)
      ∧ ¬ BitsetOwn pl m ∧ BitsetApart pl m := by
  obtain ⟨m, h, hwrap, -⟩ := init_paging_returns (Machine.bare 0x100000) rfl (by decide) (by decide)
  obtain ⟨pl, m₁, hplaces, -, -, hboot⟩ :=
    bitset_outgrows_its_region (show (Machine.bare 0x100000).heap_ready = false from rfl) (by decide)
  obtain ⟨-, -, hown, -, -, hapart⟩ := hboot 1024 m hwrap h
  exact ⟨m, pl, m₁, h, hplaces, hown, hapart.mpr (by decide)⟩

/-- **Into the directory.**  The kernel and the ramdisk end at `0x100F00`: the region of the bitset is
    `0x100F00` to `0x100F80`, its words go on to `0x101100`, and the page directory starts at
    `0x101000`. -/
theorem bitset_overlaps_the_directory :
    ∃ m pl m₁, init_paging 1024 (Machine.bare 0x100F00) = .ok m
      ∧ init_paging_places (alloc 0) (Machine.bare 0x100F00) = .ok (pl, m₁)
      ∧ pl.frames = 0x100F00 ∧ pl.directory = 0x101000 ∧ bitset_bytes m.nframes = 512
      ∧ ¬ BitsetInside pl m.nframes ∧ ¬ BitsetApart pl m ∧ ¬ BitsetOwn pl m := by
  obtain ⟨m, h, hwrap, -⟩ := init_paging_returns (Machine.bare 0x100F00) rfl (by decide) (by decide)
  obtain ⟨pl, m₁, hplaces, hf, -, hd, hdir, -⟩ :=
    init_paging_places_spec (alloc 0) (m := Machine.bare 0x100F00) rfl (by decide) hwrap.setup
  obtain ⟨_, _, -, bt⟩ := init_paging_booted (show (Machine.bare 0x100F00).heap_ready = false from rfl)
    (by decide) hwrap h
  have hframes : pl.frames = 0x100F00 := hf
  have hdirectory : pl.directory = 0x101000 := hd.trans hdir
  have hsize := bitset_bytes_eq bt.nframes
  have hinside := bitset_not_inside pl bt.nframes
  refine ⟨m, pl, m₁, h, hplaces, hframes, hdirectory, hsize, hinside, fun hapart => ?_,
    fun own => hinside own.inside⟩
  have := hapart.directory
  unfold Apart sizeof_page_directory at this
  omega

/-! ## §4. Storage of its own. -/

/-- What makes the words storage of their own: the 384 bytes behind the region are zero, and in front of the
    directory. -/
structure OwnBitset (m₀ : Machine) : Prop where
  zero : ∀ x, m₀.placement_address + 128 ≤ x → x < m₀.placement_address + 512 → m₀.mem x = 0
  apart : (m₀.placement_address + 128) % 0x1000 ≤ 0xE80

/-- The memory of a machine, with the words of its bitset at `frames`. -/
def with_bitset (frames : Nat) (m : Machine) : Mem := fun x =>
  if frames ≤ x ∧ x < frames + bitset_bytes m.nframes then
    UInt8.ofNat ((m.frames ((x - frames) / 4)).toNat / 256 ^ ((x - frames) % 4))
  else m.mem x

theorem with_bitset_eqOutside (frames : Nat) (m : Machine) :
    EqOutside frames (frames + bitset_bytes m.nframes) m.mem (with_bitset frames m) :=
  fun _ hx => if_neg (by omega)

/-- The words are there. -/
theorem read32_with_bitset (frames : Nat) (m : Machine) {i : Nat} (hi : i < INDEX_FROM_BIT m.nframes) :
    read32 (with_bitset frames m) (frames + 4 * i) = (m.frames i).toNat := by
  have hbyte : ∀ j, j < 4 → with_bitset frames m (frames + 4 * i + j)
      = UInt8.ofNat ((m.frames i).toNat / 256 ^ j) := fun j hj => by
    have hword : (frames + 4 * i + j - frames) / 4 = i := by omega
    have hplace : (frames + 4 * i + j - frames) % 4 = j := by omega
    unfold with_bitset bitset_bytes
    rw [if_pos (by omega), hword, hplace]
  have h0 := hbyte 0 (by decide)
  rw [Nat.add_zero] at h0
  unfold read32
  rw [h0, hbyte 1 (by decide), hbyte 2 (by decide), hbyte 3 (by decide)]
  simp only [UInt8.toNat_ofNat']
  omega

/-- When the setup is done, the words that memory holds are those of the bitset. -/
theorem OwnBitset.setup {m₀ : Machine} (own : OwnBitset m₀) (hready : m₀.heap_ready = false)
    (hlow : 0x1000 ≤ m₀.placement_address) (hwrap : setup_end m₀.placement_address < 4294967296) :
    ∃ m₁, init_paging_setup (alloc 0) m₀ = .ok m₁ ∧ with_bitset m₀.placement_address m₁ = m₁.mem := by
  obtain ⟨m₁, hsetup, mp, -⟩ := init_paging_setup_spec (alloc 0) hready hlow hwrap
  obtain ⟨-, hmem⟩ := init_paging_setup_frame hready hlow hwrap hsetup
  refine ⟨m₁, hsetup, funext fun x => ?_⟩
  by_cases hx : m₀.placement_address ≤ x ∧ x < m₀.placement_address + 512
  · have hword : m₁.frames ((x - m₀.placement_address) / 4) = 0#32 := BitVec.eq_of_getLsbD_eq fun j hj => by
      have hbit := mp.frames (32 * ((x - m₀.placement_address) / 4) + j)
      unfold frameSet at hbit
      rw [show (32 * ((x - m₀.placement_address) / 4) + j) / 32 = (x - m₀.placement_address) / 4 by omega,
        show (32 * ((x - m₀.placement_address) / 4) + j) % 32 = j by omega] at hbit
      simpa using hbit
    have hapart := own.apart
    have hclear : bzero m₀.mem m₀.placement_address 128 x = 0 := by
      by_cases hr : x < m₀.placement_address + 128
      · exact bzero_in ⟨hx.1, hr⟩
      · rw [bzero_eqOutside m₀.mem m₀.placement_address 128 x (by omega)]
        exact own.zero x (by omega) hx.2
    rw [hmem x (by unfold directory_place; omega), hclear]
    unfold with_bitset
    rw [bitset_bytes_eq mp.nframes, if_pos hx, hword]
    simp
  · exact with_bitset_eqOutside _ _ x (by rw [bitset_bytes_eq mp.nframes]; omega)

end JamesM
