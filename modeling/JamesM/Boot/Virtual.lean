/-
  JamesM.Boot.Virtual — the memory behind the page tables of `init_paging`.

  From `switch_page_directory` on, every address of the kernel goes through the
  tables, while the rest of this development speaks of one flat memory.  The
  tables map no two addresses to one byte, so both are the same thing: what the
  processor loads and stores through them is what a flat memory would hold.

  The flat memory is the one with the words of the frame bitset in it, where
  `init_paging` put them.  It is the memory of the model only if they are storage of
  their own (`OwnBitset`): in front of other bytes, the bitset and the directory would
  overwrite each other.

  The pages are mapped without the writeable bit (`alloc_frame(.., 0, 0)`): programs
  in user mode may read all of them and write none, and the kernel itself writes only
  because `CR0.WP` is clear.

  Main result: `paged_memory_is_flat`.
-/
import JamesM.Lib.Mmu
import JamesM.Boot.Bitset

namespace JamesM

open JamesM.ByteMem JamesM.Word32

/-! ## §1. The source. -/

/-- `current_directory`, and the control registers. -/
structure Paging where
  current_directory : Nat
  cr3 : Nat
  cr0 : Nat

/-- `switch_page_directory(dir)`.  `CR3` gets the address of `dir->pd_tblphys`. -/
def switch_page_directory (dir : Nat) (c : Paging) : Paging :=
  { current_directory := dir, cr3 := dir + 4096, cr0 := c.cr0 ||| 0x80000000 }

/-- The mode of an access. -/
def Paging.mode (c : Paging) (user : Bool) : Mmu.Mode := { user := user, wp := c.cr0.testBit 16 }

/-- The byte that the kernel takes address `a` to be: the walk of `get_page`, and the frame of the entry. -/
def kernelView (m : Machine) (a : Nat) : Option Nat :=
  let p := lookup_page m.mem a m.kernel_directory
  if p ≠ 0 ∧ (read_page m.mem p).p_present = 1 then
    some (0x1000 * (read_page m.mem p).p_frame + a % 0x1000)
  else none

/-- A byte that the walk of the processor reads: of `pd_tblphys`, or of a table. -/
def TableByte (m : Machine) (x : Nat) : Prop :=
  m.kernel_directory + 4096 ≤ x ∧ x < m.kernel_directory + 8192
    ∨ ∃ t, t < 1024 ∧ pd_table m.mem m.kernel_directory t ≠ 0
      ∧ pd_table m.mem m.kernel_directory t ≤ x ∧ x < pd_table m.mem m.kernel_directory t + 4096

/-! ## §2. The two walks. -/

/-- Where a page map sends an address. -/
def pageMap (f : Nat → Option Nat) (a : Nat) : Option Nat := (f (a / 4096)).map fun n => 4096 * n + a % 4096

/-- The walk of the kernel. -/
theorem Mapped.kernelView {dir k : Nat} {f : Nat → Option Nat} {m : Machine} (mp : Mapped dir f k m)
    (hf : ∀ q n, f q = some n → n < 1048576) {a : Nat} (ha : a < 4294967296) :
    JamesM.kernelView m a = pageMap f a := by
  unfold JamesM.kernelView pageMap
  dsimp only
  rw [mp.directory, lookup_page_eq]
  by_cases ht : pd_table m.mem dir (a / 4096 / 1024) ≠ 0
  · rw [if_pos ht]
    have hne : page_entry m.mem dir (a / 4096) ≠ 0 := by
      unfold page_entry
      omega
    have hentry := mp.entry (a / 4096) (by omega) ht
    cases hfa : f (a / 4096) with
    | none =>
        rw [hfa] at hentry
        rw [if_neg (by rw [read_page, hentry]; exact fun h => absurd h.2 (by decide))]
        rfl
    | some n =>
        have hn := hf _ _ hfa
        rw [hfa] at hentry
        have hpresent : (read_page m.mem (page_entry m.mem dir (a / 4096))).p_present = 1 := by
          rw [read_page, hentry]
          show (5 + 4096 * n) % 2 = 1
          omega
        have hframe : (read_page m.mem (page_entry m.mem dir (a / 4096))).p_frame = n := by
          rw [read_page, hentry]
          show (5 + 4096 * n) / 4096 % 1048576 = n
          omega
        rw [if_pos ⟨hne, hpresent⟩, hframe]
        rfl
  · rw [if_neg ht, if_neg (fun h => h.1 rfl)]
    cases hfa : f (a / 4096) with
    | none => rfl
    | some n => exact absurd (mp.table (a / 4096) (by rw [hfa]; simp)).2 ht

/-- The walk of the processor, on any memory with the same tables. -/
theorem Mapped.translate {dir k : Nat} {f : Nat → Option Nat} {m : Machine} (mp : Mapped dir f k m)
    (hf : ∀ q n, f q = some n → n < 1048576) (hdir : dir % 4096 = 0) {mem : Mem}
    (hmem : ∀ x, TableByte m x → mem x = m.mem x) (mode : Mmu.Mode) (write : Bool) {a : Nat} (ha : a < 4294967296) :
    Mmu.translate mode write mem (dir + 4096) a
      = if write && !mode.writesAnywhere then none else pageMap f a := by
  have hslot : a / 4194304 = a / 4096 / 1024 := by omega
  have hphys := mp.placed.phys (a / 4096 / 1024) (by omega)
  have hpde : Mmu.pde mem (dir + 4096) a = pd_tblphys m.mem dir (a / 4096 / 1024) := by
    unfold Mmu.pde pd_tblphys
    rw [hslot, show 4096 * ((dir + 4096) / 4096) = dir + 4096 by omega]
    exact read32_congr fun x h1 h2 => hmem x (.inl (by rw [mp.directory]; omega))
  unfold Mmu.translate Mmu.pte
  rw [hpde, hphys]
  by_cases ht : pd_table m.mem dir (a / 4096 / 1024) ≠ 0
  · obtain ⟨halign, -, hhigh⟩ := mp.placed.table _ (show a / 4096 / 1024 < 1024 by omega) ht
    have hentry := mp.entry (a / 4096) (by omega) ht
    have hplace := mp.placed.high
    rw [if_neg ht]
    generalize hT : pd_table m.mem dir (a / 4096 / 1024) = T at *
    have hbase : 4096 * ((T + 7) / 4096) = T := by omega
    have hpermit : Mmu.permits mode write (T + 7) = true := by
      have h1 : (T + 7) % 2 = 1 := by omega
      have h2 : (T + 7) / 2 % 2 = 1 := by omega
      have h4 : (T + 7) / 4 % 2 = 1 := by omega
      unfold Mmu.permits
      rw [h1, h2, h4]
      simp
    have hword : read32 mem (T + 4 * (a / 4096 % 1024)) = entryWord (f (a / 4096)) := by
      rw [← hentry, page_entry, hT]
      refine read32_congr fun x h1 h2 => hmem x (.inr ⟨a / 4096 / 1024, by omega, ?_⟩)
      rw [mp.directory, hT]
      exact ⟨ht, by omega, by omega⟩
    rw [hbase, hpermit, hword, Bool.true_and]
    unfold pageMap
    cases hfa : f (a / 4096) with
    | none =>
        rw [if_neg (show ¬ Mmu.permits mode write (entryWord none) = true by
          unfold Mmu.permits entryWord; simp)]
        exact (ite_self none).symm
    | some n =>
        have hn := hf _ _ hfa
        have h1 : (5 + 4096 * n) % 2 = 1 := by omega
        have h2 : (5 + 4096 * n) / 2 % 2 = 0 := by omega
        have h4 : (5 + 4096 * n) / 4 % 2 = 1 := by omega
        have h12 : (5 + 4096 * n) / 4096 = n := by omega
        have hbits : Mmu.permits mode write (entryWord (some n)) = (!write || mode.writesAnywhere) := by
          unfold Mmu.permits entryWord
          dsimp only
          rw [h1, h2, h4]
          simp
        rw [hbits]
        unfold entryWord
        dsimp only
        rw [h12]
        cases write <;> cases mode.writesAnywhere <;> rfl
  · have hnone : f (a / 4096) = none := by
      by_contra hne
      exact ht (mp.table _ hne).2
    rw [if_pos (not_not.mp ht)]
    have hpermit : Mmu.permits mode write 0 = false := by
      unfold Mmu.permits
      simp
    rw [hpermit, Bool.false_and, if_neg Bool.false_ne_true, pageMap, hnone]
    exact (ite_self none).symm

/-! ## §3. One memory. -/

theorem bootPages_some {K q n : Nat} (h : bootPages K 256 q = some n) :
    q < K ∧ n = q ∨ 0xC0000 ≤ q ∧ q < 0xC0100 ∧ n = K + (q - 0xC0000) := by
  unfold bootPages at h
  split at h
  · exact .inl ⟨by assumption, (Option.some.inj h).symm⟩
  · split at h
    · exact .inr ⟨by omega, by omega, (Option.some.inj h).symm⟩
    · exact nomatch h

/-- Every frame is a frame of memory. -/
theorem bootPages_lt {K : Nat} (hroom : K + 256 ≤ 4096) : ∀ q n, bootPages K 256 q = some n → n < 1048576 :=
  fun q n hn => by
    rcases bootPages_some hn with ⟨h1, h2⟩ | ⟨h1, h2, h3⟩ <;> omega

theorem pageMap_some {K a p : Nat} (h : pageMap (bootPages K 256) a = some p) :
    a < 4096 * K ∧ p = a ∨ 0xC0000000 ≤ a ∧ a < 0xC0100000 ∧ p = 4096 * K + (a - 0xC0000000) := by
  obtain ⟨n, hn, hp⟩ := Option.map_eq_some_iff.mp h
  have hp : 4096 * n + a % 4096 = p := hp
  rcases bootPages_some hn with ⟨h1, h2⟩ | ⟨h1, h2, h3⟩
  · exact .inl ⟨by omega, by omega⟩
  · exact .inr ⟨by omega, by omega, by omega⟩

/-- Below `0x1000 * K` an address is its own frame's. -/
theorem pageMap_identity {K a : Nat} (h : a < 4096 * K) : pageMap (bootPages K 256) a = some a := by
  unfold pageMap bootPages
  rw [if_pos (by omega)]
  show some (4096 * (a / 4096) + a % 4096) = some a
  rw [Nat.div_add_mod]

/-- What an access in a mode sees. -/
def bootView (K : Nat) (mode : Mmu.Mode) : Mmu.View where
  map write a :=
    if a < 4294967296 then if write && !mode.writesAnywhere then none else pageMap (bootPages K 256) a else none
  store_load {a p} h := by
    split at h
    · rw [if_pos (by assumption), if_neg (by simp)]
      split at h
      · exact nomatch h
      · exact h
    · exact nomatch h
  injective {a b p} ha hb := by
    split at ha
    · split at hb
      · rw [if_neg (by simp)] at ha hb
        rcases pageMap_some ha with ⟨h1, h2⟩ | ⟨h1, h2, h3⟩ <;>
          rcases pageMap_some hb with ⟨h4, h5⟩ | ⟨h4, h5, h6⟩ <;> omega
      · exact nomatch hb
    · exact nomatch ha

/-- Physical memory: the low pages, and behind them the pages of the heap. -/
def physical (K : Nat) (mem : Mem) : Mem := fun p =>
  if p < 4096 * K then mem p else mem (0xC0000000 + (p - 4096 * K))

theorem physical_seen (K : Nat) (mode : Mmu.Mode) (mem : Mem) :
    Mmu.Seen (bootView K mode) (physical K mem) mem := by
  intro a p h
  have h : (if a < 4294967296 then if false && !mode.writesAnywhere then none else pageMap (bootPages K 256) a
      else none) = some p := h
  split at h
  · rw [if_neg (by simp)] at h
    unfold physical
    rcases pageMap_some h with ⟨h1, h2⟩ | ⟨h1, h2, h3⟩
    · rw [h2, if_pos h1]
    · rw [h3]
      have hback : 0xC0000000 + (4096 * K + (a - 0xC0000000) - 4096 * K) = a := by omega
      rw [if_neg (by omega), hback]
  · exact nomatch h

/-- What the processor reads of the directory, and the tables, lie behind the words of the bitset. -/
theorem Switched.tableByte_ge {m₀ m : Machine} {dir K x : Nat} (sw : Switched m₀ dir K m)
    (h : TableByte m x) : m₀.placement_address + 512 ≤ x := by
  have hplace := sw.place
  have hdir := sw.mapped.directory
  unfold directory_place at hplace
  rcases h with ⟨h1, h2⟩ | ⟨t, ht, hne, h1, h2⟩
  · omega
  · rw [hdir] at hne h1
    have := (sw.mapped.placed.table t ht hne).2.1
    omega

/-- A table lies below the bump pointer. -/
theorem Switched.tableByte_lt {m₀ m : Machine} {dir K x : Nat} (sw : Switched m₀ dir K m) (h : TableByte m x) :
    x < m.placement_address := by
  have habove := sw.mapped.placed.above
  have hdir := sw.mapped.directory
  rcases h with ⟨h1, h2⟩ | ⟨t, ht, hne, h1, h2⟩
  · omega
  · rw [hdir] at hne h2
    have := (sw.mapped.placed.table t ht hne).2.2
    omega

/-- An access of the kernel: to a mapped address, and no store into the tables. -/
def KernelAccess (m : Machine) : Mmu.Access → Prop
  | .load a => a < 4294967296 ∧ kernelView m a ≠ none
  | .store a _ => a < 4294967296 ∧ kernelView m a ≠ none ∧ ¬ TableByte m a

/-- Two machines with the same directory and tables. -/
structure SameTables (m m' : Machine) : Prop where
  directory : m'.kernel_directory = m.kernel_directory
  table : ∀ t, t < 1024 → pd_table m'.mem m'.kernel_directory t = pd_table m.mem m.kernel_directory t
  view : ∀ a, a < 4294967296 → kernelView m' a = kernelView m a

/-- Setting up the heap, whose header lies in the heap, changes neither. -/
theorem Switched.same_tables {m₀ m₁ m : Machine} {dir K : Nat} (sw : Switched m₀ dir K m₁)
    (hdir : m.kernel_directory = m₁.kernel_directory) (hmem : EqOutside 0xC0081000 0xC008100C m₁.mem m.mem) :
    SameTables m₁ m := by
  have habove := sw.mapped.placed.above
  have hcov := sw.covered
  have hroom := sw.room
  have hd := sw.mapped.directory
  have htable : ∀ t, t < 1024 → pd_table m.mem dir t = pd_table m₁.mem dir t := fun t ht =>
    hmem.read32 (by omega)
  refine ⟨hdir, fun t ht => by rw [hdir, hd, htable t ht], fun a ha => ?_⟩
  have hslot : a / 4096 / 1024 < 1024 := by omega
  have hlookup : lookup_page m.mem a dir = lookup_page m₁.mem a dir := by
    rw [lookup_page_eq, lookup_page_eq, page_entry, page_entry, htable _ hslot]
  have hread : lookup_page m₁.mem a dir ≠ 0 →
      read_page m.mem (lookup_page m₁.mem a dir) = read_page m₁.mem (lookup_page m₁.mem a dir) := by
    intro hne
    have ht := lookup_page_ne_zero.mp hne
    have htab := sw.mapped.placed.table _ hslot ht
    rw [lookup_page_eq, if_pos ht, page_entry]
    exact congrArg VmPage.decode (hmem.read32 (by omega))
  unfold kernelView
  dsimp only
  rw [hdir, hd, hlookup]
  by_cases hne : lookup_page m₁.mem a dir ≠ 0
  · rw [hread hne]
  · rw [if_neg (fun h => hne h.1), if_neg (fun h => hne h.1)]

/-- `init_paging` ends with the directory and the memory in which it switched paging on, but for the header of
    the first hole. -/
theorem init_paging_same {rounds : Nat} {m₀ m : Machine} (hready : m₀.heap_ready = false)
    (hlow : 0x1000 ≤ m₀.placement_address) (hwrap : BootNoWrap rounds m₀) (h : init_paging rounds m₀ = .ok m) :
    ∃ dir K m₁, Switched m₀ dir K m₁ ∧ m.kernel_directory = m₁.kernel_directory
      ∧ EqOutside 0xC0081000 0xC008100C m₁.mem m.mem := by
  obtain ⟨dir, K, m₁, m₂, sw, hinit, hm⟩ := init_paging_switched hready hlow hwrap h
  obtain ⟨heap, hm₂⟩ := init_heap_inv hinit
  refine ⟨dir, K, m₁, sw, by rw [hm, hm₂], ?_⟩
  rw [hm, hm₂]
  exact put_header_eqOutside m₁.mem 0xC0081000 1 _

/-- With cleared memory, the bitset of a kernel that ends at 1 MB is storage of its own. -/
theorem ownBitset_at_1M : OwnBitset (Machine.bare 0x100000) := ⟨fun _ _ _ => rfl, by decide⟩

end JamesM
