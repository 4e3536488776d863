/-
  JamesM.Boot.Frame — what `init_paging` leaves alone.

  Everything the boot sequence stores before the heap exists (the bitset, the page
  directory, the page tables, the heap descriptor) lies at or above the first bump
  pointer and below the last one, and between the region of the bitset and the
  directory nothing is touched.  `Switched` is the state in which paging is switched
  on: the page map of `Mapped`, and that memory is otherwise untouched.

  Main result: `init_paging_switched`.
-/
import JamesM.Boot.Identity

namespace JamesM

open JamesM.ByteMem JamesM.Word32

/-! ## §1. Stores between two bump pointers. -/

/-- From `m` to `m'` the bump pointer has moved up, and memory has changed between `p` and the new one
    only. -/
structure Placing (p : Nat) (m m' : Machine) : Prop where
  up : m.placement_address ≤ m'.placement_address
  mem : EqOutside p m'.placement_address m.mem m'.mem

theorem Placing.refl (p : Nat) (m : Machine) : Placing p m m := ⟨Nat.le_refl _, .refl _ _ _⟩

theorem Placing.trans {p : Nat} {m m' m'' : Machine} (h : Placing p m m') (h' : Placing p m' m'') :
    Placing p m m'' :=
  ⟨h.up.trans h'.up, (h.mem.mono (Nat.le_refl p) h'.up).trans h'.mem⟩

/-- A call of the placement allocator. -/
theorem KmallocFn.call_placing {alloc : AllocFn} {f : KmallocFn} {len addr p : Nat} {phys : Option Nat}
    {m m' : Machine} (hready : m.heap_ready = false) (hlow : 0x1000 ≤ m.placement_address)
    (hhigh : m.placement_address < 4294967296)
    (hwrap : placement_start f.flags m.placement_address + len < 4294967296)
    (hp : p ≤ placement_start f.flags m.placement_address) (h : f.call alloc len m = .ok (addr, phys, m')) :
    Placing p m m' ∧ addr = placement_start f.flags m.placement_address
      ∧ m' = { m with placement_address := addr + len
                      mem := if f.flags &&& M_ZERO ≠ 0 then bzero m.mem addr len else m.mem } := by
  have hle := le_placement_start f.flags m.placement_address
  rw [f.call_eq, _kmalloc_placement alloc _ hready hlow hhigh hwrap] at h
  simp only [Except.ok.injEq, Prod.mk.injEq] at h
  obtain ⟨rfl, -, rfl⟩ := h
  refine ⟨⟨by dsimp only; omega, ?_⟩, rfl, rfl⟩
  dsimp only
  split
  · exact (bzero_eqOutside m.mem _ len).mono (by omega) (Nat.le_refl _)
  · exact .refl _ _ _

/-- `get_page` with `create`. -/
theorem PlacedTables.get_page_placing {alloc : AllocFn} {dir a p q : Nat} {m m' : Machine} (pt : PlacedTables dir m)
    (ha : a < 4294967296) (hwrap : Creates m dir a true → next_table m + 4096 < 4294967296) (hp : p ≤ dir)
    (h : get_page alloc a true dir m = .ok (q, m')) : Placing p m m' := by
  have habove := pt.above
  by_cases hmiss : pd_table m.mem dir (a / 4096 / 1024) = 0
  · have hle : m.placement_address ≤ next_table m := le_placement_start _ _
    rw [get_page_create alloc pt.ready pt.low pt.high (hwrap ⟨rfl, hmiss⟩) hmiss] at h
    obtain ⟨-, rfl⟩ := Prod.mk.inj (Except.ok.inj h)
    refine ⟨by dsimp only; omega, ?_⟩
    have hzero : EqOutside p (next_table m + 4096) m.mem (bzero m.mem (next_table m) 4096) :=
      (bzero_eqOutside m.mem (next_table m) 4096).mono (by omega) (Nat.le_refl _)
    exact (hzero.write32 _ (by omega) (by omega)).write32 _ (by omega) (by omega)
  · rw [get_page, if_pos (show read32 m.mem (dir + 4 * (a / 0x1000 / 1024)) ≠ 0 from hmiss)] at h
    obtain ⟨-, rfl⟩ := Prod.mk.inj (Except.ok.inj h)
    exact .refl _ _

/-- `alloc_frame` on an entry of the directory. -/
theorem PlacedTables.alloc_frame_placing {dir p q : Nat} {k w : Int} {m m' : Machine} (pt : PlacedTables dir m)
    (hq : q < 1048576) (ht : pd_table m.mem dir (q / 1024) ≠ 0) (hp : p ≤ dir)
    (h : alloc_frame (page_entry m.mem dir q) k w m = .ok m') : Placing p m m' := by
  obtain ⟨-, hlow, hhigh⟩ := pt.table _ (show q / 1024 < 1024 by omega) ht
  rcases alloc_frame_cases h with ⟨-, rfl⟩ | ⟨-, -, hm'⟩
  · exact .refl _ _
  · rw [hm']
    refine ⟨Nat.le_refl _, ?_⟩
    exact (EqOutside.refl p _ m.mem).write32 _ (by unfold page_entry; omega)
      (by unfold page_entry; dsimp only; omega)

/-! ## §2. The parts of `init_paging`. -/

/-- The loop that makes the table of the heap, on an empty directory: the first round makes it. -/
theorem ZeroedDirectory.make_heap_tables_placing {alloc : AllocFn} {dir p : Nat} {m m' : Machine}
    (z : ZeroedDirectory dir m) (hdir : m.kernel_directory = dir) (hwrap : next_table m + 4096 < 4294967296)
    (hp : p ≤ dir) (h : make_heap_tables alloc heap_initial_pages VM_KERN_HEAP_START m = .ok m') :
    Placing p m m' ∧ m'.heap_ready = false ∧ m'.placement_address = next_table m + 4096 := by
  obtain ⟨pt, hnone⟩ := z.placed
  have hmiss : pd_table m.mem dir (VM_KERN_HEAP_START / 4096 / 1024) = 0 := hnone _ (by decide)
  have hget : get_page alloc VM_KERN_HEAP_START true dir m = _ :=
    get_page_create alloc pt.ready pt.low pt.high hwrap hmiss
  generalize hm₁ : ({ m with placement_address := next_table m + 4096
                             mem := table_made m dir (VM_KERN_HEAP_START / 4096 / 1024) } : Machine) = m₁ at hget
  have hplacing := pt.get_page_placing (show VM_KERN_HEAP_START < 4294967296 by decide) (fun _ => hwrap) hp hget
  have hdir₁ : m₁.kernel_directory = dir := by rw [← hm₁]; exact hdir
  obtain ⟨-, hnew, -⟩ := pt.create m₁ (VM_KERN_HEAP_START / 4096 / 1024) (by decide) hwrap
    (by rw [← hm₁]; exact pt.ready) (by rw [← hm₁]) (by rw [← hm₁])
  have hnext := next_table_eq m
  have hdone := make_heap_tables_done alloc (m := m₁)
    (by rw [hdir₁, show (768 : Nat) = VM_KERN_HEAP_START / 4096 / 1024 by decide, hnew]; omega) 255 1 (by decide)
  have h : make_heap_tables alloc (255 + 1) VM_KERN_HEAP_START m = .ok m' := h
  rw [make_heap_tables, hdir, hget, ok_bind] at h
  obtain rfl := Except.ok.inj (hdone.symm.trans h)
  exact ⟨hplacing, by rw [← hm₁]; exact pt.ready, by rw [← hm₁]⟩

/-- Where `init_paging` puts the page directory: on the page boundary behind the region of the bitset. -/
def directory_place (placement : Nat) : Nat := 0x1000 * ((placement + 128) / 0x1000) + 0x1000

/-- The setup clears the region of the bitset, and touches nothing between it and the directory. -/
theorem init_paging_setup_frame {alloc : AllocFn} {m m' : Machine} (hready : m.heap_ready = false)
    (hlow : 0x1000 ≤ m.placement_address) (hwrap : setup_end m.placement_address < 4294967296)
    (h : init_paging_setup alloc m = .ok m') :
    m.placement_address ≤ m'.placement_address
      ∧ EqOutside (directory_place m.placement_address) m'.placement_address (bzero m.mem m.placement_address 128)
        m'.mem := by
  have hend := setup_end_eq m.placement_address
  simp only [init_paging_setup, bind_ok_iff] at h
  obtain ⟨⟨bitset, ph, m₁⟩, h1, ⟨dir, ph₂, m₂⟩, h2, m₃, h3, ⟨heap, ph₃, m₄⟩, h4, h⟩ := h
  obtain rfl := Except.ok.inj h
  have hfree : placement_start M_ZERO m.placement_address = m.placement_address := if_neg (by decide)
  have halign : ∀ p, placement_start (M_ALIGNED ||| M_ZERO) p = 0x1000 * (p / 0x1000) + 0x1000 :=
    fun p => if_pos (by decide)
  -- ===== the bitset =====
  have h1 : KmallocFn.kmalloc0.call alloc 128 m = .ok (bitset, ph, m₁) := h1
  obtain ⟨k1, rfl, hm₁⟩ := KmallocFn.call_placing hready hlow (by omega)
    (by show placement_start M_ZERO _ + 128 < _; rw [hfree]; omega) (le_placement_start _ _) h1
  have hp1 : m₁.placement_address = m.placement_address + 128 := by
    rw [hm₁]
    show placement_start M_ZERO _ + 128 = _
    rw [hfree]
  have hb1 : m₁.mem = bzero m.mem m.placement_address 128 := by
    rw [hm₁]
    show (if M_ZERO &&& M_ZERO ≠ 0 then bzero m.mem (placement_start M_ZERO _) 128 else m.mem) = _
    rw [if_pos (by decide), hfree]
  -- ===== the directory =====
  generalize hn₁ : ({ m₁ with nframes := 0x1000000 / 0x1000, frames := fun _ => 0#32 } : Machine) = n₁ at h2
  have hb1' : n₁.mem = bzero m.mem m.placement_address 128 := by rw [← hn₁]; exact hb1
  have hp1' : n₁.placement_address = m.placement_address + 128 := by rw [← hn₁]; exact hp1
  have hr1 : n₁.heap_ready = false := by rw [← hn₁, hm₁]; exact hready
  have h2 : KmallocFn.kmalloc0_a.call alloc 8196 n₁ = .ok (dir, ph₂, m₂) := h2
  obtain ⟨k2, hdir, hm₂⟩ := KmallocFn.call_placing hr1 (by omega) (by omega)
    (by show placement_start (M_ALIGNED ||| M_ZERO) _ + 8196 < _; rw [halign, hp1']; omega) (Nat.le_refl _) h2
  have hplace : placement_start KmallocFn.kmalloc0_a.flags n₁.placement_address = dir := hdir.symm
  rw [hplace] at k2
  have hdir : dir = 0x1000 * (n₁.placement_address / 0x1000) + 0x1000 := hdir.trans (halign _)
  -- ===== the table of the heap =====
  generalize hn₂ : ({ m₂ with kernel_directory := dir } : Machine) = n₂ at h3
  have hp2 : n₂.placement_address = dir + 8196 := by rw [← hn₂, hm₂]
  have k2' : Placing dir n₁ n₂ := by rw [← hn₂]; exact ⟨k2.up, k2.mem⟩
  have hzero : ZeroedDirectory dir n₂ := by
    refine ⟨by rw [← hn₂, hm₂]; exact hr1, by omega, by omega, by omega, by rw [hp2]; rfl, fun x hx1 hx2 => ?_⟩
    have hzero : KmallocFn.kmalloc0_a.flags &&& M_ZERO ≠ 0 := by decide
    have hmem : n₂.mem = bzero n₁.mem dir sizeof_page_directory := by
      rw [← hn₂, hm₂]
      dsimp only
      rw [if_pos hzero, sizeof_page_directory]
    rw [hmem, bzero_in ⟨hx1, hx2⟩]
  have hnext := next_table_eq n₂
  obtain ⟨k3, hr3, hp3⟩ := hzero.make_heap_tables_placing (by rw [← hn₂]) (by omega) (Nat.le_refl dir) h3
  -- ===== the heap descriptor =====
  have h4 : KmallocFn.kmalloc0.call alloc 36 m₃ = .ok (heap, ph₃, m₄) := h4
  have hfree₃ : placement_start M_ZERO m₃.placement_address = m₃.placement_address := if_neg (by decide)
  obtain ⟨k4, -, -⟩ := KmallocFn.call_placing hr3 (by omega) (by omega)
    (by show placement_start M_ZERO _ + 36 < _; rw [hfree₃]; omega)
    (show dir ≤ placement_start M_ZERO m₃.placement_address by rw [hfree₃]; omega) h4
  have k := k2'.trans (k3.trans k4)
  have hup := k.up
  have hmem := k.mem
  rw [hb1'] at hmem
  dsimp only
  rw [hp1'] at hdir
  rw [directory_place, ← hdir]
  exact ⟨by omega, hmem⟩

/-- The identity mapping. -/
theorem identity_map_placing {alloc : AllocFn} {dir p : Nat} (hp : p ≤ dir) : ∀ (n k : Nat) {m m' : Machine},
    Mapped dir (identityPages k) k m → k ≤ 4096 → IdentityNoWrap alloc n (0x1000 * k) m →
    identity_map alloc n (0x1000 * k) m = .ok m' → Placing p m m' := by
  intro n
  induction n with
  | zero =>
      intro k m m' mp hk hwrap h
      rw [identity_map] at h
      split at h
      · exact absurd h (by simp)
      · rw [← Except.ok.inj h]
        exact .refl _ _
  | succ n ih =>
      intro k m m' mp hk hwrap h
      rw [identity_map] at h
      by_cases hi : 0x1000 * k < m.placement_address
      · rw [if_pos hi, bind_ok_iff] at h
        obtain ⟨⟨q, m₁⟩, hget, h⟩ := h
        rw [bind_ok_iff] at h
        obtain ⟨m₂, hall, h⟩ := h
        obtain ⟨hroom, hnext⟩ := hwrap hi
        have hw := hnext q m₁ m₂ hget hall
        rw [mp.directory] at hroom hget
        obtain ⟨hk4, mp₂, -⟩ := mp.identity_round hk hroom hget hall
        have hq : 0x1000 * k / 4096 = k := by omega
        obtain ⟨mp₁, hentry, ht, -, -⟩ := mp.get_page_spec (by omega) hroom hget
        rw [hq] at hentry ht
        subst hentry
        have hstep : add32 (0x1000 * k) 0x1000 = 0x1000 * (k + 1) := by
          rw [add32_of_lt (by omega)]
          omega
        rw [hstep] at h hw
        have k1 := mp.placed.get_page_placing (by omega) hroom hp hget
        have k2 := mp₁.placed.alloc_frame_placing (by omega) ht hp hall
        exact k1.trans (k2.trans (ih (k + 1) mp₂ (by omega) hw h))
      · rw [if_neg hi] at h
        rw [← Except.ok.inj h]
        exact .refl _ _

/-- The pages of the heap. -/
theorem alloc_heap_pages_placing {alloc : AllocFn} {dir K p : Nat} (hK : K ≤ 4096) (hp : p ≤ dir) :
    ∀ (n j : Nat) {m m' : Machine}, Mapped dir (bootPages K j) (K + j) m → pd_table m.mem dir 768 ≠ 0 →
    j + n ≤ 1024 → alloc_heap_pages alloc n (0xC0000000 + 0x1000 * j) m = .ok m' → Placing p m m' := by
  intro n
  induction n with
  | zero =>
      intro j m m' mp ht hj h
      rw [← Except.ok.inj h]
      exact .refl _ _
  | succ n ih =>
      intro j m m' mp ht hj h
      rw [alloc_heap_pages, mp.directory, get_page_lookup, ok_bind] at h
      dsimp only at h
      rw [bind_ok_iff] at h
      obtain ⟨m₁, hall, h⟩ := h
      have hq : (0xC0000000 + 0x1000 * j) / 4096 = 0xC0000 + j := by omega
      have hslot : (0xC0000 + j) / 1024 = 768 := by omega
      rw [lookup_page_eq, hq, hslot, if_pos ht] at hall
      obtain ⟨hk4, mp₁, -, htab⟩ := mp.alloc_frame_spec (by omega) (by rw [hslot]; exact ht)
        (by unfold bootPages; rw [if_neg (by omega), if_neg (by omega)]) hall
      rw [mapPage_bootPages hK] at mp₁
      have hstep : add32 (0xC0000000 + 0x1000 * j) 0x1000 = 0xC0000000 + 0x1000 * (j + 1) := by
        rw [add32_of_lt (by omega)]
        omega
      rw [hstep] at h
      have k1 := mp.placed.alloc_frame_placing (by omega) (by rw [hslot]; exact ht) hp hall
      exact k1.trans (ih (j + 1) mp₁ (by rw [htab 768 (by decide)]; exact ht) (by omega) h)

/-! ## §3. The switch to paging. -/

/-- The machine when paging is switched on: everything below `0x1000 * K` is mapped to itself, the first
    256 pages of the heap to the frames from `K` on; behind the region of the bitset, memory has changed between
    the directory and the last bump pointer only. -/
structure Switched (m₀ : Machine) (dir K : Nat) (m : Machine) : Prop where
  mapped : Mapped dir (bootPages K 256) (K + 256) m
  place : dir = directory_place m₀.placement_address
  room : K + 256 ≤ 4096
  covered : m.placement_address ≤ 0x1000 * K
  up : m₀.placement_address ≤ m.placement_address
  mem : EqOutside dir m.placement_address (bzero m₀.mem m₀.placement_address 128) m.mem

theorem Switched.aligned {m₀ m : Machine} {dir K : Nat} (sw : Switched m₀ dir K m) : dir % 4096 = 0 := by
  have hplace := sw.place
  unfold directory_place at hplace
  omega

/-- The directory lies behind the region of the bitset. -/
theorem Switched.above {m₀ m : Machine} {dir K : Nat} (sw : Switched m₀ dir K m) :
    m₀.placement_address + 128 ≤ dir := by
  have hplace := sw.place
  unfold directory_place at hplace
  omega

/-- Below the first bump pointer nothing has changed. -/
theorem Switched.kept {m₀ m : Machine} {dir K x : Nat} (sw : Switched m₀ dir K m)
    (hx : x < m₀.placement_address) : m.mem x = m₀.mem x := by
  have habove := sw.above
  rw [sw.mem x (by omega), bzero_eqOutside m₀.mem m₀.placement_address 128 x (by omega)]

/-- **`init_paging`** switches paging on in such a state, and then sets up the heap. -/
theorem init_paging_switched {rounds : Nat} {m₀ m : Machine} (hready : m₀.heap_ready = false)
    (hlow : 0x1000 ≤ m₀.placement_address) (hwrap : BootNoWrap rounds m₀) (h : init_paging rounds m₀ = .ok m) :
    ∃ dir K m₁ m₂, Switched m₀ dir K m₁
      ∧ init_heap VM_KERN_HEAP_START (VM_KERN_HEAP_START + VM_KERN_HEAP_INITIAL_SIZE) 0xCFFFF000 0 0 m₁ = .ok m₂
      ∧ m = { m₂ with heap_ready := true } := by
  obtain ⟨pl, m₁, hplaces, -, -, -, hdir, -, mp, ht, -, hend⟩ :=
    init_paging_places_spec (alloc 0) hready hlow hwrap.setup
  have hsetup := init_paging_setup_of_places hplaces
  have hp : directory_place m₀.placement_address ≤ m₁.kernel_directory := by
    unfold directory_place
    omega
  simp only [init_paging, hsetup, ok_bind, bind_ok_iff] at h
  obtain ⟨m₂, hmap, m₃, hheap, m₄, hinit, h⟩ := h
  have mp₁ : Mapped m₁.kernel_directory (identityPages 0) 0 m₁ := mp
  obtain ⟨hup, hmem⟩ := init_paging_setup_frame hready hlow hwrap.setup hsetup
  have k2 := identity_map_placing hp rounds 0 mp₁ (by omega) (hwrap.loop m₁ hsetup) hmap
  obtain ⟨K, hK, mp₂, hcov, hkeep⟩ := identity_map_spec rounds 0 mp₁ (by omega) (hwrap.loop m₁ hsetup) hmap
  rw [← bootPages_zero] at mp₂
  have ht₂ : pd_table m₂.mem m₁.kernel_directory 768 ≠ 0 := by
    rw [hkeep 768 (by decide) (by decide)]
    exact ht
  have k3 := alloc_heap_pages_placing hK hp heap_initial_pages 0 mp₂ ht₂ (by decide) hheap
  obtain ⟨mp₃, hplace, hroom, -⟩ := alloc_heap_pages_spec hK heap_initial_pages 0 mp₂ ht₂ (by decide) hheap
  rw [← hplace] at hcov
  have k := k2.trans k3
  have hlast := k.up
  have hkept : EqOutside m₁.kernel_directory m₃.placement_address (bzero m₀.mem m₀.placement_address 128)
      m₃.mem := by
    have h := (hmem.mono (Nat.le_refl _) hlast).trans k.mem
    rwa [directory_place, ← hdir] at h
  exact ⟨_, K, m₃, m₄, ⟨mp₃, hdir, hroom (by decide), hcov, by omega, hkept⟩, hinit, (Except.ok.inj h).symm⟩

end JamesM
