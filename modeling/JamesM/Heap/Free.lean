/-
  JamesM.Heap.Free — `free`: coalescing, and shrinking the heap.

  The left neighbour is found through the footer just below the block.  A right
  merge leaves the footer of the merged hole pointing at the swallowed header, so
  that footer may be stale; `FreeSafe.left` says that it is not.

  When the coalesced hole ends the heap, `contract` is asked for its offset.  Its
  rounding keeps one bit of the offset, and a hole that would vanish is not taken
  out of the index; `FreeSafe.tail` says that the hole starts low enough for both
  not to matter.

  Main results: `Kernel.contract`, `Kernel.free`.
-/
import JamesM.Heap.Carve
import JamesM.Paging.Ownership

namespace JamesM

open JamesM.ByteMem JamesM.Word32 JamesM.Lib

/-! ## §1. Coalescing. -/

/-- The memory once the block at `header` is flagged as a hole. -/
def flagged (header : Nat) (mem : Mem) : Mem := write32 mem (header + 4) 1

/-- The test of "unify left" succeeds. -/
def LeftHole (header : Nat) (mem : Mem) : Prop :=
  hf_magic mem (header - 8) = VM_HEAP_FTR_MAGIC ∧ hh_is_hole mem (hf_header mem (header - 8)) = 1

instance (header : Nat) (mem : Mem) : Decidable (LeftHole header mem) :=
  inferInstanceAs (Decidable (_ ∧ _))

/-- Where the hole starts that the freed block becomes. -/
def freed_start (header : Nat) (mem : Mem) : Nat :=
  if LeftHole header (flagged header mem) then hf_header mem (header - 8) else header

/-- Where it ends. -/
def freed_end (header : Nat) (mem : Mem) : Nat :=
  let test_header := header + hh_size mem header
  if hh_magic mem test_header = VM_HEAP_HDR_MAGIC ∧ hh_is_hole mem test_header ≠ 0 then
    test_header + hh_size mem test_header
  else test_header

/-- What makes freeing the block at `p` safe. -/
structure FreeSafe (p : Nat) (m : Machine) : Prop where
  left : LeftHole (p - 12) (flagged (p - 12) m.mem) →
    hf_header m.mem (p - 12 - 8) ∈ m.heap.h_index.entries
      ∧ hf_header m.mem (p - 12 - 8) + hh_size m.mem (hf_header m.mem (p - 12 - 8)) = p - 12
  tail : freed_end (p - 12) m.mem = m.heap.h_addr_end →
    freed_start (p - 12) m.mem + 20 ≤ m.heap.h_addr_start + VM_HEAP_MIN_SIZE

/-- Flagging a block writes inside its header. -/
theorem flagged_eqOutside (header : Nat) (mem : Mem) :
    EqOutside (header + 4) (header + 8) mem (flagged header mem) :=
  (EqOutside.refl _ _ _).write32 _ (Nat.le_refl _) (Nat.le_refl _)

/-- **Unify left.**  The freed block, joined with the hole before it if there is one. -/
theorem HeapInv.unify_left {pre post : List Region} {b : Region} {m : Machine}
    (inv : HeapInv (pre ++ b :: post) m) (hblock : b.hole = false)
    (hsafe : LeftHole b.addr (flagged b.addr m.mem) →
      hf_header m.mem (b.addr - 8) ∈ m.heap.h_index.entries
        ∧ hf_header m.mem (b.addr - 8) + hh_size m.mem (hf_header m.mem (b.addr - 8)) = b.addr) :
    ∃ pre' lefts a mem, pre = pre' ++ lefts ∧ (∀ r ∈ lefts, r.hole = true)
      ∧ holes lefts = (if lefts = [] then [] else [a])
      ∧ a = freed_start b.addr m.mem ∧ m.heap.h_addr_start ≤ a ∧ a ≤ b.addr
      ∧ Tiled a (lefts ++ [b]) (b.addr + b.size)
      ∧ JamesM.unify_left b.addr (b.addr + b.size - 8) (flagged b.addr m.mem)
          = (a, decide (lefts = []), mem)
      ∧ HdrAt mem ⟨a, b.addr + b.size - a, true⟩ ∧ EqOutside a (b.addr + b.size) m.mem mem
      ∧ FtrAt mem ⟨a, b.addr + b.size - a, true⟩ := by
  have hb : b ∈ pre ++ b :: post := by simp
  obtain ⟨hb1, hb2, hb3⟩ := inv.region_bounds hb
  obtain ⟨b1, -, -, -, b5, b6, -⟩ := inv.bounds
  have hflag := flagged_eqOutside b.addr m.mem
  have hhdr : HdrAt (flagged b.addr m.mem) { b with hole := true } := (inv.head b hb).set_hole
  have hfoot : sub32 b.addr sizeof_footer = b.addr - 8 := sub32_of_le (by omega) (by
    show 8 ≤ b.addr
    omega)
  have hfoot' : FtrAt (flagged b.addr m.mem) b := (inv.foot b hb hblock).of_eqOutside hb3 hflag (.inr (by omega))
  -- the footer below the block is not touched by the flag
  have hf : hf_header (flagged b.addr m.mem) (b.addr - 8) = hf_header m.mem (b.addr - 8) :=
    hflag.read32 (.inl (by omega))
  unfold freed_start JamesM.unify_left
  rw [hfoot]
  by_cases hleft : LeftHole b.addr (flagged b.addr m.mem)
  · obtain ⟨hmem, hends⟩ := hsafe hleft
    obtain ⟨l, hl, hlh, hla⟩ := inv.mem_index.mp hmem
    have hlsize := (inv.head l hl).size
    rw [← hla, hlsize] at hends
    obtain ⟨hl1, hl2, hl3⟩ := inv.region_bounds hl
    -- the hole is the last region before the block
    have hlpre : l ∈ pre := by
      simp only [List.mem_append, List.mem_cons] at hl
      rcases hl with hl | rfl | hl
      · exact hl
      · rw [hblock] at hlh
        exact absurd hlh (by decide)
      · have := inv.tiled.around.2 l hl
        omega
    obtain ⟨pre', rfl⟩ := inv.tiled.cut.1.last (fun r hr => inv.size_pos r (by simp [hr])) hlpre hends
    have hlhdr : HdrAt (write32 (flagged b.addr m.mem) (b.addr + b.size - 8 + 4) l.addr) l := by
      refine (inv.head l hl).of_eqOutside (?_ : EqOutside b.addr (b.addr + b.size) _ _) (.inl (by omega))
      exact ((hflag.mono (by omega) (by omega)).trans ((EqOutside.refl _ _ _).write32 _ (by omega) (by omega)))
    have hcache : hh_size (flagged b.addr m.mem) b.addr = b.size := hhdr.size
    have hsum : add32 l.size b.size = l.size + b.size := add32_of_lt (by omega)
    refine ⟨pre', [l], l.addr, write32 (write32 (flagged b.addr m.mem) (b.addr + b.size - 8 + 4) l.addr)
      (l.addr + 8) (l.size + b.size), rfl, by simpa using hlh,
      by rw [holes_cons, if_pos hlh, if_neg (by simp)]; rfl, by rw [if_pos hleft, hla], hl1, by omega,
      ?_, ?_, ?_, ?_, ?_⟩
    · refine tiles_cons.mpr ⟨rfl, tiles_singleton.mpr ⟨hends.symm, ?_⟩⟩
      rw [hends]
    · have hc : hf_magic (flagged b.addr m.mem) (b.addr - 8) = VM_HEAP_FTR_MAGIC
          ∧ hh_is_hole (flagged b.addr m.mem) (hf_header (flagged b.addr m.mem) (b.addr - 8)) = 1 := hleft
      rw [hf, ← hla] at hc
      simp only [hf, ← hla, if_pos hc, hlhdr.size, hcache, hsum]
      rfl
    · have hset := hlhdr.set_size (l.size + b.size) (by omega)
      have heq : ({ l with size := l.size + b.size } : Region) = ⟨l.addr, b.addr + b.size - l.addr, true⟩ := by
        rw [← hlh, show b.addr + b.size - l.addr = l.size + b.size by omega]
      rw [← heq]
      exact hset
    · exact ((hflag.mono (by omega) (by omega)).trans
        (((EqOutside.refl _ _ _).write32 _ (by omega) (by omega)).write32 _ (by omega) (by omega)))
    · -- the footer of the block now belongs to the hole
      have hplace : l.addr + (b.addr + b.size - l.addr) - 8 = b.addr + b.size - 8 := by omega
      constructor
      · show hf_magic _ (l.addr + (b.addr + b.size - l.addr) - 8) = _
        rw [hplace, ← hfoot'.magic]
        exact (read32_write32_ne _ _ (by omega)).trans (read32_write32_ne _ _ (by omega))
      · show hf_header _ (l.addr + (b.addr + b.size - l.addr) - 8) = _
        rw [hplace]
        exact (read32_write32_ne _ _ (by omega)).trans (read32_write32 _ _ (by omega))
  · refine ⟨pre, [], b.addr, flagged b.addr m.mem, by simp, by simp, rfl, by rw [if_neg hleft], hb1,
      Nat.le_refl _, ⟨rfl, rfl⟩, ?_, ?_, hflag.mono (by omega) (by omega), ?_⟩
    · have hc : ¬ (hf_magic (flagged b.addr m.mem) (b.addr - 8) = VM_HEAP_FTR_MAGIC
          ∧ hh_is_hole (flagged b.addr m.mem) (hf_header (flagged b.addr m.mem) (b.addr - 8)) = 1) := hleft
      simp only [if_neg hc]
      rfl
    · rw [show b.addr + b.size - b.addr = b.size by omega]
      exact hhdr
    · rw [show b.addr + b.size - b.addr = b.size by omega]
      exact ⟨hfoot'.magic, hfoot'.header⟩

/-- What "unify right" leaves of a hole at `a` that ends with the block `b`: the holes `rights` behind the
    block are taken in and leave the index, and the size at `a` reaches up to their end `e`. -/
structure RightUnified (b : Region) (rights : List Region) (a e : Nat) (mem : Mem) (m m' : Machine) : Prop where
  rights_holes : ∀ r ∈ rights, r.hole = true
  end_eq : e = freed_end b.addr m.mem
  high : e ≤ m.heap.h_addr_end
  tiled : Tiled (b.addr + b.size) rights e
  mem_eq : m'.mem = if rights = [] then mem else write32 mem (a + 8) (e - a)
  machine : m' = { m with mem := m'.mem, heap := { m.heap with h_index := m'.heap.h_index } }
  cmp : m'.heap.h_index.sa_cmp = m.heap.h_index.sa_cmp
  perm : m.heap.h_index.entries.Perm (holes rights ++ m'.heap.h_index.entries)
  erased : m'.heap.h_index.entries = m.heap.h_index.entries.erase (b.addr + b.size)

namespace RightUnified

variable {b : Region} {rights : List Region} {a e : Nat} {mem : Mem} {m m' : Machine}

theorem size_word (ru : RightUnified b rights a e mem m m') (hsize : hh_size mem a = b.addr + b.size - a)
    (he : e < 4294967296) : hh_size m'.mem a = e - a := by
  rw [ru.mem_eq]
  by_cases hr : rights = []
  · have ht := ru.tiled
    rw [hr] at ht
    rw [if_pos hr, hsize, ht.end_unique rfl]
  · rw [if_neg hr]
    exact read32_write32 _ _ (by omega)

theorem header (ru : RightUnified b rights a e mem m m') (hhdr : HdrAt mem ⟨a, b.addr + b.size - a, true⟩)
    (he : e < 4294967296) : HdrAt m'.mem ⟨a, e - a, true⟩ := by
  rw [ru.mem_eq]
  by_cases hr : rights = []
  · have ht := ru.tiled
    rw [hr] at ht
    rw [if_pos hr, ht.end_unique rfl]
    exact hhdr
  · rw [if_neg hr]
    exact hhdr.set_size (e - a) (by omega)

theorem outside (ru : RightUnified b rights a e mem m m') (hout : EqOutside a (b.addr + b.size) m.mem mem)
    (ha : a + 12 ≤ b.addr + b.size) : EqOutside a (b.addr + b.size) m.mem m'.mem := by
  rw [ru.mem_eq]
  split
  · exact hout
  · exact hout.write32 _ (by omega) (by omega)

end RightUnified

/-- The hole that the assertion of "unify right" finds is the region behind the block. -/
theorem HeapInv.right_neighbour {pre post : List Region} {b : Region} {m : Machine}
    (inv : HeapInv (pre ++ b :: post) m) (hblock : b.hole = false)
    (hi : index_of m.heap.h_index (b.addr + b.size) < m.heap.h_index.sa_size) :
    ∃ r post', post = r :: post' ∧ r.hole = true ∧ r.addr = b.addr + b.size := by
  obtain ⟨r, hr, hrh, hra⟩ := inv.mem_index.mp (index_of_lt.mp hi)
  obtain ⟨-, -, hb3⟩ := inv.region_bounds (r := b) (by simp)
  have hrpost : r ∈ post := by
    simp only [List.mem_append, List.mem_cons] at hr
    rcases hr with hr | rfl | hr
    · have := inv.tiled.around.1 r hr
      omega
    · rw [hblock] at hrh
      exact absurd hrh (by decide)
    · exact hr
  cases post with
  | nil => exact absurd hrpost (by simp)
  | cons s post' =>
      have hs := inv.tiled.cut.2.1
      have hrs : r = s := inv.eq_of_addr hr (by simp) (by rw [hra, hs])
      exact ⟨s, post', rfl, hrs ▸ hrh, hrs ▸ hra⟩

/-- The index after the hole `r` has left it. -/
theorem HeapInv.remove_hole {regs : List Region} {m : Machine} {a : Nat} {idx : SortedArray Mem Nat}
    (inv : HeapInv regs m) (hi : index_of m.heap.h_index a < m.heap.h_index.sa_size)
    (hrem : remove_sorted_array m.heap.h_index (index_of m.heap.h_index a) = .ok idx) :
    idx.sa_cmp = m.heap.h_index.sa_cmp ∧ m.heap.h_index.entries.Perm (a :: idx.entries)
      ∧ idx.entries = m.heap.h_index.entries.erase a := by
  obtain ⟨-, -, hcmp, hentries⟩ := remove_sorted_array_entries hrem
  have hat : m.heap.h_index.sa_array (index_of m.heap.h_index a) = a := sa_array_index_of (index_of_lt.mp hi)
  have hlen : index_of m.heap.h_index a < m.heap.h_index.entries.length := by
    rw [m.heap.h_index.length_entries]
    exact hi
  have herase := inv.entries_nodup.erase_getElem _ hlen
  rw [m.heap.h_index.getElem_entries, hat] at herase
  have hperm := m.heap.h_index.erase_perm hi
  rw [hat] at hperm
  rw [hentries]
  exact ⟨hcmp, hperm, herase.symm⟩

/-- Where the right test fails, the index lists nothing. -/
theorem HeapInv.not_listed {regs : List Region} {m : Machine} {header : Nat} (inv : HeapInv regs m)
    (hc : ¬ (hh_magic m.mem header = VM_HEAP_HDR_MAGIC ∧ hh_is_hole m.mem header ≠ 0)) :
    header ∉ m.heap.h_index.entries := by
  intro hin
  obtain ⟨r, hr, hrh, hra⟩ := inv.mem_index.mp hin
  have hrhdr := inv.head r hr
  have hflag : r.flag ≠ 0 := by
    unfold Region.flag
    rw [hrh]
    decide
  apply hc
  rw [← hra]
  exact ⟨hrhdr.magic, by rw [hrhdr.flag]; exact hflag⟩

/-- **Unify right.**  The hole at `a`, joined with the hole after it if there is one. -/
theorem HeapInv.unify_right {pre post : List Region} {b : Region} {m m' : Machine} {a f : Nat} {mem : Mem}
    (inv : HeapInv (pre ++ b :: post) m) (hblock : b.hole = false)
    (ha : m.heap.h_addr_start ≤ a) (hab : a ≤ b.addr)
    (hsize : hh_size mem a = b.addr + b.size - a) (hout : EqOutside a (b.addr + b.size) m.mem mem)
    (h : JamesM.unify_right a (b.addr + b.size - 8) { m with mem := mem } = .ok (f, m')) :
    ∃ rights post' e, post = rights ++ post' ∧ f = e - 8 ∧ RightUnified b rights a e mem m m' := by
  have hb : b ∈ pre ++ b :: post := by simp
  obtain ⟨hb1, hb2, hb3⟩ := inv.region_bounds hb
  obtain ⟨b1, -, -, -, b5, b6, -⟩ := id inv.bounds
  have hbsize := (inv.head b hb).size
  have htest : add32 (b.addr + b.size - 8) sizeof_footer = b.addr + b.size := by
    unfold add32 sizeof_footer
    omega
  -- what lies after the block is as it was
  have hmagic : hh_magic mem (b.addr + b.size) = hh_magic m.mem (b.addr + b.size) :=
    hout.read32 (.inr (Nat.le_refl _))
  have hishole : hh_is_hole mem (b.addr + b.size) = hh_is_hole m.mem (b.addr + b.size) :=
    hout.read32 (.inr (by omega))
  unfold JamesM.unify_right at h
  simp only [htest, hmagic, hishole] at h
  by_cases hc : hh_magic m.mem (b.addr + b.size) = VM_HEAP_HDR_MAGIC ∧ hh_is_hole m.mem (b.addr + b.size) ≠ 0
  · rw [if_pos hc] at h
    simp only [bind_ok_iff, KASSERT_eq_ok, decide_eq_true_eq] at h
    obtain ⟨-, hi, idx, hrem, h⟩ := h
    obtain ⟨r, post', rfl, hrh, hra⟩ := inv.right_neighbour hblock hi
    have hr : r ∈ pre ++ b :: r :: post' := by simp
    obtain ⟨hr1, hr2, hr3⟩ := inv.region_bounds hr
    have hrsize : hh_size m.mem (b.addr + b.size) = r.size := by rw [← hra]; exact (inv.head r hr).size
    have hrsize' : hh_size mem (b.addr + b.size) = r.size := by
      rw [← hrsize]
      exact hout.read32 (.inr (by omega))
    have hread : hh_size (write32 mem (a + 8) (b.addr + b.size + r.size - a)) (b.addr + b.size) = r.size := by
      rw [← hrsize']
      exact read32_write32_ne _ _ (by omega)
    have hsum : add32 (b.addr + b.size - a) r.size = b.addr + b.size + r.size - a := by
      rw [add32_of_lt (by omega)]
      omega
    have hfoot : sub32 (add32 (b.addr + b.size) r.size) sizeof_footer = b.addr + b.size + r.size - 8 := by
      unfold sub32 add32 sizeof_footer
      omega
    have hend : freed_end b.addr m.mem = b.addr + b.size + r.size := by
      unfold freed_end
      simp only [hbsize, if_pos hc, hrsize]
    rw [hsize, hrsize', hsum, hread, hfoot] at h
    simp only [Except.ok.injEq, Prod.mk.injEq] at h
    obtain ⟨hf, hm'⟩ := h
    obtain ⟨hcmp, hperm, herase⟩ := inv.remove_hole hi hrem
    have hidx : m'.heap.h_index = idx := by rw [← hm']
    refine ⟨[r], post', _, rfl, hf.symm, by simpa using hrh, hend.symm, by omega, tiles_singleton.mpr ⟨hra, rfl⟩,
      ?_, by rw [← hm'], by rw [hidx, hcmp], ?_, by rw [hidx, herase]⟩
    · rw [← hm', if_neg (by simp)]
    · rw [hidx, holes_cons, if_pos hrh, hra]
      exact hperm
  · rw [if_neg hc] at h
    simp only [Except.ok.injEq, Prod.mk.injEq] at h
    obtain ⟨hf, hm'⟩ := h
    have hend : freed_end b.addr m.mem = b.addr + b.size := by
      unfold freed_end
      simp only [hbsize, if_neg hc]
    have hidx : m'.heap.h_index = m.heap.h_index := by rw [← hm']
    refine ⟨[], post, _, rfl, hf.symm, by simp, hend.symm, hb2, rfl, ?_, by rw [← hm'], by rw [hidx], ?_, ?_⟩
    · rw [← hm', if_pos rfl]
    · rw [hidx]
      exact .refl _
    · rw [hidx, List.erase_of_not_mem (inv.not_listed hc)]

/-! ## §2. Shrinking the heap. -/

/-- `free_frame` on a page entry. -/
theorem Kernel.free_frame {regs : List Region} {live : List (Nat × Nat)} {m : Machine} {p : Nat}
    (k : Kernel regs live m) (hp : IsEntry m.kernel_directory m.mem p) :
    Kernel regs live (free_frame p m) ∧ Preserves regs regs live m (free_frame p m)
      ∧ (JamesM.free_frame p m).heap = m.heap ∧ SameFooters regs m.mem (JamesM.free_frame p m).mem
      ∧ ∀ t, t < 1024 →
        pd_table (JamesM.free_frame p m).mem m.kernel_directory t = pd_table m.mem m.kernel_directory t := by
  unfold JamesM.free_frame
  dsimp only
  split
  · exact ⟨k, .refl _ _ _, rfl, .refl _ _, fun _ _ => rfl⟩
  · obtain ⟨h1, h2, h3, h4⟩ := k.store_entry { m with
      frames := clear_frame m.frames (read_page m.mem p).p_frame
      mem := write_page m.mem p { read_page m.mem p with p_frame := 0 } } hp rfl rfl rfl rfl rfl
    exact ⟨h1, h2, rfl, h3, h4⟩

theorem nframes_free_frame (p : Nat) (m : Machine) : (free_frame p m).nframes = m.nframes := by
  unfold free_frame
  dsimp only
  split <;> rfl

/-- The loop of `contract` stores to page entries of the heap only. -/
theorem Kernel.contract_loop {regs : List Region} {live : List (Nat × Nat)} (new_size n : Nat) :
    ∀ {i : Nat} {m : Machine}, Kernel regs live m → i % 0x1000 = 0 →
      m.heap.h_addr_start + i < m.heap.h_addr_end →
      Kernel regs live (contract_loop new_size n i m)
        ∧ Preserves regs regs live m (JamesM.contract_loop new_size n i m)
        ∧ (JamesM.contract_loop new_size n i m).heap = m.heap
        ∧ (JamesM.contract_loop new_size n i m).nframes = m.nframes
        ∧ SameFooters regs m.mem (JamesM.contract_loop new_size n i m).mem
        ∧ ∀ t, t < 1024 → pd_table (JamesM.contract_loop new_size n i m).mem m.kernel_directory t
            = pd_table m.mem m.kernel_directory t := by
  induction n with
  | zero => intro i m k _ _; exact ⟨k, .refl _ _ _, rfl, rfl, .refl _ _, fun _ _ => rfl⟩
  | succ n ih =>
      intro i m k halign hi
      rw [JamesM.contract_loop]
      by_cases hlt : new_size < i
      · rw [if_pos hlt]
        have hmax := k.heap.bounds.max
        have hhigh := k.heap.bounds.high
        have hend := k.heap.bounds.end_aligned
        have ha : add32 m.heap.h_addr_start i = m.heap.h_addr_start + i := add32_of_lt (by omega)
        rw [ha]
        have hmapped := k.paging.mapped ((m.heap.h_addr_start + i) / 4096) (by omega) (by omega)
        have hentry : IsEntry m.kernel_directory m.mem
            (lookup_page m.mem (m.heap.h_addr_start + i) m.kernel_directory) := by
          rw [lookup_page_eq, if_pos hmapped]
          exact isEntry_page_entry (by omega) hmapped
        obtain ⟨k₁, hp₁, hheap₁, hfoot₁, htab₁⟩ := k.free_frame hentry
        have hsub : sub32 i 0x1000 = i - 0x1000 := sub32_of_le (by omega) (by omega)
        obtain ⟨k₂, hp₂, hheap₂, hnf₂, hfoot₂, htab₂⟩ := ih (i := sub32 i 0x1000) k₁ (by omega)
          (by rw [hheap₁]; omega)
        refine ⟨k₂, hp₁.trans hp₂, hheap₂.trans hheap₁, hnf₂.trans (nframes_free_frame _ _),
          hfoot₁.trans hfoot₂, fun t ht => ?_⟩
        have := htab₂ t ht
        rw [hp₁.directory] at this
        rw [this, htab₁ t ht]
      · rw [if_neg hlt]
        exact ⟨k, .refl _ _ _, rfl, rfl, .refl _ _, fun _ _ => rfl⟩

/-- Where the offset is small enough, `contract` settles on the minimal length. -/
theorem contract_size_of_le {x : Nat} (h : x ≤ VM_HEAP_MIN_SIZE) : contract_size x = VM_HEAP_MIN_SIZE := by
  unfold contract_size
  rw [land_bit12]
  have hmin : VM_HEAP_MIN_SIZE = 0x70000 := rfl
  dsimp only
  by_cases hbit : 4096 * (x / 4096 % 2) ≠ 0
  · rw [if_pos hbit, add32_of_lt (by omega), if_pos (by omega)]
  · rw [if_neg hbit]
    split <;> omega

theorem contract_ok {x n : Nat} {m m' : Machine} (h : contract x m = .ok (n, m')) :
    ∃ i m₁, i = sub32 (sub32 m.heap.h_addr_end m.heap.h_addr_start) 0x1000
      ∧ m₁ = contract_loop n (i / 0x1000 + 1) i m ∧ n = contract_size x
      ∧ m' = { m₁ with heap := { m₁.heap with h_addr_end := add32 m₁.heap.h_addr_start n } } := by
  unfold contract at h
  rw [bind_ok_iff] at h
  obtain ⟨-, -, h⟩ := h
  obtain ⟨h1, h2⟩ := Prod.mk.inj (Except.ok.inj h)
  subst h1
  exact ⟨_, _, rfl, rfl, rfl, h2.symm⟩

theorem contract_loop_heap (new_size n : Nat) : ∀ (i : Nat) (m : Machine),
    (contract_loop new_size n i m).heap = m.heap := by
  induction n with
  | zero => intro i m; rfl
  | succ n ih =>
      intro i m
      rw [contract_loop]
      split
      · rw [ih]
        unfold free_frame
        dsimp only
        split <;> rfl
      · rfl

/-- `contract` returns when it is asked for less than the heap has. -/
theorem contract_returns {new_size : Nat} {m : Machine}
    (hless : new_size < sub32 m.heap.h_addr_end m.heap.h_addr_start) :
    ∃ r, contract new_size m = .ok r ∧ r.2.heap.h_index = m.heap.h_index := by
  have hreturns : ∃ r, contract new_size m = .ok r := by
    unfold contract
    rw [decide_eq_true hless, KASSERT_true, ok_bind]
    exact ⟨_, rfl⟩
  obtain ⟨⟨n, m'⟩, hc⟩ := hreturns
  obtain ⟨i, m₁, -, hm₁, -, hm'⟩ := contract_ok hc
  refine ⟨_, hc, ?_⟩
  rw [hm']
  show m₁.heap.h_index = m.heap.h_index
  rw [hm₁, contract_loop_heap]

/-- The machine after `contract` and the resizing of the hole at `a`; `m₁` is what the loop left. -/
def contracted (a : Nat) (m m₁ : Machine) : Machine :=
  { m₁ with
    mem := put_footer (write32 m₁.mem (a + 8) (m.heap.h_addr_start + VM_HEAP_MIN_SIZE - a))
      (m.heap.h_addr_start + VM_HEAP_MIN_SIZE - 8) a
    heap := { m.heap with h_addr_end := m.heap.h_addr_start + VM_HEAP_MIN_SIZE } }

/-- What `free_contract` does to a hole that starts low enough. -/
theorem free_contract_ok {a size test_header : Nat} {m m' : Machine} (b : Bounds m.heap)
    (ha : m.heap.h_addr_start ≤ a) (hend : a + size = m.heap.h_addr_end)
    (hlow : a + 12 ≤ m.heap.h_addr_start + VM_HEAP_MIN_SIZE)
    (hsize : ∀ n i, i % 0x1000 = 0 → m.heap.h_addr_start + i < m.heap.h_addr_end →
      hh_size (contract_loop VM_HEAP_MIN_SIZE n i m).mem a = size)
    (h : free_contract a test_header m = .ok m') :
    ∃ n i, i % 0x1000 = 0 ∧ m.heap.h_addr_start + i < m.heap.h_addr_end
      ∧ m' = contracted a m (contract_loop VM_HEAP_MIN_SIZE n i m) := by
  have hlen := b.length_eq
  obtain ⟨b1, b2, b3, b4, b5, b6, b7⟩ := b
  have hoff : sub32 a m.heap.h_addr_start = a - m.heap.h_addr_start := sub32_of_le (by omega) ha
  have hcs : contract_size (a - m.heap.h_addr_start) = VM_HEAP_MIN_SIZE :=
    contract_size_of_le (by omega)
  unfold contracted
  generalize VM_HEAP_MIN_SIZE = min_size at *
  unfold free_contract at h
  rw [bind_ok_iff] at h
  obtain ⟨⟨n, m₂⟩, hc, h⟩ := h
  obtain ⟨i, m₁, hi, hm₁, hn, hm₂⟩ := contract_ok hc
  dsimp only at h
  rw [hoff, hcs] at hn
  rw [hlen, sub32_of_le (by omega) (by omega)] at hi
  subst hn
  have hread₁ := hsize (i / 0x1000 + 1) i (by omega) (by omega)
  rw [← hm₁] at hread₁
  rw [show m₁.heap = m.heap by rw [hm₁, contract_loop_heap], add32_of_lt (by omega)] at hm₂
  have hsize₂ : hh_size m₂.mem a = size := by rw [hm₂]; exact hread₁
  have hdiff : sub32 (m.heap.h_addr_end - m.heap.h_addr_start) n
      = m.heap.h_addr_end - m.heap.h_addr_start - n := sub32_of_le (by omega) (by omega)
  have hleft : sub32 size (m.heap.h_addr_end - m.heap.h_addr_start - n) = m.heap.h_addr_start + n - a := by
    rw [sub32_of_le (by omega) (by omega)]
    omega
  rw [hlen, hdiff, hsize₂, hleft, if_pos (by omega)] at h
  have hread : hh_size (write32 m₂.mem (a + 8) (m.heap.h_addr_start + n - a)) a
      = m.heap.h_addr_start + n - a := read32_write32 _ _ (by omega)
  have hfoot : sub32 (add32 a (m.heap.h_addr_start + n - a)) sizeof_footer
      = m.heap.h_addr_start + n - 8 := by
    unfold sub32 add32 sizeof_footer
    omega
  rw [hread, hfoot] at h
  have h := Except.ok.inj h
  refine ⟨i / 0x1000 + 1, i, by omega, by omega, ?_⟩
  rw [← h, hm₂, ← hm₁]

/-- **Shrinking the heap.**  The hole at the end gives up what lies above the minimal length. -/
theorem Kernel.contracted {pre : List Region} {g : Region} {live : List (Nat × Nat)} {m m' : Machine}
    {n i : Nat} (k : Kernel (pre ++ [g]) live m) (hhole : g.hole = true)
    (hend : g.addr + g.size = m.heap.h_addr_end)
    (hlow : g.addr + 20 ≤ m.heap.h_addr_start + VM_HEAP_MIN_SIZE)
    (halign : i % 0x1000 = 0) (hi : m.heap.h_addr_start + i < m.heap.h_addr_end)
    (h : m' = JamesM.contracted g.addr m (JamesM.contract_loop VM_HEAP_MIN_SIZE n i m)) :
    Kernel (pre ++ [{ g with size := m.heap.h_addr_start + VM_HEAP_MIN_SIZE - g.addr }]) live m'
      ∧ Preserves (pre ++ [g])
          (pre ++ [{ g with size := m.heap.h_addr_start + VM_HEAP_MIN_SIZE - g.addr }]) live m m'
      ∧ SameFooters pre m.mem m'.mem
      ∧ ∀ t, t < 1024 → pd_table m'.mem m.kernel_directory t = pd_table m.mem m.kernel_directory t := by
  have hmin : VM_HEAP_MIN_SIZE = 0x70000 := rfl
  obtain ⟨b1, b2, b3, b4, b5, b6, b7⟩ := id k.heap.bounds
  obtain ⟨hg1, hg2, hg3⟩ := k.heap.region_bounds (r := g) (by simp)
  -- the pages
  obtain ⟨k₁, hp₁, hheap₁, hnf₁, hfoot₁, htab₁⟩ := k.contract_loop VM_HEAP_MIN_SIZE n halign hi
  unfold JamesM.contracted at h
  generalize hms : VM_HEAP_MIN_SIZE = min_size at *
  generalize JamesM.contract_loop min_size n i m = m₁ at *
  -- the hole
  have hhdr := k₁.heap.head g (by simp)
  have hheap' : m'.heap = { m.heap with h_addr_end := m.heap.h_addr_start + min_size } := by rw [h]
  have hout : EqOutside g.addr (m.heap.h_addr_start + min_size) m₁.mem m'.mem := by
    rw [h]
    exact ((EqOutside.refl _ _ _).write32 _ (by omega) (by omega)).trans
      ((put_footer_eqOutside _ _ _).mono (by omega) (by omega))
  have hhdr' : HdrAt m'.mem { g with size := m.heap.h_addr_start + min_size - g.addr } := by
    rw [h]
    exact (hhdr.set_size _ (by omega)).of_eqOutside (put_footer_eqOutside _ _ _) (.inl (by dsimp only; omega))
  have hdir₁ := hp₁.directory
  have hdoff := k.paging.dir_off
  have htab : ∀ t, t < 1024 → pd_table m'.mem m.kernel_directory t = pd_table m.mem m.kernel_directory t :=
    fun t ht => by
      rw [← htab₁ t ht]
      exact hout.read32 (by omega)
  have hbefore := k.heap.tiled.around.1
  have hready' : m'.heap_ready = m.heap_ready := by rw [h]; exact k₁.paging.ready.trans k.paging.ready.symm
  have hdir' : m'.kernel_directory = m.kernel_directory := by rw [h]; exact hdir₁
  have hnf' : m'.nframes = m.nframes := by rw [h]; exact hnf₁
  -- the blocks are all before the hole
  have hold : ∀ r ∈ pre ++ [g], r.hole = false → r ∈ pre := by
    intro r hr hrb
    rcases List.mem_append.mp hr with hr | hr
    · exact hr
    · rw [List.mem_singleton.mp hr, hhole] at hrb
      exact absurd hrb (by decide)
  have inv' : HeapInv (pre ++ [{ g with size := m.heap.h_addr_start + min_size - g.addr }]) m' := by
    refine k₁.heap.rebuild ?_ ?_ (fun r hr => ?_) ?_ (by rw [hheap']; exact k.heap.cmp)
    · rw [hheap']
      exact ⟨b1, b2, by dsimp only; omega, by dsimp only; omega, by dsimp only; omega, b6, b7⟩
    · rw [hheap']
      refine tiles_append.mpr ⟨_, k.heap.tiled.cut.1, tiles_singleton.mpr ⟨rfl, ?_⟩⟩
      dsimp only
      omega
    · rcases List.mem_append.mp hr with hr | hr
      · have := hbefore r hr
        exact .inl ⟨by simp [hr], fun x h1 h2 => hout x (by omega)⟩
      · rw [List.mem_singleton.mp hr]
        refine .inr ⟨by dsimp only; omega, hhdr', fun hb => ?_⟩
        exact absurd (hhole.symm.trans hb) (by decide)
    · rw [hheap']
      have hp := k.heap.index
      rw [holes_append, holes_cons] at hp ⊢
      exact hp
  have hp' : Preserves (pre ++ [g]) (pre ++ [{ g with size := m.heap.h_addr_start + min_size - g.addr }])
      live m m' := by
    refine ⟨by rw [hheap'], by rw [hheap'], hdir', fun t ht _ => htab t ht,
      fun t ht hz hne => absurd ((htab t ht).trans hz) hne, fun r hr hrb => List.mem_append_left _ (hold r hr hrb),
      fun l hl x h1 h2 => ?_⟩
    obtain ⟨r, hr, hrb, hra, hrs⟩ := k.block l hl
    have := hbefore r (hold r hr hrb)
    rw [hout x (by omega)]
    exact hp₁.payload l hl x h1 h2
  have hfoot' : SameFooters pre m.mem m'.mem := by
    intro r hr x h1 h2 h3
    have := hbefore r hr
    rw [hout x (by omega)]
    exact hfoot₁ r (List.mem_append_left _ hr) x h1 h2 h3
  refine ⟨⟨inv', ?_, fun l hl => ?_, k.nodup⟩, hp', hfoot', htab⟩
  · exact k.paging.of_blocks hready' hnf' hdir' (by rw [hheap']) (by rw [hheap'])
      (by rw [hheap']; dsimp only; omega)
      (fun q h1 h2 => k.paging.mapped q h1 (by rw [hheap'] at h2; dsimp only at h2; omega))
      htab fun r hr hrb hl => ⟨List.mem_append_left _ (hold r hr hrb), hl⟩
  · obtain ⟨r, hr, hrb, hra, hrs⟩ := k.block l hl
    exact ⟨r, List.mem_append_left _ (hold r hr hrb), hrb, hra, hrs⟩

/-! ## §3. The whole call. -/

/-- The machine with another hole index. -/
def Machine.withIndex (m : Machine) (idx : SortedArray Mem Nat) : Machine :=
  { m with heap := { m.heap with h_index := idx } }

theorem contract_loop_withIndex (new_size n : Nat) (idx : SortedArray Mem Nat) : ∀ (i : Nat) (m : Machine),
    contract_loop new_size n i (m.withIndex idx) = (contract_loop new_size n i m).withIndex idx := by
  induction n with
  | zero => intro i m; rfl
  | succ n ih =>
      intro i m
      have hfree : ∀ p, free_frame p (m.withIndex idx) = (free_frame p m).withIndex idx := by
        intro p
        unfold free_frame Machine.withIndex
        dsimp only
        split <;> rfl
      rw [contract_loop, contract_loop]
      split
      · rw [← ih, ← hfree]
        rfl
      · rfl

/-- The holes on both sides and the block between them become one hole, which is then in the index. -/
theorem Kernel.coalesce {pre lefts rights post : List Region} {b : Region} {live : List (Nat × Nat)}
    {m m₂ : Machine} {a e p : Nat} (k : Kernel (pre ++ lefts ++ b :: (rights ++ post)) live m)
    (idx : SortedArray Mem Nat) (hbp : b.addr + 12 = p)
    (hp : p ∈ live.map Prod.fst) (hlefts : ∀ r ∈ lefts, r.hole = true) (hrights : ∀ r ∈ rights, r.hole = true)
    (htl : Tiled a (lefts ++ [b]) (b.addr + b.size)) (htr : Tiled (b.addr + b.size) rights e)
    (hhdr : HdrAt m₂.mem ⟨a, e - a, true⟩) (hout : EqOutside a e m.mem m₂.mem)
    (hm₂ : m₂ = { m with mem := m₂.mem, heap := { m.heap with h_index := m₂.heap.h_index } })
    (hcmp : idx.sa_cmp = some vm_heap_header_cmp) (hperm : idx.entries.Perm (holes pre ++ a :: holes post)) :
    Kernel (pre ++ ⟨a, e - a, true⟩ :: post) (live.filter fun l => l.1 != p) (m₂.withIndex idx)
      ∧ Preserves (pre ++ post) (pre ++ ⟨a, e - a, true⟩ :: post) (live.filter fun l => l.1 != p) m
          (m₂.withIndex idx)
      ∧ ∀ t, t < 1024 → pd_table m₂.mem m.kernel_directory t = pd_table m.mem m.kernel_directory t := by
  have hb : b ∈ pre ++ lefts ++ b :: (rights ++ post) := by simp
  obtain ⟨hb1, hb2, hb3⟩ := k.heap.region_bounds hb
  obtain ⟨b1, b2, b3, b4, b5, b6, b7⟩ := id k.heap.bounds
  -- where everything lies
  obtain ⟨c, hc1, hc2⟩ := tiles_append.mp htl
  have hca : c = b.addr := hc2.1.symm
  subst hca
  have hab := hc1.le
  have hbe := htr.le
  have hpre : Tiled m.heap.h_addr_start pre a := by
    obtain ⟨c, h1, h2⟩ := tiles_append.mp k.heap.tiled.cut.1
    rw [← h2.start_unique hc1]
    exact h1
  have hpost : Tiled e post m.heap.h_addr_end := by
    obtain ⟨c, h1, h2⟩ := tiles_append.mp k.heap.tiled.cut.2
    rw [← h1.end_unique htr]
    exact h2
  have hbefore : ∀ r ∈ pre, r.addr + r.size ≤ a := fun r hr => (hpre.bounds r hr).2
  have hafter : ∀ r ∈ post, e ≤ r.addr := fun r hr => (hpost.bounds r hr).1
  have hstart := hpre.le
  have hend := hpost.le
  -- the other blocks are before the hole or after it
  have hold : ∀ r ∈ pre ++ lefts ++ b :: (rights ++ post), r.hole = false → r.addr + 12 ≠ p → r ∈ pre ++ post := by
    intro r hr hrb hne
    simp only [List.mem_append, List.mem_cons] at hr ⊢
    rcases hr with (hr | hr) | rfl | hr | hr
    · exact .inl hr
    · rw [hlefts r hr] at hrb
      exact absurd hrb (by decide)
    · exact absurd hbp hne
    · rw [hrights r hr] at hrb
      exact absurd hrb (by decide)
    · exact .inr hr
  have hkeep : ∀ r ∈ pre ++ post, r ∈ pre ++ (⟨a, e - a, true⟩ : Region) :: post := by
    intro r hr
    simp only [List.mem_append, List.mem_cons] at hr ⊢
    tauto
  have hapart : ∀ r ∈ pre ++ post, r.addr + r.size ≤ a ∨ e ≤ r.addr := by
    intro r hr
    rcases List.mem_append.mp hr with hr | hr
    · exact .inl (hbefore r hr)
    · exact .inr (hafter r hr)
  have hoff := k.paging.dir_off
  have htab : ∀ t, t < 1024 → pd_table m₂.mem m.kernel_directory t = pd_table m.mem m.kernel_directory t :=
    fun t ht => hout.read32 (by omega)
  have hheap : (m₂.withIndex idx).heap = { m.heap with h_index := idx } := by
    unfold Machine.withIndex
    rw [hm₂]
  have hmem : ∀ l ∈ live.filter fun l => l.1 != p, l ∈ live ∧ l.1 ≠ p := by
    intro l hl
    obtain ⟨h1, h2⟩ := List.mem_filter.mp hl
    exact ⟨h1, by simpa using h2⟩
  have inv' : HeapInv (pre ++ ⟨a, e - a, true⟩ :: post) (m₂.withIndex idx) := by
    refine k.heap.rebuild (by rw [hheap]; exact ⟨b1, b2, b3, b4, b5, b6, b7⟩) ?_ (fun r hr => ?_) ?_
      (by rw [hheap]; exact hcmp)
    · rw [hheap]
      refine tiles_append.mpr ⟨a, hpre, rfl, ?_⟩
      rw [show a + (⟨a, e - a, true⟩ : Region).size = e by dsimp only; omega]
      exact hpost
    · by_cases hr' : r ∈ pre ++ post
      · have := hapart r hr'
        refine .inl ⟨?_, fun x h1 h2 => hout x (by omega)⟩
        simp only [List.mem_append, List.mem_cons] at hr' ⊢
        tauto
      · have hr'' : r = ⟨a, e - a, true⟩ := by
          simp only [List.mem_append, List.mem_cons] at hr hr'
          tauto
        subst hr''
        exact .inr ⟨by dsimp only; omega, hhdr, fun h => absurd h Bool.noConfusion⟩
    · rw [hheap, holes_append, holes_cons]
      exact hperm
  refine ⟨⟨inv', ?_, fun l hl => ?_, ?_⟩, ⟨by rw [hheap], by rw [hheap], by rw [hm₂]; rfl, fun t ht _ => htab t ht,
    fun t ht hz hne => absurd ((htab t ht).trans hz) hne, fun r hr _ => hkeep r hr, fun l hl x h1 h2 => ?_⟩, htab⟩
  · refine k.paging.of_blocks (by rw [hm₂]; rfl) (by rw [hm₂]; rfl) (by rw [hm₂]; rfl) (by rw [hheap])
      (by rw [hheap]) (by rw [hheap]; dsimp only; omega) (by rw [hheap]; exact k.paging.mapped) htab
      fun r hr hrb hl => ⟨hkeep r (hold r hr hrb fun h => hl (by rw [h]; exact hp)), fun hl' => hl ?_⟩
    obtain ⟨l, hl1, hl2⟩ := List.mem_map.mp hl'
    exact List.mem_map.mpr ⟨l, (hmem l hl1).1, hl2⟩
  · obtain ⟨hl1, hl2⟩ := hmem l hl
    obtain ⟨r, hr, hrb, hra, hrs⟩ := k.block l hl1
    exact ⟨r, hkeep r (hold r hr hrb fun h => hl2 (hra.symm.trans h)), hrb, hra, hrs⟩
  · exact k.nodup.sublist (List.filter_sublist.map _)
  · obtain ⟨hl1, hl2⟩ := hmem l hl
    obtain ⟨r, hr, hrb, hra, hrs⟩ := k.block l hl1
    have := hapart r (hold r hr hrb fun h => hl2 (hra.symm.trans h))
    exact hout x (by omega)

/-- `free_frame` stores to the entry only. -/
theorem free_frame_store (p : Nat) (m : Machine) :
    (free_frame p m).heap = m.heap ∧ (free_frame p m).kernel_directory = m.kernel_directory
      ∧ ((free_frame p m).mem = m.mem ∨ ∃ w, (free_frame p m).mem = write32 m.mem p w) := by
  unfold free_frame
  dsimp only
  split
  · exact ⟨rfl, rfl, .inl rfl⟩
  · exact ⟨rfl, rfl, .inr ⟨_, rfl⟩⟩

/-- The loop of `contract` stores to page entries only. -/
theorem contract_loop_frame {dir x : Nat} {mem : Mem} (tb : Tables dir mem)
    (hx : ∀ t, t < 1024 → pd_table mem dir t ≠ 0 → x < pd_table mem dir t ∨ pd_table mem dir t + 4096 ≤ x)
    (new_size n : Nat) : ∀ {i : Nat} {m : Machine}, m.kernel_directory = dir → Bounds m.heap →
      (∀ t, t < 1024 → pd_table m.mem dir t = pd_table mem dir t) →
      (∀ q, m.heap.h_addr_start / 0x1000 ≤ q → q < m.heap.h_addr_end / 0x1000 → pd_table mem dir (q / 1024) ≠ 0) →
      i % 0x1000 = 0 → m.heap.h_addr_start + i < m.heap.h_addr_end →
      (contract_loop new_size n i m).mem x = m.mem x := by
  induction n with
  | zero => intro i m _ _ _ _ _ _; rfl
  | succ n ih =>
      intro i m hdir hbounds htab hmapped halign hi
      rw [contract_loop]
      by_cases hlt : new_size < i
      · rw [if_pos hlt]
        obtain ⟨b1, b2, b3, b4, b5, b6, b7⟩ := id hbounds
        have hq := hmapped ((m.heap.h_addr_start + i) / 4096) (by omega) (by omega)
        have hentry : IsEntry dir m.mem (lookup_page m.mem (m.heap.h_addr_start + i) dir) := by
          rw [lookup_page_eq, htab _ (by omega), if_pos hq]
          exact isEntry_page_entry (by omega) (by rw [htab _ (by omega)]; exact hq)
        have hsub : sub32 i 0x1000 = i - 0x1000 := sub32_of_le (by omega) (by omega)
        rw [add32_of_lt (by omega), hdir, hsub]
        generalize lookup_page m.mem (m.heap.h_addr_start + i) dir = p at hentry ⊢
        obtain ⟨hheap, hkd, hmem⟩ := free_frame_store p m
        have hnext : (free_frame p m).mem x = m.mem x
            ∧ ∀ t, t < 1024 → pd_table (free_frame p m).mem dir t = pd_table m.mem dir t := by
          rcases hmem with hmem | ⟨w, hmem⟩
          · exact ⟨by rw [hmem], fun t _ => by rw [hmem]⟩
          · refine ⟨?_, by rw [hmem]; exact ((tb.congr htab).store_frame hentry w).1⟩
            obtain ⟨t, j, ht, hj, hne, rfl⟩ := hentry
            rw [htab t ht] at hne
            have hoff := hx t ht hne
            rw [hmem, htab t ht]
            exact write32_of_out _ _ (by omega)
        rw [ih (hkd.trans hdir) (by rw [hheap]; exact hbounds)
          (fun t ht => (hnext.2 t ht).trans (htab t ht)) (by rw [hheap]; exact hmapped) (by omega)
          (by rw [hheap]; omega)]
        exact hnext.1
      · rw [if_neg hlt]

/-- The loop of `contract` does not touch a size in a hole or in the header of a block that is held. -/
theorem Kernel.loop_size {regs : List Region} {live : List (Nat × Nat)} {m m₂ : Machine} {r : Region}
    {a lo hi : Nat} (k : Kernel regs live m) (hr : r ∈ regs)
    (hfree : r.hole = true ∨ r.addr + 12 ∈ live.map Prod.fst)
    (ha : r.addr ≤ a) (ha' : a + 12 ≤ r.addr + r.size) (hout : EqOutside lo hi m.mem m₂.mem)
    (hlo : m.heap.h_addr_start ≤ lo) (hhi : hi ≤ m.heap.h_addr_end)
    (hm₂ : m₂ = { m with mem := m₂.mem, heap := { m.heap with h_index := m₂.heap.h_index } })
    (new_size n : Nat) {i : Nat} (halign : i % 0x1000 = 0) (hi : m₂.heap.h_addr_start + i < m₂.heap.h_addr_end) :
    hh_size (JamesM.contract_loop new_size n i m₂).mem a = hh_size m₂.mem a := by
  have hoff := k.paging.dir_off
  have hmax := k.heap.bounds.max
  have htab : ∀ t, t < 1024 → pd_table m₂.mem m.kernel_directory t = pd_table m.mem m.kernel_directory t :=
    fun t ht => hout.read32 (by omega)
  refine read32_congr fun x h1 h2 => contract_loop_frame k.paging.tables (fun t ht hne => ?_) new_size n
    (by rw [hm₂]) ?_ htab ?_ halign hi
  · have := (k.heap.table_apart (k.paging.place t ht hne) hr).2.2 hfree
    omega
  · rw [hm₂]
    obtain ⟨b1, b2, b3, b4, b5, b6, b7⟩ := k.heap.bounds
    exact ⟨b1, b2, b3, b4, b5, b6, b7⟩
  · rw [hm₂]
    exact k.paging.mapped

/-- The parts of a call on a block. -/
theorem free_ok {p : Nat} {m m' : Machine} (hp : p ≠ 0) (hready : m.heap_ready = true)
    (h : free p m = .ok m') :
    free_hole (sub32 p sizeof_header)
      (sub32 (add32 (sub32 p sizeof_header) (hh_size m.mem (sub32 p sizeof_header))) sizeof_footer)
      { m with mem := flagged (sub32 p sizeof_header) m.mem } = .ok m' := by
  have hc : ¬ (p = 0 ∨ m.heap_ready = false) := by
    rw [hready]
    simp [hp]
  unfold free free_block at h
  rw [if_neg hc, bind_ok_iff] at h
  obtain ⟨-, -, h⟩ := h
  rw [bind_ok_iff] at h
  obtain ⟨-, -, h⟩ := h
  exact h

theorem free_hole_ok {header footer a : Nat} {do_add : Bool} {mem : Mem} {m m' : Machine}
    (hleft : unify_left header footer m.mem = (a, do_add, mem)) (h : free_hole header footer m = .ok m') :
    ∃ f m₂ m₃, unify_right a footer { m with mem := mem } = .ok (f, m₂)
      ∧ free_end a (add32 footer sizeof_footer) f m₂ = .ok m₃ ∧ free_add do_add a m₃ = .ok m' := by
  unfold free_hole at h
  rw [hleft, bind_ok_iff] at h
  obtain ⟨⟨f, m₂⟩, hright, h⟩ := h
  rw [bind_ok_iff] at h
  obtain ⟨m₃, hend, h⟩ := h
  exact ⟨f, m₂, m₃, hright, hend, h⟩

/-- The index after `free_add`. -/
theorem free_add_ok {do_add : Bool} {a : Nat} {m m' : Machine}
    (hcmp : m.heap.h_index.sa_cmp = some vm_heap_header_cmp) (h : free_add do_add a m = .ok m') :
    m' = m.withIndex m'.heap.h_index ∧ m'.heap.h_index.sa_cmp = some vm_heap_header_cmp
      ∧ m'.heap.h_index.entries = if do_add then
          m.heap.h_index.entries.orderedInsert (fun x y => ¬ vm_heap_header_cmp m'.mem y x < 0) a
        else m.heap.h_index.entries := by
  unfold free_add at h
  cases do_add with
  | false =>
      rw [if_neg (by decide)] at h
      have h := Except.ok.inj h
      rw [← h, if_neg (by decide)]
      exact ⟨rfl, hcmp, rfl⟩
  | true =>
      rw [if_pos rfl, bind_ok_iff] at h
      obtain ⟨idx, hins, h⟩ := h
      have h := Except.ok.inj h
      obtain ⟨-, -, hcmp', hentries⟩ := insert_sorted_array_entries hcmp hins
      rw [← h, if_pos rfl]
      exact ⟨rfl, hcmp'.trans hcmp, hentries⟩

/-- The freed block `b`, joined with the holes around it to one from `a` to `e`; neither `contract` nor
    the insertion in the index has happened yet. -/
structure Joined (pre lefts : List Region) (b : Region) (rights post : List Region) (a e : Nat)
    (m m₂ : Machine) : Prop where
  block : b.hole = false
  lefts_holes : ∀ r ∈ lefts, r.hole = true
  listed : holes lefts = if lefts = [] then [] else [a]
  rights_holes : ∀ r ∈ rights, r.hole = true
  low : m.heap.h_addr_start ≤ a
  below : a ≤ b.addr
  high : e ≤ m.heap.h_addr_end
  left : Tiled a (lefts ++ [b]) (b.addr + b.size)
  right : Tiled (b.addr + b.size) rights e
  header : HdrAt m₂.mem ⟨a, e - a, true⟩
  foot : rights = [] → FtrAt m₂.mem ⟨a, e - a, true⟩
  outside : EqOutside a (b.addr + b.size) m.mem m₂.mem
  machine : m₂ = { m with mem := m₂.mem, heap := { m.heap with h_index := m₂.heap.h_index } }
  cmp : m₂.heap.h_index.sa_cmp = m.heap.h_index.sa_cmp
  perm : m.heap.h_index.entries.Perm (holes rights ++ m₂.heap.h_index.entries)
  erased : m₂.heap.h_index.entries = m.heap.h_index.entries.erase (b.addr + b.size)

/-- **Coalescing**, and what is left of the call after it. -/
theorem Kernel.free_joined {regs : List Region} {live : List (Nat × Nat)} {m m' : Machine} {p : Nat}
    (k : Kernel regs live m) (hp : p ∈ live.map Prod.fst) (hsafe : FreeSafe p m) (h : free p m = .ok m') :
    ∃ pre lefts b rights post m₂ m₃, regs = pre ++ lefts ++ b :: (rights ++ post) ∧ b.addr + 12 = p
      ∧ Joined pre lefts b rights post (freed_start b.addr m.mem) (freed_end b.addr m.mem) m m₂
      ∧ (if freed_end b.addr m.mem = m.heap.h_addr_end then
            free_contract (freed_start b.addr m.mem) (b.addr + b.size) m₂
          else .ok m₂) = .ok m₃
      ∧ free_add (decide (lefts = [])) (freed_start b.addr m.mem) m₃ = .ok m' := by
  obtain ⟨l, hl, rfl⟩ := List.mem_map.mp hp
  obtain ⟨b, hb, hblock, hbp, hbs⟩ := k.block l hl
  obtain ⟨pre₀, post₀, rfl⟩ := exists_cut hb
  obtain ⟨hb1, hb2, hb3⟩ := k.heap.region_bounds hb
  obtain ⟨b1, b2, b3, b4, b5, b6, b7⟩ := id k.heap.bounds
  have hbsize := (k.heap.head b hb).size
  have haddr : l.1 - 12 = b.addr := by omega
  have hheader : sub32 l.1 sizeof_header = b.addr := by
    unfold sub32 sizeof_header
    omega
  have hfooter : sub32 (add32 b.addr b.size) sizeof_footer = b.addr + b.size - 8 := by
    unfold sub32 add32 sizeof_footer
    omega
  have htest : add32 (b.addr + b.size - 8) sizeof_footer = b.addr + b.size := by
    unfold add32 sizeof_footer
    omega
  have hsafe' := hsafe.left
  rw [haddr] at hsafe'
  have hhole := free_ok (by omega) k.paging.ready h
  rw [hheader, hbsize, hfooter] at hhole
  obtain ⟨pre, lefts, a, mem, rfl, hlefts, hlh, ha, hsa, hab, htl, hunify, hhdr, hout, hfoot⟩ :=
    k.heap.unify_left hblock hsafe'
  obtain ⟨f, m₂, m₃, hright, hend, hadd⟩ := free_hole_ok (m := { m with mem := flagged b.addr m.mem })
    hunify hhole
  obtain ⟨rights, post, e, rfl, hf, ru⟩ := k.heap.unify_right hblock hsa hab hhdr.size hout hright
  have hele := ru.high
  have hbe := ru.tiled.le
  have hend₂ : m₂.heap.h_addr_end = m.heap.h_addr_end := by rw [ru.machine]
  have hf8 : add32 f sizeof_footer = e := by
    unfold add32 sizeof_footer
    omega
  unfold free_end at hend
  rw [hf8, hend₂, htest] at hend
  refine ⟨pre, lefts, b, rights, post, m₂, m₃, rfl, hbp, ?_⟩
  rw [← ha, ← ru.end_eq]
  refine ⟨⟨hblock, hlefts, hlh, ru.rights_holes, hsa, hab, hele, htl, ru.tiled, ru.header hhdr (by omega),
    fun hr => ?_, ru.outside hout (by omega), ru.machine, ru.cmp, ru.perm, ru.erased⟩, hend, hadd⟩
  have htr := ru.tiled
  rw [hr] at htr
  rw [ru.mem_eq, if_pos hr, htr.end_unique rfl]
  exact hfoot

/-- **A joined hole that ends the heap is contracted** to the minimal length. -/
theorem Kernel.joined_contract {pre lefts rights post : List Region} {b : Region} {live : List (Nat × Nat)}
    {m m₂ m₃ : Machine} {a e p : Nat} (k : Kernel (pre ++ lefts ++ b :: (rights ++ post)) live m)
    (hj : Joined pre lefts b rights post a e m m₂) (hbp : b.addr + 12 = p) (hp : p ∈ live.map Prod.fst)
    (hlast : e = m.heap.h_addr_end) (hlow : a + 20 ≤ m.heap.h_addr_start + VM_HEAP_MIN_SIZE)
    (h : free_contract a (b.addr + b.size) m₂ = .ok m₃) :
    ∃ n i, i % 0x1000 = 0 ∧ m₂.heap.h_addr_start + i < m₂.heap.h_addr_end
      ∧ m₃ = JamesM.contracted a m₂ (JamesM.contract_loop VM_HEAP_MIN_SIZE n i m₂) := by
  obtain ⟨b1, b2, b3, b4, b5, b6, b7⟩ := id k.heap.bounds
  have hlow' := hj.low
  have hend₂ : m₂.heap.h_addr_end = m.heap.h_addr_end := by rw [hj.machine]
  have hstart₂ : m₂.heap.h_addr_start = m.heap.h_addr_start := by rw [hj.machine]
  have hout₂ : EqOutside a e m.mem m₂.mem := hj.outside.mono (Nat.le_refl _) hj.right.le
  -- the header is that of the block, or that of the hole before it
  obtain ⟨r, hr, hfree, hra, hrs⟩ : ∃ r ∈ pre ++ lefts ++ b :: (rights ++ post),
      (r.hole = true ∨ r.addr + 12 ∈ live.map Prod.fst) ∧ r.addr = a ∧ 20 ≤ r.size := by
    have hl := hj.left
    cases hcase : lefts with
    | nil =>
        rw [hcase] at hl
        refine ⟨b, by simp, .inr (by rw [hbp]; exact hp), hl.1, k.heap.size b (by simp)⟩
    | cons r lefts' =>
        rw [hcase] at hl
        refine ⟨r, by simp, .inl (hj.lefts_holes r (by rw [hcase]; simp)), hl.1,
          k.heap.size r (by rw [hcase]; simp)⟩
  have hsize : ∀ n i, i % 0x1000 = 0 → m₂.heap.h_addr_start + i < m₂.heap.h_addr_end →
      hh_size (JamesM.contract_loop VM_HEAP_MIN_SIZE n i m₂).mem a = e - a := fun n i halign hi =>
    (k.loop_size hr hfree (by omega) (by omega) hout₂ hj.low hj.high hj.machine _ n halign hi).trans hj.header.size
  have hbounds₂ : Bounds m₂.heap := by
    rw [hj.machine]
    exact ⟨b1, b2, b3, b4, b5, b6, b7⟩
  exact free_contract_ok hbounds₂ (by omega) (by omega) (by omega) hsize h

/-- The length of the hole a freed block becomes, from the place where it starts. -/
def freed_size (header : Nat) (m : Machine) : Nat :=
  if freed_end header m.mem = m.heap.h_addr_end then
    m.heap.h_addr_start + VM_HEAP_MIN_SIZE - freed_start header m.mem
  else freed_end header m.mem - freed_start header m.mem

theorem Joined.tiled {pre lefts rights post : List Region} {b : Region} {m m₂ : Machine} {a e : Nat}
    (hj : Joined pre lefts b rights post a e m m₂) : Tiled a (lefts ++ b :: rights) e := by
  obtain ⟨c, hc1, hc2⟩ := tiles_append.mp hj.left
  have hcb : b.addr = c := hc2.1
  subst hcb
  exact tiles_append.mpr ⟨_, hc1, rfl, hj.right⟩

/-- Whatever order `free_add` inserts in, the index then lists the new hole. -/
theorem Joined.index_perm {pre lefts rights post : List Region} {b : Region} {m m₂ : Machine} {a e : Nat}
    (hj : Joined pre lefts b rights post a e m m₂)
    (hindex : m.heap.h_index.entries.Perm (holes (pre ++ lefts ++ b :: (rights ++ post))))
    {r : Nat → Nat → Prop} [DecidableRel r] {l : List Nat}
    (hl : l = if lefts = [] then (m.heap.h_index.entries.erase (b.addr + b.size)).orderedInsert r a
      else m.heap.h_index.entries.erase (b.addr + b.size)) : l.Perm (holes pre ++ a :: holes post) := by
  refine List.perm_iff_count.mpr fun x => ?_
  have h1 := hindex.count_eq x
  have h2 := hj.perm.count_eq x
  simp only [holes_append, holes_cons, hj.block, Bool.false_eq_true, if_false, hj.listed,
    List.count_append] at h1 h2
  rw [hl, ← hj.erased]
  by_cases hl0 : lefts = []
  · rw [if_pos hl0, (List.perm_orderedInsert _ _ _).count_eq x]
    rw [if_pos hl0] at h1
    simp only [List.count_append, List.count_cons, List.count_nil] at h1 ⊢
    omega
  · rw [if_neg hl0]
    rw [if_neg hl0] at h1
    simp only [List.count_append, List.count_cons, List.count_nil] at h1 ⊢
    omega

/-- The index at the end of the call, when nothing but the joining has touched it. -/
theorem Joined.free_add_ok {pre lefts rights post : List Region} {b : Region} {m m₂ m₃ m' : Machine} {a e : Nat}
    (hj : Joined pre lefts b rights post a e m m₂) (hcmp : m.heap.h_index.sa_cmp = some vm_heap_header_cmp)
    (hidx : m₃.heap.h_index = m₂.heap.h_index) (h : free_add (decide (lefts = [])) a m₃ = .ok m') :
    m' = m₃.withIndex m'.heap.h_index ∧ m'.heap.h_index.sa_cmp = some vm_heap_header_cmp
      ∧ m'.heap.h_index.entries = if lefts = [] then
          (m.heap.h_index.entries.erase (b.addr + b.size)).orderedInsert
            (fun x y => ¬ vm_heap_header_cmp m'.mem y x < 0) a
        else m.heap.h_index.entries.erase (b.addr + b.size) := by
  obtain ⟨hm', hcmp', hentries'⟩ := JamesM.free_add_ok (by rw [hidx, hj.cmp]; exact hcmp) h
  rw [hidx, hj.erased] at hentries'
  refine ⟨hm', hcmp', ?_⟩
  rw [hentries']
  simp only [decide_eq_true_eq]

/-- A joined hole that ends the heap is its last region. -/
theorem Kernel.joined_last {pre lefts rights post : List Region} {b : Region} {live : List (Nat × Nat)}
    {m m₂ : Machine} {a e : Nat} (k : Kernel (pre ++ lefts ++ b :: (rights ++ post)) live m)
    (hj : Joined pre lefts b rights post a e m m₂) (hlast : e = m.heap.h_addr_end) : post = [] := by
  obtain ⟨c, hc1, hc2⟩ := tiles_append.mp k.heap.tiled.cut.2
  rw [hc1.end_unique hj.right] at hc2
  cases post with
  | nil => rfl
  | cons r post =>
      have h1 := hc2.bounds r List.mem_cons_self
      have h2 := k.heap.size r (by simp)
      omega

/-- The last stores of `free_contract` are the length in the header and the footer at the new end. -/
theorem contracted_foot {a : Nat} {m : Machine} (hb : Bounds m.heap)
    (hlow : a + 20 ≤ m.heap.h_addr_start + VM_HEAP_MIN_SIZE) (looped : Machine) :
    FtrAt (JamesM.contracted a m looped).mem ⟨a, m.heap.h_addr_start + VM_HEAP_MIN_SIZE - a, true⟩ := by
  obtain ⟨b1, b2, b3, b4, b5, b6, b7⟩ := id hb
  have hfoot := ftrAt_put_footer (write32 looped.mem (a + 8) (m.heap.h_addr_start + VM_HEAP_MIN_SIZE - a))
    ⟨a, m.heap.h_addr_start + VM_HEAP_MIN_SIZE - a, true⟩ (by dsimp only; omega)
  dsimp only at hfoot
  rw [show a + (m.heap.h_addr_start + VM_HEAP_MIN_SIZE - a) - 8 = m.heap.h_addr_start + VM_HEAP_MIN_SIZE - 8
    by omega] at hfoot
  exact hfoot

/-- What `free` makes of a joined hole at the end of the heap. -/
theorem Kernel.joined_tail {pre lefts rights post : List Region} {b : Region} {live : List (Nat × Nat)}
    {m m₂ m₃ m' : Machine} {a e p : Nat} (k : Kernel (pre ++ lefts ++ b :: (rights ++ post)) live m)
    (hj : Joined pre lefts b rights post a e m m₂) (hbp : b.addr + 12 = p) (hp : p ∈ live.map Prod.fst)
    (hlast : e = m.heap.h_addr_end) (hlow : a + 20 ≤ m.heap.h_addr_start + VM_HEAP_MIN_SIZE)
    (hend : free_contract a (b.addr + b.size) m₂ = .ok m₃)
    (hadd : free_add (decide (lefts = [])) a m₃ = .ok m') :
    Kernel (pre ++ ⟨a, m.heap.h_addr_start + VM_HEAP_MIN_SIZE - a, true⟩ :: post)
        (live.filter fun l => l.1 != p) m'
      ∧ Preserves (pre ++ post) (pre ++ ⟨a, m.heap.h_addr_start + VM_HEAP_MIN_SIZE - a, true⟩ :: post)
        (live.filter fun l => l.1 != p) m m'
      ∧ (m'.heap.h_index.entries = if lefts = [] then
          (m.heap.h_index.entries.erase (b.addr + b.size)).orderedInsert
            (fun x y => ¬ vm_heap_header_cmp m'.mem y x < 0) a
        else m.heap.h_index.entries.erase (b.addr + b.size))
      ∧ FtrAt m'.mem ⟨a, m.heap.h_addr_start + VM_HEAP_MIN_SIZE - a, true⟩ ∧ SameFooters pre m.mem m'.mem := by
  have hpost := k.joined_last hj hlast
  subst hpost
  have hbelow := hj.below
  have hbe := hj.right.le
  have hout₂ : EqOutside a e m.mem m₂.mem := hj.outside.mono (Nat.le_refl _) hbe
  have hend₂ : m₂.heap.h_addr_end = m.heap.h_addr_end := by rw [hj.machine]
  have hstart₂ : m₂.heap.h_addr_start = m.heap.h_addr_start := by rw [hj.machine]
  obtain ⟨n, i, halign, hi, hm₃⟩ := k.joined_contract hj hbp hp hlast hlow hend
  have hidx₃ : m₃.heap.h_index = m₂.heap.h_index := by
    rw [hm₃]
    rfl
  obtain ⟨hm', hcmp', hentries'⟩ := hj.free_add_ok k.heap.cmp hidx₃ hadd
  obtain ⟨k₂, hp₂, -⟩ := k.coalesce m'.heap.h_index hbp hp hj.lefts_holes hj.rights_holes hj.left hj.right
    hj.header hout₂ hj.machine hcmp' (hj.index_perm k.heap.index hentries')
  -- the index and the contraction do not look at each other
  have hcon : m' = JamesM.contracted a (m₂.withIndex m'.heap.h_index)
      (JamesM.contract_loop VM_HEAP_MIN_SIZE n i (m₂.withIndex m'.heap.h_index)) := by
    rw [contract_loop_withIndex, hm', hm₃]
    rfl
  have hs : (m₂.withIndex m'.heap.h_index).heap.h_addr_start = m.heap.h_addr_start := hstart₂
  have he₂ : (m₂.withIndex m'.heap.h_index).heap.h_addr_end = m.heap.h_addr_end := hend₂
  obtain ⟨k', hp', hfoot₃, -⟩ := k₂.contracted rfl (by rw [he₂]; dsimp only; omega) (by rw [hs]; exact hlow)
    halign hi hcon
  rw [hs] at k' hp'
  refine ⟨k', hp₂.trans hp', hentries', ?_, fun r hr x h1 h2 h3 => ?_⟩
  · have hfoot := contracted_foot k₂.heap.bounds (by rw [hs]; exact hlow)
      (JamesM.contract_loop VM_HEAP_MIN_SIZE n i (m₂.withIndex m'.heap.h_index))
    rw [← hcon, hs] at hfoot
    exact hfoot
  · have hbefore := k₂.heap.tiled.around.1 r hr
    dsimp only at hbefore
    rw [hfoot₃ r hr x h1 h2 h3]
    exact hout₂ x (by omega)

/-- What `free` makes of a joined hole with regions after it. -/
theorem Kernel.joined_inside {pre lefts rights post : List Region} {b : Region} {live : List (Nat × Nat)}
    {m m₂ m' : Machine} {a e p : Nat} (k : Kernel (pre ++ lefts ++ b :: (rights ++ post)) live m)
    (hj : Joined pre lefts b rights post a e m m₂) (hbp : b.addr + 12 = p) (hp : p ∈ live.map Prod.fst)
    (hadd : free_add (decide (lefts = [])) a m₂ = .ok m') :
    Kernel (pre ++ ⟨a, e - a, true⟩ :: post) (live.filter fun l => l.1 != p) m'
      ∧ Preserves (pre ++ post) (pre ++ ⟨a, e - a, true⟩ :: post) (live.filter fun l => l.1 != p) m m'
      ∧ m'.heap.h_addr_end = m.heap.h_addr_end
      ∧ (m'.heap.h_index.entries = if lefts = [] then
          (m.heap.h_index.entries.erase (b.addr + b.size)).orderedInsert
            (fun x y => ¬ vm_heap_header_cmp m'.mem y x < 0) a
        else m.heap.h_index.entries.erase (b.addr + b.size))
      ∧ EqOutside a (b.addr + b.size) m.mem m'.mem
      ∧ (rights = [] → FtrAt m'.mem ⟨a, e - a, true⟩) := by
  have hout₂ : EqOutside a e m.mem m₂.mem := hj.outside.mono (Nat.le_refl _) hj.right.le
  obtain ⟨hm', hcmp', hentries'⟩ := hj.free_add_ok k.heap.cmp rfl hadd
  obtain ⟨k', hp', -⟩ := k.coalesce m'.heap.h_index hbp hp hj.lefts_holes hj.rights_holes hj.left hj.right
    hj.header hout₂ hj.machine hcmp' (hj.index_perm k.heap.index hentries')
  rw [← hm'] at k' hp'
  have hmem' : m'.mem = m₂.mem := by
    rw [hm']
    rfl
  refine ⟨k', hp', ?_, hentries', ?_, fun hr => ?_⟩
  · rw [hm', Machine.withIndex, hj.machine]
  · rw [hmem']
    exact hj.outside
  · rw [hmem']
    exact hj.foot hr

/-- **`free` is safe.**  The block and the holes around it become one hole; everything else stays. -/
theorem Kernel.free {regs : List Region} {live : List (Nat × Nat)} {m m' : Machine} {p : Nat}
    (k : Kernel regs live m) (hp : p ∈ live.map Prod.fst) (hsafe : FreeSafe p m)
    (h : free p m = .ok m') :
    ∃ pre lefts b rights post, regs = pre ++ lefts ++ b :: (rights ++ post)
      ∧ b.addr = p - 12 ∧ b.hole = false ∧ (∀ r ∈ lefts, r.hole = true) ∧ (∀ r ∈ rights, r.hole = true)
      ∧ Tiled (freed_start (p - 12) m.mem) (lefts ++ b :: rights) (freed_end (p - 12) m.mem)
      ∧ Kernel (pre ++ ⟨freed_start (p - 12) m.mem, freed_size (p - 12) m, true⟩ :: post)
          (live.filter fun l => l.1 != p) m'
      ∧ Preserves (pre ++ post)
          (pre ++ ⟨freed_start (p - 12) m.mem, freed_size (p - 12) m, true⟩ :: post)
          (live.filter fun l => l.1 != p) m m'
      ∧ (freed_end (p - 12) m.mem ≠ m.heap.h_addr_end → m'.heap.h_addr_end = m.heap.h_addr_end)
      ∧ (m'.heap.h_index.entries = if lefts = [] then
          (m.heap.h_index.entries.erase (b.addr + b.size)).orderedInsert
            (fun x y => ¬ vm_heap_header_cmp m'.mem y x < 0) (freed_start (p - 12) m.mem)
        else m.heap.h_index.entries.erase (b.addr + b.size))
      ∧ (freed_end (p - 12) m.mem = m.heap.h_addr_end →
        post = [] ∧ FtrAt m'.mem ⟨freed_start (p - 12) m.mem, freed_size (p - 12) m, true⟩
          ∧ SameFooters pre m.mem m'.mem)
      ∧ (freed_end (p - 12) m.mem ≠ m.heap.h_addr_end →
        EqOutside (freed_start (p - 12) m.mem) (b.addr + b.size) m.mem m'.mem
          ∧ (rights = [] → FtrAt m'.mem ⟨freed_start (p - 12) m.mem, freed_size (p - 12) m, true⟩)) := by
  obtain ⟨pre, lefts, b, rights, post, m₂, m₃, rfl, hbp, hj, hend, hadd⟩ := k.free_joined hp hsafe h
  have haddr : p - 12 = b.addr := by omega
  have hlow := hsafe.tail
  rw [haddr] at hlow ⊢
  unfold freed_size
  generalize freed_start b.addr m.mem = a at *
  generalize freed_end b.addr m.mem = e at *
  by_cases hlast : e = m.heap.h_addr_end
  · rw [if_pos hlast] at hend ⊢
    obtain ⟨k', hp', hentries, hfoot, hfooters⟩ := k.joined_tail hj hbp hp hlast (hlow hlast) hend hadd
    exact ⟨pre, lefts, b, rights, post, rfl, rfl, hj.block, hj.lefts_holes, hj.rights_holes, hj.tiled, k', hp',
      fun hne => absurd hlast hne, hentries, fun _ => ⟨k.joined_last hj hlast, hfoot, hfooters⟩,
      fun hne => absurd hlast hne⟩
  · rw [if_neg hlast] at hend ⊢
    have hm₃ := Except.ok.inj hend
    subst hm₃
    obtain ⟨k', hp', hend', hentries, hout, hfoot⟩ := k.joined_inside hj hbp hp hadd
    exact ⟨pre, lefts, b, rights, post, rfl, rfl, hj.block, hj.lefts_holes, hj.rights_holes, hj.tiled, k', hp',
      fun _ => hend', hentries, fun h => absurd h hlast, fun _ => ⟨hout, hfoot⟩⟩

end JamesM
