/-
  JamesM.Heap.Region — regions of the heap in memory.

  The heap is a row of regions (`JamesM.Lib.Tiling`), each a hole or a block.
  `HdrAt` and `FtrAt` say that memory holds a region's header and footer.  Headers
  are always there; a hole may have lost its footer, so footers are a fact about
  blocks only.
-/
import JamesM.Heap.Def
import JamesM.Lib.Tiling

namespace JamesM

open JamesM.ByteMem JamesM.Word32 JamesM.Lib

/-! ## §1. Stores of headers and footers. -/

theorem put_header_eqOutside (mem : Mem) (h is_hole size : Nat) :
    EqOutside h (h + 12) mem (put_header mem h is_hole size) := by
  unfold put_header
  exact (((EqOutside.refl h (h + 12) mem).write32 _ (by omega) (by omega)).write32 _ (by omega)
    (by omega)).write32 _ (by omega) (by omega)

theorem put_footer_eqOutside (mem : Mem) (f header : Nat) :
    EqOutside f (f + 8) mem (put_footer mem f header) := by
  unfold put_footer
  exact ((EqOutside.refl f (f + 8) mem).write32 _ (by omega) (by omega)).write32 _ (by omega) (by omega)

/-! ## §2. Regions. -/

/-- A hole or a block: header, payload and footer. -/
structure Region where
  addr : Nat
  size : Nat
  hole : Bool
  deriving DecidableEq, Repr

/-- The value of `hh_is_hole`. -/
def Region.flag (r : Region) : Nat := if r.hole then 1 else 0

/-- The regions of `l` fill the addresses from `a` to `e`. -/
abbrev Tiled (a : Nat) (l : List Region) (e : Nat) : Prop := Tiles Region.addr Region.size a l e

/-- Memory holds the header of the region. -/
structure HdrAt (mem : Mem) (r : Region) : Prop where
  magic : hh_magic mem r.addr = VM_HEAP_HDR_MAGIC
  flag : hh_is_hole mem r.addr = r.flag
  size : hh_size mem r.addr = r.size

/-- Memory holds the footer of the region. -/
structure FtrAt (mem : Mem) (r : Region) : Prop where
  magic : hf_magic mem (r.addr + r.size - 8) = VM_HEAP_FTR_MAGIC
  header : hf_header mem (r.addr + r.size - 8) = r.addr

/-- The addresses of the holes. -/
def holes (l : List Region) : List Nat := (l.filter Region.hole).map Region.addr

theorem holes_append (l l' : List Region) : holes (l ++ l') = holes l ++ holes l' := by
  simp [holes]

theorem holes_cons (r : Region) (l : List Region) :
    holes (r :: l) = if r.hole then r.addr :: holes l else holes l := by
  unfold holes
  cases h : r.hole <;> simp [h]

theorem mem_holes {l : List Region} {a : Nat} : a ∈ holes l ↔ ∃ r ∈ l, r.hole = true ∧ r.addr = a := by
  simp [holes, and_assoc]

/-- A region found in a row, with what is before and after it. -/
theorem exists_cut {l : List Region} {r : Region} (h : r ∈ l) : ∃ pre post, l = pre ++ r :: post :=
  List.append_of_mem h

/-! ## §3. Frames: changes of memory that a header or a footer does not see. -/

theorem HdrAt.congr {mem mem' : Mem} {r : Region} (h : HdrAt mem r)
    (heq : ∀ x, r.addr ≤ x → x < r.addr + 12 → mem' x = mem x) : HdrAt mem' r := by
  have hw : ∀ k, k + 4 ≤ 12 → read32 mem' (r.addr + k) = read32 mem (r.addr + k) := fun k hk =>
    read32_congr fun x h1 h2 => heq x (by omega) (by omega)
  refine ⟨?_, ?_, ?_⟩
  · rw [← h.magic]; exact hw 0 (by omega)
  · rw [← h.flag]; exact hw 4 (by omega)
  · rw [← h.size]; exact hw 8 (by omega)

theorem FtrAt.congr {mem mem' : Mem} {r : Region} (h : FtrAt mem r) (hs : 20 ≤ r.size)
    (heq : ∀ x, r.addr + r.size - 8 ≤ x → x < r.addr + r.size → mem' x = mem x) : FtrAt mem' r := by
  refine ⟨Eq.trans ?_ h.magic, Eq.trans ?_ h.header⟩
  · exact read32_congr fun x h1 h2 => heq x (by omega) (by omega)
  · exact read32_congr fun x h1 h2 => heq x (by omega) (by omega)

theorem HdrAt.of_eqOutside {mem mem' : Mem} {r : Region} {lo hi : Nat} (h : HdrAt mem r)
    (hm : EqOutside lo hi mem mem') (hd : r.addr + 12 ≤ lo ∨ hi ≤ r.addr) : HdrAt mem' r :=
  h.congr fun x _ _ => hm x (by omega)

theorem FtrAt.of_eqOutside {mem mem' : Mem} {r : Region} {lo hi : Nat} (h : FtrAt mem r)
    (hs : 20 ≤ r.size) (hm : EqOutside lo hi mem mem')
    (hd : r.addr + r.size ≤ lo ∨ hi ≤ r.addr + r.size - 8) : FtrAt mem' r :=
  h.congr hs fun x _ _ => hm x (by omega)

/-- A header just written. -/
theorem hdrAt_put_header (mem : Mem) (r : Region) (hs : r.size < 4294967296) :
    HdrAt (put_header mem r.addr r.flag r.size) r := by
  unfold put_header
  refine ⟨?_, ?_, ?_⟩
  · unfold hh_magic
    rw [read32_write32_ne _ _ (by omega), read32_write32_ne _ _ (by omega),
      read32_write32 _ _ (by decide)]
  · have hf : r.flag < 4294967296 := by unfold Region.flag; split <;> decide
    unfold hh_is_hole
    rw [read32_write32_ne _ _ (by omega), read32_write32 _ _ hf]
  · unfold hh_size
    rw [read32_write32 _ _ hs]

/-- A footer just written. -/
theorem ftrAt_put_footer (mem : Mem) (r : Region) (ha : r.addr < 4294967296) :
    FtrAt (put_footer mem (r.addr + r.size - 8) r.addr) r := by
  unfold put_footer
  refine ⟨?_, ?_⟩
  · unfold hf_magic
    rw [read32_write32_ne _ _ (by omega), read32_write32 _ _ (by decide)]
  · unfold hf_header
    rw [read32_write32 _ _ ha]

/-- A store to the size field of a header. -/
theorem HdrAt.set_size {mem : Mem} {r : Region} (h : HdrAt mem r) (size : Nat)
    (hs : size < 4294967296) : HdrAt (write32 mem (r.addr + 8) size) { r with size := size } := by
  refine ⟨Eq.trans ?_ h.magic, Eq.trans ?_ h.flag, read32_write32 _ _ hs⟩
  · exact read32_write32_ne _ _ (by dsimp only; omega)
  · exact read32_write32_ne _ _ (by dsimp only; omega)

/-- A store to the hole flag of a header. -/
theorem HdrAt.set_hole {mem : Mem} {r : Region} (h : HdrAt mem r) :
    HdrAt (write32 mem (r.addr + 4) 1) { r with hole := true } := by
  refine ⟨Eq.trans ?_ h.magic, read32_write32 _ _ (by decide), Eq.trans ?_ h.size⟩
  · exact read32_write32_ne _ _ (by dsimp only; omega)
  · exact read32_write32_ne _ _ (by dsimp only; omega)

end JamesM
