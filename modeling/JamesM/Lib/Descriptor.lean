/-
  JamesM.Lib.Descriptor — how the processor reads segment and gate descriptors.

  A descriptor is eight bytes, `b 0` to `b 7`.  The fields of a segment are scattered
  over them: the base is in the bytes 2, 3, 4 and 7, the limit in the bytes 0 and 1
  and the low half of byte 6.  `linear` is the address the processor forms from a
  selector and an offset; it faults on the null selector, on a selector outside the
  table, on a segment that is not present and above the limit.

  Only what 32-bit protected mode does with a global table is here: no local table,
  no expand-down segments.
-/
import Mathlib.Data.Nat.Basic
import Mathlib.Tactic

namespace JamesM.Descriptor

/-! ## §1. Segments. -/

/-- A segment descriptor, as the processor sees it. -/
structure Segment where
  base : Nat
  limit : Nat
  present : Bool
  dpl : Nat
  /-- Code or data, not a system segment. -/
  user : Bool
  executable : Bool
  /-- A data segment can be written, a code segment can be read. -/
  access : Bool
  /-- 32-bit operands. -/
  wide : Bool
  /-- The limit counts pages. -/
  granular : Bool
  deriving DecidableEq, Repr

/-- The fields of the eight bytes. -/
def Segment.decode (b : Nat → Nat) : Segment :=
  { base := b 2 + 256 * b 3 + 65536 * b 4 + 16777216 * b 7
    limit := b 0 + 256 * b 1 + 65536 * (b 6 % 16)
    access := b 5 / 2 % 2 = 1
    executable := b 5 / 8 % 2 = 1
    user := b 5 / 16 % 2 = 1
    dpl := b 5 / 32 % 4
    present := b 5 / 128 % 2 = 1
    wide := b 6 / 64 % 2 = 1
    granular := b 6 / 128 % 2 = 1 }

/-- The last offset of a segment. -/
def Segment.last (s : Segment) : Nat := if s.granular then 4096 * s.limit + 4095 else s.limit

/-- The segment of a selector: the index is in bits 3 to 15, bit 2 asks for the local table, and
    `limit` is the offset of the last byte of the table. -/
def segmentAt (table : Nat → Nat → Nat) (limit sel : Nat) : Option Segment :=
  if sel / 4 % 2 = 0 ∧ sel / 8 ≠ 0 ∧ 8 * (sel / 8) + 7 ≤ limit then
    some (Segment.decode (table (sel / 8)))
  else none

/-- The linear address of an offset in the segment of a selector. -/
def linear (table : Nat → Nat → Nat) (limit sel off : Nat) : Option Nat :=
  match segmentAt table limit sel with
  | none => none
  | some s => if s.present = true ∧ off ≤ s.last then some ((s.base + off) % 4294967296) else none

/-- A segment that is the whole address space. -/
structure Segment.Flat (s : Segment) : Prop where
  base : s.base = 0
  last : s.last = 4294967295
  present : s.present = true

/-- **Flat memory.**  In a flat segment every offset is its own linear address. -/
theorem linear_flat {table : Nat → Nat → Nat} {limit sel off : Nat} {s : Segment}
    (hs : segmentAt table limit sel = some s) (hf : s.Flat) (hoff : off < 4294967296) :
    linear table limit sel off = some off := by
  unfold linear
  rw [hs]
  dsimp only
  rw [if_pos ⟨hf.present, by rw [hf.last]; omega⟩, hf.base, Nat.zero_add, Nat.mod_eq_of_lt hoff]

/-! ## §2. Gates. -/

/-- A gate descriptor, as the processor sees it. -/
structure Gate where
  offset : Nat
  selector : Nat
  /-- `0xE` is a 32-bit interrupt gate, which clears the interrupt flag. -/
  type : Nat
  dpl : Nat
  present : Bool
  deriving DecidableEq, Repr

/-- The fields of the eight bytes. -/
def Gate.decode (b : Nat → Nat) : Gate :=
  { offset := b 0 + 256 * b 1 + 65536 * b 6 + 16777216 * b 7
    selector := b 2 + 256 * b 3
    type := b 5 % 32
    dpl := b 5 / 32 % 4
    present := b 5 / 128 % 2 = 1 }

/-- The gate of a vector, if the table reaches to it and it is present. -/
def gateAt (table : Nat → Nat → Nat) (limit v : Nat) : Option Gate :=
  if 8 * v + 7 ≤ limit ∧ (Gate.decode (table v)).present = true then some (Gate.decode (table v)) else none

end JamesM.Descriptor
