/-
  JamesM.Lib.Mmu — address translation with two levels of 4 KB pages.

  `translate` is the walk of an x86 processor without extensions.  Entries carry three
  permission bits: present, writeable and user.  A processor in supervisor mode
  ignores the second one while `CR0.WP` is clear.

  Main result: `accesses_refine` — as long as no store hits the tables, a sequence of
  accesses through them cannot be told from one to a memory without translation.
-/
import JamesM.Lib.ByteMem

namespace JamesM.Mmu

open JamesM.ByteMem

/-! ## §1. The walk. -/

/-- The privilege of an access, and `CR0.WP`. -/
structure Mode where
  user : Bool
  wp : Bool
  deriving DecidableEq, Repr

/-- An access that does not look at the writeable bit. -/
def Mode.writesAnywhere (mode : Mode) : Bool := !mode.user && !mode.wp

/-- An entry allows the access. -/
def permits (mode : Mode) (write : Bool) (e : Nat) : Bool :=
  e % 2 == 1 && (!mode.user || e / 4 % 2 == 1) && (!write || mode.writesAnywhere || e / 2 % 2 == 1)

/-- The word of the directory for address `a`. -/
def pde (mem : Mem) (cr3 a : Nat) : Nat := read32 mem (4096 * (cr3 / 4096) + 4 * (a / 4194304))

/-- The word of the table. -/
def pte (mem : Mem) (cr3 a : Nat) : Nat := read32 mem (4096 * (pde mem cr3 a / 4096) + 4 * (a / 4096 % 1024))

/-- The physical address, or a page fault. -/
def translate (mode : Mode) (write : Bool) (mem : Mem) (cr3 a : Nat) : Option Nat :=
  if permits mode write (pde mem cr3 a) && permits mode write (pte mem cr3 a) then
    some (4096 * (pte mem cr3 a / 4096) + a % 4096)
  else none

/-! ## §2. Accesses. -/

/-- A load or a store of a byte. -/
inductive Access where
  | load (a : Nat)
  | store (a : Nat) (b : UInt8)

/-- An access through the tables: the byte loaded, and the memory; or a page fault. -/
def access (mode : Mode) (cr3 : Nat) (phys : Mem) : Access → Option (Option UInt8 × Mem)
  | .load a => (translate mode false phys cr3 a).map fun p => (some (phys p), phys)
  | .store a b => (translate mode true phys cr3 a).map fun p => (none, write8 phys p b)

/-- Accesses one after another. -/
def accesses (mode : Mode) (cr3 : Nat) : List Access → Mem → Option (List (Option UInt8) × Mem)
  | [], phys => some ([], phys)
  | x :: xs, phys =>
      match access mode cr3 phys x with
      | none => none
      | some (r, phys) => (accesses mode cr3 xs phys).map fun (rs, phys) => (r :: rs, phys)

/-- The same access without translation. -/
def flat (mem : Mem) : Access → Option UInt8 × Mem
  | .load a => (some (mem a), mem)
  | .store a b => (none, write8 mem a b)

def flats : List Access → Mem → List (Option UInt8) × Mem
  | [], mem => ([], mem)
  | x :: xs, mem => ((flat mem x).1 :: (flats xs (flat mem x).2).1, (flats xs (flat mem x).2).2)

/-! ## §3. Refinement. -/

/-- A translation: where an access to an address goes. -/
structure View where
  /-- For loads, and for stores. -/
  map : Bool → Nat → Option Nat
  store_load : ∀ {a p}, map true a = some p → map false a = some p
  injective : ∀ {a b p}, map false a = some p → map false b = some p → a = b

/-- As long as the bytes `T` of memory are those of `phys`, the walk is the view. -/
def Walks (mode : Mode) (cr3 : Nat) (X : View) (T : Nat → Prop) (phys : Mem) : Prop :=
  ∀ phys' : Mem, (∀ p, T p → phys' p = phys p) →
    ∀ write a, a < 4294967296 → translate mode write phys' cr3 a = X.map write a

/-- Seen through the view, `phys` is `mem`. -/
def Seen (X : View) (phys mem : Mem) : Prop := ∀ a p, X.map false a = some p → phys p = mem a

/-- The access goes through, and is no store to the bytes `T`. -/
def Allowed (X : View) (T : Nat → Prop) : Access → Prop
  | .load a => a < 4294967296 ∧ X.map false a ≠ none
  | .store a _ => a < 4294967296 ∧ ∃ p, X.map true a = some p ∧ ¬ T p

/-- One access. -/
theorem access_refines {mode : Mode} {cr3 : Nat} {X : View} {T : Nat → Prop} {phys₀ phys mem : Mem}
    (hwalk : Walks mode cr3 X T phys₀) (hsame : ∀ p, T p → phys p = phys₀ p) (hseen : Seen X phys mem) {x : Access}
    (hx : Allowed X T x) :
    ∃ phys', access mode cr3 phys x = some ((flat mem x).1, phys') ∧ Seen X phys' (flat mem x).2
      ∧ ∀ p, T p → phys' p = phys₀ p := by
  cases x with
  | load a =>
      obtain ⟨ha, hp⟩ := hx
      obtain ⟨p, hp⟩ := Option.ne_none_iff_exists'.mp hp
      refine ⟨phys, ?_, hseen, hsame⟩
      rw [access, hwalk phys hsame false a ha, hp, flat, ← hseen a p hp]
      rfl
  | store a b =>
      obtain ⟨ha, p, hp, hT⟩ := hx
      have hload := X.store_load hp
      refine ⟨write8 phys p b, ?_, fun a' p' hp' => ?_, fun p' hp' => ?_⟩
      · rw [access, hwalk phys hsame true a ha, hp]
        rfl
      · show write8 phys p b p' = write8 mem a b a'
        by_cases haa : a' = a
        · subst haa
          obtain rfl : p' = p := Option.some.inj (hp'.symm.trans hload)
          rw [write8_same, write8_same]
        · -- different addresses are different bytes
          have hpp : p' ≠ p := fun h => haa (X.injective hp' (h ▸ hload))
          rw [write8_ne _ _ hpp, write8_ne _ _ haa, hseen a' p' hp']
      · have hpp : p' ≠ p := fun h => hT (h ▸ hp')
        rw [write8_ne _ _ hpp, hsame p' hp']

/-- **Translation is transparent.** -/
theorem accesses_refine {mode : Mode} {cr3 : Nat} {X : View} {T : Nat → Prop} {phys₀ : Mem}
    (hwalk : Walks mode cr3 X T phys₀) (xs : List Access) : ∀ {phys mem : Mem}, (∀ p, T p → phys p = phys₀ p) →
    Seen X phys mem → (∀ x ∈ xs, Allowed X T x) →
    ∃ phys', accesses mode cr3 xs phys = some ((flats xs mem).1, phys') ∧ Seen X phys' (flats xs mem).2 := by
  induction xs with
  | nil => exact fun _ hseen _ => ⟨_, rfl, hseen⟩
  | cons x xs ih =>
      intro phys mem hsame hseen hall
      obtain ⟨phys₁, h1, h2, h3⟩ := access_refines hwalk hsame hseen (hall x List.mem_cons_self)
      obtain ⟨phys₂, h4, h5⟩ := ih h3 h2 fun y hy => hall y (List.mem_cons_of_mem _ hy)
      refine ⟨phys₂, ?_, h5⟩
      rw [accesses, h1]
      dsimp only
      rw [h4]
      rfl

end JamesM.Mmu
