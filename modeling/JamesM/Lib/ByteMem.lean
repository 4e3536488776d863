/-
  JamesM.Lib.ByteMem — a flat byte memory with little-endian 32-bit words.

  A memory is a total function from addresses to bytes.  Words may sit at any
  address, aligned or not.  The two things a proof needs are the read-over-write
  laws (`read32_write32`, `read32_write32_ne`) and the frame relation
  `EqOutside lo hi m m'`: `m'` differs from `m` only inside `[lo, hi)`.
-/
import Mathlib.Tactic

namespace JamesM.ByteMem

/-- A byte memory. -/
abbrev Mem := Nat → UInt8

/-- Store one byte. -/
def write8 (m : Mem) (a : Nat) (b : UInt8) : Mem :=
  fun x => if x = a then b else m x

/-- Load the little-endian word at `a`. -/
def read32 (m : Mem) (a : Nat) : Nat :=
  (m a).toNat + 256 * (m (a + 1)).toNat + 65536 * (m (a + 2)).toNat
    + 16777216 * (m (a + 3)).toNat

/-- Store the little-endian word `v` at `a`. -/
def write32 (m : Mem) (a v : Nat) : Mem :=
  fun x =>
    if x = a then UInt8.ofNat v
    else if x = a + 1 then UInt8.ofNat (v / 256)
    else if x = a + 2 then UInt8.ofNat (v / 65536)
    else if x = a + 3 then UInt8.ofNat (v / 16777216)
    else m x

/-! ## §1. Read over write. -/

theorem write8_same (m : Mem) (a : Nat) (b : UInt8) : write8 m a b a = b := by
  simp [write8]

theorem write8_ne (m : Mem) {a x : Nat} (b : UInt8) (h : x ≠ a) : write8 m a b x = m x := by
  simp [write8, h]

theorem read32_lt (m : Mem) (a : Nat) : read32 m a < 4294967296 := by
  have h0 := (m a).toNat_lt
  have h1 := (m (a + 1)).toNat_lt
  have h2 := (m (a + 2)).toNat_lt
  have h3 := (m (a + 3)).toNat_lt
  unfold read32; omega

/-- A word read depends on its four bytes only. -/
theorem read32_congr {m m' : Mem} {a : Nat} (h : ∀ x, a ≤ x → x < a + 4 → m' x = m x) :
    read32 m' a = read32 m a := by
  unfold read32
  rw [h a (by omega) (by omega), h (a + 1) (by omega) (by omega), h (a + 2) (by omega) (by omega),
    h (a + 3) (by omega) (by omega)]

theorem write32_of_out (m : Mem) {a x : Nat} (v : Nat) (h : x < a ∨ a + 4 ≤ x) :
    write32 m a v x = m x := by
  unfold write32
  rw [if_neg (by omega), if_neg (by omega), if_neg (by omega), if_neg (by omega)]

theorem read32_write32 (m : Mem) (a : Nat) {v : Nat} (hv : v < 4294967296) :
    read32 (write32 m a v) a = v := by
  simp only [read32, write32, if_true, Nat.add_eq_left, Nat.add_left_cancel_iff,
    if_neg (show ¬ (1 : Nat) = 0 by omega), if_neg (show ¬ (2 : Nat) = 0 by omega),
    if_neg (show ¬ (3 : Nat) = 0 by omega), if_neg (show ¬ (2 : Nat) = 1 by omega),
    if_neg (show ¬ (3 : Nat) = 1 by omega), if_neg (show ¬ (3 : Nat) = 2 by omega),
    UInt8.toNat_ofNat']
  omega

theorem read32_write32_ne (m : Mem) {a b : Nat} (v : Nat) (h : b + 4 ≤ a ∨ a + 4 ≤ b) :
    read32 (write32 m a v) b = read32 m b :=
  read32_congr fun x h1 h2 => write32_of_out m v (by omega)

/-! ## §2. The frame relation. -/

/-- `m'` differs from `m` at most inside `[lo, hi)`. -/
def EqOutside (lo hi : Nat) (m m' : Mem) : Prop := ∀ x, x < lo ∨ hi ≤ x → m' x = m x

theorem EqOutside.refl (lo hi : Nat) (m : Mem) : EqOutside lo hi m m := fun _ _ => rfl

theorem EqOutside.trans {lo hi : Nat} {m m' m'' : Mem} (h : EqOutside lo hi m m')
    (h' : EqOutside lo hi m' m'') : EqOutside lo hi m m'' :=
  fun x hx => (h' x hx).trans (h x hx)

theorem EqOutside.mono {lo hi lo' hi' : Nat} {m m' : Mem} (h : EqOutside lo hi m m')
    (hlo : lo' ≤ lo) (hhi : hi ≤ hi') : EqOutside lo' hi' m m' :=
  fun x hx => h x (by omega)

theorem EqOutside.write32 {lo hi : Nat} {m m' : Mem} (h : EqOutside lo hi m m') {a : Nat} (v : Nat)
    (hlo : lo ≤ a) (hhi : a + 4 ≤ hi) : EqOutside lo hi m (write32 m' a v) :=
  fun x hx => (write32_of_out m' v (by omega)).trans (h x hx)

/-- A word outside the touched interval keeps its value. -/
theorem EqOutside.read32 {lo hi : Nat} {m m' : Mem} (h : EqOutside lo hi m m') {a : Nat}
    (ha : a + 4 ≤ lo ∨ hi ≤ a) : read32 m' a = read32 m a :=
  read32_congr fun x h1 h2 => h x (by omega)

end JamesM.ByteMem
