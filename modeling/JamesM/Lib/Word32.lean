/-
  JamesM.Lib.Word32 — 32-bit unsigned arithmetic on `Nat`, and the page masks.

  A machine word is a `Nat` below `2^32`; every operation that can wrap takes the
  remainder explicitly, so `omega` can follow it.  The bit masks of a 4 KiB page
  (`& 0xFFF`, `& 0xFFFFF000`, `& 0x1000`) are turned into `/` and `%` here once.
-/
import Mathlib.Data.Nat.Bitwise
import Mathlib.Tactic

namespace JamesM.Word32

/-! ## §1. Wrapping arithmetic. -/

/-- `a + b` in a 32-bit register. -/
def add32 (a b : Nat) : Nat := (a + b) % 4294967296

/-- `a - b` in a 32-bit register. -/
def sub32 (a b : Nat) : Nat := (a + (4294967296 - b % 4294967296)) % 4294967296

/-- `a * b` in a 32-bit register. -/
def mul32 (a b : Nat) : Nat := (a * b) % 4294967296

/-- The value of a 32-bit register read as a signed `int`. -/
def toInt32 (a : Nat) : Int :=
  if a % 4294967296 < 2147483648 then ((a % 4294967296 : Nat) : Int)
  else ((a % 4294967296 : Nat) : Int) - 4294967296

theorem add32_of_lt {a b : Nat} (h : a + b < 4294967296) : add32 a b = a + b :=
  Nat.mod_eq_of_lt h

theorem sub32_of_le {a b : Nat} (ha : a < 4294967296) (h : b ≤ a) : sub32 a b = a - b := by
  unfold sub32; omega

theorem mul32_of_lt {a b : Nat} (h : a * b < 4294967296) : mul32 a b = a * b :=
  Nat.mod_eq_of_lt h

theorem add32_lt (a b : Nat) : add32 a b < 4294967296 := Nat.mod_lt _ (by decide)

theorem toInt32_of_lt {a : Nat} (h : a < 2147483648) : toInt32 a = (a : Int) := by
  unfold toInt32
  rw [Nat.mod_eq_of_lt (by omega), if_pos h]

/-! ## §2. The page masks. -/

/-- The in-page offset. -/
theorem land_fff (x : Nat) : x &&& 0xFFF = x % 4096 :=
  Nat.and_two_pow_sub_one_eq_mod x 12

/-- The page base of a 32-bit address. -/
theorem land_page {x : Nat} (hx : x < 4294967296) : x &&& 0xFFFFF000 = 4096 * (x / 4096) := by
  have hlow : (x &&& 0xFFFFF000) % 4096 = 0 := by
    have h := Nat.and_mod_two_pow (a := x) (b := 0xFFFFF000) (n := 12)
    simpa using h
  have hhigh : (x &&& 0xFFFFF000) / 4096 = x / 4096 := by
    have h := Nat.and_div_two_pow (a := x) (b := 0xFFFFF000) (n := 12)
    have hm : x / 4096 &&& 0xFFFFF = x / 4096 % 2 ^ 20 :=
      Nat.and_two_pow_sub_one_eq_mod (x / 4096) 20
    have h20 : (0xFFFFF000 : Nat) / 2 ^ 12 = 0xFFFFF := by decide
    rw [h20, show (2 : Nat) ^ 12 = 4096 from rfl, hm] at h
    omega
  omega

/-- Bit 12 of a word, in place. -/
theorem land_bit12 (x : Nat) : x &&& 0x1000 = 4096 * (x / 4096 % 2) := by
  have hlow : (x &&& 0x1000) % 4096 = 0 := by
    have h := Nat.and_mod_two_pow (a := x) (b := 0x1000) (n := 12)
    simpa using h
  have hhigh : (x &&& 0x1000) / 4096 = x / 4096 % 2 := by
    have h := Nat.and_div_two_pow (a := x) (b := 0x1000) (n := 12)
    have hm : x / 4096 &&& 1 = x / 4096 % 2 := Nat.and_one_is_mod (x / 4096)
    have h1 : (0x1000 : Nat) / 2 ^ 12 = 1 := by decide
    rw [h1, show (2 : Nat) ^ 12 = 4096 from rfl, hm] at h
    omega
  omega

/-! ## §3. Bytes and nibbles. -/

theorem land_ff (x : Nat) : x &&& 0xFF = x % 256 := Nat.and_two_pow_sub_one_eq_mod x 8

theorem land_ffff (x : Nat) : x &&& 0xFFFF = x % 65536 := Nat.and_two_pow_sub_one_eq_mod x 16

theorem land_0f (x : Nat) : x &&& 0x0F = x % 16 := Nat.and_two_pow_sub_one_eq_mod x 4

/-- The high nibble of a byte, in place. -/
theorem land_f0 (x : Nat) : x &&& 0xF0 = 16 * (x / 16 % 16) := by
  have hlow : (x &&& 0xF0) % 16 = 0 := by
    have h := Nat.and_mod_two_pow (a := x) (b := 0xF0) (n := 4)
    simpa using h
  have hhigh : (x &&& 0xF0) / 16 = x / 16 % 16 := by
    have h := Nat.and_div_two_pow (a := x) (b := 0xF0) (n := 4)
    rw [show (0xF0 : Nat) / 2 ^ 4 = 0x0F from rfl, land_0f] at h
    exact h
  omega

/-- A low nibble and a high nibble do not overlap. -/
theorem lor_nibbles {a : Nat} (ha : a < 16) (b : Nat) : a ||| 16 * b = 16 * b + a := by
  have h := Nat.two_pow_add_eq_or_of_lt (i := 4) ha b
  rw [show (2 : Nat) ^ 4 = 16 from rfl] at h
  rw [h, Nat.lor_comm]

end JamesM.Word32
