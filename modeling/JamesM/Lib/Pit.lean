/-
  JamesM.Lib.Pit — channel 0 of an 8253 interval timer.

  The channel counts down from a reload count at a fixed input clock.  A control word
  says how the count is sent (in one or two bytes), how the channel counts (in one of
  six modes) and whether the count is binary or decimal.  In the modes 2 and 3 it
  starts over at the end of each round, so that its output divides the clock; both
  need a count of at least 2.

  Main result: `Pit.program` — a control word for two bytes, and the bytes of a count,
  load it.
-/
import Mathlib.Tactic

namespace JamesM.Pit8253

/-- The channel: how a count is sent, the mode, whether counts are decimal, the first of two bytes, and
    the count, if there is one since the last control word. -/
structure Pit where
  access : Nat
  mode : Nat
  bcd : Bool
  low : Option Nat
  count : Option Nat
  deriving DecidableEq, Repr

/-- A control word.  The two high bits select the channel; an access of 0 latches the counter.  The counting
    stops until there is a count. -/
def Pit.control (v : Nat) (p : Pit) : Pit :=
  if v / 64 = 0 ∧ v / 16 % 4 ≠ 0 then
    { access := v / 16 % 4, mode := v / 2 % 8, bcd := decide (v % 2 = 1), low := none, count := none }
  else p

/-- A byte of a count. -/
def Pit.load (v : Nat) (p : Pit) : Pit :=
  if p.access = 1 then { p with count := some v }
  else if p.access = 2 then { p with count := some (256 * v) }
  else
    match p.low with
    | none => { p with low := some v }
    | some l => { p with low := none, count := some (256 * v + l) }

/-- A byte on the port bus. -/
def Pit.outb (port v : Nat) (p : Pit) : Pit :=
  if port = 0x43 then p.control v else if port = 0x40 then p.load v else p

/-- The four decimal digits of a count. -/
def decimal (count : Nat) : Option Nat :=
  if count / 4096 < 10 ∧ count / 256 % 16 < 10 ∧ count / 16 % 16 < 10 ∧ count % 16 < 10 then
    some (1000 * (count / 4096) + 100 * (count / 256 % 16) + 10 * (count / 16 % 16) + count % 16)
  else none

/-- The number that a count stands for; 0 is the largest one. -/
def reload (bcd : Bool) (count : Nat) : Option Nat :=
  if bcd then
    if count = 0 then some 10000 else decimal count
  else if count = 0 then some 65536
  else some count

/-- By what the output divides the clock, where it does: in the modes 2 and 3 (in 6 and 7 the third bit does
    not matter), from a count of 2 on. -/
def Pit.divisor (p : Pit) : Option Nat := do
  let count ← p.count
  let n ← reload p.bcd count
  if p.mode % 4 < 2 ∨ n < 2 then none else some n

/-- **Programming the channel**, from any state. -/
theorem Pit.program (p : Pit) (v lo hi : Nat) (hv : v / 64 = 0) (haccess : v / 16 % 4 = 3) :
    ((p.outb 0x43 v).outb 0x40 lo).outb 0x40 hi
      = { access := 3, mode := v / 2 % 8, bcd := decide (v % 2 = 1), low := none,
          count := some (256 * hi + lo) } := by
  have hcontrol : p.outb 0x43 v
      = { access := 3, mode := v / 2 % 8, bcd := decide (v % 2 = 1), low := none, count := none } := by
    show p.control v = _
    unfold Pit.control
    rw [haccess, if_pos ⟨hv, by decide⟩]
  rw [hcontrol]
  rfl

/-- A binary count in mode 3, the square wave. -/
theorem Pit.divisor_square_wave (p : Pit) {count : Nat} (hmode : p.mode = 3) (hbcd : p.bcd = false)
    (hcount : p.count = some count) :
    p.divisor = if count = 0 then some 65536 else if count = 1 then none else some count := by
  unfold Pit.divisor reload
  rw [hmode, hbcd, hcount]
  show (if count = 0 then some 65536 else some count : Option Nat).bind _ = _
  by_cases h0 : count = 0
  · rw [if_pos h0, if_pos h0]
    rfl
  · rw [if_neg h0, if_neg h0]
    show (if 3 % 4 < 2 ∨ count < 2 then none else some count : Option Nat) = _
    by_cases h1 : count = 1
    · rw [if_pos h1, if_pos (.inr (by omega))]
    · rw [if_neg h1, if_neg (by omega)]

-- a one-shot, and a decimal count
example : (Pit.outb 0x40 0 (Pit.outb 0x40 2 (Pit.outb 0x43 0x30 ⟨3, 3, false, none, none⟩))).divisor
    = none := by decide
example : (Pit.outb 0x40 1 (Pit.outb 0x40 0x42 (Pit.outb 0x43 0x37 ⟨3, 3, false, none, none⟩))).divisor
    = some 142 := by decide

end JamesM.Pit8253
