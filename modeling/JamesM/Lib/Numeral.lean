/-
  JamesM.Lib.Numeral — numerals in a base, and reading them back.

  A numeral is a list of digits, the most significant one first, without leading
  zeros; zero is the numeral `[0]`.  `numeral_step` is the rule of every printing
  loop (the last digit is the remainder, the digits before it are the numeral of
  the quotient), and `numeral_unique` says that a digit string without leading
  zeros is the numeral of its value, so that printing and reading are inverse.
-/
import Mathlib.Data.Nat.Digits.Lemmas

namespace JamesM.Numeral

/-! ## §1. Digits. -/

/-- The digits of `u` in base `b`. -/
def numeral (b u : Nat) : List Nat := if u = 0 then [0] else (Nat.digits b u).reverse

/-- The value of a digit string in base `b`. -/
def value (b : Nat) (ds : List Nat) : Nat := Nat.ofDigits b ds.reverse

/-- **The rule of the printing loop.** -/
theorem numeral_step {b : Nat} (hb : 1 < b) (u : Nat) :
    numeral b u = if u / b = 0 then [u % b] else numeral b (u / b) ++ [u % b] := by
  by_cases hu : u = 0
  · subst hu
    rw [Nat.zero_div, if_pos rfl, Nat.zero_mod]
    rfl
  · rw [numeral, if_neg hu, Nat.digits_def' hb (by omega), List.reverse_cons]
    by_cases hq : u / b = 0
    · rw [if_pos hq, hq, Nat.digits_zero]
      rfl
    · rw [if_neg hq, numeral, if_neg hq]

theorem numeral_ne_nil (b u : Nat) : numeral b u ≠ [] := by
  unfold numeral
  split
  · exact List.cons_ne_nil _ _
  · next h => simpa using Nat.digits_ne_nil_iff_ne_zero.mpr h

/-- Reading back what was printed. -/
theorem value_numeral (b u : Nat) : value b (numeral b u) = u := by
  unfold numeral value
  split
  · next h => simp [h]
  · rw [List.reverse_reverse, Nat.ofDigits_digits]

theorem numeral_lt {b : Nat} (hb : 1 < b) (u : Nat) : ∀ d ∈ numeral b u, d < b := by
  unfold numeral
  split
  · simp only [List.mem_singleton, forall_eq]
    omega
  · intro d hd
    exact Nat.digits_lt_base hb (List.mem_reverse.mp hd)

/-- The length of a numeral. -/
theorem length_numeral_le {b k u : Nat} (hb : 1 < b) (hk : 0 < k) (hu : u < b ^ k) :
    (numeral b u).length ≤ k := by
  unfold numeral
  split
  · exact hk
  · rw [List.length_reverse]
    exact (Nat.digits_length_le_iff hb u).mpr hu

/-! ## §2. Numerals are determined by their value. -/

/-- A digit string as a numeral is written: not empty, digits below the base, and a zero in front only
    if it is the only digit. -/
structure IsNumeral (b : Nat) (ds : List Nat) : Prop where
  ne_nil : ds ≠ []
  lt : ∀ d ∈ ds, d < b
  head : ds.head? = some 0 → ds = [0]

/-- **Uniqueness.** -/
theorem numeral_unique {b : Nat} (hb : 1 < b) {ds : List Nat} (h : IsNumeral b ds) :
    numeral b (value b ds) = ds := by
  by_cases hz : ds.head? = some 0
  · rw [h.head hz]
    rfl
  · have hne : ds.reverse ≠ [] := by simpa using h.ne_nil
    have hlast : ds.reverse.getLast hne ≠ 0 := by
      intro h0
      apply hz
      rw [← List.getLast?_reverse, List.getLast?_eq_getLast_of_ne_nil hne, h0]
    have hdigits : Nat.digits b (Nat.ofDigits b ds.reverse) = ds.reverse :=
      Nat.digits_ofDigits b hb _ (fun d hd => h.lt d (List.mem_reverse.mp hd)) fun _ => hlast
    have hvalue : value b ds ≠ 0 := by
      intro h0
      have hd : Nat.digits b (value b ds) = ds.reverse := hdigits
      rw [h0, Nat.digits_zero] at hd
      exact hne hd.symm
    rw [numeral, if_neg hvalue]
    show (Nat.digits b (Nat.ofDigits b ds.reverse)).reverse = ds
    rw [hdigits, List.reverse_reverse]

end JamesM.Numeral
