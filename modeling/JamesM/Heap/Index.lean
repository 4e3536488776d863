/-
  JamesM.Heap.Index — the three searches over the hole index.
-/
import JamesM.Heap.Region

namespace JamesM

open JamesM.ByteMem JamesM.Word32

/-! ## §1. `find_smallest_hole`. -/

/-- The loop stops at the first slot whose hole fits, or at the end. -/
theorem find_smallest_hole_from_spec (mem : Mem) (idx : SortedArray Mem Nat) (size : Nat)
    (page_align : Bool) : ∀ n i, idx.sa_size = i + n →
    let j := find_smallest_hole_from mem idx size page_align n i
    i ≤ j ∧ j ≤ idx.sa_size
      ∧ (∀ k, i ≤ k → k < j → hole_fits mem size page_align (idx.sa_array k) = false)
      ∧ (j < idx.sa_size → hole_fits mem size page_align (idx.sa_array j) = true) := by
  intro n
  induction n with
  | zero =>
      intro i hi
      refine ⟨Nat.le_refl _, by rw [find_smallest_hole_from]; omega, fun k h1 h2 => ?_, fun h => ?_⟩
      · exact absurd h2 (by rw [find_smallest_hole_from]; omega)
      · exact absurd h (by rw [find_smallest_hole_from]; omega)
  | succ n ih =>
      intro i hi
      rw [find_smallest_hole_from, if_pos (show i < idx.sa_size by omega)]
      by_cases hf : hole_fits mem size page_align (idx.sa_array i) = true
      · rw [if_pos hf]
        exact ⟨Nat.le_refl _, by omega, fun k h1 h2 => absurd h2 (by omega), fun _ => hf⟩
      · rw [if_neg hf]
        obtain ⟨h1, h2, h3, h4⟩ := ih (i + 1) (by omega)
        refine ⟨by omega, h2, fun k hk hkj => ?_, h4⟩
        by_cases hki : k = i
        · subst hki; simpa using hf
        · exact h3 k (by omega) hkj

/-- **The search.**  It returns the first slot of the index whose hole fits, or `-1` when none does. -/
theorem find_smallest_hole_cases (size : Nat) (page_align : Bool) (m : Machine) :
    (∃ j : Nat, find_smallest_hole size page_align m = (j : Int) ∧ j < m.heap.h_index.sa_size
        ∧ hole_fits m.mem size page_align (m.heap.h_index.sa_array j) = true
        ∧ ∀ k, k < j → hole_fits m.mem size page_align (m.heap.h_index.sa_array k) = false)
      ∨ (find_smallest_hole size page_align m = -1
        ∧ ∀ k, k < m.heap.h_index.sa_size →
          hole_fits m.mem size page_align (m.heap.h_index.sa_array k) = false) := by
  obtain ⟨-, h2, h3, h4⟩ := find_smallest_hole_from_spec m.mem m.heap.h_index size page_align
    m.heap.h_index.sa_size 0 (by omega)
  unfold find_smallest_hole
  dsimp only
  by_cases hend : find_smallest_hole_from m.mem m.heap.h_index size page_align
      m.heap.h_index.sa_size 0 = m.heap.h_index.sa_size
  · rw [if_pos hend]
    rw [hend] at h3
    exact .inr ⟨rfl, fun k hk => h3 k (Nat.zero_le _) hk⟩
  · rw [if_neg hend]
    have hlt := Nat.lt_of_le_of_ne h2 hend
    exact .inl ⟨_, rfl, hlt, h4 hlt, fun k hk => h3 k (Nat.zero_le _) hk⟩

/-- What the unaligned test asks for. -/
theorem hole_fits_false (mem : Mem) (size hdr : Nat) :
    hole_fits mem size false hdr = decide (size ≤ hh_size mem hdr) := rfl

/-- The room a page-aligned request loses in front of its block. -/
def front_gap (addr : Nat) : Nat := 0x1000 - (addr + 12) % 0x1000

/-- What the aligned test asks for, in an address space and with sizes where nothing wraps. -/
theorem hole_fits_true {mem : Mem} {size hdr : Nat} (hlow : 0x1000 ≤ hdr) (hhdr : hdr + 12 < 4294967296)
    (hsize : size < 2147483648) (hhole : hh_size mem hdr < 2147483648) :
    hole_fits mem size true hdr = decide (size + front_gap hdr ≤ hh_size mem hdr) := by
  unfold hole_fits front_gap
  have hloc : add32 hdr sizeof_header = hdr + 12 := add32_of_lt hhdr
  simp only [if_true, hloc, land_page hhdr]
  rw [if_pos (by omega), toInt32_of_lt hsize]
  refine decide_eq_decide.mpr ?_
  -- a hole smaller than the gap shows as a negative number
  by_cases hgap : 0x1000 - (hdr + 12) % 0x1000 ≤ hh_size mem hdr
  · rw [sub32_of_le (by omega) hgap, toInt32_of_lt (by omega)]
    omega
  · unfold sub32 toInt32
    split <;> omega

/-! ## §2. The endmost hole. -/

theorem endmost_from_spec (idx : SortedArray Mem Nat) : ∀ n i best value, idx.sa_size = i + n →
    (∀ k, k < i → idx.sa_array k ≤ value) →
    ((∃ k, k < i ∧ best = k ∧ idx.sa_array k = value ∧ 0 < value) ∨ (best = 0xFFFFFFFF ∧ value = 0)) →
    (∃ k, k < idx.sa_size ∧ endmost_from idx n i best value = k ∧ 0 < idx.sa_array k
        ∧ ∀ l, l < idx.sa_size → idx.sa_array l ≤ idx.sa_array k)
      ∨ (endmost_from idx n i best value = 0xFFFFFFFF
        ∧ ∀ l, l < idx.sa_size → idx.sa_array l = 0) := by
  intro n
  induction n with
  | zero =>
      intro i best value hi hle hbest
      rw [endmost_from]
      rcases hbest with ⟨k, hk, rfl, hv, hpos⟩ | ⟨rfl, rfl⟩
      · exact .inl ⟨_, by omega, rfl, by omega, fun l hl => by rw [hv]; exact hle l (by omega)⟩
      · exact .inr ⟨rfl, fun l hl => Nat.le_zero.mp (hle l (by omega))⟩
  | succ n ih =>
      intro i best value hi hle hbest
      rw [endmost_from, if_pos (show i < idx.sa_size by omega)]
      dsimp only
      by_cases hgt : idx.sa_array i > value
      · rw [if_pos hgt]
        refine ih (i + 1) i (idx.sa_array i) (by omega) (fun k hk => ?_)
          (.inl ⟨i, by omega, rfl, rfl, by omega⟩)
        by_cases hki : k = i
        · rw [hki]
        · have := hle k (by omega)
          omega
      · rw [if_neg hgt]
        refine ih (i + 1) best value (by omega) (fun k hk => ?_) ?_
        · by_cases hki : k = i
          · rw [hki]; omega
          · exact hle k (by omega)
        · rcases hbest with ⟨k, hk, h1, h2, h3⟩ | h
          · exact .inl ⟨k, by omega, h1, h2, h3⟩
          · exact .inr h

/-- **The endmost hole** is the one with the greatest address. -/
theorem endmost_spec (idx : SortedArray Mem Nat) :
    (∃ k, k < idx.sa_size ∧ endmost idx = k ∧ 0 < idx.sa_array k
        ∧ ∀ a ∈ idx.entries, a ≤ idx.sa_array k)
      ∨ (endmost idx = 0xFFFFFFFF ∧ ∀ a ∈ idx.entries, a = 0) := by
  rcases endmost_from_spec idx idx.sa_size 0 0xFFFFFFFF 0 (by omega) (fun k hk => absurd hk (by omega))
    (.inr ⟨rfl, rfl⟩) with ⟨k, hk, h1, hpos, h2⟩ | ⟨h1, h2⟩
  · refine .inl ⟨k, hk, h1, hpos, fun a ha => ?_⟩
    obtain ⟨l, hl, rfl⟩ := SortedArray.mem_entries.mp ha
    exact h2 l hl
  · refine .inr ⟨h1, fun a ha => ?_⟩
    obtain ⟨l, hl, rfl⟩ := SortedArray.mem_entries.mp ha
    exact h2 l hl

/-! ## §3. The search of `free`. -/

theorem index_of_from_spec (idx : SortedArray Mem Nat) (hdr : Nat) : ∀ n i, idx.sa_size = i + n →
    let j := index_of_from idx hdr n i
    i ≤ j ∧ j ≤ idx.sa_size ∧ (∀ k, i ≤ k → k < j → idx.sa_array k ≠ hdr)
      ∧ (j < idx.sa_size → idx.sa_array j = hdr) := by
  intro n
  induction n with
  | zero =>
      intro i hi
      refine ⟨Nat.le_refl _, by rw [index_of_from]; omega, fun k h1 h2 => ?_, fun h => ?_⟩
      · exact absurd h2 (by rw [index_of_from]; omega)
      · exact absurd h (by rw [index_of_from]; omega)
  | succ n ih =>
      intro i hi
      rw [index_of_from]
      by_cases hc : i < idx.sa_size ∧ idx.sa_array i ≠ hdr
      · rw [if_pos hc]
        obtain ⟨h1, h2, h3, h4⟩ := ih (i + 1) (by omega)
        refine ⟨by omega, h2, fun k hk hkj => ?_, h4⟩
        by_cases hki : k = i
        · subst hki; exact hc.2
        · exact h3 k (by omega) hkj
      · rw [if_neg hc]
        refine ⟨Nat.le_refl _, by omega, fun k h1 h2 => absurd h2 (by omega), fun h => ?_⟩
        by_contra hne
        exact hc ⟨h, hne⟩

/-- A header is found where it is in the index, and only then. -/
theorem index_of_lt {idx : SortedArray Mem Nat} {hdr : Nat} :
    index_of idx hdr < idx.sa_size ↔ hdr ∈ idx.entries := by
  obtain ⟨-, h2, h3, h4⟩ := index_of_from_spec idx hdr idx.sa_size 0 (by omega)
  constructor
  · intro h
    exact SortedArray.mem_entries.mpr ⟨_, h, h4 h⟩
  · intro h
    obtain ⟨k, hk, hkh⟩ := SortedArray.mem_entries.mp h
    by_contra hge
    exact h3 k (Nat.zero_le _) (by unfold index_of at hge; omega) hkh

theorem sa_array_index_of {idx : SortedArray Mem Nat} {hdr : Nat} (h : hdr ∈ idx.entries) :
    idx.sa_array (index_of idx hdr) = hdr :=
  (index_of_from_spec idx hdr idx.sa_size 0 (by omega)).2.2.2 (index_of_lt.mpr h)

end JamesM
