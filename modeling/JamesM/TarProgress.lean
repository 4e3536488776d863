/-
  JamesM.TarProgress — where the loop of `tar_parse_mem` goes on images that are not archives.

  The size field is read as it stands, so a header can announce any 32-bit length.
  The step to the next header is computed modulo 2^32: near the top of the range the
  rounding wraps to zero, and the loop looks at the same header again, for ever.

  Main result: `tar_parse_progress` — the loop moves on and ends exactly when every
  header it reaches announces data that fit below 2^32.
-/
import JamesM.Tar

namespace JamesM

open JamesM.ByteMem JamesM.Word32

/-! ## §1. One round. -/

theorem getsize_lt (mem : Mem) (p : Nat) : getsize mem p < 4294967296 := by
  unfold getsize
  rw [getsize_loop]
  -- the last digit read ends with an addition
  have hlast : ∀ j size count, size < 4294967296 → getsize_loop mem p j size count < 4294967296 := by
    intro j
    induction j with
    | zero => intro size count h; exact h
    | succ j ih => intro size count _; exact ih _ _ (add32_lt _ _)
  exact hlast _ _ _ (add32_lt _ _)

/-- `p += ((siz / 512) + 1) * 512; if (siz % 512) p += 512;`: the header after the one at `p`. -/
def tar_next (mem : Mem) (p : Nat) : Nat :=
  let siz := getsize mem (p + tar_size_offset)
  let next := add32 p (mul32 (add32 (siz / 512) 1) 512)
  if siz % 512 ≠ 0 then add32 next 512 else next

/-- One round of the loop. -/
theorem tar_parse_loop_next {mem : Mem} {p : Nat} (hp : mem p ≠ 0) :
    ∃ d : CharArray 101, d.bytes = mem_bytes mem p 100 ++ [0]
      ∧ ∀ fuel i q, tar_parse_loop mem (fuel + 1) i p q
        = tar_parse_loop mem fuel (i + 1) (tar_next mem p)
          (q ++ [⟨d, getsize mem (p + tar_size_offset), add32 p 512⟩]) := by
  obtain ⟨d, hd, hbytes⟩ := memcpy_filename mem p
  refine ⟨d, hbytes, fun fuel i q => ?_⟩
  rw [tar_parse_loop, if_neg hp]
  dsimp only
  rw [hd, ok_bind]
  rfl

/-- The header at `p` announces data that end below 2^32.  (A length above `0xFFFFFE00` is rounded to
    2^32, which is no length at all, and then gets the block for its remainder.) -/
def SizeFits (mem : Mem) (p : Nat) : Prop :=
  p + 512 + padded (getsize mem (p + tar_size_offset)) < 4294967296
    ∨ (0xFFFFFE00 < getsize mem (p + tar_size_offset) ∧ p + 512 < 4294967296)

/-- **One step.**  The next header is at least one block further on exactly when the size fits. -/
theorem tar_next_progress {mem : Mem} {p : Nat} (hp : p < 4294967296) :
    p + 512 ≤ tar_next mem p ↔ SizeFits mem p := by
  have hn := getsize_lt mem (p + tar_size_offset)
  unfold tar_next SizeFits padded
  generalize getsize mem (p + tar_size_offset) = n at hn ⊢
  have hblocks : add32 (n / 512) 1 = n / 512 + 1 := add32_of_lt (by omega)
  dsimp only
  rw [hblocks]
  unfold mul32 add32
  by_cases hr : n % 512 ≠ 0
  · rw [if_pos hr]
    omega
  · rw [if_neg hr]
    omega

theorem tar_next_lt (mem : Mem) (p : Nat) : tar_next mem p < 4294967296 := by
  unfold tar_next
  dsimp only
  split
  · exact add32_lt _ _
  · exact add32_lt _ _

/-! ## §2. The headers of a run. -/

/-- The header of round `k`, if the loop gets that far. -/
def tar_header (mem : Mem) (addr : Nat) : Nat → Option Nat
  | 0 => some addr
  | k + 1 => (tar_header mem addr k).bind fun p => if mem p = 0 then none else some (tar_next mem p)

theorem tar_header_succ {mem : Mem} {addr k q : Nat} :
    tar_header mem addr (k + 1) = some q
      ↔ ∃ p, tar_header mem addr k = some p ∧ mem p ≠ 0 ∧ tar_next mem p = q := by
  rw [tar_header, Option.bind_eq_some_iff]
  refine exists_congr fun p => and_congr_right fun _ => ?_
  by_cases hp : mem p = 0
  · rw [if_pos hp]
    exact ⟨fun h => absurd h (by simp), fun h => absurd hp h.1⟩
  · rw [if_neg hp, Option.some.injEq]
    exact ⟨fun h => ⟨hp, h⟩, fun h => h.2⟩

/-- The headers after the first one are those of the loop that starts at the second. -/
theorem tar_header_tail {mem : Mem} {addr : Nat} (h : mem addr ≠ 0) :
    ∀ k, tar_header mem addr (k + 1) = tar_header mem (tar_next mem addr) k := by
  intro k
  induction k with
  | zero =>
      rw [tar_header, tar_header, tar_header, Option.bind_some, if_neg h]
  | succ k ih =>
      rw [tar_header, ih]
      rfl

theorem tar_header_lt {mem : Mem} {addr : Nat} (haddr : addr < 4294967296) :
    ∀ {k p}, tar_header mem addr k = some p → p < 4294967296 := by
  intro k
  cases k with
  | zero =>
      intro p h
      rw [← Option.some.inj h]
      exact haddr
  | succ k =>
      intro p h
      obtain ⟨q, -, -, rfl⟩ := tar_header_succ.mp h
      exact tar_next_lt mem q

/-- Every header that the loop reaches, and does not stop at, announces data that fit. -/
def SizesFit (mem : Mem) (addr : Nat) : Prop :=
  ∀ k p, tar_header mem addr k = some p → mem p ≠ 0 → SizeFits mem p

/-- The loop makes progress: every round goes at least one block up, no header is visited twice, and
    the parse ends (there are `2^23` blocks). -/
structure TarProgress (mem : Mem) (addr : Nat) : Prop where
  step : ∀ k p q, tar_header mem addr k = some p → tar_header mem addr (k + 1) = some q → p + 512 ≤ q
  fresh : ∀ j k p q, j < k → tar_header mem addr j = some p → tar_header mem addr k = some q → p ≠ q
  ends : ∃ r, tar_parse_mem 8388608 mem addr = .ok r

/-- A loop whose sizes fit ends within the blocks above its first header. -/
theorem tar_parse_loop_ends {mem : Mem} : ∀ (fuel i p : Nat) (q : List TarFile), p < 4294967296 →
    4294967296 ≤ p + 512 * fuel → SizesFit mem p → ∃ r, tar_parse_loop mem fuel i p q = .ok r := by
  intro fuel
  induction fuel with
  | zero =>
      intro i p q hp hfuel _
      omega
  | succ fuel ih =>
      intro i p q hp hfuel hfit
      by_cases hstop : mem p = 0
      · exact ⟨_, by rw [tar_parse_loop, if_pos hstop]⟩
      · obtain ⟨d, -, hloop⟩ := tar_parse_loop_next hstop
        have hstep := (tar_next_progress hp).mpr (hfit 0 p rfl hstop)
        rw [hloop]
        exact ih _ _ _ (tar_next_lt mem p) (by omega) fun k r hr hne =>
          hfit (k + 1) r (by rw [tar_header_tail hstop]; exact hr) hne

/-- **Progress.**  For every memory image and every start: each round of the parse moves at least 512
    bytes up, no header is visited twice and the parse ends, if and only if every header reached
    announces data that fit below 2^32. -/
theorem tar_parse_progress {mem : Mem} {addr : Nat} (haddr : addr < 4294967296) :
    TarProgress mem addr ↔ SizesFit mem addr := by
  constructor
  · intro h k p hp hne
    have hnext : tar_header mem addr (k + 1) = some (tar_next mem p) :=
      tar_header_succ.mpr ⟨p, hp, hne, rfl⟩
    exact (tar_next_progress (tar_header_lt haddr hp)).mp (h.step k p _ hp hnext)
  · intro hfit
    have hstep : ∀ k p q, tar_header mem addr k = some p → tar_header mem addr (k + 1) = some q →
        p + 512 ≤ q := by
      intro k p q hp hq
      obtain ⟨p', hp', hne, rfl⟩ := tar_header_succ.mp hq
      have hpp : p' = p := Option.some.inj (hp'.symm.trans hp)
      subst hpp
      exact (tar_next_progress (tar_header_lt haddr hp)).mpr (hfit k p' hp hne)
    refine ⟨hstep, fun j k p q hjk hp hq => ?_, ?_⟩
    · -- the headers go up from round to round
      have hup : ∀ k q, tar_header mem addr k = some q → j < k → p < q := by
        intro k
        induction k with
        | zero => intro q _ h; exact absurd h (Nat.not_lt_zero j)
        | succ k ih =>
            intro q hq hjk
            obtain ⟨r, hr, -, -⟩ := tar_header_succ.mp hq
            have hle := hstep k r q hr hq
            by_cases heq : j = k
            · subst heq
              have hrp : r = p := Option.some.inj (hr.symm.trans hp)
              omega
            · have := ih r hr (by omega)
              omega
      exact Nat.ne_of_lt (hup k q hq hjk)
    · exact tar_parse_loop_ends 8388608 0 addr [] haddr (by omega) hfit

/-- The archive of one file with a name of 100 bytes and no data, at 0x1000; the final block starts with a NUL
    and goes on with garbage. -/
def longNamedImage : Mem := fun a =>
  if 0x1000 ≤ a ∧ a < 0x1064 then 0x61
  else if 0x107C ≤ a ∧ a < 0x1087 then 0x30
  else if a = 0x1200 then 0
  else 0xFF

/-- The parse of a small archive makes progress. -/
theorem tar_parse_progress_long_name : TarProgress longNamedImage 0x1000 := by
  refine (tar_parse_progress (by decide)).mpr fun k p hp hne => ?_
  have hsize : getsize longNamedImage (0x1000 + tar_size_offset) = 0 := by decide
  -- the second header ends the archive
  have hnext : tar_next longNamedImage 0x1000 = 0x1200 := by decide
  cases k with
  | zero =>
      rw [← Option.some.inj hp]
      left
      rw [hsize]
      decide
  | succ k =>
      rw [tar_header_tail (by decide), hnext] at hp
      cases k with
      | zero =>
          rw [← Option.some.inj hp] at hne
          exact absurd (by decide) hne
      | succ k =>
          have hnone : ∀ j, tar_header longNamedImage 0x1200 (j + 1) = none := by
            intro j
            induction j with
            | zero =>
                rw [tar_header, tar_header, Option.bind_some]
                exact if_pos (by decide)
            | succ j ih =>
                rw [tar_header, ih]
                rfl
          rw [hnone] at hp
          exact absurd hp (by simp)

/-- A header whose size field reads `37777777000`, which is `0xFFFFFE00`. -/
def stuckImage : Mem := fun a =>
  if a = 0x107C then 0x33
  else if 0x107D ≤ a ∧ a < 0x1084 then 0x37
  else if 0x1084 ≤ a ∧ a < 0x1087 then 0x30
  else 0x61

/-- **The loop stands still.**  The size field of this header makes the step zero: the header comes
    again in every round, and no number of rounds ends the parse. -/
theorem tar_parse_stands_still :
    stuckImage 0x1000 ≠ 0 ∧ tar_next stuckImage 0x1000 = 0x1000
      ∧ (∀ fuel, tar_parse_mem fuel stuckImage 0x1000 = .error .fuel)
      ∧ ¬ TarProgress stuckImage 0x1000 := by
  have hne : stuckImage 0x1000 ≠ 0 := by decide
  have hnext : tar_next stuckImage 0x1000 = 0x1000 := by decide
  obtain ⟨d, -, hloop⟩ := tar_parse_loop_next hne
  have hfuel : ∀ fuel i q, tar_parse_loop stuckImage fuel i 0x1000 q = .error .fuel := by
    intro fuel
    induction fuel with
    | zero => intro i q; rfl
    | succ fuel ih =>
        intro i q
        rw [hloop, hnext]
        exact ih _ _
  refine ⟨hne, hnext, fun fuel => hfuel fuel 0 [], fun h => ?_⟩
  have hsecond : tar_header stuckImage 0x1000 1 = some 0x1000 :=
    tar_header_succ.mpr ⟨0x1000, rfl, hne, hnext⟩
  exact h.fresh 0 1 0x1000 0x1000 (by decide) rfl hsecond rfl

end JamesM
