/-
  JamesM.Frames — the bitset of physical frames (`paging.c`).

  One bit per 4 KiB frame, 32 to a word.  `set_frame` and `clear_frame` take a
  frame ADDRESS and divide by the page size themselves; `first_frame` returns a
  frame NUMBER.

  The bitset is read through `frameSet`; the lemmas say what each routine does to
  it, and that `first_frame` returns the least clear bit.

  Main result: `bitset_is_a_set_with_minimum`.
-/
import JamesM.Common

namespace JamesM

/-- The words of the bitset. -/
abbrev Bitset := Nat → BitVec 32

/-- `INDEX_FROM_BIT(a)`. -/
def INDEX_FROM_BIT (a : Nat) : Nat := a / (8 * 4)

/-- `OFFSET_FROM_BIT(a)`. -/
def OFFSET_FROM_BIT (a : Nat) : Nat := a % (8 * 4)

/-- `set_frame(frame_addr)`. -/
def set_frame (frames : Bitset) (frame_addr : Nat) : Bitset :=
  let frame := frame_addr / 0x1000
  let idx := INDEX_FROM_BIT frame
  let off := OFFSET_FROM_BIT frame
  fun i => if i = idx then frames i ||| (0x1#32 <<< off) else frames i

/-- `clear_frame(frame_addr)`. -/
def clear_frame (frames : Bitset) (frame_addr : Nat) : Bitset :=
  let frame := frame_addr / 0x1000
  let idx := INDEX_FROM_BIT frame
  let off := OFFSET_FROM_BIT frame
  fun i => if i = idx then frames i &&& ~~~(0x1#32 <<< off) else frames i

/-- `test_frame(frame_addr)`. -/
def test_frame (frames : Bitset) (frame_addr : Nat) : BitVec 32 :=
  let frame := frame_addr / 0x1000
  let idx := INDEX_FROM_BIT frame
  let off := OFFSET_FROM_BIT frame
  frames idx &&& (0x1#32 <<< off)

/-- The inner loop of `first_frame`: the first `j` whose bit of `w` is clear. -/
def first_frame_bits (w : BitVec 32) : Nat → Nat → Option Nat
  | 0, _ => none
  | n + 1, j => if w &&& (0x1#32 <<< j) = 0#32 then some j else first_frame_bits w n (j + 1)

/-- The outer loop of `first_frame`; a full word is skipped. -/
def first_frame_words (frames : Bitset) : Nat → Nat → Nat
  | 0, _ => 0xFFFFFFFF
  | n + 1, i =>
      if frames i = 0xFFFFFFFF#32 then first_frame_words frames n (i + 1)
      else
        match first_frame_bits (frames i) 32 0 with
        | some j => i * 4 * 8 + j
        | none => first_frame_words frames n (i + 1)

/-- `first_frame()`: the number of the first free frame, or `-1`. -/
def first_frame (frames : Bitset) (nframes : Nat) : Nat :=
  first_frame_words frames (INDEX_FROM_BIT nframes) 0

/-! ## §1. The bitset as a set of frame numbers. -/

/-- Bit `k` of the bitset. -/
def frameSet (frames : Bitset) (k : Nat) : Bool := (frames (k / 32)).getLsbD (k % 32)

theorem getLsbD_one_shift {off j : Nat} (hj : j < 32) :
    (0x1#32 <<< off).getLsbD j = decide (j = off) := by
  rw [BitVec.getLsbD_shiftLeft, BitVec.getLsbD_one]
  by_cases h : j = off
  · subst h; simp [hj]
  · by_cases h2 : j < off
    · simp [h2, h]
    · have h3 : ¬ j - off = 0 := by omega
      simp [h, h3]

theorem frameSet_set_frame (frames : Bitset) (a k : Nat) :
    frameSet (set_frame frames a) k = (decide (k = a / 0x1000) || frameSet frames k) := by
  unfold frameSet set_frame INDEX_FROM_BIT OFFSET_FROM_BIT
  by_cases h : k / 32 = a / 0x1000 / (8 * 4)
  · rw [if_pos h, BitVec.getLsbD_or, getLsbD_one_shift (by omega), Bool.or_comm]
    congr 1
    exact decide_eq_decide.mpr (by omega)
  · rw [if_neg h, decide_eq_false (by rintro rfl; exact h rfl), Bool.false_or]

theorem frameSet_clear_frame (frames : Bitset) (a k : Nat) :
    frameSet (clear_frame frames a) k = (!decide (k = a / 0x1000) && frameSet frames k) := by
  unfold frameSet clear_frame INDEX_FROM_BIT OFFSET_FROM_BIT
  by_cases h : k / 32 = a / 0x1000 / (8 * 4)
  · have hlt : k % 32 < 32 := by omega
    rw [if_pos h, BitVec.getLsbD_and, BitVec.getLsbD_not, getLsbD_one_shift hlt, Bool.and_comm,
      decide_eq_true hlt, Bool.true_and]
    congr 2
    exact decide_eq_decide.mpr (by omega)
  · rw [if_neg h, decide_eq_false (by rintro rfl; exact h rfl), Bool.not_false, Bool.true_and]

theorem and_one_shift_eq_zero (w : BitVec 32) {j : Nat} (hj : j < 32) :
    w &&& (0x1#32 <<< j) = 0#32 ↔ w.getLsbD j = false := by
  constructor
  · intro h
    have hb := congrArg (fun v => v.getLsbD j) h
    simpa [BitVec.getLsbD_and, getLsbD_one_shift hj] using hb
  · intro h
    apply BitVec.eq_of_getLsbD_eq
    intro i hi
    rw [BitVec.getLsbD_and, getLsbD_one_shift hi]
    by_cases hij : i = j
    · subst hij; simp [h]
    · simp [hij]

/-! ## §2. `first_frame` returns the least clear bit. -/

/-- The inner loop finds the first clear bit from `j` on, or there is none. -/
theorem first_frame_bits_spec (w : BitVec 32) :
    ∀ n j, j + n = 32 →
      (∃ b, first_frame_bits w n j = some b ∧ j ≤ b ∧ b < 32 ∧ w.getLsbD b = false
          ∧ ∀ i, j ≤ i → i < b → w.getLsbD i = true)
        ∨ (first_frame_bits w n j = none ∧ ∀ i, j ≤ i → i < 32 → w.getLsbD i = true) := by
  intro n
  induction n with
  | zero => intro j hj; exact .inr ⟨rfl, fun i h1 h2 => absurd h2 (by omega)⟩
  | succ n ih =>
      intro j hj
      by_cases hb : w.getLsbD j = false
      · refine .inl ⟨j, ?_, Nat.le_refl _, by omega, hb, fun i h1 h2 => absurd h2 (by omega)⟩
        rw [first_frame_bits, if_pos ((and_one_shift_eq_zero w (by omega)).mpr hb)]
      · have hstep : first_frame_bits w (n + 1) j = first_frame_bits w n (j + 1) := by
          rw [first_frame_bits, if_neg (fun h => hb ((and_one_shift_eq_zero w (by omega)).mp h))]
        have hset : w.getLsbD j = true := by simpa using hb
        rw [hstep]
        rcases ih (j + 1) (by omega) with ⟨b, h1, h2, h3, h4, h5⟩ | ⟨h1, h2⟩
        · refine .inl ⟨b, h1, by omega, h3, h4, fun i hi hib => ?_⟩
          by_cases hij : i = j
          · subst hij; exact hset
          · exact h5 i (by omega) hib
        · refine .inr ⟨h1, fun i hi hib => ?_⟩
          by_cases hij : i = j
          · subst hij; exact hset
          · exact h2 i (by omega) hib

theorem frameSet_of_word {frames : Bitset} {i j : Nat} (hj : j < 32) :
    frameSet frames (i * 32 + j) = (frames i).getLsbD j := by
  unfold frameSet
  rw [show (i * 32 + j) / 32 = i by omega, show (i * 32 + j) % 32 = j by omega]

/-- The outer loop from word `i`: the first clear frame among the next `n` words, or `-1`. -/
theorem first_frame_words_spec (frames : Bitset) :
    ∀ n i,
      (∃ k, first_frame_words frames n i = k ∧ i * 32 ≤ k ∧ k < (i + n) * 32
          ∧ frameSet frames k = false ∧ ∀ l, i * 32 ≤ l → l < k → frameSet frames l = true)
        ∨ (first_frame_words frames n i = 0xFFFFFFFF
          ∧ ∀ l, i * 32 ≤ l → l < (i + n) * 32 → frameSet frames l = true) := by
  intro n
  induction n with
  | zero => intro i; exact .inr ⟨rfl, fun l h1 h2 => absurd h2 (by omega)⟩
  | succ n ih =>
      intro i
      -- a word without a clear bit hands over to the next one
      have hskip : (∀ b, b < 32 → (frames i).getLsbD b = true) →
          first_frame_words frames (n + 1) i = first_frame_words frames n (i + 1) →
          (∃ k, first_frame_words frames (n + 1) i = k ∧ i * 32 ≤ k ∧ k < (i + (n + 1)) * 32
              ∧ frameSet frames k = false ∧ ∀ l, i * 32 ≤ l → l < k → frameSet frames l = true)
            ∨ (first_frame_words frames (n + 1) i = 0xFFFFFFFF
              ∧ ∀ l, i * 32 ≤ l → l < (i + (n + 1)) * 32 → frameSet frames l = true) := by
        intro hfull hstep
        have hword : ∀ l, i * 32 ≤ l → l < (i + 1) * 32 → frameSet frames l = true := by
          intro l h1 h2
          have := hfull (l - i * 32) (by omega)
          rw [← frameSet_of_word (i := i) (by omega), show i * 32 + (l - i * 32) = l by omega] at this
          exact this
        rw [hstep]
        rcases ih (i + 1) with ⟨k, h1, h2, h3, h4, h5⟩ | ⟨h1, h2⟩
        · refine .inl ⟨k, h1, by omega, by omega, h4, fun l hl hlk => ?_⟩
          by_cases hw : l < (i + 1) * 32
          · exact hword l hl hw
          · exact h5 l (by omega) hlk
        · refine .inr ⟨h1, fun l hl hlk => ?_⟩
          by_cases hw : l < (i + 1) * 32
          · exact hword l hl hw
          · exact h2 l (by omega) (by omega)
      by_cases hfull : frames i = 0xFFFFFFFF#32
      · refine hskip (fun b hb => ?_) (by rw [first_frame_words, if_pos hfull])
        rw [hfull]
        have : ∀ b : Fin 32, (0xFFFFFFFF#32).getLsbD b = true := by decide
        exact this ⟨b, hb⟩
      · rcases first_frame_bits_spec (frames i) 32 0 (by omega) with
          ⟨b, h1, -, h3, h4, h5⟩ | ⟨h1, h2⟩
        · refine .inl ⟨i * 32 + b, ?_, by omega, by omega, ?_, fun l hl hlk => ?_⟩
          · rw [first_frame_words, if_neg hfull, h1]
            show i * 4 * 8 + b = _
            omega
          · rw [frameSet_of_word h3]; exact h4
          · have := h5 (l - i * 32) (by omega) (by omega)
            rw [← frameSet_of_word (i := i) (by omega),
              show i * 32 + (l - i * 32) = l by omega] at this
            exact this
        · exact hskip (fun b hb => h2 b (by omega) hb)
            (by rw [first_frame_words, if_neg hfull, h1])

/-- **`first_frame` is a minimum.**  It returns the least frame number whose bit is clear, or `-1`
    when every bit is set. -/
theorem first_frame_spec (frames : Bitset) (nframes : Nat) :
    (first_frame frames nframes < nframes ∧ frameSet frames (first_frame frames nframes) = false
        ∧ ∀ l, l < first_frame frames nframes → frameSet frames l = true)
      ∨ (first_frame frames nframes = 0xFFFFFFFF
        ∧ ∀ l, l < nframes / 32 * 32 → frameSet frames l = true) := by
  unfold first_frame INDEX_FROM_BIT
  rcases first_frame_words_spec frames (nframes / (8 * 4)) 0 with ⟨k, h1, -, h3, h4, h5⟩ | ⟨h1, h2⟩
  · rw [h1]
    exact .inl ⟨by omega, h4, fun l hl => h5 l (by omega) hl⟩
  · exact .inr ⟨h1, fun l hl => h2 l (by omega) (by omega)⟩

/-! ## §3. The words that are touched. -/

/-- The word of a frame below `nframes` is one of the `INDEX_FROM_BIT(nframes)` words. -/
theorem INDEX_FROM_BIT_lt {frame nframes : Nat} (hlt : frame < nframes) (h32 : nframes % 32 = 0) :
    INDEX_FROM_BIT frame < INDEX_FROM_BIT nframes := by
  unfold INDEX_FROM_BIT
  omega

/-- Storing and clearing bits of frames below `nframes` leaves every other word alone. -/
theorem frames_stored {frames : Bitset} {a nframes i : Nat} (hlt : a / 0x1000 < nframes)
    (h32 : nframes % 32 = 0) (hi : INDEX_FROM_BIT nframes ≤ i) :
    set_frame frames a i = frames i ∧ clear_frame frames a i = frames i := by
  have hidx := INDEX_FROM_BIT_lt hlt h32
  exact ⟨if_neg (by omega), if_neg (by omega)⟩

theorem first_frame_words_congr {frames frames' : Bitset} : ∀ n i,
    (∀ j, j < i + n → frames' j = frames j) → first_frame_words frames' n i = first_frame_words frames n i := by
  intro n
  induction n with
  | zero => intro i _; rfl
  | succ n ih =>
      intro i h
      rw [first_frame_words, first_frame_words, h i (by omega), ih (i + 1) fun j hj => h j (by omega)]

/-- The tests of such frames, and the search, read no other word. -/
theorem frames_read {frames frames' : Bitset} {nframes : Nat} (h32 : nframes % 32 = 0)
    (h : ∀ i, i < INDEX_FROM_BIT nframes → frames' i = frames i) :
    first_frame frames' nframes = first_frame frames nframes
      ∧ ∀ a, a / 0x1000 < nframes → test_frame frames' a = test_frame frames a := by
  refine ⟨first_frame_words_congr _ 0 fun j hj => h j (by omega), fun a ha => ?_⟩
  unfold test_frame
  dsimp only
  rw [h _ (INDEX_FROM_BIT_lt ha h32)]

/-! ## §4. A finite set with a minimum. -/

/-- `test_frame` reads the bit of the frame. -/
theorem test_frame_eq_zero {frames : Bitset} {b : Nat} :
    test_frame frames b = 0#32 ↔ frameSet frames (b / 0x1000) = false :=
  and_one_shift_eq_zero _ (Nat.mod_lt _ (by decide))

theorem test_frame_ne_zero {frames : Bitset} {b : Nat} :
    test_frame frames b ≠ 0#32 ↔ frameSet frames (b / 0x1000) = true := by
  rw [Ne, test_frame_eq_zero, Bool.not_eq_false]

theorem test_frame_set_frame {frames : Bitset} {a b : Nat} :
    test_frame (set_frame frames a) b ≠ 0#32
      ↔ b / 0x1000 = a / 0x1000 ∨ test_frame frames b ≠ 0#32 := by
  rw [test_frame_ne_zero, test_frame_ne_zero, frameSet_set_frame, Bool.or_eq_true, decide_eq_true_eq]

theorem test_frame_clear_frame {frames : Bitset} {a b : Nat} :
    test_frame (clear_frame frames a) b ≠ 0#32
      ↔ b / 0x1000 ≠ a / 0x1000 ∧ test_frame frames b ≠ 0#32 := by
  rw [test_frame_ne_zero, test_frame_ne_zero, frameSet_clear_frame, Bool.and_eq_true,
    Bool.not_eq_true', decide_eq_false_iff_not]

/-- With a 32-bit physical address space, `first_frame` fails exactly on a full bitset. -/
theorem first_frame_none {frames : Bitset} {nframes : Nat} (hmax : nframes ≤ 1048576)
    (h32 : nframes % 32 = 0) :
    first_frame frames nframes = 0xFFFFFFFF ↔ ∀ k, k < nframes → frameSet frames k = true := by
  rcases first_frame_spec frames nframes with ⟨hlt, hclear, -⟩ | ⟨hnone, hall⟩
  · refine iff_of_false (by omega) fun h => ?_
    rw [h _ hlt] at hclear
    exact absurd hclear (by decide)
  · exact iff_of_true hnone fun k hk => hall k (by omega)

/-- And else returns the least frame that is not in it. -/
theorem first_frame_least {frames : Bitset} {nframes : Nat}
    (hsome : first_frame frames nframes ≠ 0xFFFFFFFF) :
    IsLeast {k | k < nframes ∧ frameSet frames k = false} (first_frame frames nframes) := by
  rcases first_frame_spec frames nframes with ⟨hlt, hclear, hleast⟩ | ⟨hnone, -⟩
  · refine ⟨⟨hlt, hclear⟩, fun k hk => ?_⟩
    by_contra hk'
    have hset := hleast k (by omega)
    rw [hk.2] at hset
    exact absurd hset (by decide)
  · exact absurd hnone hsome

/-- **The bitset is a finite set with a minimum.**  For `32 * W` frames and any contents: setting and
    clearing a frame insert and erase its number, and `first_frame` is the least number missing, or
    `-1` if and only if none is. -/
theorem bitset_is_a_set_with_minimum (W : Nat) (hW : W ≤ 2 ^ 15) (frames : Bitset) :
    (∀ a b, a / 0x1000 < 32 * W → b / 0x1000 < 32 * W →
        (test_frame (set_frame frames a) b ≠ 0#32
          ↔ b / 0x1000 = a / 0x1000 ∨ test_frame frames b ≠ 0#32)
        ∧ (test_frame (clear_frame frames a) b ≠ 0#32
          ↔ b / 0x1000 ≠ a / 0x1000 ∧ test_frame frames b ≠ 0#32))
      ∧ (first_frame frames (32 * W) = 0xFFFFFFFF
          ↔ ∀ k, k < 32 * W → test_frame frames (k * 0x1000) ≠ 0#32)
      ∧ (first_frame frames (32 * W) ≠ 0xFFFFFFFF →
          IsLeast {k | k < 32 * W ∧ test_frame frames (k * 0x1000) = 0#32}
            (first_frame frames (32 * W))) := by
  have hnumber : ∀ k, k * 0x1000 / 0x1000 = k := fun k => Nat.mul_div_cancel k (by decide)
  refine ⟨fun a b _ _ => ⟨test_frame_set_frame, test_frame_clear_frame⟩, ?_, fun hsome => ?_⟩
  · simp only [test_frame_ne_zero, hnumber]
    exact first_frame_none (by omega) (Nat.mul_mod_right 32 W)
  · simp only [test_frame_eq_zero, hnumber]
    exact first_frame_least hsome

/-- One word, with its three lowest frames in use. -/
theorem bitset_is_a_set_with_minimum_word :
    test_frame (set_frame (fun _ => 7#32) 0x5000) 0x5000 ≠ 0#32
      ∧ test_frame (clear_frame (fun _ => 7#32) 0x5000) 0x5000 = 0#32
      ∧ IsLeast {k | k < 32 * 1 ∧ test_frame (fun _ => 7#32) (k * 0x1000) = 0#32}
          (first_frame (fun _ => 7#32) (32 * 1)) := by
  obtain ⟨hstore, -, hleast⟩ := bitset_is_a_set_with_minimum 1 (by decide) (fun _ => 7#32)
  obtain ⟨hset, hclear⟩ := hstore 0x5000 0x5000 (by decide) (by decide)
  refine ⟨hset.mpr (.inl rfl), ?_, hleast (by decide)⟩
  by_contra h
  exact (hclear.mp h).1 rfl

end JamesM
