/-
  JamesM.Paging.Ownership — which page holds which physical frame.

  `alloc_frame` hands out the first clear frame and `free_frame` is to give it back.
  But `free_frame` passes the frame NUMBER to `clear_frame`, which expects a frame
  ADDRESS and divides by the page size again; and it takes frame 0 for "no frame".
  So a page that holds a frame never gives it back.

  `frame_ownership_iff` makes this exact: over any run, every frame is held by one
  page and the bitset records exactly the frames held, IF AND ONLY IF no step frees
  a page that holds a frame.
-/
import JamesM.Lib.Trace
import JamesM.Paging.Def

namespace JamesM

open JamesM.ByteMem JamesM.Word32 JamesM.Lib

/-! ## §1. Runs of `alloc_frame` and `free_frame`. -/

/-- The calls. -/
inductive FrameOp where
  | alloc (p : Nat) (is_kernel is_writeable : Int)
  | free (p : Nat)

/-- The page entry a call is about. -/
def FrameOp.page : FrameOp → Nat
  | .alloc p _ _ => p
  | .free p => p

/-- The machine, and which frame each page was assigned and did not free since. -/
structure FrameState where
  machine : Machine
  held : List (Nat × Nat)

/-- `alloc_frame` assigns a frame to a page whose `p_frame` is zero; it stays assigned until the next
    `free_frame` on that page. -/
def FrameOp.step : FrameOp → FrameState → Result FrameState
  | .alloc p is_kernel is_writeable, s => do
      let m ← alloc_frame p is_kernel is_writeable s.machine
      .ok { machine := m
            held := if (read_page s.machine.mem p).p_frame ≠ 0 then s.held
              else (p, first_frame s.machine.frames s.machine.nframes) :: s.held }
  | .free p, s =>
      .ok { machine := free_frame p s.machine, held := s.held.filter (fun h => h.1 ≠ p) }

/-- One step on one of the given page entries. -/
def FrameStep (pages : List Nat) (s : FrameState) (op : FrameOp) (s' : FrameState) : Prop :=
  op.page ∈ pages ∧ op.step s = .ok s'

/-- A cleared bitset, zeroed page entries at words that do not overlap, and nothing held.  The frame
    field of an entry has 20 bits. -/
structure FrameStart (pages : List Nat) (s : FrameState) : Prop where
  nframes : s.machine.nframes ≤ 1048576
  apart : ∀ p ∈ pages, ∀ q ∈ pages, p ≠ q → p + 4 ≤ q ∨ q + 4 ≤ p
  zero : ∀ p ∈ pages, read32 s.machine.mem p = 0
  clear : ∀ k, frameSet s.machine.frames k = false
  held : s.held = []

/-- **The law.**  No two pages hold one frame, and bit `k` is set exactly when some page holds `k`. -/
def FramesOwned (s : FrameState) : Prop :=
  (∀ p q k, (p, k) ∈ s.held → (q, k) ∈ s.held → p = q)
    ∧ ∀ k, k < s.machine.nframes → (frameSet s.machine.frames k = true ↔ ∃ p, (p, k) ∈ s.held)

/-- The step does not free a page that holds a frame. -/
def FreesNothing (s : FrameState) : FrameOp → Prop
  | .alloc _ _ _ => True
  | .free p => ∀ k, (p, k) ∉ s.held

/-! ## §2. The invariant of the good runs. -/

/-- The law, and how the entries reflect it: an entry with a frame number shows a frame its page
    holds, and every frame but frame 0 shows in its entry. -/
structure FrameInv (pages : List Nat) (s : FrameState) : Prop where
  nframes : s.machine.nframes ≤ 1048576
  apart : ∀ p ∈ pages, ∀ q ∈ pages, p ≠ q → p + 4 ≤ q ∨ q + 4 ≤ p
  owned : FramesOwned s
  range : ∀ p k, (p, k) ∈ s.held → p ∈ pages ∧ k < s.machine.nframes
  shown : ∀ p ∈ pages, (read_page s.machine.mem p).p_frame ≠ 0 →
    (p, (read_page s.machine.mem p).p_frame) ∈ s.held
  entry : ∀ p k, (p, k) ∈ s.held → k ≠ 0 → (read_page s.machine.mem p).p_frame = k

theorem FrameStart.inv {pages : List Nat} {s : FrameState} (st : FrameStart pages s) :
    FrameInv pages s := by
  have hnone : ∀ p k, (p, k) ∉ s.held := by rw [st.held]; simp
  refine ⟨st.nframes, st.apart, ⟨fun p q k h => absurd h (hnone p k), fun k _ => ?_⟩,
    fun p k h => absurd h (hnone p k), fun p hp hne => ?_, fun p k h => absurd h (hnone p k)⟩
  · rw [st.clear k]
    exact ⟨fun h => absurd h (by decide), fun ⟨p, h⟩ => absurd h (hnone p k)⟩
  · refine absurd ?_ hne
    unfold read_page
    rw [st.zero p hp]
    rfl

/-- What `alloc_frame` does: nothing to a page that shows a frame; else the first clear frame goes
    to it. -/
theorem alloc_frame_cases {p : Nat} {k w : Int} {m m' : Machine} (h : alloc_frame p k w m = .ok m') :
    ((read_page m.mem p).p_frame ≠ 0 ∧ m' = m)
      ∨ ((read_page m.mem p).p_frame = 0 ∧ first_frame m.frames m.nframes ≠ 0xFFFFFFFF
        ∧ m' = { m with
            frames := set_frame m.frames (mul32 (first_frame m.frames m.nframes) 0x1000)
            mem := write_page m.mem p
              { read_page m.mem p with
                p_present := 1, p_frame := first_frame m.frames m.nframes
                p_rw := if w ≠ 0 then 1 else 0, p_user := if k ≠ 0 then 0 else 1 } }) := by
  unfold alloc_frame at h
  by_cases hf : (read_page m.mem p).p_frame ≠ 0
  · rw [if_pos hf] at h
    injection h with h
    exact .inl ⟨hf, h.symm⟩
  · rw [if_neg hf] at h
    by_cases hi : first_frame m.frames m.nframes = 0xFFFFFFFF
    · rw [if_pos hi] at h
      exact absurd h (by simp)
    · rw [if_neg hi] at h
      injection h with h
      exact .inr ⟨not_not.mp hf, hi, h.symm⟩

theorem alloc_frame_ne_fuel (p : Nat) (k w : Int) (m : Machine) :
    alloc_frame p k w m ≠ .error .fuel := by
  unfold alloc_frame
  dsimp only
  split
  · simp
  · split <;> simp

/-- A frame that was just taken: its bit was clear, and now exactly it was added. -/
theorem first_frame_taken {frames : Bitset} {nframes : Nat} (hn : nframes ≤ 1048576)
    (hi : first_frame frames nframes ≠ 0xFFFFFFFF) :
    first_frame frames nframes < nframes ∧ frameSet frames (first_frame frames nframes) = false
      ∧ ∀ k, frameSet (set_frame frames (mul32 (first_frame frames nframes) 0x1000)) k
          = (decide (k = first_frame frames nframes) || frameSet frames k) := by
  rcases first_frame_spec frames nframes with ⟨h1, h2, -⟩ | ⟨h1, -⟩
  · refine ⟨h1, h2, fun k => ?_⟩
    rw [frameSet_set_frame, mul32_of_lt (by omega), Nat.mul_div_cancel _ (by decide)]
  · exact absurd h1 hi

theorem FrameInv.alloc {pages : List Nat} {s s' : FrameState} {p : Nat} {k w : Int}
    (inv : FrameInv pages s) (hp : p ∈ pages) (h : (FrameOp.alloc p k w).step s = .ok s') :
    FrameInv pages s' := by
  simp only [FrameOp.step, bind_ok_iff, Except.ok.injEq] at h
  obtain ⟨m, hm, rfl⟩ := h
  rcases alloc_frame_cases hm with ⟨hf, rfl⟩ | ⟨hf, hi, rfl⟩
  · rw [if_pos hf]; exact inv
  · obtain ⟨hlt, hclear, hset⟩ := first_frame_taken inv.nframes hi
    rw [if_neg (not_not.mpr hf)]
    set i := first_frame s.machine.frames s.machine.nframes
    -- nobody holds a frame whose bit is clear
    have hfresh : ∀ q, (q, i) ∉ s.held := fun q hq => by
      have := (inv.owned.2 i hlt).mpr ⟨q, hq⟩
      rw [hclear] at this
      exact absurd this (by decide)
    -- the entries after the store
    have hsame : (read_page (write_page s.machine.mem p
          { read_page s.machine.mem p with
            p_present := 1, p_frame := i, p_rw := if w ≠ 0 then 1 else 0
            p_user := if k ≠ 0 then 0 else 1 }) p).p_frame = i := by
      rw [read_page_write_page, VmPage.decode_encode]
      have := inv.nframes
      show i % 1048576 = i
      omega
    have hother : ∀ pg q, q ∈ pages → q ≠ p →
        read_page (write_page s.machine.mem p pg) q = read_page s.machine.mem q := fun pg q hq hne =>
      read_page_write_page_ne _ _ (inv.apart q hq p hp hne)
    refine ⟨inv.nframes, inv.apart, ⟨fun q r l hq hr => ?_, fun l hl => ?_⟩, fun q l hq => ?_,
      fun q hq hne => ?_, fun q l hq hl => ?_⟩
    · rcases List.mem_cons.mp hq with hq | hq <;> rcases List.mem_cons.mp hr with hr | hr
      · injection hq with h1 h2; injection hr with h3 h4; exact h1.trans h3.symm
      · injection hq with h1 h2; subst h2; exact absurd hr (hfresh r)
      · injection hr with h1 h2; subst h2; exact absurd hq (hfresh q)
      · exact inv.owned.1 q r l hq hr
    · show frameSet (set_frame _ _) l = true ↔ _
      rw [hset l]
      by_cases hli : l = i
      · subst hli
        simp only [decide_true, Bool.true_or, true_iff]
        exact ⟨p, List.mem_cons_self⟩
      · rw [decide_eq_false hli, Bool.false_or, inv.owned.2 l hl]
        constructor
        · rintro ⟨q, hq⟩; exact ⟨q, List.mem_cons_of_mem _ hq⟩
        · rintro ⟨q, hq⟩
          rcases List.mem_cons.mp hq with hq | hq
          · injection hq with h1 h2; exact absurd h2 hli
          · exact ⟨q, hq⟩
    · rcases List.mem_cons.mp hq with hq | hq
      · injection hq with h1 h2; subst h1; subst h2; exact ⟨hp, hlt⟩
      · exact inv.range q l hq
    · by_cases hqp : q = p
      · subst hqp
        dsimp only
        rw [hsame]
        exact List.mem_cons_self
      · dsimp only at hne ⊢
        rw [hother _ q hq hqp] at hne ⊢
        exact List.mem_cons_of_mem _ (inv.shown q hq hne)
    · rcases List.mem_cons.mp hq with hnew | hold
      · injection hnew with h1 h2; subst h1; subst h2; exact hsame
      · by_cases hqp : q = p
        · rw [hqp] at hold
          exact absurd (inv.entry p l hold hl) (by rw [hf]; exact fun h => hl h.symm)
        · dsimp only
          rw [hother _ q (inv.range q l hold).1 hqp]
          exact inv.entry q l hold hl

/-- Freeing a page that holds nothing changes nothing. -/
theorem FrameInv.free_nothing {pages : List Nat} {s s' : FrameState} {p : Nat}
    (inv : FrameInv pages s) (hp : p ∈ pages) (hnone : ∀ k, (p, k) ∉ s.held)
    (h : (FrameOp.free p).step s = .ok s') : FrameInv pages s' := by
  simp only [FrameOp.step, Except.ok.injEq] at h
  have hf : (read_page s.machine.mem p).p_frame = 0 := by
    by_contra hne
    exact hnone _ (inv.shown p hp hne)
  have hm : free_frame p s.machine = s.machine := if_pos hf
  have hheld : s.held.filter (fun h => h.1 ≠ p) = s.held := by
    rw [List.filter_eq_self]
    rintro ⟨q, k⟩ hq
    simp only [ne_eq, decide_not, Bool.not_eq_eq_eq_not, Bool.not_true, decide_eq_false_iff_not]
    rintro rfl
    exact hnone k hq
  rw [hm, hheld] at h
  rw [← h]
  exact inv

/-- **Freeing a page that holds a frame leaks it.**  The bit stays set, and no page holds the frame
    any more. -/
theorem FrameInv.free_leaks {pages : List Nat} {s s' : FrameState} {p k : Nat}
    (inv : FrameInv pages s) (hheld : (p, k) ∈ s.held)
    (h : (FrameOp.free p).step s = .ok s') : ¬ FramesOwned s' := by
  simp only [FrameOp.step, Except.ok.injEq] at h
  -- the frame the page shows, if it shows one, is the one that leaks
  obtain ⟨l, hl, hset⟩ : ∃ l, (p, l) ∈ s.held ∧ frameSet (free_frame p s.machine).frames l = true := by
    have hp := (inv.range p k hheld).1
    by_cases hf : (read_page s.machine.mem p).p_frame = 0
    · rw [show free_frame p s.machine = s.machine from if_pos hf]
      exact ⟨k, hheld, (inv.owned.2 k (inv.range p k hheld).2).mpr ⟨p, hheld⟩⟩
    · have hmem := inv.shown p hp hf
      refine ⟨_, hmem, ?_⟩
      rw [show (free_frame p s.machine).frames
        = clear_frame s.machine.frames (read_page s.machine.mem p).p_frame by
          simp only [free_frame, if_neg hf]]
      -- the frame number divided by the page size once more is another frame
      rw [frameSet_clear_frame, (inv.owned.2 _ (inv.range _ _ hmem).2).mpr ⟨p, hmem⟩,
        decide_eq_false (by omega)]
      rfl
  have hlt := (inv.range p l hl).2
  have hnf : (free_frame p s.machine).nframes = s.machine.nframes := by
    simp only [free_frame]
    split <;> rfl
  rintro ⟨-, hbits⟩
  rw [← h] at hbits
  obtain ⟨q, hq⟩ := (hbits l (by rw [hnf]; exact hlt)).mp hset
  simp only [List.mem_filter, ne_eq, decide_not, Bool.not_eq_eq_eq_not, Bool.not_true,
    decide_eq_false_iff_not] at hq
  exact hq.2 (inv.owned.1 q p l hq.1 hl)

/-- **Frame ownership, exactly.**  From a cleared bitset and zeroed entries, over every run without a
    panic: the law holds in every state reached if and only if no step frees a page that holds a
    frame. -/
theorem frame_ownership_iff {pages : List Nat} {s : FrameState} (st : FrameStart pages s)
    {tr : List (FrameOp × FrameState)} (run : Trace (FrameStep pages) s tr) :
    (∀ x ∈ tr, FramesOwned x.2) ↔ Along FreesNothing s tr := by
  refine Trace.all_iff (P := FramesOwned) (fun s inv => FrameInv.owned inv) ?_ ?_ st.inv run
  · rintro s op s' inv hc ⟨hp, h⟩
    cases op with
    | alloc p k w => exact inv.alloc hp h
    | free p => exact inv.free_nothing hp hc h
  · rintro s op s' inv hc ⟨hp, h⟩
    cases op with
    | alloc p k w => exact absurd trivial hc
    | free p =>
        have hex : ∃ k, (p, k) ∈ s.held := by
          by_contra hno
          exact hc fun k hk => hno ⟨k, hk⟩
        obtain ⟨k, hk⟩ := hex
        exact inv.free_leaks hk h

/-- Three zeroed page entries and the kernel's 4096 frames, all clear. -/
def threePages : FrameState :=
  { machine := { Machine.bare 0x2000 with nframes := 0x1000 }, held := [] }

theorem threePages_start : FrameStart [0x1000, 0x1004, 0x1008] threePages := by
  refine ⟨by decide, by decide, fun p _ => rfl, fun k => ?_, rfl⟩
  show (0#32).getLsbD _ = false
  simp

/-- Two allocations on different pages: no step frees anything, and the law holds throughout. -/
theorem frame_ownership_iff_two_pages :
    ∃ tr : List (FrameOp × FrameState), tr.length = 2
      ∧ Trace (FrameStep [0x1000, 0x1004, 0x1008]) threePages tr ∧ ∀ x ∈ tr, FramesOwned x.2 := by
  have run : Trace (FrameStep [0x1000, 0x1004, 0x1008]) threePages
      [(.alloc 0x1000 0 0, _), (.alloc 0x1004 0 0, _)] :=
    ⟨⟨by decide, rfl⟩, ⟨by decide, rfl⟩, trivial⟩
  exact ⟨_, rfl, run, (frame_ownership_iff threePages_start run).mpr ⟨trivial, trivial, trivial⟩⟩

/-- **Frame 0 handed out twice.**  Allocate for two pages, free the second, allocate for a third: the
    first and the third page hold frame 0 together. -/
theorem frame_zero_held_twice :
    FrameStart [0x1000, 0x1004, 0x1008] threePages
      ∧ ∃ tr : List (FrameOp × FrameState),
        tr.map Prod.fst = [.alloc 0x1000 0 0, .alloc 0x1004 0 0, .free 0x1004, .alloc 0x1008 0 0]
          ∧ Trace (FrameStep [0x1000, 0x1004, 0x1008]) threePages tr
          ∧ (∃ x ∈ tr, (0x1000, 0) ∈ x.2.held ∧ (0x1008, 0) ∈ x.2.held)
          ∧ ¬ ∀ x ∈ tr, FramesOwned x.2 := by
  have run : Trace (FrameStep [0x1000, 0x1004, 0x1008]) threePages
      [(.alloc 0x1000 0 0, _), (.alloc 0x1004 0 0, _), (.free 0x1004, _), (.alloc 0x1008 0 0, _)] :=
    ⟨⟨by decide, rfl⟩, ⟨by decide, rfl⟩, ⟨by decide, rfl⟩, ⟨by decide, rfl⟩, trivial⟩
  refine ⟨threePages_start, _, rfl, run, ⟨_, List.mem_of_getLast? rfl, ?_, ?_⟩, fun hall => ?_⟩
  · decide
  · decide
  · have howned := hall _ (List.mem_of_getLast? rfl)
    have heq := howned.1 0x1000 0x1008 0 (by decide) (by decide)
    exact absurd heq (by decide)

end JamesM
