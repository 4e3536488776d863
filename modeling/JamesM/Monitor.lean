/-
  JamesM.Monitor — the text console (`monitor.c`) and the terminal it stands for.

  The console is a frame buffer of 25 rows of 80 words, scrolled in place, with two
  8-bit cursor coordinates and a hardware cursor behind the ports 0x3D4 and 0x3D5.
  The terminal is what a reader of the output has in mind: rows without an end, all
  blank, and a cursor that only ever moves down.

  `console_refines_terminal`: after `mon_clear` and any sequence of bytes, the
  frame buffer is the window of the terminal that ends at the cursor's row.
-/
import JamesM.Common

namespace JamesM

/-! ## §1. The source. -/

def MON_DEFAULT_ATTR_BYTE : Nat := (0 <<< 4) ||| (15 &&& 0x0F)
def MON_BLANK_CHAR : Nat := 0x20 ||| (MON_DEFAULT_ATTR_BYTE <<< 8)
def MON_WIDTH : Nat := 80
def MON_HEIGHT : Nat := 25

/-- The console.  `stores` lists the indices of `video_memory` that were stored to and `ports` the
    bytes sent to the VGA board, newest first. -/
structure Monitor where
  video_memory : Nat → Nat
  cursor_x : Nat
  cursor_y : Nat
  stores : List Nat
  ports : List (Nat × Nat)

/-- `video_memory[i] = w`, for a 16-bit `w`. -/
def Monitor.store (m : Monitor) (i w : Nat) : Monitor :=
  { m with video_memory := fun j => if j = i then w else m.video_memory j
           stores := i :: m.stores }

/-- `outb(port, value)`, for an 8-bit `value`. -/
def Monitor.outb (m : Monitor) (port value : Nat) : Monitor :=
  { m with ports := (port, value % 256) :: m.ports }

/-- `move_cursor()`. -/
def move_cursor (m : Monitor) : Monitor :=
  let cl := (m.cursor_y * MON_WIDTH + m.cursor_x) % 65536
  (((m.outb 0x3D4 14).outb 0x3D5 (cl >>> 8)).outb 0x3D4 15).outb 0x3D5 cl

/-- `for (; n > 0; i++, n--) video_memory[i] = video_memory[i + w];`. -/
def copy_up : Nat → Nat → Monitor → Monitor
  | 0, _, m => m
  | n + 1, i, m => copy_up n (i + 1) (m.store i (m.video_memory (i + MON_WIDTH)))

/-- `for (; n > 0; i++, n--) video_memory[i] = MON_BLANK_CHAR;`. -/
def fill_blank : Nat → Nat → Monitor → Monitor
  | 0, _, m => m
  | n + 1, i, m => fill_blank n (i + 1) (m.store i MON_BLANK_CHAR)

/-- `scroll()`. -/
def scroll (m : Monitor) : Monitor :=
  if m.cursor_y ≥ MON_HEIGHT then
    -- move each line to the previous one, and blank the last one
    let m := copy_up (MON_WIDTH * (MON_HEIGHT - 1)) 0 m
    let m := fill_blank MON_WIDTH (MON_WIDTH * (MON_HEIGHT - 1)) m
    { m with cursor_y := MON_HEIGHT - 1 }
  else m

/-- The first half of `mon_putchar`: what the character does before the right edge is looked at. -/
def put_char (b : UInt8) (m : Monitor) : Monitor :=
  let attr_byte := (0 <<< 4) ||| (2 &&& 0x0F)
  let attr := attr_byte <<< 8
  let c := char_value b
  if c = 0x08 ∧ m.cursor_x > 0 then { m with cursor_x := (m.cursor_x + 255) % 256 }
  else if c = 0x09 then { m with cursor_x := ((m.cursor_x + 8) &&& 0xFFFFFFF8) % 256 }
  else if c = 0x0D then { m with cursor_x := 0 }
  else if c = 0x0A then { m with cursor_x := 0, cursor_y := (m.cursor_y + 1) % 256 }
  else if c ≥ 0x20 then
    { m.store (m.cursor_x + MON_WIDTH * m.cursor_y) ((c.toNat ||| attr) % 65536) with
      cursor_x := (m.cursor_x + 1) % 256 }
  else m

/-- The wrap at the right edge. -/
def wrap_line (m : Monitor) : Monitor :=
  if m.cursor_x ≥ MON_WIDTH then { m with cursor_x := 0, cursor_y := (m.cursor_y + 1) % 256 } else m

/-- `mon_putchar(c)`. -/
def mon_putchar (b : UInt8) (m : Monitor) : Monitor := move_cursor (scroll (wrap_line (put_char b m)))

/-- `mon_clear()`. -/
def mon_clear (m : Monitor) : Monitor :=
  let m := fill_blank (MON_WIDTH * MON_HEIGHT) 0 m
  move_cursor { m with cursor_x := 0, cursor_y := 0 }

/-- A string of bytes sent to the console one after another. -/
def mon_putchars (bs : List UInt8) (m : Monitor) : Monitor := bs.foldl (fun m b => mon_putchar b m) m

/-- The cursor registers of the VGA board: the selected register, and the two bytes. -/
structure Vga where
  index : Nat
  high : Nat
  low : Nat

/-- The board's side of an `outb`. -/
def Vga.recv (v : Vga) (port value : Nat) : Vga :=
  if port = 0x3D4 then { v with index := value }
  else if port = 0x3D5 then
    if v.index = 14 then { v with high := value }
    else if v.index = 15 then { v with low := value }
    else v
  else v

/-- The registers after the bytes in a log (newest first). -/
def vgaAfter : List (Nat × Nat) → Vga
  | [] => ⟨0, 0, 0⟩
  | o :: log => (vgaAfter log).recv o.1 o.2

/-- The cursor position the board was told last. -/
def Monitor.vgaCursor (m : Monitor) : Nat := 256 * (vgaAfter m.ports).high + (vgaAfter m.ports).low

/-! ## §2. The terminal. -/

/-- An unbounded terminal: `cell row col`, and a cursor. -/
structure Terminal where
  cell : Nat → Nat → Nat
  row : Nat
  col : Nat

namespace Terminal

/-- All blank, cursor at the top left. -/
def blank : Terminal := { cell := fun _ _ => 0x0F20, row := 0, col := 0 }

/-- Go to the start of the next row. -/
def newline (t : Terminal) : Terminal := { t with row := t.row + 1, col := 0 }

/-- Write a cell at the cursor and advance. -/
def write (t : Terminal) (w : Nat) : Terminal :=
  { t with cell := fun r c => if r = t.row ∧ c = t.col then w else t.cell r c, col := t.col + 1 }

/-- What a byte does, before the right edge. -/
def act (b : UInt8) (t : Terminal) : Terminal :=
  if b = 0x08 then { t with col := t.col - 1 }
  else if b = 0x09 then { t with col := 8 * (t.col / 8 + 1) }
  else if b = 0x0D then { t with col := 0 }
  else if b = 0x0A then t.newline
  else if 0x20 ≤ b.toNat ∧ b.toNat ≤ 0x7F then t.write (0x0200 + b.toNat)
  else t

/-- Reaching column 80 is going to the next row. -/
def edge (t : Terminal) : Terminal := if t.col = 80 then t.newline else t

/-- One byte. -/
def put (b : UInt8) (t : Terminal) : Terminal := (t.act b).edge

/-- A sequence of bytes. -/
def puts (bs : List UInt8) (t : Terminal) : Terminal := bs.foldl (fun t b => t.put b) t

/-- The first row of the 25 that end at the cursor's row. -/
def top (t : Terminal) : Nat := t.row - 24

/-- The cursor is on the screen, and nothing was ever written below it. -/
structure Ok (t : Terminal) : Prop where
  col : t.col < 80
  below : ∀ r c, t.row < r → t.cell r c = 0x0F20

/-- What a byte can do to the cursor. -/
theorem act_cursor {t : Terminal} (ok : t.Ok) (b : UInt8) :
    (t.act b).col ≤ 80 ∧ t.row ≤ (t.act b).row ∧ (t.act b).row ≤ t.row + 1
      ∧ ((t.act b).row = t.row + 1 → (t.act b).col = 0) := by
  have hcol := ok.col
  unfold act newline write
  split_ifs <;> simp <;> omega

/-- A byte writes in the cursor's row only. -/
theorem act_below {t : Terminal} (ok : t.Ok) (b : UInt8) {r : Nat} (c : Nat) (hr : t.row < r) :
    (t.act b).cell r c = 0x0F20 := by
  have hblank := ok.below r c hr
  have hne : ¬ (r = t.row ∧ c = t.col) := by omega
  unfold act newline write
  split_ifs <;> simp [hblank, hne]

theorem edge_cell (t : Terminal) : t.edge.cell = t.cell := by
  unfold edge newline
  split <;> rfl

/-- One byte keeps the terminal well formed and moves the cursor down by at most a row, which is
    then blank. -/
theorem Ok.put {t : Terminal} (ok : t.Ok) (b : UInt8) :
    (t.put b).Ok ∧ t.row ≤ (t.put b).row ∧ (t.put b).row ≤ t.row + 1
      ∧ ((t.put b).row = t.row + 1 → ∀ c, (t.put b).cell (t.row + 1) c = 0x0F20) := by
  obtain ⟨h1, h2, h3, h4⟩ := act_cursor ok b
  have hcell : ∀ r c, t.row < r → (t.put b).cell r c = 0x0F20 := fun r c hr => by
    rw [Terminal.put, edge_cell]
    exact act_below ok b c hr
  have hcur : (t.put b).col < 80 ∧ t.row ≤ (t.put b).row ∧ (t.put b).row ≤ t.row + 1 := by
    unfold Terminal.put edge newline
    by_cases hc : (t.act b).col = 80
    · -- a byte that goes to the next row leaves the cursor at its start
      have hrow : (t.act b).row ≠ t.row + 1 := fun h => by
        have := h4 h
        omega
      rw [if_pos hc]
      dsimp only
      omega
    · rw [if_neg hc]
      omega
  refine ⟨⟨hcur.1, fun r c hr => hcell r c (by omega)⟩, hcur.2.1, hcur.2.2, fun _ c => ?_⟩
  exact hcell _ c (Nat.lt_succ_self _)

end Terminal

/-! ## §3. The loops of the console. -/

theorem copy_up_eq (n : Nat) : ∀ (i : Nat) (m : Monitor), copy_up n i m =
    { m with
      video_memory := fun j =>
        if i ≤ j ∧ j < i + n then m.video_memory (j + MON_WIDTH) else m.video_memory j
      stores := (List.range' i n).reverse ++ m.stores } := by
  induction n with
  | zero =>
      intro i m
      have hv : (fun j => if i ≤ j ∧ j < i + 0 then m.video_memory (j + MON_WIDTH)
          else m.video_memory j) = m.video_memory := by
        funext j; rw [if_neg (by omega)]
      rw [hv]; rfl
  | succ n ih =>
      intro i m
      rw [copy_up, ih]
      unfold Monitor.store
      congr 1
      · funext j
        dsimp only
        -- the words still to be copied lie above the one just stored
        by_cases hj : i + 1 ≤ j ∧ j < i + 1 + n
        · have hne : ¬ j + MON_WIDTH = i := by omega
          rw [if_pos hj, if_neg hne, if_pos (by omega)]
        · rw [if_neg hj]
          by_cases hi : j = i
          · subst hi; rw [if_pos rfl, if_pos (by omega)]
          · rw [if_neg hi, if_neg (by omega)]
      · rw [List.range'_succ, List.reverse_cons, List.append_assoc]; rfl

theorem fill_blank_eq (n : Nat) : ∀ (i : Nat) (m : Monitor), fill_blank n i m =
    { m with
      video_memory := fun j => if i ≤ j ∧ j < i + n then MON_BLANK_CHAR else m.video_memory j
      stores := (List.range' i n).reverse ++ m.stores } := by
  induction n with
  | zero =>
      intro i m
      have hv : (fun j => if i ≤ j ∧ j < i + 0 then MON_BLANK_CHAR else m.video_memory j)
          = m.video_memory := by
        funext j; rw [if_neg (by omega)]
      rw [hv]; rfl
  | succ n ih =>
      intro i m
      rw [fill_blank, ih]
      unfold Monitor.store
      congr 1
      · funext j
        dsimp only
        by_cases hj : i + 1 ≤ j ∧ j < i + 1 + n
        · rw [if_pos hj, if_pos (by omega)]
        · rw [if_neg hj]
          by_cases hi : j = i
          · subst hi; rw [if_pos rfl, if_pos (by omega)]
          · rw [if_neg hi, if_neg (by omega)]
      · rw [List.range'_succ, List.reverse_cons, List.append_assoc]; rfl

theorem blank_char_eq : MON_BLANK_CHAR = 0x0F20 := by decide

/-! ## §4. The simulation. -/

/-- The frame buffer shows the 25 rows of the terminal from row `top` on. -/
structure Window (top : Nat) (t : Terminal) (m : Monitor) : Prop where
  x : m.cursor_x = t.col
  y : m.cursor_y + top = t.row
  cell : ∀ r c, r < 25 → c < 80 → m.video_memory (80 * r + c) = t.cell (top + r) c
  stores : ∀ i ∈ m.stores, i < 2000

theorem char_value_eq (b : UInt8) (n : Nat) (hn : n < 128) :
    char_value b = (n : Int) ↔ b = UInt8.ofNat n := by
  have hb := b.toNat_lt
  unfold char_value
  rw [← UInt8.toNat_inj, UInt8.toNat_ofNat_of_lt' (by omega : n < 256)]
  split <;> omega

theorem char_value_ge (b : UInt8) :
    char_value b ≥ 0x20 ↔ 0x20 ≤ b.toNat ∧ b.toNat ≤ 0x7F := by
  have hb := b.toNat_lt
  unfold char_value
  split <;> omega

theorem tab_stop {x : Nat} (hx : x < 80) : ((x + 8) &&& 0xFFFFFFF8) % 256 = 8 * (x / 8 + 1) := by
  revert x
  decide

theorem printed_word {b : Nat} (hb : b < 128) :
    (((b : Int).toNat ||| ((0 <<< 4) ||| (2 &&& 0x0F)) <<< 8) % 65536) = 0x0200 + b := by
  revert b
  decide

/-- Before the right edge, a byte does the same to both. -/
theorem Window.act {top : Nat} {t : Terminal} {m : Monitor} (w : Window top t m) (ok : t.Ok)
    (hrow : t.row < top + 25) (b : UInt8) : Window top (t.act b) (put_char b m) := by
  have hx := w.x
  have hy := w.y
  have hcol := ok.col
  unfold put_char Terminal.act
  dsimp only
  have h8 : char_value b = 0x08 ↔ b = 0x08 := char_value_eq b 8 (by decide)
  have h9 : char_value b = 0x09 ↔ b = 0x09 := char_value_eq b 9 (by decide)
  have hD : char_value b = 0x0D ↔ b = 0x0D := char_value_eq b 13 (by decide)
  have hA : char_value b = 0x0A ↔ b = 0x0A := char_value_eq b 10 (by decide)
  simp only [h8, h9, hD, hA, char_value_ge b]
  by_cases b8 : b = 0x08
  · subst b8
    rw [if_pos rfl]
    by_cases hx0 : m.cursor_x > 0
    · rw [if_pos ⟨rfl, hx0⟩]
      exact ⟨by dsimp only; omega, hy, w.cell, w.stores⟩
    · -- at column 0 no branch of the source applies to a backspace
      rw [if_neg (fun h => hx0 h.2), if_neg (by decide), if_neg (by decide), if_neg (by decide),
        if_neg (by decide)]
      exact ⟨by dsimp only; omega, hy, w.cell, w.stores⟩
  have hb8 : ¬ (b = 0x08 ∧ m.cursor_x > 0) := fun h => b8 h.1
  rw [if_neg b8, if_neg hb8]
  by_cases b9 : b = 0x09
  · rw [if_pos b9, if_pos b9]
    exact ⟨by dsimp only; rw [hx]; exact tab_stop hcol, hy, w.cell, w.stores⟩
  rw [if_neg b9, if_neg b9]
  by_cases bD : b = 0x0D
  · rw [if_pos bD, if_pos bD]
    exact ⟨rfl, hy, w.cell, w.stores⟩
  rw [if_neg bD, if_neg bD]
  by_cases bA : b = 0x0A
  · rw [if_pos bA, if_pos bA]
    exact ⟨rfl, by unfold Terminal.newline; dsimp only; omega, w.cell, w.stores⟩
  rw [if_neg bA, if_neg bA]
  by_cases bp : 0x20 ≤ b.toNat ∧ b.toNat ≤ 0x7F
  · rw [if_pos bp, if_pos bp]
    have hword : (((char_value b).toNat ||| ((0 <<< 4) ||| (2 &&& 0x0F)) <<< 8) % 65536)
        = 0x0200 + b.toNat := by
      rw [show char_value b = (b.toNat : Int) from if_pos (by omega)]
      exact printed_word (by omega)
    refine ⟨by unfold Terminal.write; dsimp only; omega, hy, fun r c hr hc => ?_, fun i hi => ?_⟩
    · unfold Monitor.store Terminal.write
      dsimp only
      rw [hword, MON_WIDTH]
      -- the cell at the cursor is the one stored to
      by_cases hcell : top + r = t.row ∧ c = t.col
      · rw [if_pos hcell, if_pos (by omega)]
      · rw [if_neg hcell, if_neg (by omega)]
        exact w.cell r c hr hc
    · rcases List.mem_cons.mp hi with rfl | hi
      · unfold MON_WIDTH; omega
      · exact w.stores i hi
  · rw [if_neg bp, if_neg bp]
    exact w

/-- The right edge. -/
theorem Window.edge {top : Nat} {t : Terminal} {m : Monitor} (w : Window top t m)
    (hcol : t.col ≤ 80) (hrow : t.row < top + 26) : Window top t.edge (wrap_line m) := by
  have hx := w.x
  have hy := w.y
  unfold wrap_line Terminal.edge MON_WIDTH
  by_cases hc : t.col = 80
  · rw [if_pos hc, if_pos (by omega)]
    exact ⟨rfl, by unfold Terminal.newline; dsimp only; omega, w.cell, w.stores⟩
  · rw [if_neg hc, if_neg (by omega)]
    exact w

/-- Scrolling moves the window down to the cursor. -/
theorem Window.scroll {top : Nat} {t : Terminal} {m : Monitor} (w : Window top t m)
    (hsame : t.row < top + 25 → t.top = top) (hnext : ¬ t.row < top + 25 → t.row = top + 25)
    (hblank : t.row = top + 25 → ∀ c, t.cell t.row c = 0x0F20) : Window t.top t (scroll m) := by
  have hy := w.y
  unfold JamesM.scroll
  by_cases hs : m.cursor_y ≥ MON_HEIGHT
  · rw [if_pos hs]
    unfold MON_HEIGHT at hs
    have hrow := hnext (by omega)
    have hnew : t.top = top + 1 := by unfold Terminal.top; omega
    simp only [copy_up_eq, fill_blank_eq, hnew]
    refine ⟨w.x, by simp only [MON_HEIGHT]; omega, fun r c hr hc => ?_, fun i hi => ?_⟩
    · dsimp only
      by_cases hlast : r = 24
      · -- the row that comes into view is the one the cursor just reached
        rw [if_pos (by unfold MON_WIDTH MON_HEIGHT; omega), blank_char_eq, hlast,
          show top + 1 + 24 = t.row by omega, hblank hrow c]
      · rw [if_neg (by unfold MON_WIDTH MON_HEIGHT; omega),
          if_pos (by unfold MON_WIDTH MON_HEIGHT; omega), MON_WIDTH,
          show 80 * r + c + 80 = 80 * (r + 1) + c by omega, w.cell (r + 1) c (by omega) hc,
          show top + (r + 1) = top + 1 + r by omega]
    · simp only [List.mem_append, List.mem_reverse, List.mem_range'_1, MON_WIDTH, MON_HEIGHT] at hi
      rcases hi with hi | hi | hi
      · omega
      · omega
      · exact w.stores i hi
  · rw [if_neg hs]
    unfold MON_HEIGHT at hs
    rw [hsame (by omega)]
    exact w

theorem Window.move_cursor {top : Nat} {t : Terminal} {m : Monitor} (w : Window top t m) :
    Window top t (move_cursor m) :=
  ⟨w.x, w.y, w.cell, w.stores⟩

/-- `move_cursor` tells the board where the cursor is. -/
theorem move_cursor_vga {m : Monitor} (hx : m.cursor_x < 80) (hy : m.cursor_y < 25) :
    (move_cursor m).vgaCursor = 80 * m.cursor_y + m.cursor_x := by
  have hcl : (m.cursor_y * MON_WIDTH + m.cursor_x) % 65536 = 80 * m.cursor_y + m.cursor_x := by
    unfold MON_WIDTH; omega
  simp only [move_cursor, hcl, Monitor.vgaCursor, Monitor.outb, vgaAfter, Vga.recv]
  simp only [Nat.shiftRight_eq_div_pow]
  simp
  omega

/-- The console shows the terminal: the window that ends at the cursor's row, and the hardware
    cursor. -/
structure Shows (t : Terminal) (m : Monitor) : Prop where
  ok : t.Ok
  window : Window t.top t m
  vga : m.vgaCursor = 80 * m.cursor_y + m.cursor_x

/-- Once the window is right, `move_cursor` makes the hardware cursor right. -/
theorem Window.shows {t : Terminal} {m : Monitor} (w : Window t.top t m) (ok : t.Ok) :
    Shows t (JamesM.move_cursor m) := by
  have hx := w.x
  have hy := w.y
  have hcol := ok.col
  refine ⟨ok, w.move_cursor, move_cursor_vga (by omega) ?_⟩
  unfold Terminal.top at hy
  omega

/-- **One byte.**  `mon_putchar` does to the window what the terminal does. -/
theorem Shows.put {t : Terminal} {m : Monitor} (sh : Shows t m) (b : UInt8) :
    Shows (t.put b) (mon_putchar b m) := by
  obtain ⟨hok, hle, hle1, hnew⟩ := sh.ok.put b
  obtain ⟨hcol, -, hrow1, -⟩ := Terminal.act_cursor sh.ok b
  have hrow : t.row < t.top + 25 := by unfold Terminal.top; omega
  have hact := sh.window.act sh.ok hrow b
  have hedge := hact.edge hcol (by omega)
  have hwin : Window (t.put b).top (t.put b) (scroll (wrap_line (put_char b m))) := by
    refine hedge.scroll (fun h => ?_) (fun h => ?_) (fun h => ?_)
    · change (t.put b).row < t.top + 25 at h
      show (t.put b).row - 24 = t.row - 24
      unfold Terminal.top at h
      omega
    · change ¬ (t.put b).row < t.top + 25 at h
      show (t.put b).row = t.top + 25
      omega
    · change (t.put b).row = t.top + 25 at h
      have hstep : (t.put b).row = t.row + 1 := by omega
      show ∀ c, (t.put b).cell (t.put b).row c = 0x0F20
      rw [hstep]
      exact hnew hstep
  exact hwin.shows hok

/-- A console just switched on: any frame buffer, any cursor, nothing stored or sent yet. -/
def Monitor.fresh (video_memory : Nat → Nat) (cursor_x cursor_y : Nat) : Monitor :=
  { video_memory := video_memory, cursor_x := cursor_x, cursor_y := cursor_y, stores := [], ports := [] }

theorem shows_mon_clear (v : Nat → Nat) (x y : Nat) :
    Shows Terminal.blank (mon_clear (Monitor.fresh v x y)) := by
  unfold mon_clear
  refine Window.shows ?_ ⟨by decide, fun _ _ _ => rfl⟩
  rw [fill_blank_eq]
  refine ⟨rfl, rfl, fun r c hr hc => ?_, fun i hi => ?_⟩
  · dsimp only
    rw [if_pos (by unfold MON_WIDTH MON_HEIGHT; omega), blank_char_eq]
    rfl
  · simp only [Monitor.fresh, List.append_nil, List.mem_reverse, List.mem_range'_1, MON_WIDTH,
      MON_HEIGHT] at hi
    omega

theorem Shows.puts (bs : List UInt8) : ∀ {t : Terminal} {m : Monitor}, Shows t m →
    Shows (t.puts bs) (mon_putchars bs m) := by
  induction bs with
  | nil => intro t m sh; exact sh
  | cons b bs ih => intro t m sh; exact ih (sh.put b)

/-- The console `m` is a view of the terminal `t`: with `T = max 0 (row - 24)` the first of the 25 rows
    that end at the cursor's. -/
structure Views (t : Terminal) (m : Monitor) : Prop where
  cursor_x : m.cursor_x = t.col
  col : t.col < 80
  cursor_y : (m.cursor_y : Int) = t.row - max 0 ((t.row : Int) - 24)
  row : m.cursor_y < 25
  cell : ∀ r c, r < 25 → c < 80 →
    m.video_memory (80 * r + c) = t.cell ((max 0 ((t.row : Int) - 24)).toNat + r) c
  stores : ∀ i ∈ m.stores, i < 2000
  vga : m.vgaCursor = 80 * m.cursor_y + m.cursor_x

/-- **The console refines the unbounded terminal.**  After `mon_clear` and any sequence of bytes the
    console is a view of the terminal that got the same bytes: the cursors agree and are on the screen,
    the frame buffer shows the last 25 rows cell by cell, every store went to one of the 2000 cells, and
    the board's cursor is the console's. -/
theorem console_refines_terminal (v : Nat → Nat) (x y : Nat) (bs : List UInt8) :
    Views (Terminal.blank.puts bs) (mon_putchars bs (mon_clear (Monitor.fresh v x y))) := by
  have sh := (shows_mon_clear v x y).puts bs
  have hy := sh.window.y
  unfold Terminal.top at hy
  refine ⟨sh.window.x, sh.ok.col, by omega, by omega, fun r c hr hc => ?_, sh.window.stores, sh.vga⟩
  have hT : ∀ t : Terminal, (max 0 ((t.row : Int) - 24)).toNat = t.top := by
    intro t
    show (max 0 ((t.row : Int) - 24)).toNat = t.row - 24
    omega
  rw [hT]
  exact sh.window.cell r c hr hc

end JamesM
