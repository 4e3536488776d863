/-
  JamesM.Printf — `vprintf` and `printf`, and the banner of `_panic`.

  `vprintf` walks a format string and writes to the console as it goes.  A number is
  written backwards into `char buf[11]`, one remainder at a time, and then copied out
  from the end.  `Formats` is the language of format strings: which pieces of text
  a format and its arguments stand for.

  Main results:
    * `number_reads_back` — every number is printed so that it can be read back, and
      fits `buf`.
    * `printf_log_shows` — with a list of typed arguments `printf` prints exactly the
      text that `Formats` gives, and returns on no other format; after any sequence of
      calls the screen shows the terminal that got the texts one after another.
-/
import JamesM.Lib.Numeral
import JamesM.Lib.Word32
import JamesM.CString
import JamesM.Monitor

namespace JamesM

open JamesM.Word32 JamesM.Numeral

/-! ## §1. The source. -/

/-- A character constant. -/
def ch (c : Char) : UInt8 := UInt8.ofNat c.toNat

/-- The characters of a string literal. -/
def bytes (s : String) : List UInt8 := s.toList.map ch

/-- A string literal, with its terminator. -/
def literal (s : String) : List UInt8 := bytes s ++ [0]

/-- An argument behind the format: a word, or a pointer to characters.  The real `va_list` has no kinds and
    no end: a format that asks for another argument than was passed reads what lies there. -/
inductive VaArg where
  | word (w : UInt32)
  | chars (s : List UInt8)

/-- `va_arg(ap, int)` and `va_arg(ap, unsigned)`. -/
def va_word : List VaArg → Result (UInt32 × List VaArg)
  | .word w :: ap => .ok (w, ap)
  | _ => .error .fault

/-- `va_arg(ap, char *)`. -/
def va_chars : List VaArg → Result (List UInt8 × List VaArg)
  | .chars s :: ap => .ok (s, ap)
  | _ => .error .fault

/-- `char buf[11]` and the pointer `s` into it: what is stored from `buf` up to `s`, the newest first. -/
structure DigitBuf where
  chars : List UInt8
  fits : chars.length ≤ 11

/-- `s = buf`. -/
def DigitBuf.empty : DigitBuf := ⟨[], by decide⟩

/-- `*s++ = b`. -/
def DigitBuf.push (b : UInt8) (buf : DigitBuf) : Result DigitBuf :=
  if h : buf.chars.length < 11 then .ok ⟨b :: buf.chars, h⟩ else .error .fault

/-- `'0' + d`. -/
def dec_digit (d : Nat) : UInt8 := UInt8.ofNat (0x30 + d)

/-- `hex[d]`. -/
def hex_digit (d : Nat) : UInt8 := (literal "0123456789abcdef").getD d 0

/-- `do { *s++ = digit(u % base); } while (u /= base);`.  The twelfth store is outside `buf`, so twelve
    rounds of fuel are never used up. -/
def put_digits (digit : Nat → UInt8) (base : Nat) : Nat → Nat → DigitBuf → Result DigitBuf
  | 0, _, _ => .error .fuel
  | n + 1, u, buf => do
      let buf ← buf.push (digit (u % base))
      if u / base ≠ 0 then put_digits digit base n (u / base) buf else .ok buf

/-- `while (--s >= buf) { mon_putchar(*s); ret++; }`, over what is still in `buf`. -/
def dumpbuf : List UInt8 → Nat → Monitor → Nat × Monitor
  | [], ret, m => (ret, m)
  | b :: rest, ret, m => dumpbuf rest (ret + 1) (mon_putchar b m)

/-- `for (s = va_arg(ap, char *); *s; s++) { mon_putchar(*s); ret++; }`. -/
def put_string : List UInt8 → Nat → Monitor → Result (Nat × Monitor)
  | [], _, _ => .error .fault
  | b :: s, ret, m => if b = 0 then .ok (ret, m) else put_string s (ret + 1) (mon_putchar b m)

/-- The digits of `%d`: those of the absolute value, and the sign behind them. -/
def signed_digits (w : UInt32) : Result DigitBuf := do
  let i := toInt32 w.toNat
  let u := if i < 0 then sub32 0 w.toNat else w.toNat
  let buf ← put_digits dec_digit 10 12 u .empty
  if i < 0 then buf.push (ch '-') else .ok buf

/-- The digits of `%u`. -/
def unsigned_digits (w : UInt32) : Result DigitBuf := put_digits dec_digit 10 12 w.toNat .empty

/-- The digits of `%x`; `u & 0xf` and `u >>= 4` are the remainder and the quotient by 16. -/
def hex_digits (w : UInt32) : Result DigitBuf := put_digits hex_digit 16 12 w.toNat .empty

/-- The `switch` behind a `%`.  Any character that is no conversion is printed as it is. -/
def conversion (c : UInt8) (ap : List VaArg) (ret : Nat) (m : Monitor) :
    Result (List VaArg × Nat × Monitor) :=
  if c = ch 'c' then do
    let (w, ap) ← va_word ap
    .ok (ap, ret + 1, mon_putchar (UInt8.ofNat w.toNat) m)
  else if c = ch 's' then do
    let (s, ap) ← va_chars ap
    let r ← put_string s ret m
    .ok (ap, r)
  else if c = ch 'd' then do
    let (w, ap) ← va_word ap
    let buf ← signed_digits w
    .ok (ap, dumpbuf buf.chars ret m)
  else if c = ch 'u' then do
    let (w, ap) ← va_word ap
    let buf ← unsigned_digits w
    .ok (ap, dumpbuf buf.chars ret m)
  else if c = ch 'x' then do
    let (w, ap) ← va_word ap
    let buf ← hex_digits w
    .ok (ap, dumpbuf buf.chars ret m)
  else .ok (ap, ret + 1, mon_putchar c m)

/-- The loop of `vprintf` from `fmt` on.  The character behind a `%` is not tested for the terminator:
    the loop then runs on behind the string. -/
def vprintf_from : List UInt8 → List VaArg → Nat → Monitor → Result (Nat × Monitor)
  | [], _, _, _ => .error .fault
  | c :: fmt, ap, ret, m =>
      if c = 0 then .ok (ret, m)
      else if c = ch '%' then
        match fmt with
        | [] => .error .fault
        | c :: fmt => do
            let (ap, ret, m) ← conversion c ap ret m
            vprintf_from fmt ap ret m
      else vprintf_from fmt ap (ret + 1) (mon_putchar c m)

/-- `vprintf(fmt, ap)`: the number of characters, and the console. -/
def vprintf (fmt : List UInt8) (ap : List VaArg) (m : Monitor) : Result (Nat × Monitor) :=
  vprintf_from fmt ap 0 m

/-- `printf(fmt, ...)`. -/
def printf (fmt : List UInt8) (ap : List VaArg) (m : Monitor) : Result (Nat × Monitor) := vprintf fmt ap m

/-- `_panic(fmt, ...)` up to the loop that never ends: what the console shows while the kernel spins. -/
def panic_banner (fmt : List UInt8) (ap : List VaArg) (m : Monitor) : Result Monitor := do
  let (_, m) ← printf (literal "\n***** Kernel panic! *****\n") [] m
  let (_, m) ← vprintf fmt ap m
  let (_, m) ← printf (literal "\n*************************\n") [] m
  .ok m

/-- `PANIC(s)` in line `line` of `file`, in the function `func`. -/
def PANIC (file : List UInt8) (line : UInt32) (func s : String) (m : Monitor) : Result Monitor :=
  panic_banner (bytes "%s:%u in %s: " ++ literal s) [.chars file, .word line, .chars (literal func)] m

/-! ## §2. The language of format strings. -/

/-- What a part of a format stands for. -/
inductive Piece where
  | char (b : UInt8)
  | text (s : List UInt8)
  | signed (i : Int)
  | unsigned (u : Nat)
  | hex (u : Nat)

/-- The characters of a number in base `b`. -/
def digitText (b u : Nat) : List UInt8 := (numeral b u).map hex_digit

/-- The text of a piece. -/
def Piece.render : Piece → List UInt8
  | .char b => [b]
  | .text s => s
  | .signed i => if i < 0 then ch '-' :: digitText 10 i.natAbs else digitText 10 i.natAbs
  | .unsigned u => digitText 10 u
  | .hex u => digitText 16 u

/-- The text of a list of pieces. -/
def renderPieces (ps : List Piece) : List UInt8 := ps.flatMap Piece.render

theorem renderPieces_nil : renderPieces [] = [] := rfl

theorem renderPieces_cons (p : Piece) (ps : List Piece) : renderPieces (p :: ps) = p.render ++ renderPieces ps :=
  rfl

/-- The characters that convert an argument. -/
def IsConversion (c : UInt8) : Prop := c = ch 'c' ∨ c = ch 's' ∨ c = ch 'd' ∨ c = ch 'u' ∨ c = ch 'x'

/-- `%c` with the arguments `ap` stands for the piece `p` and leaves the arguments `ap'`. -/
inductive Converts : UInt8 → List VaArg → Piece → List VaArg → Prop where
  | char (w : UInt32) (ap : List VaArg) : Converts (ch 'c') (.word w :: ap) (.char (UInt8.ofNat w.toNat)) ap
  | string {s name : List UInt8} (ap : List VaArg) (hs : IsStr s name) :
      Converts (ch 's') (.chars s :: ap) (.text name) ap
  | signed (w : UInt32) (ap : List VaArg) : Converts (ch 'd') (.word w :: ap) (.signed (toInt32 w.toNat)) ap
  | unsigned (w : UInt32) (ap : List VaArg) : Converts (ch 'u') (.word w :: ap) (.unsigned w.toNat) ap
  | hex (w : UInt32) (ap : List VaArg) : Converts (ch 'x') (.word w :: ap) (.hex w.toNat) ap
  | other {c : UInt8} (ap : List VaArg) (hc : ¬ IsConversion c) : Converts c ap (.char c) ap

/-- **The language.**  With the arguments `ap` the format at `fmt` stands for the pieces `ps`. -/
inductive Formats : List UInt8 → List VaArg → List Piece → Prop where
  | stop (rest : List UInt8) (ap : List VaArg) : Formats (0 :: rest) ap []
  | plain {c : UInt8} {fmt : List UInt8} {ap : List VaArg} {ps : List Piece} (h0 : c ≠ 0) (hp : c ≠ ch '%') :
      Formats fmt ap ps → Formats (c :: fmt) ap (.char c :: ps)
  | conversion {c : UInt8} {fmt : List UInt8} {ap ap' : List VaArg} {p : Piece} {ps : List Piece} :
      Converts c ap p ap' → Formats fmt ap' ps → Formats (ch '%' :: c :: fmt) ap (p :: ps)

/-! ## §3. Numbers. -/

/-- There is room for one more. -/
theorem DigitBuf.push_eq {buf : DigitBuf} (b : UInt8) (hroom : buf.chars.length < 11) :
    ∃ buf', buf.push b = .ok buf' ∧ buf'.chars = b :: buf.chars :=
  ⟨_, dif_pos hroom, rfl⟩

/-- The loop leaves the numeral in `buf`, the most significant digit on top, if there is room. -/
theorem put_digits_eq (digit : Nat → UInt8) {base : Nat} (hb : 1 < base) (n : Nat) :
    ∀ (u : Nat) (buf : DigitBuf), buf.chars.length + (numeral base u).length ≤ 11 →
      (numeral base u).length ≤ n →
      ∃ buf', put_digits digit base n u buf = .ok buf'
        ∧ buf'.chars = (numeral base u).map digit ++ buf.chars := by
  induction n with
  | zero =>
      intro u buf _ hn
      exact absurd (List.length_eq_zero_iff.mp (Nat.le_zero.mp hn)) (numeral_ne_nil base u)
  | succ n ih =>
      intro u buf hroom hn
      have hstep := numeral_step hb u
      have hpos : 0 < (numeral base u).length := List.length_pos_iff.mpr (numeral_ne_nil base u)
      obtain ⟨buf₁, hpush, hchars⟩ := buf.push_eq (digit (u % base)) (by omega)
      rw [put_digits, hpush, ok_bind]
      by_cases hq : u / base = 0
      · rw [if_neg (not_not.mpr hq)]
        rw [if_pos hq] at hstep
        exact ⟨buf₁, rfl, by rw [hstep, hchars]; rfl⟩
      · rw [if_pos hq]
        rw [if_neg hq] at hstep
        have hlen : (numeral base u).length = (numeral base (u / base)).length + 1 := by
          rw [hstep, List.length_append, List.length_singleton]
        obtain ⟨buf', h1, h2⟩ := ih (u / base) buf₁
          (by rw [hchars, List.length_cons]; omega) (by omega)
        refine ⟨buf', h1, ?_⟩
        rw [h2, hstep, hchars, List.map_append, List.append_assoc]
        rfl

theorem hex_digit_dec {d : Nat} (hd : d < 10) : hex_digit d = dec_digit d := by
  unfold hex_digit dec_digit
  interval_cases d <;> rfl

/-- Decimal digits are hexadecimal digits. -/
theorem map_dec_digit (u : Nat) : (numeral 10 u).map dec_digit = digitText 10 u :=
  List.map_congr_left fun d hd => (hex_digit_dec (numeral_lt (by decide) u d hd)).symm

theorem length_numeral_ten {u : Nat} (hu : u < 4294967296) : (numeral 10 u).length ≤ 10 :=
  length_numeral_le (by decide) (by decide) (Nat.lt_of_lt_of_le hu (by decide))

theorem length_numeral_sixteen {u : Nat} (hu : u < 4294967296) : (numeral 16 u).length ≤ 8 :=
  length_numeral_le (by decide) (by decide) (Nat.lt_of_lt_of_le hu (by decide))

/-- The absolute value, as `vprintf` computes it; `-i` is `i` again for the least `int`. -/
theorem signed_magnitude (w : UInt32) :
    (if toInt32 w.toNat < 0 then sub32 0 w.toNat else w.toNat) = (toInt32 w.toNat).natAbs := by
  have hw := w.toNat_lt
  unfold toInt32 sub32
  split <;> split at * <;> omega

/-- `%u`. -/
theorem unsigned_digits_eq (w : UInt32) :
    ∃ buf, unsigned_digits w = .ok buf ∧ buf.chars = digitText 10 w.toNat := by
  have hlen := length_numeral_ten w.toNat_lt
  obtain ⟨buf, h1, h2⟩ := put_digits_eq dec_digit (show 1 < 10 by decide) 12 w.toNat .empty
    (show 0 + _ ≤ 11 by omega) (by omega)
  refine ⟨buf, h1, ?_⟩
  rw [h2, map_dec_digit]
  exact List.append_nil _

/-- `%x`. -/
theorem hex_digits_eq (w : UInt32) :
    ∃ buf, hex_digits w = .ok buf ∧ buf.chars = digitText 16 w.toNat := by
  have hlen := length_numeral_sixteen w.toNat_lt
  obtain ⟨buf, h1, h2⟩ := put_digits_eq hex_digit (show 1 < 16 by decide) 12 w.toNat .empty
    (show 0 + _ ≤ 11 by omega) (by omega)
  refine ⟨buf, h1, ?_⟩
  rw [h2]
  exact List.append_nil _

/-- `%d`: ten digits and a sign are the most there can be, which is what `buf` holds. -/
theorem signed_digits_eq (w : UInt32) :
    ∃ buf, signed_digits w = .ok buf ∧ buf.chars = (Piece.signed (toInt32 w.toNat)).render := by
  have habs : (toInt32 w.toNat).natAbs < 4294967296 := by
    have hw := w.toNat_lt
    unfold toInt32
    split <;> omega
  have hlen := length_numeral_ten habs
  obtain ⟨buf, h1, h2⟩ := put_digits_eq dec_digit (show 1 < 10 by decide) 12
    (toInt32 w.toNat).natAbs .empty (show 0 + _ ≤ 11 by omega) (by omega)
  have hchars : buf.chars = digitText 10 (toInt32 w.toNat).natAbs := by
    rw [h2, map_dec_digit]
    exact List.append_nil _
  unfold signed_digits Piece.render
  dsimp only
  rw [signed_magnitude, h1, ok_bind]
  by_cases hneg : toInt32 w.toNat < 0
  · rw [if_pos hneg, if_pos hneg]
    have hroom : buf.chars.length < 11 := by
      rw [hchars, digitText, List.length_map]
      omega
    obtain ⟨buf', hpush, hchars'⟩ := buf.push_eq (ch '-') hroom
    exact ⟨buf', hpush, by rw [hchars', hchars]⟩
  · rw [if_neg hneg, if_neg hneg]
    exact ⟨buf, rfl, hchars⟩

/-! ## §4. `vprintf` prints the language. -/

theorem dumpbuf_eq (cs : List UInt8) : ∀ (ret : Nat) (m : Monitor),
    dumpbuf cs ret m = (ret + cs.length, mon_putchars cs m) := by
  induction cs with
  | nil => intro ret m; rfl
  | cons b cs ih =>
      intro ret m
      rw [dumpbuf, ih, List.length_cons, Nat.add_right_comm, ← Nat.add_assoc]
      rfl

/-- `%s` prints the string, and nothing else is a string. -/
theorem put_string_iff (s : List UInt8) : ∀ {ret : Nat} {m : Monitor} {r : Nat × Monitor},
    put_string s ret m = .ok r ↔ ∃ name, IsStr s name ∧ r = (ret + name.length, mon_putchars name m) := by
  induction s with
  | nil =>
      intro ret m r
      refine iff_of_false (fun h => nomatch h) fun ⟨name, h, _⟩ => ?_
      have := h.length_lt
      simp at this
  | cons b s ih =>
      intro ret m r
      rw [put_string]
      by_cases hb : b = 0
      · rw [if_pos hb]
        constructor
        · intro h
          exact ⟨[], ⟨by simp, s, by rw [hb]; rfl⟩, (Except.ok.inj h).symm⟩
        · rintro ⟨name, h, rfl⟩
          cases name with
          | nil => rfl
          | cons c name =>
              obtain ⟨hc, s', hs', -⟩ := h.tail
              exact absurd ((List.cons.inj hs').1.symm.trans hb) hc
      · rw [if_neg hb, ih]
        constructor
        · rintro ⟨name, h, rfl⟩
          refine ⟨b :: name, h.cons hb, ?_⟩
          rw [List.length_cons, Nat.add_right_comm, ← Nat.add_assoc]
          rfl
        · rintro ⟨name, h, rfl⟩
          cases name with
          | nil =>
              obtain ⟨s', hs'⟩ := h.nil
              exact absurd (List.cons.inj hs').1 hb
          | cons c name =>
              obtain ⟨-, s', hs', h'⟩ := h.tail
              obtain ⟨rfl, rfl⟩ := List.cons.inj hs'
              refine ⟨name, h', ?_⟩
              rw [List.length_cons, Nat.add_right_comm, ← Nat.add_assoc]
              rfl

theorem mon_putchars_append (as bs : List UInt8) (m : Monitor) :
    mon_putchars (as ++ bs) m = mon_putchars bs (mon_putchars as m) := List.foldl_append

theorem va_word_ok {ap : List VaArg} {r : UInt32 × List VaArg} (h : va_word ap = .ok r) :
    ap = .word r.1 :: r.2 := by
  unfold va_word at h
  split at h
  · rw [← Except.ok.inj h]
  · exact nomatch h

theorem va_chars_ok {ap : List VaArg} {r : List UInt8 × List VaArg} (h : va_chars ap = .ok r) :
    ap = .chars r.1 :: r.2 := by
  unfold va_chars at h
  split at h
  · rw [← Except.ok.inj h]
  · exact nomatch h

/-- A number is converted. -/
theorem number_iff {ap : List VaArg} {ret : Nat} {m : Monitor} {r : List VaArg × Nat × Monitor}
    {digits : UInt32 → Result DigitBuf} {text : UInt32 → List UInt8}
    (hdigits : ∀ w, ∃ buf, digits w = .ok buf ∧ buf.chars = text w) :
    (do let (w, ap) ← va_word ap
        let buf ← digits w
        (.ok (ap, dumpbuf buf.chars ret m) : Result (List VaArg × Nat × Monitor))) = .ok r ↔
      ∃ w ap', ap = .word w :: ap' ∧ r = (ap', ret + (text w).length, mon_putchars (text w) m) := by
  constructor
  · intro h
    obtain ⟨⟨w, ap'⟩, hw, h⟩ := bind_ok_iff.mp h
    obtain ⟨buf, h1, h2⟩ := hdigits w
    dsimp only at h
    rw [h1, ok_bind, dumpbuf_eq, h2] at h
    exact ⟨w, ap', va_word_ok hw, (Except.ok.inj h).symm⟩
  · rintro ⟨w, ap', rfl, rfl⟩
    obtain ⟨buf, h1, h2⟩ := hdigits w
    rw [va_word, ok_bind]
    dsimp only
    rw [h1, ok_bind, dumpbuf_eq, h2]

/-- **One conversion** returns exactly when it stands for a piece, and prints the text of the piece. -/
theorem conversion_iff {c : UInt8} {ap ap' : List VaArg} {ret ret' : Nat} {m m' : Monitor} :
    conversion c ap ret m = .ok (ap', ret', m') ↔
      ∃ p, Converts c ap p ap' ∧ ret' = ret + p.render.length ∧ m' = mon_putchars p.render m := by
  constructor
  · intro h
    unfold conversion at h
    by_cases h1 : c = ch 'c'
    · rw [if_pos h1] at h
      obtain ⟨⟨w, ap₁⟩, hw, h⟩ := bind_ok_iff.mp h
      cases Except.ok.inj h
      rw [va_word_ok hw, h1]
      exact ⟨_, .char w _, rfl, rfl⟩
    rw [if_neg h1] at h
    by_cases h2 : c = ch 's'
    · rw [if_pos h2] at h
      obtain ⟨⟨s, ap₁⟩, hs, h⟩ := bind_ok_iff.mp h
      obtain ⟨r, hput, h⟩ := bind_ok_iff.mp h
      obtain ⟨name, hname, rfl⟩ := (put_string_iff s).mp hput
      rw [va_chars_ok hs, h2]
      cases Except.ok.inj h
      exact ⟨_, .string _ hname, rfl, rfl⟩
    rw [if_neg h2] at h
    by_cases h3 : c = ch 'd'
    · rw [if_pos h3, number_iff signed_digits_eq] at h
      obtain ⟨w, ap₁, rfl, h⟩ := h
      cases h
      rw [h3]
      exact ⟨_, .signed w _, rfl, rfl⟩
    rw [if_neg h3] at h
    by_cases h4 : c = ch 'u'
    · rw [if_pos h4, number_iff unsigned_digits_eq] at h
      obtain ⟨w, ap₁, rfl, h⟩ := h
      cases h
      rw [h4]
      exact ⟨_, .unsigned w _, rfl, rfl⟩
    rw [if_neg h4] at h
    by_cases h5 : c = ch 'x'
    · rw [if_pos h5, number_iff hex_digits_eq] at h
      obtain ⟨w, ap₁, rfl, h⟩ := h
      cases h
      rw [h5]
      exact ⟨_, .hex w _, rfl, rfl⟩
    rw [if_neg h5] at h
    cases Except.ok.inj h
    refine ⟨_, .other _ ?_, rfl, rfl⟩
    simp only [IsConversion, not_or]
    exact ⟨h1, h2, h3, h4, h5⟩
  · rintro ⟨p, h, rfl, rfl⟩
    unfold conversion
    cases h with
    | char w ap => rfl
    | string ap hs =>
        rw [if_neg (by decide), if_pos rfl, va_chars, ok_bind]
        dsimp only
        rw [(put_string_iff _).mpr ⟨_, hs, rfl⟩]
        rfl
    | signed w ap =>
        rw [if_neg (by decide), if_neg (by decide), if_pos rfl, number_iff signed_digits_eq]
        exact ⟨w, ap', rfl, rfl⟩
    | unsigned w ap =>
        rw [if_neg (by decide), if_neg (by decide), if_neg (by decide), if_pos rfl,
          number_iff unsigned_digits_eq]
        exact ⟨w, ap', rfl, rfl⟩
    | hex w ap =>
        rw [if_neg (by decide), if_neg (by decide), if_neg (by decide), if_neg (by decide), if_pos rfl,
          number_iff hex_digits_eq]
        exact ⟨w, ap', rfl, rfl⟩
    | other ap hc =>
        simp only [IsConversion, not_or] at hc
        obtain ⟨h1, h2, h3, h4, h5⟩ := hc
        rw [if_neg h1, if_neg h2, if_neg h3, if_neg h4, if_neg h5]
        rfl

/-- A character other than `%` and the terminator. -/
theorem vprintf_from_plain {c : UInt8} {fmt : List UInt8} (h0 : c ≠ 0) (hp : c ≠ ch '%') (ap : List VaArg)
    (ret : Nat) (m : Monitor) :
    vprintf_from (c :: fmt) ap ret m = vprintf_from fmt ap (ret + 1) (mon_putchar c m) := by
  rw [vprintf_from.eq_def]
  dsimp only
  rw [if_neg h0, if_neg hp]

/-- A conversion. -/
theorem vprintf_from_conversion (c : UInt8) (fmt : List UInt8) (ap : List VaArg) (ret : Nat) (m : Monitor) :
    vprintf_from (ch '%' :: c :: fmt) ap ret m
      = conversion c ap ret m >>= fun r => vprintf_from fmt r.1 r.2.1 r.2.2 := by
  rw [vprintf_from.eq_def]
  dsimp only
  rw [if_neg (by decide), if_pos rfl]

/-- What is printed after a piece is counted and shown after it. -/
theorem render_cons (p : Piece) (ps : List Piece) (ret : Nat) (m : Monitor) :
    (ret + (renderPieces (p :: ps)).length, mon_putchars (renderPieces (p :: ps)) m)
      = (ret + p.render.length + (renderPieces ps).length,
        mon_putchars (renderPieces ps) (mon_putchars p.render m)) := by
  rw [renderPieces_cons, List.length_append, mon_putchars_append, Nat.add_assoc]

/-- **A format of the language is printed.** -/
theorem Formats.prints {fmt : List UInt8} {ap : List VaArg} {ps : List Piece} (h : Formats fmt ap ps) :
    ∀ (ret : Nat) (m : Monitor), vprintf_from fmt ap ret m
      = .ok (ret + (renderPieces ps).length, mon_putchars (renderPieces ps) m) := by
  induction h with
  | stop rest ap =>
      intro ret m
      rw [vprintf_from.eq_def]
      rfl
  | plain h0 hp _ ih =>
      intro ret m
      rw [vprintf_from_plain h0 hp, ih, render_cons]
      rfl
  | conversion hc _ ih =>
      intro ret m
      rw [vprintf_from_conversion, conversion_iff.mpr ⟨_, hc, rfl, rfl⟩, ok_bind, ih, render_cons]

/-- **Only formats of the language are printed.**  A conversion takes two characters off the format, so
    the induction is on its length. -/
theorem formats_of_prints (n : Nat) : ∀ {fmt : List UInt8} {ap : List VaArg} {ret : Nat} {m : Monitor}
    {r : Nat × Monitor}, fmt.length ≤ n → vprintf_from fmt ap ret m = .ok r → ∃ ps, Formats fmt ap ps := by
  induction n with
  | zero =>
      intro fmt ap ret m r hn h
      rw [List.length_eq_zero_iff.mp (Nat.le_zero.mp hn), vprintf_from] at h
      exact nomatch h
  | succ n ih =>
      intro fmt ap ret m r hn h
      cases fmt with
      | nil => rw [vprintf_from] at h; exact nomatch h
      | cons c fmt =>
          rw [List.length_cons] at hn
          by_cases h0 : c = 0
          · exact ⟨[], h0 ▸ .stop fmt ap⟩
          by_cases hp : c = ch '%'
          · subst hp
            cases fmt with
            | nil =>
                rw [vprintf_from.eq_def] at h
                dsimp only at h
                rw [if_neg h0, if_pos rfl] at h
                exact nomatch h
            | cons c fmt =>
                rw [List.length_cons] at hn
                rw [vprintf_from_conversion, bind_ok_iff] at h
                obtain ⟨⟨ap', ret', m'⟩, hconv, h⟩ := h
                obtain ⟨p, hc, -, -⟩ := conversion_iff.mp hconv
                obtain ⟨ps, hps⟩ := ih (by omega) h
                exact ⟨p :: ps, .conversion hc hps⟩
          · rw [vprintf_from_plain h0 hp] at h
            obtain ⟨ps, hps⟩ := ih (by omega) h
            exact ⟨_, .plain h0 hp hps⟩

/-- **`vprintf` is the meaning of format strings.**  It returns exactly on the formats of the language:
    then the characters that reached the console are the text of the pieces, in order, and the number
    returned is how many they are.  In particular no conversion ever stores outside `buf`. -/
theorem vprintf_iff (fmt : List UInt8) (ap : List VaArg) (m m' : Monitor) (r : Nat) :
    vprintf fmt ap m = .ok (r, m') ↔
      ∃ ps, Formats fmt ap ps ∧ r = (renderPieces ps).length ∧ m' = mon_putchars (renderPieces ps) m := by
  constructor
  · intro h
    obtain ⟨ps, hps⟩ := formats_of_prints fmt.length (Nat.le_refl _) h
    have hprints := hps.prints 0 m
    rw [Nat.zero_add] at hprints
    obtain ⟨h1, h2⟩ := Prod.mk.inj (Except.ok.inj (h.symm.trans hprints))
    exact ⟨ps, hps, h1, h2⟩
  · rintro ⟨ps, hps, rfl, rfl⟩
    have hprints := hps.prints 0 m
    rw [Nat.zero_add] at hprints
    exact hprints

/-! ## §5. Numbers read back. -/

/-- The digit that a character stands for in base `b`, at most 16: `0` to `9`, and `a` to `f` from ten on. -/
def digitOf (b : Nat) (c : UInt8) : Option Nat :=
  let d :=
    if 0x30 ≤ c.toNat ∧ c.toNat < 0x3A then c.toNat - 0x30
    else if 0x61 ≤ c.toNat ∧ c.toNat < 0x67 then c.toNat - 0x57
    else 16
  if d < b then some d else none

/-- Reading a numeral in base `b`: at least one character, all of them digits. -/
def readNat (b : Nat) (s : List UInt8) : Option Nat :=
  if s = [] then none else (s.mapM (digitOf b)).map (value b)

/-- Reading a decimal number with its sign. -/
def readInt (s : List UInt8) : Option Int :=
  if s.head? = some (ch '-') then (readNat 10 s.tail).map (fun n : Nat => -(n : Int))
  else (readNat 10 s).map (fun n : Nat => (n : Int))

theorem digitOf_hex_digit {b d : Nat} (hd : d < b) (hb : b ≤ 16) : digitOf b (hex_digit d) = some d := by
  have hval : ∀ d, d < 16 →
      (if 0x30 ≤ (hex_digit d).toNat ∧ (hex_digit d).toNat < 0x3A then (hex_digit d).toNat - 0x30
      else if 0x61 ≤ (hex_digit d).toNat ∧ (hex_digit d).toNat < 0x67 then (hex_digit d).toNat - 0x57 else 16) = d := by
    decide
  unfold digitOf
  rw [hval d (by omega)]
  exact if_pos hd

theorem hex_digit_ne_minus {d : Nat} (hd : d < 16) : hex_digit d ≠ ch '-' := by
  unfold hex_digit
  interval_cases d <;> decide

theorem mapM_digitOf {b : Nat} (hb : b ≤ 16) {ds : List Nat} (hds : ∀ d ∈ ds, d < b) :
    (ds.map hex_digit).mapM (digitOf b) = some ds := by
  induction ds with
  | nil => rfl
  | cons d ds ih =>
      rw [List.map_cons, List.mapM_cons, digitOf_hex_digit (hds d List.mem_cons_self) hb,
        ih fun d hd => hds d (List.mem_cons_of_mem _ hd)]
      rfl

theorem readNat_digitText {b : Nat} (hb : 1 < b) (hb16 : b ≤ 16) (u : Nat) :
    readNat b (digitText b u) = some u := by
  have hne : digitText b u ≠ [] := by
    rw [digitText, ne_eq, List.map_eq_nil_iff]
    exact numeral_ne_nil b u
  rw [readNat, if_neg hne, digitText, mapM_digitOf hb16 (numeral_lt hb u), Option.map_some, value_numeral]

/-- The first character of a number is a digit. -/
theorem digitText_head {b : Nat} (hb : 1 < b) (hb16 : b ≤ 16) (u : Nat) :
    (digitText b u).head? ≠ some (ch '-') := by
  rw [digitText, List.head?_map, ne_eq, Option.map_eq_some_iff]
  rintro ⟨d, hd, h⟩
  exact hex_digit_ne_minus (Nat.lt_of_lt_of_le (numeral_lt hb u d (List.mem_of_head? hd)) hb16) h

theorem readInt_minus (s : List UInt8) :
    readInt (ch '-' :: s) = (readNat 10 s).map (fun n : Nat => -(n : Int)) := if_pos rfl

theorem readInt_plain {s : List UInt8} (h : s.head? ≠ some (ch '-')) :
    readInt s = (readNat 10 s).map (fun n : Nat => (n : Int)) := if_neg h

theorem readInt_signed (i : Int) : readInt (Piece.signed i).render = some i := by
  unfold Piece.render
  dsimp only
  by_cases hneg : i < 0
  · rw [if_pos hneg, readInt_minus, readNat_digitText (by decide) (by decide), Option.map_some]
    congr 1
    omega
  · rw [if_neg hneg, readInt_plain (digitText_head (by decide) (by decide) _),
      readNat_digitText (by decide) (by decide), Option.map_some]
    congr 1
    omega

/-- Characters that stand for themselves. -/
def Plain (cs : List UInt8) : Prop := ∀ c ∈ cs, c ≠ 0 ∧ c ≠ ch '%'

instance (cs : List UInt8) : Decidable (Plain cs) := List.decidableBAll (fun c => c ≠ 0 ∧ c ≠ ch '%') cs

theorem Formats.plains {cs fmt : List UInt8} {ap : List VaArg} {ps : List Piece} (h : Plain cs)
    (hfmt : Formats fmt ap ps) : Formats (cs ++ fmt) ap (cs.map Piece.char ++ ps) := by
  induction cs with
  | nil => exact hfmt
  | cons c cs ih =>
      obtain ⟨h0, hp⟩ := h c List.mem_cons_self
      exact .plain h0 hp (ih fun c hc => h c (List.mem_cons_of_mem _ hc))

theorem renderPieces_plains (cs : List UInt8) (ps : List Piece) :
    renderPieces (cs.map Piece.char ++ ps) = cs ++ renderPieces ps := by
  induction cs with
  | nil => rfl
  | cons c cs ih =>
      rw [List.cons_append, ← ih]
      rfl

/-- The text a call stands for. -/
def Prints (call : List UInt8 × List VaArg) (text : List UInt8) : Prop :=
  ∃ ps, Formats call.1 call.2 ps ∧ text = renderPieces ps

/-- A call, by the text it stands for. -/
theorem Prints.printf {fmt : List UInt8} {ap : List VaArg} {text : List UInt8} (h : Prints (fmt, ap) text)
    (m : Monitor) : JamesM.printf fmt ap m = .ok (text.length, mon_putchars text m) := by
  obtain ⟨ps, hps, rfl⟩ := h
  exact (vprintf_iff fmt ap m _ _).mpr ⟨ps, hps, rfl, rfl⟩

/-- A format without conversions. -/
theorem Prints.plain {cs : List UInt8} (h : Plain cs) (ap : List VaArg) : Prints (cs ++ [0], ap) cs := by
  refine ⟨_, Formats.plains h (.stop [] ap), ?_⟩
  rw [renderPieces_plains, renderPieces_nil, List.append_nil]

/-- A format with one conversion. -/
theorem Prints.one {before after : List UInt8} {c : UInt8} {ap ap' : List VaArg} {p : Piece} (hbefore : Plain before)
    (hafter : Plain after) (hc : Converts c ap p ap') :
    Prints (before ++ ch '%' :: c :: (after ++ [0]), ap) (before ++ p.render ++ after) := by
  refine ⟨_, Formats.plains hbefore (.conversion hc (Formats.plains hafter (.stop [] ap'))), ?_⟩
  have hrender : renderPieces (p :: (after.map Piece.char ++ [])) = p.render ++ after := by
    rw [renderPieces_cons, renderPieces_plains, renderPieces_nil, List.append_nil]
  rw [renderPieces_plains, hrender, List.append_assoc]

/-- A format with two. -/
theorem Prints.two {before between after : List UInt8} {c c' : UInt8} {ap ap' ap'' : List VaArg} {p p' : Piece}
    (hbefore : Plain before) (hbetween : Plain between) (hafter : Plain after) (hc : Converts c ap p ap')
    (hc' : Converts c' ap' p' ap'') :
    Prints (before ++ ch '%' :: c :: (between ++ ch '%' :: c' :: (after ++ [0])), ap)
      (before ++ (p.render ++ (between ++ (p'.render ++ after)))) := by
  refine ⟨_, Formats.plains hbefore (.conversion hc (Formats.plains hbetween (.conversion hc'
    (Formats.plains hafter (.stop [] ap''))))), ?_⟩
  rw [renderPieces_plains, renderPieces_cons, renderPieces_plains, renderPieces_cons, renderPieces_plains,
    renderPieces_nil, List.append_nil]

theorem printf_plain {cs : List UInt8} (h : Plain cs) (ap : List VaArg) (m : Monitor) :
    printf (cs ++ [0]) ap m = .ok (cs.length, mon_putchars cs m) := (Prints.plain h ap).printf m

theorem printf_one {before after : List UInt8} {c : UInt8} {ap ap' : List VaArg} {p : Piece} (hbefore : Plain before)
    (hafter : Plain after) (hc : Converts c ap p ap') (m : Monitor) :
    printf (before ++ ch '%' :: c :: (after ++ [0])) ap m
      = .ok ((before ++ p.render ++ after).length, mon_putchars (before ++ p.render ++ after) m) :=
  (Prints.one hbefore hafter hc).printf m

/-! ## §7. Sequences of calls. -/

/-- `printf(fmt, ...);` for each format and its arguments in turn: the numbers returned, and the
    console. -/
def printf_all : List (List UInt8 × List VaArg) → Monitor → Result (List Nat × Monitor)
  | [], m => .ok ([], m)
  | (fmt, ap) :: calls, m => do
      let (r, m) ← printf fmt ap m
      let (rs, m) ← printf_all calls m
      .ok (r :: rs, m)

theorem printf_all_iff {calls : List (List UInt8 × List VaArg)} : ∀ {m m' : Monitor} {rs : List Nat},
    printf_all calls m = .ok (rs, m') ↔
      ∃ texts, List.Forall₂ Prints calls texts ∧ rs = texts.map List.length
        ∧ m' = mon_putchars texts.flatten m := by
  induction calls with
  | nil =>
      intro m m' rs
      constructor
      · intro h
        cases Except.ok.inj h
        exact ⟨[], .nil, rfl, rfl⟩
      · rintro ⟨texts, h, rfl, rfl⟩
        cases h
        rfl
  | cons call calls ih =>
      intro m m' rs
      obtain ⟨fmt, ap⟩ := call
      rw [printf_all, bind_ok_iff]
      constructor
      · rintro ⟨⟨r, m₁⟩, hcall, hrest⟩
        obtain ⟨⟨rs₁, m₂⟩, htail, hr⟩ := bind_ok_iff.mp hrest
        cases Except.ok.inj hr
        obtain ⟨ps, hps, rfl, rfl⟩ := (vprintf_iff fmt ap m m₁ r).mp hcall
        obtain ⟨texts, htexts, rfl, rfl⟩ := ih.mp htail
        refine ⟨renderPieces ps :: texts, .cons ⟨ps, hps, rfl⟩ htexts, rfl, ?_⟩
        rw [List.flatten_cons, mon_putchars_append]
      · rintro ⟨texts, h, rfl, rfl⟩
        cases h with
        | cons hcall hrest =>
            refine ⟨_, hcall.printf m, ?_⟩
            dsimp only
            rw [ih.mpr ⟨_, hrest, rfl, rfl⟩, ok_bind, List.flatten_cons, mon_putchars_append]
            rfl

/-- **The log on the screen.**  From a cleared screen, a sequence of `printf` calls returns exactly when
    every format stands for a text with its list of typed arguments; a character behind a `%` that is no
    conversion stands for itself.  Then every call has returned the length of its text, and the screen,
    whatever was on it before, shows the terminal that got these texts one after another.  (A conversion
    whose argument is missing or of another kind is a fault here, where `va_arg` reads the next word.) -/
theorem printf_log_shows (v : Nat → Nat) (x y : Nat) (calls : List (List UInt8 × List VaArg))
    (rs : List Nat) (m : Monitor) :
    printf_all calls (mon_clear (Monitor.fresh v x y)) = .ok (rs, m) ↔
      ∃ texts, List.Forall₂ Prints calls texts ∧ rs = texts.map List.length
        ∧ m = mon_putchars texts.flatten (mon_clear (Monitor.fresh v x y))
        ∧ Shows (Terminal.blank.puts texts.flatten) m := by
  rw [printf_all_iff]
  constructor
  · rintro ⟨texts, htexts, hrs, rfl⟩
    exact ⟨texts, htexts, hrs, rfl, (shows_mon_clear v x y).puts _⟩
  · rintro ⟨texts, htexts, hrs, hm, -⟩
    exact ⟨texts, htexts, hrs, hm⟩

/-! ## §8. Panics. -/

/-- The banner around the text of a panic. -/
def panicText (text : List UInt8) : List UInt8 :=
  bytes "\n***** Kernel panic! *****\n" ++ text ++ bytes "\n*************************\n"

theorem panic_banner_eq {fmt : List UInt8} {ap : List VaArg} {text : List UInt8} (h : Prints (fmt, ap) text)
    (m : Monitor) : panic_banner fmt ap m = .ok (mon_putchars (panicText text) m) := by
  have htop : Plain (bytes "\n***** Kernel panic! *****\n") := by decide
  have hbottom : Plain (bytes "\n*************************\n") := by decide
  have hvprintf : ∀ m, vprintf fmt ap m = .ok (text.length, mon_putchars text m) := h.printf
  unfold panic_banner literal
  rw [printf_plain htop, ok_bind]
  dsimp only
  rw [hvprintf, ok_bind]
  dsimp only
  rw [printf_plain hbottom, ok_bind, panicText, mon_putchars_append, mon_putchars_append]

/-- The text of a panic names the place. -/
theorem PANIC_eq {file filename : List UInt8} (hfile : IsStr file filename) (line : UInt32) {func s : String}
    (hfunc : (0 : UInt8) ∉ bytes func) (hs : Plain (bytes s)) (m : Monitor) :
    PANIC file line func s m = .ok (mon_putchars (panicText (filename ++ (bytes ":" ++ (digitText 10 line.toNat
      ++ (bytes " in " ++ (bytes func ++ (bytes ": " ++ bytes s))))))) m) := by
  have hfmt : bytes "%s:%u in %s: " = ch '%' :: ch 's' :: (bytes ":" ++ ch '%' :: ch 'u' ::
      (bytes " in " ++ ch '%' :: ch 's' :: bytes ": ")) := by decide
  have hcolon : Plain (bytes ":") := by decide
  have hin : Plain (bytes " in ") := by decide
  have hspace : Plain (bytes ": ") := by decide
  refine panic_banner_eq ?_ m
  rw [hfmt]
  simp only [literal, List.cons_append, List.append_assoc]
  refine ⟨_, .conversion (.string _ hfile) (Formats.plains hcolon (.conversion (.unsigned line _)
    (Formats.plains hin (.conversion (.string _ ⟨hfunc, [], rfl⟩) (Formats.plains hspace
      (Formats.plains hs (.stop [] []))))))), ?_⟩
  simp only [renderPieces_cons, renderPieces_plains, renderPieces_nil, Piece.render]
  rw [List.append_nil]

end JamesM
