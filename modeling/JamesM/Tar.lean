/-
  JamesM.Tar — `tar.c`: reading the archive that the boot loader left in memory.

  `tar_parse_mem` walks 512-byte headers until one whose first byte is NUL, and
  collects the names, the sizes and where the data lie.  `kmalloc0` never returns
  NULL (it panics when it cannot serve a request), so a file record is a fresh
  zeroed value here.

  `tar_image` writes an archive, so that every list of files has one.

  Main result: `tar_parse_inverts` — on an archive laid out as the format says, the
  queue holds exactly the files, in order.
-/
import JamesM.Lib.Word32
import JamesM.CString

namespace JamesM

open JamesM.ByteMem JamesM.Word32

/-! ## §1. The source. -/

/-- `struct tar_file`. -/
structure TarFile where
  tf_filename : CharArray 101
  tf_datasiz : Nat
  tf_data : Nat

/-- `in[j] - '0'`, an `int` that the multiplication makes unsigned. -/
def digit_value (b : UInt8) : Nat := ((char_value b - 0x30) % 4294967296).toNat

/-- The loop of `getsize`, with `j` digits to go. -/
def getsize_loop (mem : Mem) (p : Nat) : Nat → Nat → Nat → Nat
  | 0, size, _ => size
  | j + 1, size, count =>
      getsize_loop mem p j (add32 size (mul32 (digit_value (mem (p + j))) count)) (mul32 count 8)

/-- `getsize(in)`. -/
def getsize (mem : Mem) (p : Nat) : Nat := getsize_loop mem p 11 0 1

/-- The `n` bytes at `p`. -/
def mem_bytes (mem : Mem) (p n : Nat) : List UInt8 := (List.range n).map fun i => mem (p + i)

/-- The offset of `size` in `struct tar_header`. -/
def tar_size_offset : Nat := 124

/-- The loop of `tar_parse_mem`.  The queue `q` is kept in order. -/
def tar_parse_loop (mem : Mem) : Nat → Nat → Nat → List TarFile → Result (Nat × List TarFile)
  | 0, _, _, _ => .error .fuel
  | fuel + 1, i, p, q =>
      if mem p = 0 then
        -- we hit the end of the tarball
        .ok (i, q)
      else do
        let siz := getsize mem (p + tar_size_offset)
        let tf_filename ← (CharArray.zero 101).memcpy (mem_bytes mem p 100) 100
        let tf : TarFile :=
          { tf_filename := tf_filename, tf_datasiz := siz, tf_data := add32 p 512 }
        let next := add32 p (mul32 (add32 (siz / 512) 1) 512)
        let next := if siz % 512 ≠ 0 then add32 next 512 else next
        tar_parse_loop mem fuel (i + 1) next (q ++ [tf])

/-- `tar_parse_mem(addr, q_p)`: the number of files and the queue. -/
def tar_parse_mem (fuel : Nat) (mem : Mem) (addr : Nat) : Result (Nat × List TarFile) :=
  tar_parse_loop mem fuel 0 addr []

/-! ## §2. The format. -/

/-- A file of an archive. -/
structure TarEntry where
  name : List UInt8
  data : List UInt8
  name_ne : name ≠ []
  name_nul : (0 : UInt8) ∉ name
  name_le : name.length ≤ 100

/-- Data are padded to whole blocks. -/
def padded (n : Nat) : Nat := 512 * ((n + 511) / 512)

/-- The length of the image: a header and the padded data for each file, and the final block. -/
def tarLength : List TarEntry → Nat
  | [] => 512
  | e :: es => 512 + padded e.data.length + tarLength es

/-- The archive `es` lies at `p`: the name, NUL terminated if it is shorter than its field, the size as
    11 octal digits, the data, and a zero block after the last file.  Nothing is said about the other
    fields of a header and about the padding. -/
def TarAt (mem : Mem) : Nat → List TarEntry → Prop
  | p, [] => ∀ i, i < 512 → mem (p + i) = 0
  | p, e :: es =>
      (∀ i (h : i < e.name.length), mem (p + i) = e.name.get ⟨i, h⟩)
      ∧ (e.name.length < 100 → mem (p + e.name.length) = 0)
      ∧ (∀ j, j < 11 → (mem (p + tar_size_offset + j)).toNat = 0x30 + e.data.length / 8 ^ (10 - j) % 8)
      ∧ (∀ i (h : i < e.data.length), mem (p + 512 + i) = e.data.get ⟨i, h⟩)
      ∧ TarAt mem (p + (512 + padded e.data.length)) es

/-- What the parser reads of an archive at `p`: it stops at a NUL where a name should start. -/
def TarRows (mem : Mem) : Nat → List TarEntry → Prop
  | p, [] => mem p = 0
  | p, e :: es =>
      (∀ i (h : i < e.name.length), mem (p + i) = e.name.get ⟨i, h⟩)
      ∧ (e.name.length < 100 → mem (p + e.name.length) = 0)
      ∧ (∀ j, j < 11 → (mem (p + tar_size_offset + j)).toNat = 0x30 + e.data.length / 8 ^ (10 - j) % 8)
      ∧ (∀ i (h : i < e.data.length), mem (p + 512 + i) = e.data.get ⟨i, h⟩)
      ∧ TarRows mem (p + (512 + padded e.data.length)) es

/-- The archive as `tar` writes it: the name padded with NULs to 100 bytes, the size as 11 octal digits
    with leading zeros, the data, and a block that starts with a NUL after the last file. -/
def TarImage (mem : Mem) : Nat → List TarEntry → Prop
  | p, [] => mem p = 0
  | p, e :: es =>
      (∀ i, i < 100 → mem (p + i) = e.name.getD i 0)
      ∧ (∀ j, j < 11 → (mem (p + tar_size_offset + j)).toNat = 0x30 + e.data.length / 8 ^ (10 - j) % 8)
      ∧ (∀ i (h : i < e.data.length), mem (p + 512 + i) = e.data.get ⟨i, h⟩)
      ∧ TarImage mem (p + (512 + padded e.data.length)) es

theorem TarAt.rows {mem : Mem} (es : List TarEntry) : ∀ {p : Nat}, TarAt mem p es → TarRows mem p es := by
  induction es with
  | nil =>
      intro p h
      exact h 0 (by decide)
  | cons e es ih =>
      intro p h
      obtain ⟨hname, hnul, hsize, hdata, hrest⟩ := h
      exact ⟨hname, hnul, hsize, hdata, ih hrest⟩

theorem TarImage.rows {mem : Mem} (es : List TarEntry) :
    ∀ {p : Nat}, TarImage mem p es → TarRows mem p es := by
  induction es with
  | nil =>
      intro p h
      exact h
  | cons e es ih =>
      intro p h
      obtain ⟨hname, hsize, hdata, hrest⟩ := h
      have hle := e.name_le
      refine ⟨fun i hi => ?_, fun hlt => ?_, hsize, hdata, ih hrest⟩
      · rw [hname i (by omega), List.getD_eq_getElem _ _ hi]
        rfl
      · rw [hname e.name.length hlt, List.getD_eq_default _ _ (Nat.le_refl _)]

theorem tarLength_pos (es : List TarEntry) : 512 ≤ tarLength es := by
  cases es with
  | nil => exact Nat.le_refl _
  | cons e es => rw [tarLength]; omega

/-- `TarAt` and `TarImage` differ in the final block. -/
theorem TarImage.tarAt {mem : Mem} (es : List TarEntry) : ∀ {p : Nat}, TarImage mem p es →
    (∀ i, i < 512 → mem (p + (tarLength es - 512) + i) = 0) → TarAt mem p es := by
  induction es with
  | nil =>
      intro p _ hend i hi
      have hzero : p + (tarLength [] - 512) + i = p + i := by
        rw [show tarLength [] = 512 from rfl]
        omega
      have h : mem (p + (tarLength [] - 512) + i) = 0 := hend i hi
      rw [hzero] at h
      exact h
  | cons e es ih =>
      intro p h hend
      have hpos := tarLength_pos es
      have hrows := h.rows (e :: es)
      obtain ⟨-, -, -, hrest⟩ := h
      obtain ⟨hname, hnul, hsize, hdata, -⟩ := hrows
      refine ⟨hname, hnul, hsize, hdata, ih hrest fun i hi => ?_⟩
      have hplace : p + (tarLength (e :: es) - 512) + i
          = p + (512 + padded e.data.length) + (tarLength es - 512) + i := by
        rw [tarLength]
        omega
      have h := hend i hi
      rw [hplace] at h
      exact h

/-- An archive depends on its own bytes only. -/
theorem TarAt.of_same {mem mem' : Mem} (es : List TarEntry) : ∀ {p : Nat}, TarAt mem p es →
    (∀ x, p ≤ x → x < p + tarLength es → mem' x = mem x) → TarAt mem' p es := by
  induction es with
  | nil =>
      intro p h hsame i hi
      rw [hsame _ (by omega) (by unfold tarLength; omega)]
      exact h i hi
  | cons e es ih =>
      intro p h hsame
      obtain ⟨hname, hnul, hsize, hdata, hrest⟩ := h
      have hle := e.name_le
      have hpad : e.data.length ≤ padded e.data.length := by unfold padded; omega
      have hlen : tarLength (e :: es) = 512 + padded e.data.length + tarLength es := rfl
      have hoff : tar_size_offset = 124 := rfl
      refine ⟨fun i hi => ?_, fun hlt => ?_, fun j hj => ?_, fun i hi => ?_,
        ih hrest fun x h1 h2 => hsame x (by omega) (by omega)⟩
      · rw [hsame _ (by omega) (by omega)]
        exact hname i hi
      · rw [hsame _ (by omega) (by omega)]
        exact hnul hlt
      · rw [hsame _ (by omega) (by omega)]
        exact hsize j hj
      · rw [hsame _ (by omega) (by omega)]
        exact hdata i hi

/-- A header and the padded data, at offset `x` from where they start. -/
def tar_block (e : TarEntry) (x : Nat) : UInt8 :=
  if x < 100 then e.name.getD x 0
  else if 124 ≤ x ∧ x < 135 then UInt8.ofNat (0x30 + e.data.length / 8 ^ (10 - (x - 124)) % 8)
  else if 512 ≤ x then e.data.getD (x - 512) 0
  else 0

/-- Memory with the archive written out from `p` on, zeros elsewhere. -/
def tar_image : Nat → List TarEntry → Mem
  | _, [] => fun _ => 0
  | p, e :: es => fun a =>
      if a < p then 0
      else if a < p + (512 + padded e.data.length) then tar_block e (a - p)
      else tar_image (p + (512 + padded e.data.length)) es a

/-- What is read of an image is what is there from `p` on. -/
theorem TarImage.of_same {mem mem' : Mem} (es : List TarEntry) : ∀ {p : Nat}, TarImage mem p es →
    (∀ x, p ≤ x → mem' x = mem x) → TarImage mem' p es := by
  induction es with
  | nil =>
      intro p h hsame
      exact (hsame p (Nat.le_refl p)).trans h
  | cons e es ih =>
      intro p h hsame
      obtain ⟨hname, hsize, hdata, hrest⟩ := h
      refine ⟨fun i hi => ?_, fun j hj => ?_, fun i hi => ?_, ih hrest fun x hx => hsame x (by omega)⟩
      · rw [hsame _ (by omega)]
        exact hname i hi
      · rw [hsame _ (by unfold tar_size_offset; omega)]
        exact hsize j hj
      · rw [hsame _ (by omega)]
        exact hdata i hi

/-- The writer writes the archive. -/
theorem tar_image_written (es : List TarEntry) : ∀ p, TarImage (tar_image p es) p es := by
  induction es with
  | nil =>
      intro p
      rfl
  | cons e es ih =>
      intro p
      have hpad : e.data.length ≤ padded e.data.length := by unfold padded; omega
      have hblock : ∀ x, x < 512 + padded e.data.length → tar_image p (e :: es) (p + x) = tar_block e x :=
        fun x hx => by
          rw [tar_image]
          dsimp only
          rw [if_neg (by omega), if_pos (by omega), Nat.add_sub_cancel_left]
      refine ⟨fun i hi => ?_, fun j hj => ?_, fun i hi => ?_, (ih _).of_same es fun x hx => ?_⟩
      · rw [hblock i (by omega), tar_block, if_pos hi]
      · rw [tar_size_offset, Nat.add_assoc, hblock (124 + j) (by omega), tar_block, if_neg (by omega),
          if_pos (by omega), Nat.add_sub_cancel_left, UInt8.toNat_ofNat']
        omega
      · rw [Nat.add_assoc, hblock (512 + i) (by omega), tar_block, if_neg (by omega), if_neg (by omega),
          if_pos (by omega), Nat.add_sub_cancel_left, List.getD_eq_getElem _ _ hi]
        rfl
      · rw [tar_image]
        dsimp only
        rw [if_neg (by omega), if_neg (by omega)]

/-- Behind the last file there are zeros. -/
theorem tar_image_end (es : List TarEntry) : ∀ p a, p + (tarLength es - 512) ≤ a → tar_image p es a = 0 := by
  induction es with
  | nil =>
      intro p a _
      rfl
  | cons e es ih =>
      intro p a ha
      have hpos := tarLength_pos es
      rw [tarLength] at ha
      rw [tar_image]
      dsimp only
      rw [if_neg (by omega), if_neg (by omega)]
      exact ih _ a (by omega)

theorem tar_image_tarAt (p : Nat) (es : List TarEntry) : TarAt (tar_image p es) p es :=
  (tar_image_written es p).tarAt es fun _ _ => tar_image_end es p _ (by omega)

/-- The record describes the file. -/
structure Describes (mem : Mem) (e : TarEntry) (tf : TarFile) : Prop where
  name : IsStr tf.tf_filename.bytes e.name
  size : tf.tf_datasiz = e.data.length
  bound : tf.tf_data + e.data.length < 4294967296
  data : mem_bytes mem tf.tf_data e.data.length = e.data

/-! ## §3. The size field. -/

theorem length_mem_bytes (mem : Mem) (p n : Nat) : (mem_bytes mem p n).length = n := by
  simp [mem_bytes]

theorem mem_bytes_eq {mem : Mem} {p : Nat} {l : List UInt8}
    (h : ∀ i (hi : i < l.length), mem (p + i) = l.get ⟨i, hi⟩) : mem_bytes mem p l.length = l := by
  refine List.ext_getElem (length_mem_bytes _ _ _) fun i h1 h2 => ?_
  simp only [mem_bytes, List.getElem_map, List.getElem_range]
  exact h i h2

theorem mem_bytes_add (mem : Mem) (p a b : Nat) :
    mem_bytes mem p (a + b) = mem_bytes mem p a ++ mem_bytes mem (p + a) b := by
  unfold mem_bytes
  rw [List.range_add, List.map_append, List.map_map]
  congr 1
  refine List.map_congr_left fun i _ => ?_
  rw [Function.comp_apply, Nat.add_assoc]

theorem digit_value_eq {b : UInt8} {d : Nat} (hb : b.toNat = 0x30 + d) (hd : d < 8) :
    digit_value b = d := by
  unfold digit_value char_value
  rw [if_pos (by omega)]
  omega

/-- With the low `k` digits read, the loop has them in `size` and their weight in `count`. -/
theorem getsize_loop_eq {mem : Mem} {p n : Nat} (hn : n < 4294967296)
    (hd : ∀ j, j < 11 → (mem (p + j)).toNat = 0x30 + n / 8 ^ (10 - j) % 8) :
    ∀ j k, j + k = 11 → getsize_loop mem p j (n % 8 ^ k) (8 ^ k % 4294967296) = n % 8 ^ 11 := by
  intro j
  induction j with
  | zero =>
      intro k hk
      rw [getsize_loop, show k = 11 by omega]
  | succ j ih =>
      intro k hk
      have hjk : 10 - j = k := by omega
      have hdig := digit_value_eq (hd j (by omega)) (Nat.mod_lt _ (by decide))
      rw [hjk] at hdig
      have hk8 : 8 ^ k ≤ 8 ^ 10 := Nat.pow_le_pow_right (by decide) (by omega)
      have hlt : 8 ^ k < 4294967296 := Nat.lt_of_le_of_lt hk8 (by decide)
      -- the low `k + 1` digits
      have hsplit : n % 8 ^ (k + 1) = n % 8 ^ k + 8 ^ k * (n / 8 ^ k % 8) := Nat.mod_pow_succ
      have hle : n % 8 ^ (k + 1) ≤ n := Nat.mod_le _ _
      rw [getsize_loop, hdig, Nat.mod_eq_of_lt hlt]
      have hmul : mul32 (n / 8 ^ k % 8) (8 ^ k) = 8 ^ k * (n / 8 ^ k % 8) := by
        rw [mul32_of_lt (by rw [Nat.mul_comm]; omega), Nat.mul_comm]
      have hcount : mul32 (8 ^ k) 8 = 8 ^ (k + 1) % 4294967296 := by
        unfold mul32
        rw [Nat.pow_succ]
      rw [hmul, add32_of_lt (by omega), ← hsplit, hcount]
      exact ih (k + 1) (by omega)

theorem getsize_eq {mem : Mem} {p n : Nat} (hn : n < 4294967296)
    (hd : ∀ j, j < 11 → (mem (p + j)).toNat = 0x30 + n / 8 ^ (10 - j) % 8) :
    getsize mem p = n := by
  have h := getsize_loop_eq hn hd 11 0 rfl
  rw [Nat.pow_zero, Nat.mod_one, show (1 : Nat) % 4294967296 = 1 from rfl,
    Nat.mod_eq_of_lt (a := n) (by omega)] at h
  exact h

/-! ## §4. The parse. -/

/-- The name field, with the zero byte that follows its copy, is the name as a string. -/
theorem filename_isStr {mem : Mem} {p : Nat} {e : TarEntry}
    (hname : ∀ i (h : i < e.name.length), mem (p + i) = e.name.get ⟨i, h⟩)
    (hnul : e.name.length < 100 → mem (p + e.name.length) = 0) :
    IsStr (mem_bytes mem p 100 ++ [0]) e.name := by
  refine ⟨e.name_nul, ?_⟩
  have hle := e.name_le
  by_cases hlt : e.name.length < 100
  · refine ⟨mem_bytes mem (p + e.name.length + 1) (99 - e.name.length) ++ [0], ?_⟩
    rw [show 100 = e.name.length + (1 + (99 - e.name.length)) by omega, mem_bytes_add,
      mem_bytes_add, mem_bytes_eq hname]
    have h1 : mem_bytes mem (p + e.name.length) 1 = [0] := by
      simp [mem_bytes, hnul hlt]
    rw [h1]
    simp
  · have heq : e.name.length = 100 := by omega
    refine ⟨[], ?_⟩
    rw [← heq, mem_bytes_eq hname]

/-- The copy of the name field. -/
theorem memcpy_filename (mem : Mem) (p : Nat) :
    ∃ d, (CharArray.zero 101).memcpy (mem_bytes mem p 100) 100 = .ok d
      ∧ d.bytes = mem_bytes mem p 100 ++ [0] := by
  unfold CharArray.memcpy
  rw [dif_pos ⟨by decide, by rw [length_mem_bytes]⟩]
  refine ⟨_, rfl, ?_⟩
  dsimp only
  rw [List.take_of_length_le (by rw [length_mem_bytes])]
  rfl

/-- The pointer moves to the next header. -/
theorem next_header {p n : Nat} (h : p + (512 + padded n) < 4294967296) :
    (let next := add32 p (mul32 (add32 (n / 512) 1) 512)
      if n % 512 ≠ 0 then add32 next 512 else next) = p + (512 + padded n) := by
  unfold padded at h ⊢
  dsimp only
  rw [add32_of_lt (show n / 512 + 1 < 4294967296 by omega),
    mul32_of_lt (show (n / 512 + 1) * 512 < 4294967296 by omega),
    add32_of_lt (show p + (n / 512 + 1) * 512 < 4294967296 by omega)]
  by_cases hn : n % 512 ≠ 0
  · rw [if_pos hn, add32_of_lt (by omega)]
    omega
  · rw [if_neg hn]
    omega

/-- The loop on a well laid out rest of the archive. -/
theorem tar_parse_loop_spec {mem : Mem} (es : List TarEntry) :
    ∀ (fuel i p : Nat) (q : List TarFile), es.length < fuel → TarRows mem p es →
      p + tarLength es ≤ 4294967296 →
      ∃ tfs, tar_parse_loop mem fuel i p q = .ok (i + es.length, q ++ tfs)
        ∧ List.Forall₂ (Describes mem) es tfs := by
  induction es with
  | nil =>
      intro fuel i p q hfuel htar hfit
      obtain ⟨f, rfl⟩ := Nat.exists_eq_add_of_lt hfuel
      refine ⟨[], ?_, .nil⟩
      have h0 : mem p = 0 := htar
      rw [show ([] : List TarEntry).length + f + 1 = f + 1 by simp, tar_parse_loop,
        if_pos h0]
      simp
  | cons e es ih =>
      intro fuel i p q hfuel htar hfit
      obtain ⟨f, rfl⟩ := Nat.exists_eq_succ_of_ne_zero (Nat.ne_of_gt (Nat.zero_lt_of_lt hfuel))
      obtain ⟨hname, hnul, hsize, hdata, hrest⟩ := htar
      rw [tarLength] at hfit
      have hpos := tarLength_pos es
      have hdatalen : e.data.length ≤ padded e.data.length := by unfold padded; omega
      -- the first byte of a name is not NUL
      have hfirst : mem p ≠ 0 := by
        have hlen : 0 < e.name.length := List.length_pos_of_ne_nil e.name_ne
        have h0 := hname 0 hlen
        rw [Nat.add_zero] at h0
        rw [h0]
        intro h
        exact e.name_nul (h ▸ List.get_mem _ _)
      have hsiz : getsize mem (p + tar_size_offset) = e.data.length :=
        getsize_eq (by omega) hsize
      obtain ⟨d, hd, hbytes⟩ := memcpy_filename mem p
      have hnext := next_header (p := p) (n := e.data.length) (by omega)
      obtain ⟨tfs, hloop, hall⟩ := ih f (i + 1) (p + (512 + padded e.data.length))
        (q ++ [⟨d, e.data.length, p + 512⟩]) (by simpa using hfuel) hrest (by omega)
      refine ⟨⟨d, e.data.length, p + 512⟩ :: tfs, ?_, .cons ⟨?_, rfl, ?_, mem_bytes_eq hdata⟩ hall⟩
      · dsimp only at hnext
        simp only [tar_parse_loop, if_neg hfirst, hsiz, hd, ok_bind, hnext,
          add32_of_lt (show p + 512 < 4294967296 by omega), hloop, List.append_assoc,
          List.singleton_append, List.length_cons, Except.ok.injEq, Prod.mk.injEq, and_true]
        omega
      · rw [hbytes]
        exact filename_isStr hname hnul
      · dsimp only
        omega

/-- The parse of what the parser reads. -/
theorem tar_parse_rows {mem : Mem} {addr fuel : Nat} {es : List TarEntry}
    (hfuel : es.length < fuel) (htar : TarRows mem addr es)
    (hfit : addr + tarLength es ≤ 4294967296) :
    ∃ tfs, tar_parse_mem fuel mem addr = .ok (es.length, tfs)
      ∧ List.Forall₂ (Describes mem) es tfs := by
  obtain ⟨tfs, h, hall⟩ := tar_parse_loop_spec es fuel 0 addr [] hfuel htar hfit
  refine ⟨tfs, ?_, hall⟩
  rw [tar_parse_mem, h]
  simp

/-- **The parser inverts the serialisation.**  For every list of files, written out at `addr` as `tar`
    does and without wrapping the address space, `tar_parse_mem` ends, with the number of files and a
    queue of exactly these files in order: the names as NUL-terminated strings (also names of 100
    bytes), the exact lengths, and pointers to the data. -/
theorem tar_parse_inverts {mem : Mem} {addr fuel : Nat} {es : List TarEntry}
    (hfuel : es.length < fuel) (himage : TarImage mem addr es)
    (hfit : addr + tarLength es ≤ 4294967296) :
    ∃ tfs, tar_parse_mem fuel mem addr = .ok (es.length, tfs)
      ∧ List.Forall₂ (Describes mem) es tfs :=
  tar_parse_rows hfuel (himage.rows es) hfit

/-- Three files: one with a name of 100 bytes and two bytes of data, one without data, and one that fills more
    than a block. -/
def threeFiles : List TarEntry :=
  [⟨List.replicate 100 0x61, [0x68, 0x69], by decide, by decide, by decide⟩,
    ⟨[0x62], [], by decide, by decide, by decide⟩,
    ⟨[0x63, 0x64], List.replicate 600 0x78, by decide, by decide, by decide⟩]

theorem tarLength_threeFiles : tarLength threeFiles = 3584 := by
  simp only [threeFiles, tarLength, padded, List.length_replicate, List.length_cons, List.length_nil]

/-- The parse of their archive, at 0x1000. -/
theorem tar_parse_inverts_three_files :
    TarImage (tar_image 0x1000 threeFiles) 0x1000 threeFiles
      ∧ ∃ tfs, tar_parse_mem 4 (tar_image 0x1000 threeFiles) 0x1000 = .ok (3, tfs)
        ∧ List.Forall₂ (Describes (tar_image 0x1000 threeFiles)) threeFiles tfs :=
  ⟨tar_image_written threeFiles 0x1000,
    tar_parse_inverts (by decide) (tar_image_written threeFiles 0x1000) (by rw [tarLength_threeFiles]; decide)⟩

end JamesM
