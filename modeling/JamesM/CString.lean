/-
  JamesM.CString — character arrays and the string routines of `common.c`.

  A pointer to characters is the list of the bytes from it to the end of the object
  it points into, so a loop that runs off the end is an access outside the object.
  `IsStr s name` says that the string at `s` is `name`.
-/
import JamesM.Common

namespace JamesM

/-! ## §1. The source. -/

/-- `char name[n];`. -/
structure CharArray (n : Nat) where
  bytes : List UInt8
  length_eq : bytes.length = n

/-- A zeroed array, as `kmalloc0` returns it. -/
def CharArray.zero (n : Nat) : CharArray n := ⟨List.replicate n 0, List.length_replicate⟩

/-- `memcpy(dest, src, count)`. -/
def CharArray.memcpy {n : Nat} (dest : CharArray n) (src : List UInt8) (count : Nat) :
    Result (CharArray n) :=
  if h : count ≤ n ∧ count ≤ src.length then
    .ok ⟨src.take count ++ dest.bytes.drop count, by simp [dest.length_eq]; omega⟩
  else .error .fault

/-- `dest[i] = b`. -/
def CharArray.set {n : Nat} (dest : CharArray n) (i : Nat) (b : UInt8) : Result (CharArray n) :=
  if i < n then .ok ⟨dest.bytes.set i b, by rw [List.length_set]; exact dest.length_eq⟩
  else .error .fault

/-- `strlen(s)`. -/
def strlen : List UInt8 → Result Nat
  | [] => .error .fault
  | b :: s => if b = 0 then .ok 0 else do
      let l ← strlen s
      .ok (l + 1)

/-- `strcmp(s1, s2)`. -/
def strcmp : List UInt8 → List UInt8 → Result Int
  | a :: s1, b :: s2 =>
      if a = b then if a = 0 then .ok 0 else strcmp s1 s2
      else .ok ((a.toNat : Int) - b.toNat)
  | _, _ => .error .fault

/-- The bytes `%s` prints. -/
def printed (s : List UInt8) : List UInt8 := s.takeWhile (· ≠ 0)

/-! ## §2. Strings. -/

/-- The string at `s` is `name`. -/
def IsStr (s name : List UInt8) : Prop := (0 : UInt8) ∉ name ∧ ∃ rest, s = name ++ 0 :: rest

theorem IsStr.cons {b : UInt8} {s name : List UInt8} (h : IsStr s name) (hb : b ≠ 0) :
    IsStr (b :: s) (b :: name) := by
  obtain ⟨h0, rest, rfl⟩ := h
  exact ⟨by simp [h0, hb.symm], rest, rfl⟩

theorem IsStr.tail {b : UInt8} {s name : List UInt8} (h : IsStr s (b :: name)) :
    b ≠ 0 ∧ ∃ s', s = b :: s' ∧ IsStr s' name := by
  obtain ⟨h0, rest, rfl⟩ := h
  simp only [List.mem_cons, not_or] at h0
  exact ⟨fun h => h0.1 h.symm, name ++ 0 :: rest, rfl, h0.2, rest, rfl⟩

theorem IsStr.nil {s : List UInt8} (h : IsStr s []) : ∃ s', s = 0 :: s' := by
  obtain ⟨-, rest, rfl⟩ := h
  exact ⟨rest, rfl⟩

theorem IsStr.length_lt {s name : List UInt8} (h : IsStr s name) : name.length < s.length := by
  obtain ⟨-, rest, rfl⟩ := h
  simp

theorem strlen_eq {s name : List UInt8} (h : IsStr s name) : strlen s = .ok name.length := by
  induction name generalizing s with
  | nil =>
      obtain ⟨s', rfl⟩ := h.nil
      rfl
  | cons b name ih =>
      obtain ⟨hb, s', rfl, h'⟩ := h.tail
      rw [strlen, if_neg hb, ih h']
      rfl

theorem printed_eq {s name : List UInt8} (h : IsStr s name) : printed s = name := by
  induction name generalizing s with
  | nil =>
      obtain ⟨s', rfl⟩ := h.nil
      rfl
  | cons b name ih =>
      obtain ⟨hb, s', rfl, h'⟩ := h.tail
      have := ih h'
      unfold printed at this ⊢
      rw [List.takeWhile_cons_of_pos (by simpa using hb), this]

/-- **`strcmp` compares strings.**  It returns, and returns 0 exactly when the strings are equal. -/
theorem strcmp_spec {s1 s2 n1 n2 : List UInt8} (h1 : IsStr s1 n1) (h2 : IsStr s2 n2) :
    ∃ r, strcmp s1 s2 = .ok r ∧ (r = 0 ↔ n1 = n2) := by
  have hdiff : ∀ a b : UInt8, a ≠ b → ((a.toNat : Int) - b.toNat) ≠ 0 := fun a b hab h => by
    refine hab (UInt8.toNat_inj.mp ?_)
    omega
  induction n1 generalizing s1 s2 n2 with
  | nil =>
      obtain ⟨t1, rfl⟩ := h1.nil
      cases n2 with
      | nil =>
          obtain ⟨t2, rfl⟩ := h2.nil
          exact ⟨0, by simp [strcmp], by simp⟩
      | cons c n2 =>
          obtain ⟨hc, t2, rfl, -⟩ := h2.tail
          refine ⟨_, by rw [strcmp, if_neg hc.symm], ?_⟩
          simp only [reduceCtorEq, iff_false]
          exact hdiff 0 c hc.symm
  | cons b n1 ih =>
      obtain ⟨hb, t1, rfl, h1'⟩ := h1.tail
      cases n2 with
      | nil =>
          obtain ⟨t2, rfl⟩ := h2.nil
          refine ⟨_, by rw [strcmp, if_neg hb], ?_⟩
          simp only [reduceCtorEq, iff_false]
          exact hdiff b 0 hb
      | cons c n2 =>
          obtain ⟨hc, t2, rfl, h2'⟩ := h2.tail
          by_cases hbc : b = c
          · subst hbc
            obtain ⟨r, hr, hiff⟩ := ih h1' h2'
            refine ⟨r, by rw [strcmp, if_pos rfl, if_neg hb, hr], ?_⟩
            rw [hiff, List.cons.injEq]
            exact ⟨fun h => ⟨rfl, h⟩, fun h => h.2⟩
          · refine ⟨_, by rw [strcmp, if_neg hbc], ?_⟩
            simp only [List.cons.injEq, hbc, false_and, iff_false]
            exact hdiff b c hbc

/-- Copying a string with its terminator copies the string. -/
theorem memcpy_str {n : Nat} (dest : CharArray n) {s name : List UInt8} (h : IsStr s name)
    (hn : name.length < n) :
    ∃ d, dest.memcpy s (name.length + 1) = .ok d ∧ IsStr d.bytes name := by
  have hlen := h.length_lt
  unfold CharArray.memcpy
  rw [dif_pos ⟨by omega, by omega⟩]
  refine ⟨_, rfl, h.1, dest.bytes.drop (name.length + 1), ?_⟩
  obtain ⟨-, rest, rfl⟩ := h
  have htake : (name ++ 0 :: rest).take (name.length + 1) = name ++ [0] := by
    rw [show name ++ 0 :: rest = (name ++ [0]) ++ rest by simp, List.take_left' (by simp)]
  simp only [htake, List.append_assoc, List.singleton_append]

/-- Writing the terminator where it already is changes nothing about the string. -/
theorem set_terminator {n : Nat} {d : CharArray n} {name : List UInt8} (h : IsStr d.bytes name) :
    ∃ d', d.set name.length 0 = .ok d' ∧ IsStr d'.bytes name := by
  have hlen := h.length_lt
  have hsize := d.length_eq
  unfold CharArray.set
  rw [if_pos (by omega)]
  refine ⟨_, rfl, ?_⟩
  obtain ⟨h0, rest, hd⟩ := h
  refine ⟨h0, rest, ?_⟩
  dsimp only
  rw [hd, List.set_append_right _ _ (Nat.le_refl _), Nat.sub_self]
  rfl

end JamesM
