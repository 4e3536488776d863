/-
  JamesM.Lib.Tiling — a row of segments that fills an address range.

  `Tiles addr size a l e`: the segments of `l`, one after another without a gap,
  fill the addresses from `a` to `e`.  The lemmas cut a row at a segment, put a row
  in the place of a segment, and compare segments of one row.
-/
import Mathlib.Data.List.Basic
import Mathlib.Tactic.Common

namespace JamesM.Lib

variable {α : Type} {addr size : α → Nat}

/-- The segments fill the addresses from the first argument to the last. -/
def Tiles (addr size : α → Nat) : Nat → List α → Nat → Prop
  | a, [], e => a = e
  | a, x :: l, e => addr x = a ∧ Tiles addr size (a + size x) l e

theorem tiles_nil {a e : Nat} : Tiles addr size a [] e ↔ a = e := Iff.rfl

theorem tiles_cons {a e : Nat} {x : α} {l : List α} :
    Tiles addr size a (x :: l) e ↔ addr x = a ∧ Tiles addr size (a + size x) l e := Iff.rfl

theorem tiles_singleton {a e : Nat} {x : α} :
    Tiles addr size a [x] e ↔ addr x = a ∧ a + size x = e := Iff.rfl

theorem tiles_append {l l' : List α} : ∀ {a e : Nat},
    Tiles addr size a (l ++ l') e ↔ ∃ c, Tiles addr size a l c ∧ Tiles addr size c l' e := by
  induction l with
  | nil =>
      intro a e
      exact ⟨fun h => ⟨a, rfl, h⟩, fun ⟨c, hc, h⟩ => hc ▸ h⟩
  | cons x l ih =>
      intro a e
      rw [List.cons_append, tiles_cons, ih]
      constructor
      · rintro ⟨hx, c, h1, h2⟩
        exact ⟨c, ⟨hx, h1⟩, h2⟩
      · rintro ⟨c, ⟨hx, h1⟩, h2⟩
        exact ⟨hx, c, h1, h2⟩

theorem Tiles.le {l : List α} : ∀ {a e : Nat}, Tiles addr size a l e → a ≤ e := by
  induction l with
  | nil => intro a e h; exact Nat.le_of_eq h
  | cons x l ih =>
      intro a e h
      have := ih h.2
      omega

/-- A row that ends at `e` starts at one place only. -/
theorem Tiles.start_unique {l : List α} {a a' e : Nat} (h : Tiles addr size a l e)
    (h' : Tiles addr size a' l e) : a = a' := by
  cases l with
  | nil => exact h.trans h'.symm
  | cons x l => exact h.1.symm.trans h'.1

/-- A row that starts at `a` ends at one place only. -/
theorem Tiles.end_unique {l : List α} : ∀ {a e e' : Nat}, Tiles addr size a l e →
    Tiles addr size a l e' → e = e' := by
  induction l with
  | nil => intro a e e' h h'; exact h.symm.trans h'
  | cons x l ih => intro a e e' h h'; exact ih h.2 h'.2

/-- A segment lies inside the range. -/
theorem Tiles.bounds {l : List α} : ∀ {a e : Nat}, Tiles addr size a l e → ∀ x ∈ l,
    a ≤ addr x ∧ addr x + size x ≤ e := by
  induction l with
  | nil => intro a e _ x hx; exact absurd hx (by simp)
  | cons y l ih =>
      intro a e h x hx
      obtain ⟨hy, h⟩ := h
      rcases List.mem_cons.mp hx with rfl | hx
      · have := h.le
        omega
      · have := ih h x hx
        omega

/-- The row is cut at a segment. -/
theorem Tiles.cut {pre post : List α} {x : α} {a e : Nat} (h : Tiles addr size a (pre ++ x :: post) e) :
    Tiles addr size a pre (addr x) ∧ Tiles addr size (addr x + size x) post e := by
  obtain ⟨c, h1, h2⟩ := tiles_append.mp h
  obtain ⟨hx, h2⟩ := h2
  subst hx
  exact ⟨h1, h2⟩

/-- Segments before a segment end at or before it; segments after it start at or after its end. -/
theorem Tiles.around {pre post : List α} {x : α} {a e : Nat}
    (h : Tiles addr size a (pre ++ x :: post) e) :
    (∀ y ∈ pre, addr y + size y ≤ addr x) ∧ ∀ y ∈ post, addr x + size x ≤ addr y :=
  ⟨fun y hy => (h.cut.1.bounds y hy).2, fun y hy => (h.cut.2.bounds y hy).1⟩

/-- A row that fills the place of a segment can be put there. -/
theorem Tiles.splice {pre mids post : List α} {x : α} {a e : Nat}
    (h : Tiles addr size a (pre ++ x :: post) e)
    (hm : Tiles addr size (addr x) mids (addr x + size x)) :
    Tiles addr size a (pre ++ mids ++ post) e :=
  tiles_append.mpr ⟨_, tiles_append.mpr ⟨_, h.cut.1, hm⟩, h.cut.2⟩

/-- The segments of a row are in increasing order. -/
theorem Tiles.sorted {l : List α} : ∀ {a e : Nat}, Tiles addr size a l e →
    l.Pairwise (fun x y => addr x + size x ≤ addr y) := by
  induction l with
  | nil => intro a e _; exact .nil
  | cons x l ih =>
      intro a e h
      refine List.pairwise_cons.mpr ⟨fun y hy => ?_, ih h.2⟩
      have := (h.2.bounds y hy).1
      have := h.1
      omega

/-- Two segments of a row are one, or they are apart. -/
theorem Tiles.apart {l : List α} {a e : Nat} (h : Tiles addr size a l e) {x y : α} (hx : x ∈ l)
    (hy : y ∈ l) : x = y ∨ addr x + size x ≤ addr y ∨ addr y + size y ≤ addr x := by
  have hsort := h.sorted
  clear h
  induction l with
  | nil => exact absurd hx (by simp)
  | cons z l ih =>
      obtain ⟨h1, h2⟩ := List.pairwise_cons.mp hsort
      rcases List.mem_cons.mp hx with rfl | hx' <;> rcases List.mem_cons.mp hy with rfl | hy'
      · exact .inl rfl
      · exact .inr (.inl (h1 y hy'))
      · exact .inr (.inr (h1 x hx'))
      · exact ih hx' hy' h2

/-- Segments of positive size with one address are one segment. -/
theorem Tiles.eq_of_addr {l : List α} {a e : Nat} (h : Tiles addr size a l e) {x y : α} (hx : x ∈ l)
    (hy : y ∈ l) (hpx : 0 < size x) (hpy : 0 < size y) (heq : addr x = addr y) : x = y := by
  rcases h.apart hx hy with h | h | h
  · exact h
  · omega
  · omega

/-- Segments of at least `n` addresses are few. -/
theorem Tiles.length_le {l : List α} {n : Nat} : ∀ {a e : Nat}, Tiles addr size a l e →
    (∀ x ∈ l, n ≤ size x) → n * l.length ≤ e - a := by
  induction l with
  | nil => intro a e h hn; exact Nat.zero_le _
  | cons x l ih =>
      intro a e h hn
      have h1 := hn x List.mem_cons_self
      have h2 := ih h.2 fun y hy => hn y (List.mem_cons_of_mem _ hy)
      have h3 := h.2.le
      rw [List.length_cons, Nat.mul_succ]
      omega

/-- A segment that ends where the row ends is the last one. -/
theorem Tiles.last {l : List α} {a e : Nat} (h : Tiles addr size a l e) (hpos : ∀ x ∈ l, 0 < size x)
    {x : α} (hx : x ∈ l) (hend : addr x + size x = e) : ∃ pre, l = pre ++ [x] := by
  obtain ⟨pre, post, rfl⟩ := List.append_of_mem hx
  cases post with
  | nil => exact ⟨pre, rfl⟩
  | cons y post =>
      have h1 := h.around.2 y List.mem_cons_self
      have h2 := (h.bounds y (by simp)).2
      have h3 := hpos y (by simp)
      omega

end JamesM.Lib
