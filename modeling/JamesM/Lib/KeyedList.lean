/-
  JamesM.Lib.KeyedList — lists in the order of a key that changes under them.

  `ByKey key l` says that the keys of `l` do not decrease.  The key is a function
  outside the list: when the key of ONE entry changes, the list stays ordered if the
  new key fits where the entry stands (`KeepsPlace`).
-/
import Mathlib.Data.List.Sort

namespace JamesM.Lib

variable {α : Type} {key key' : α → Nat} {l : List α}

/-- The keys do not decrease. -/
def ByKey (key : α → Nat) (l : List α) : Prop := l.Pairwise fun a b => key a ≤ key b

/-- With key `n`, the entry `a` could stay where it is. -/
def KeepsPlace (key : α → Nat) (l : List α) (a : α) (n : Nat) : Prop :=
  ∀ pre post, l = pre ++ a :: post → (∀ b ∈ pre, key b ≤ n) ∧ ∀ b ∈ post, n ≤ key b

theorem ByKey.congr (h : ByKey key l) (heq : ∀ a ∈ l, key' a = key a) : ByKey key' l :=
  h.imp_of_mem fun {a b} ha hb hab => by rw [heq a ha, heq b hb]; exact hab

/-- **One key changes.** -/
theorem ByKey.resize {a : α} (h : ByKey key l) (hnodup : l.Nodup)
    (heq : ∀ b ∈ l, b ≠ a → key' b = key b) (hplace : KeepsPlace key l a (key' a)) : ByKey key' l := by
  by_cases ha : a ∈ l
  · obtain ⟨pre, post, rfl⟩ := List.append_of_mem ha
    obtain ⟨hpre, hpost⟩ := hplace pre post rfl
    obtain ⟨hn1, hn2, hn3⟩ := List.pairwise_append.mp hnodup
    obtain ⟨h1, h2, h3⟩ := List.pairwise_append.mp h
    have heq1 : ∀ b ∈ pre, key' b = key b := fun b hb =>
      heq b (by simp [hb]) (hn3 b hb a List.mem_cons_self)
    have heq2 : ∀ b ∈ post, key' b = key b := fun b hb =>
      heq b (by simp [hb]) fun h => (List.pairwise_cons.mp hn2).1 b hb h.symm
    refine List.pairwise_append.mpr ⟨ByKey.congr h1 heq1, List.pairwise_cons.mpr ⟨fun b hb => ?_, ?_⟩,
      fun b hb c hc => ?_⟩
    · rw [heq2 b hb]
      exact hpost b hb
    · exact ByKey.congr (List.pairwise_cons.mp h2).2 heq2
    · rw [heq1 b hb]
      rcases List.mem_cons.mp hc with rfl | hc'
      · exact hpre b hb
      · rw [heq2 c hc']
        exact h3 b hb c hc
  · exact h.congr fun b hb => heq b hb fun h => ha (h ▸ hb)

/-- A sorted insertion whose test compares the keys. -/
theorem ByKey.insert {r : α → α → Prop} [DecidableRel r] {a : α} (h : ByKey key l)
    (hr : ∀ b ∈ l, r a b ↔ key a ≤ key b) : ByKey key (l.orderedInsert r a) := by
  induction l with
  | nil => exact List.pairwise_singleton _ _
  | cons b l ih =>
      obtain ⟨h1, h2⟩ := List.pairwise_cons.mp h
      rw [List.orderedInsert_cons]
      by_cases hab : r a b
      · rw [if_pos hab]
        have hle := (hr b List.mem_cons_self).mp hab
        refine List.pairwise_cons.mpr ⟨fun c hc => ?_, h⟩
        rcases List.mem_cons.mp hc with rfl | hc
        · exact hle
        · exact Nat.le_trans hle (h1 c hc)
      · rw [if_neg hab]
        have hlt : ¬ key a ≤ key b := fun h => hab ((hr b List.mem_cons_self).mpr h)
        refine List.pairwise_cons.mpr ⟨fun c hc => ?_, ih h2 fun c hc => hr c (List.mem_cons_of_mem _ hc)⟩
        rcases (List.mem_orderedInsert r).mp hc with rfl | hc
        · omega
        · exact h1 c hc

/-- **First fit is best fit.**  In an ordered list the first entry with a large enough key has the least
    such key. -/
theorem ByKey.first_fit {n j : Nat} {a : α} (h : ByKey key l) (hj : l[j]? = some a)
    (hfirst : ∀ i b, i < j → l[i]? = some b → key b < n) : ∀ b ∈ l, n ≤ key b → key a ≤ key b := by
  intro b hb hn
  obtain ⟨i, hi⟩ := List.mem_iff_getElem?.mp hb
  obtain ⟨hjl, rfl⟩ := List.getElem?_eq_some_iff.mp hj
  obtain ⟨hil, rfl⟩ := List.getElem?_eq_some_iff.mp hi
  rcases Nat.lt_trichotomy i j with hij | rfl | hij
  · have := hfirst i _ hij hi
    omega
  · exact Nat.le_refl _
  · exact List.pairwise_iff_getElem.mp h j i hjl hil hij

end JamesM.Lib
