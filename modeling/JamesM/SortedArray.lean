/-
  JamesM.SortedArray — `sorted_array.c`: an array kept in order by insertion.

  The storage is a function from slot numbers to elements, so a slot past the
  contents still has a value, as in C.  The comparison function is a pointer to
  code that may follow the elements it is given: it reads a memory `σ`, passed at
  each call.

  Main results:
    * `insert_sorted_array_entries` — an insertion puts the element directly before
      the first one that is not less (Mathlib's `List.orderedInsert`);
    * `remove_sorted_array_entries` — a removal erases position `i`.
-/
import JamesM.Common
import Mathlib.Data.List.Sort

namespace JamesM

/-! ## §1. The structure and its operations. -/

/-- `struct sorted_array`.  `sa_cmp` is `none` for the NULL pointer. -/
structure SortedArray (σ α : Type) where
  sa_array : Nat → α
  sa_size : Nat
  sa_maxsize : Nat
  sa_cmp : Option (σ → α → α → Int)

variable {σ α : Type}

/-- Store `v` in slot `k`. -/
def set_slot (arr : Nat → α) (k : Nat) (v : α) : Nat → α :=
  fun j => if j = k then v else arr j

/-- `place_sorted_array(addr, maxsize, cmp)`: every slot is cleared. -/
def place_sorted_array (null : α) (maxsize : Nat) (cmp : Option (σ → α → α → Int)) :
    SortedArray σ α :=
  { sa_array := fun _ => null, sa_size := 0, sa_maxsize := maxsize, sa_cmp := cmp }

/-- `while (iterator < a->sa_size && a->sa_cmp(a->sa_array[iterator], el) < 0) iterator++;`
    (`lt x` is the second test; the loop ends after at most `sa_size` rounds). -/
def insert_find (lt : α → Bool) (arr : Nat → α) (size : Nat) : Nat → Nat → Nat
  | 0, iterator => iterator
  | n + 1, iterator =>
      if iterator < size ∧ lt (arr iterator) = true then insert_find lt arr size n (iterator + 1)
      else iterator

/-- The rotating swap `while (iterator < a->sa_size) { tmp2 = a->sa_array[++iterator];
    a->sa_array[iterator] = tmp; tmp = tmp2; }`. -/
def insert_shift (size : Nat) : Nat → (Nat → α) → Nat → α → (Nat → α)
  | 0, arr, _, _ => arr
  | n + 1, arr, iterator, tmp =>
      if iterator < size then
        insert_shift size n (set_slot arr (iterator + 1) tmp) (iterator + 1) (arr (iterator + 1))
      else arr

/-- `insert_sorted_array(a, el)`. -/
def insert_sorted_array (s : σ) (a : SortedArray σ α) (el : α) : Result (SortedArray σ α) :=
  match a.sa_cmp with
  | none => .error (.panic "has a cmp function")
  | some cmp => do
      KASSERT "has enough room" (decide (a.sa_size < a.sa_maxsize))
      let iterator := insert_find (fun x => decide (cmp s x el < 0)) a.sa_array a.sa_size a.sa_size 0
      if iterator = a.sa_size then
        -- just add at the end
        .ok { a with sa_array := set_slot a.sa_array a.sa_size el, sa_size := a.sa_size + 1 }
      else
        let tmp := a.sa_array iterator
        let arr := set_slot a.sa_array iterator el
        .ok { a with sa_array := insert_shift a.sa_size a.sa_size arr iterator tmp
                     sa_size := a.sa_size + 1 }

/-- `lookup_sorted_array(a, i)`. -/
def lookup_sorted_array (a : SortedArray σ α) (i : Nat) : Result α := do
  KASSERT "index in range" (decide (i < a.sa_size))
  .ok (a.sa_array i)

/-- `while (i < a->sa_size) { a->sa_array[i] = a->sa_array[i + 1]; i++; }`. -/
def remove_shift (size : Nat) : Nat → (Nat → α) → Nat → (Nat → α)
  | 0, arr, _ => arr
  | n + 1, arr, i =>
      if i < size then remove_shift size n (set_slot arr i (arr (i + 1))) (i + 1) else arr

/-- `remove_sorted_array(a, i)`. -/
def remove_sorted_array (a : SortedArray σ α) (i : Nat) : Result (SortedArray σ α) := do
  KASSERT "index in range" (decide (i < a.sa_size))
  .ok { a with sa_array := remove_shift a.sa_size a.sa_size a.sa_array i
               sa_size := a.sa_size - 1 }

/-- The contents: slots `0 .. sa_size - 1`. -/
def SortedArray.entries (a : SortedArray σ α) : List α := (List.range a.sa_size).map a.sa_array

/-! ## §2. The loops, slot by slot. -/

theorem set_slot_same (arr : Nat → α) (k : Nat) (v : α) : set_slot arr k v k = v := by
  simp [set_slot]

theorem set_slot_ne (arr : Nat → α) {k j : Nat} (v : α) (h : j ≠ k) : set_slot arr k v j = arr j := by
  simp [set_slot, h]

/-- The search stops at the first slot that is not less, or at the end. -/
theorem insert_find_spec (lt : α → Bool) (arr : Nat → α) (size : Nat) :
    ∀ n iterator, size ≤ iterator + n → iterator ≤ size →
      iterator ≤ insert_find lt arr size n iterator
        ∧ insert_find lt arr size n iterator ≤ size
        ∧ (∀ k, iterator ≤ k → k < insert_find lt arr size n iterator → lt (arr k) = true)
        ∧ (insert_find lt arr size n iterator < size →
            lt (arr (insert_find lt arr size n iterator)) = false) := by
  intro n
  induction n with
  | zero =>
      intro iterator h1 h2
      refine ⟨Nat.le_refl _, h2, fun k hk hk' => ?_, fun h => ?_⟩
      · exact absurd hk' (by simp only [insert_find]; omega)
      · exact absurd h (by simp only [insert_find]; omega)
  | succ n ih =>
      intro iterator h1 h2
      by_cases hc : iterator < size ∧ lt (arr iterator) = true
      · obtain ⟨a1, a2, a3, a4⟩ := ih (iterator + 1) (by omega) (by omega)
        rw [insert_find, if_pos hc]
        refine ⟨by omega, a2, fun k hk hk' => ?_, a4⟩
        by_cases hki : k = iterator
        · subst hki; exact hc.2
        · exact a3 k (by omega) hk'
      · rw [insert_find, if_neg hc]
        refine ⟨Nat.le_refl _, h2, fun k hk hk' => absurd hk' (by omega), fun h => ?_⟩
        simpa [h] using hc

/-- The rotating swap moves every slot from `iterator + 1` on one place up. -/
theorem insert_shift_apply (size : Nat) :
    ∀ (n : Nat) (arr : Nat → α) (iterator : Nat) (tmp : α) (k : Nat), size ≤ iterator + n →
      insert_shift size n arr iterator tmp k
        = if k ≤ iterator then arr k
          else if k ≤ size then (if k = iterator + 1 then tmp else arr (k - 1)) else arr k := by
  intro n
  induction n with
  | zero =>
      intro arr iterator tmp k h
      rw [insert_shift]
      by_cases h1 : k ≤ iterator
      · rw [if_pos h1]
      · rw [if_neg h1, if_neg (by omega)]
  | succ n ih =>
      intro arr iterator tmp k h
      by_cases hs : iterator < size
      · rw [insert_shift, if_pos hs, ih _ _ _ _ (by omega)]
        by_cases h1 : k ≤ iterator
        · rw [if_pos (by omega), if_pos h1, set_slot_ne _ _ (by omega)]
        · rw [if_neg h1]
          by_cases h2 : k = iterator + 1
          · subst h2
            rw [if_pos (Nat.le_refl _), set_slot_same, if_pos (by omega), if_pos rfl]
          · rw [if_neg (by omega)]
            by_cases h3 : k ≤ size
            · rw [if_pos h3, if_pos h3, if_neg h2]
              by_cases h4 : k = iterator + 1 + 1
              · subst h4; rw [if_pos rfl, Nat.add_sub_cancel]
              · rw [if_neg h4, set_slot_ne _ _ (by omega)]
            · rw [if_neg h3, if_neg h3, set_slot_ne _ _ (by omega)]
      · rw [insert_shift, if_neg hs]
        by_cases h1 : k ≤ iterator
        · rw [if_pos h1]
        · rw [if_neg h1, if_neg (by omega)]

/-- The removal loop moves every slot after `i` one place down. -/
theorem remove_shift_apply (size : Nat) :
    ∀ (n : Nat) (arr : Nat → α) (i k : Nat), size ≤ i + n →
      remove_shift size n arr i k = if i ≤ k ∧ k < size then arr (k + 1) else arr k := by
  intro n
  induction n with
  | zero =>
      intro arr i k h
      rw [remove_shift, if_neg (by omega)]
  | succ n ih =>
      intro arr i k h
      by_cases hs : i < size
      · rw [remove_shift, if_pos hs, ih _ _ _ (by omega)]
        by_cases h1 : i + 1 ≤ k ∧ k < size
        · rw [if_pos h1, if_pos (by omega), set_slot_ne _ _ (by omega)]
        · rw [if_neg h1]
          by_cases h2 : k = i
          · subst h2; rw [set_slot_same, if_pos (by omega)]
          · rw [set_slot_ne _ _ h2, if_neg (by omega)]
      · rw [remove_shift, if_neg hs, if_neg (by omega)]

/-! ## §3. The operations on the list of entries. -/

theorem SortedArray.length_entries (a : SortedArray σ α) : a.entries.length = a.sa_size := by
  simp [SortedArray.entries]

theorem SortedArray.getElem?_entries (a : SortedArray σ α) (k : Nat) :
    a.entries[k]? = if k < a.sa_size then some (a.sa_array k) else none := by
  unfold SortedArray.entries
  by_cases h : k < a.sa_size
  · rw [if_pos h, List.getElem?_map, List.getElem?_range h]; rfl
  · rw [if_neg h, List.getElem?_eq_none (by simpa using h)]

theorem SortedArray.getElem_entries (a : SortedArray σ α) {i : Nat} (hi : i < a.entries.length) :
    a.entries[i] = a.sa_array i := by
  simp [SortedArray.entries]

theorem SortedArray.mem_entries {a : SortedArray σ α} {x : α} :
    x ∈ a.entries ↔ ∃ k, k < a.sa_size ∧ a.sa_array k = x := by
  simp [SortedArray.entries]

/-- `takeWhile`/`dropWhile` cut at the first element that fails the test. -/
theorem cut_at_first (lt : α → Bool) :
    ∀ (l : List α) (i : Nat), i ≤ l.length → (∀ k (h : k < l.length), k < i → lt l[k] = true) →
      (∀ h : i < l.length, lt l[i] = false) →
      l.takeWhile lt = l.take i ∧ l.dropWhile lt = l.drop i
  | [], i, _, _, _ => by simp
  | x :: l, 0, _, _, hi => by
      have hx : lt x = false := hi (by simp)
      simp [List.takeWhile, List.dropWhile, hx]
  | x :: l, i + 1, hle, hlt, hi => by
      have hx : lt x = true := hlt 0 (by simp) (by omega)
      obtain ⟨h1, h2⟩ := cut_at_first lt l i (by simpa using hle)
        (fun k h hk => hlt (k + 1) (by simpa using h) (by omega))
        (fun h => hi (by simpa using h))
      simp [List.takeWhile, List.dropWhile, hx, h1, h2]

/-- Insertion at position `i` of the entries, from its effect on the slots. -/
theorem entries_insert_at (a b : SortedArray σ α) (el : α) (i : Nat) (hi : i ≤ a.sa_size)
    (hsize : b.sa_size = a.sa_size + 1)
    (harr : ∀ k, k ≤ a.sa_size →
      b.sa_array k = if k < i then a.sa_array k else if k = i then el else a.sa_array (k - 1)) :
    b.entries = a.entries.take i ++ el :: a.entries.drop i := by
  apply List.ext_getElem?
  intro k
  have hlen : (a.entries.take i).length = i := by
    rw [List.length_take, a.length_entries]; omega
  rw [b.getElem?_entries, hsize]
  by_cases h1 : k < i
  · rw [if_pos (by omega), harr k (by omega), if_pos h1, List.getElem?_append_left (by omega),
      List.getElem?_take_of_lt h1, a.getElem?_entries, if_pos (by omega)]
  · rw [List.getElem?_append_right (by omega), hlen]
    by_cases h2 : k = i
    · subst h2
      rw [if_pos (by omega), harr k (by omega), if_neg h1, if_pos rfl, Nat.sub_self]
      rfl
    · obtain ⟨d, hd⟩ : ∃ d, k - i = d + 1 := ⟨k - i - 1, by omega⟩
      rw [hd, List.getElem?_cons_succ, List.getElem?_drop, a.getElem?_entries,
        show i + d = k - 1 by omega]
      by_cases h3 : k < a.sa_size + 1
      · rw [if_pos h3, harr k (by omega), if_neg h1, if_neg h2, if_pos (by omega)]
      · rw [if_neg h3, if_neg (by omega)]

/-- **Insertion.**  Past its assertions, `insert_sorted_array` puts `el` directly before the first
    entry that is not less than it, and changes nothing else. -/
theorem insert_sorted_array_entries {s : σ} {a b : SortedArray σ α} {el : α}
    {cmp : σ → α → α → Int} (hcmp : a.sa_cmp = some cmp)
    (h : insert_sorted_array s a el = .ok b) :
    a.sa_size < a.sa_maxsize ∧ b.sa_maxsize = a.sa_maxsize ∧ b.sa_cmp = a.sa_cmp
      ∧ b.entries = a.entries.orderedInsert (fun x y => ¬ cmp s y x < 0) el := by
  simp only [insert_sorted_array, hcmp, bind_ok_iff, KASSERT_eq_ok, decide_eq_true_eq] at h
  obtain ⟨-, hroom, h⟩ := h
  obtain ⟨-, hle, hlt, hge⟩ := insert_find_spec (fun x => decide (cmp s x el < 0)) a.sa_array a.sa_size
    a.sa_size 0 (by omega) (by omega)
  set i := insert_find (fun x => decide (cmp s x el < 0)) a.sa_array a.sa_size a.sa_size 0
  -- the list insertion cuts the entries at the slot the search returned
  have hcut : a.entries.orderedInsert (fun x y => ¬ cmp s y x < 0) el
      = a.entries.take i ++ el :: a.entries.drop i := by
    obtain ⟨h1, h2⟩ := cut_at_first (fun x => decide (cmp s x el < 0)) a.entries i
      (by rw [a.length_entries]; exact hle)
      (fun k hk hki => by rw [a.getElem_entries]; exact hlt k (by omega) hki)
      (fun hi => by rw [a.getElem_entries]; exact hge (by rwa [a.length_entries] at hi))
    rw [List.orderedInsert_eq_take_drop]
    simp only [not_not]
    rw [h1, h2]
  rw [hcut]
  by_cases hend : i = a.sa_size
  · rw [if_pos hend] at h
    injection h with h
    subst h
    refine ⟨hroom, rfl, hcmp.symm, entries_insert_at a _ el i hle rfl fun k hk => ?_⟩
    by_cases hk2 : k = i
    · subst hk2; rw [if_neg (by omega), if_pos rfl, hend]; exact set_slot_same _ _ _
    · rw [if_pos (by omega)]; exact set_slot_ne _ _ (by omega)
  · rw [if_neg hend] at h
    injection h with h
    subst h
    refine ⟨hroom, rfl, hcmp.symm, entries_insert_at a _ el i hle rfl fun k hk => ?_⟩
    show insert_shift _ _ _ _ _ k = _
    rw [insert_shift_apply _ _ _ _ _ _ (by omega)]
    by_cases hk1 : k < i
    · rw [if_pos (by omega), if_pos hk1, set_slot_ne _ _ (by omega)]
    · rw [if_neg hk1]
      by_cases hk2 : k = i
      · subst hk2; rw [if_pos (Nat.le_refl _), if_pos rfl, set_slot_same]
      · rw [if_neg (by omega), if_pos hk, if_neg hk2]
        by_cases hk3 : k = i + 1
        · subst hk3; rw [if_pos rfl, Nat.add_sub_cancel]
        · rw [if_neg hk3, set_slot_ne _ _ (by omega)]

/-- **Removal.**  Past its assertion, `remove_sorted_array` erases position `i`. -/
theorem remove_sorted_array_entries {a b : SortedArray σ α} {i : Nat}
    (h : remove_sorted_array a i = .ok b) :
    i < a.sa_size ∧ b.sa_maxsize = a.sa_maxsize ∧ b.sa_cmp = a.sa_cmp
      ∧ b.entries = a.entries.eraseIdx i := by
  simp only [remove_sorted_array, bind_ok_iff, KASSERT_eq_ok, decide_eq_true_eq] at h
  obtain ⟨-, hi, h⟩ := h
  injection h with h
  subst h
  refine ⟨hi, rfl, rfl, List.ext_getElem? fun k => ?_⟩
  rw [SortedArray.getElem?_entries, List.getElem?_eraseIdx, a.getElem?_entries, a.getElem?_entries]
  show (if k < a.sa_size - 1 then some (remove_shift _ _ _ _ k) else none) = _
  rw [remove_shift_apply _ _ _ _ _ (by omega)]
  by_cases h1 : k < i
  · rw [if_pos (show k < a.sa_size - 1 by omega), if_neg (by omega), if_pos h1, if_pos (by omega)]
  · rw [if_neg h1]
    by_cases h2 : k + 1 < a.sa_size
    · rw [if_pos (show k < a.sa_size - 1 by omega), if_pos (by omega), if_pos h2]
    · rw [if_neg (show ¬ k < a.sa_size - 1 by omega), if_neg h2]

/-- Every list is the contents of an array. -/
theorem SortedArray.exists_entries (cmp : Option (σ → α → α → Int)) (null : α) (l : List α) :
    ∃ a : SortedArray σ α, a.entries = l ∧ a.sa_cmp = cmp := by
  refine ⟨⟨fun i => l.getD i null, l.length, l.length, cmp⟩, ?_, rfl⟩
  refine List.ext_getElem? fun k => ?_
  rw [SortedArray.getElem?_entries]
  by_cases hk : k < l.length
  · rw [if_pos hk, List.getElem?_eq_getElem hk]
    simp [List.getD, hk]
  · rw [if_neg hk, List.getElem?_eq_none (by omega)]

/-! ## §4. None of the operations runs out of fuel. -/

theorem insert_sorted_array_ne_fuel (s : σ) (a : SortedArray σ α) (el : α) :
    insert_sorted_array s a el ≠ .error .fuel := by
  unfold insert_sorted_array
  cases a.sa_cmp with
  | none => simp
  | some cmp =>
      refine bind_ne_fuel (KASSERT_ne_fuel _ _) fun _ _ => ?_
      dsimp only
      split <;> simp

theorem lookup_sorted_array_ne_fuel (a : SortedArray σ α) (i : Nat) :
    lookup_sorted_array a i ≠ .error .fuel :=
  bind_ne_fuel (KASSERT_ne_fuel _ _) fun _ _ => by simp

theorem remove_sorted_array_ne_fuel (a : SortedArray σ α) (i : Nat) :
    remove_sorted_array a i ≠ .error .fuel :=
  bind_ne_fuel (KASSERT_ne_fuel _ _) fun _ _ => by simp

/-! ## §5. When the operations return. -/

theorem lookup_sorted_array_returns {a : SortedArray σ α} {i : Nat} (hi : i < a.sa_size) :
    lookup_sorted_array a i = .ok (a.sa_array i) := by
  unfold lookup_sorted_array
  rw [decide_eq_true hi, KASSERT_true]
  rfl

theorem remove_sorted_array_returns {a : SortedArray σ α} {i : Nat} (hi : i < a.sa_size) :
    ∃ b, remove_sorted_array a i = .ok b ∧ b.sa_size = a.sa_size - 1 ∧ b.sa_maxsize = a.sa_maxsize := by
  unfold remove_sorted_array
  rw [decide_eq_true hi, KASSERT_true]
  exact ⟨_, rfl, rfl, rfl⟩

theorem insert_sorted_array_returns (s : σ) {a : SortedArray σ α} (el : α) {cmp : σ → α → α → Int}
    (hcmp : a.sa_cmp = some cmp) (hroom : a.sa_size < a.sa_maxsize) :
    ∃ b, insert_sorted_array s a el = .ok b ∧ b.sa_size = a.sa_size + 1 ∧ b.sa_maxsize = a.sa_maxsize := by
  unfold insert_sorted_array
  rw [hcmp]
  dsimp only
  rw [decide_eq_true hroom, KASSERT_true]
  rw [ok_bind]
  split
  · exact ⟨_, rfl, rfl, rfl⟩
  · exact ⟨_, rfl, rfl, rfl⟩

end JamesM
