/-
  JamesM.SortedStorage — which slots the sorted array touches.

  The operations of `sorted_array.c` once more, with a log of every index of
  `sa_array` they read or write.  The `_val` theorems say that nothing else
  changed.

  An insertion touches the slots of its contents and the one behind them, which its
  assertion keeps inside.  A removal touches the slot behind its contents too, and
  asserts nothing about it: on a full array it reads one past the storage.

  Main result: `sorted_array_stays_inside`.
-/
import JamesM.SortedRuns
import JamesM.Lib.Logged

namespace JamesM

open JamesM.Lib

variable {σ α : Type}

/-! ## §1. The operations, with a log. -/

/-- A routine that logs the slots it touches. -/
abbrev Slots := Logged Nat Halt

/-- Read `sa_array[k]`. -/
def read_slot (arr : Nat → α) (k : Nat) : Slots α := do
  Logged.touch k
  pure (arr k)

/-- Write `sa_array[k]`. -/
def write_slot (arr : Nat → α) (k : Nat) (v : α) : Slots (Nat → α) := do
  Logged.touch k
  pure (set_slot arr k v)

/-- `insert_find`. -/
def insert_find_logged (lt : α → Bool) (arr : Nat → α) (size : Nat) : Nat → Nat → Slots Nat
  | 0, iterator => pure iterator
  | n + 1, iterator =>
      if iterator < size then do
        let x ← read_slot arr iterator
        if lt x = true then insert_find_logged lt arr size n (iterator + 1) else pure iterator
      else pure iterator

/-- `insert_shift`. -/
def insert_shift_logged (size : Nat) : Nat → (Nat → α) → Nat → α → Slots (Nat → α)
  | 0, arr, _, _ => pure arr
  | n + 1, arr, iterator, tmp =>
      if iterator < size then do
        let tmp2 ← read_slot arr (iterator + 1)
        let arr' ← write_slot arr (iterator + 1) tmp
        insert_shift_logged size n arr' (iterator + 1) tmp2
      else pure arr

/-- `insert_sorted_array`. -/
def insert_sorted_array_logged (s : σ) (a : SortedArray σ α) (el : α) : Slots (SortedArray σ α) :=
  match a.sa_cmp with
  | none => Logged.lift (.error (.panic "has a cmp function"))
  | some cmp => do
      Logged.lift (KASSERT "has enough room" (decide (a.sa_size < a.sa_maxsize)))
      let iterator ← insert_find_logged (fun x => decide (cmp s x el < 0)) a.sa_array a.sa_size
        a.sa_size 0
      if iterator = a.sa_size then do
        let arr ← write_slot a.sa_array a.sa_size el
        pure { a with sa_array := arr, sa_size := a.sa_size + 1 }
      else do
        let tmp ← read_slot a.sa_array iterator
        let arr ← write_slot a.sa_array iterator el
        let arr ← insert_shift_logged a.sa_size a.sa_size arr iterator tmp
        pure { a with sa_array := arr, sa_size := a.sa_size + 1 }

/-- `lookup_sorted_array`. -/
def lookup_sorted_array_logged (a : SortedArray σ α) (i : Nat) : Slots α := do
  Logged.lift (KASSERT "index in range" (decide (i < a.sa_size)))
  read_slot a.sa_array i

/-- `remove_shift`. -/
def remove_shift_logged (size : Nat) : Nat → (Nat → α) → Nat → Slots (Nat → α)
  | 0, arr, _ => pure arr
  | n + 1, arr, i =>
      if i < size then do
        let v ← read_slot arr (i + 1)
        let arr' ← write_slot arr i v
        remove_shift_logged size n arr' (i + 1)
      else pure arr

/-- `remove_sorted_array`. -/
def remove_sorted_array_logged (a : SortedArray σ α) (i : Nat) : Slots (SortedArray σ α) := do
  Logged.lift (KASSERT "index in range" (decide (i < a.sa_size)))
  let arr ← remove_shift_logged a.sa_size a.sa_size a.sa_array i
  pure { a with sa_array := arr, sa_size := a.sa_size - 1 }

/-! ## §2. The log changes nothing. -/

@[simp] theorem read_slot_val (arr : Nat → α) (k : Nat) : (read_slot arr k).val = .ok (arr k) := by
  simp [read_slot]

@[simp] theorem write_slot_val (arr : Nat → α) (k : Nat) (v : α) :
    (write_slot arr k v).val = .ok (set_slot arr k v) := by
  simp [write_slot]

theorem insert_find_logged_val (lt : α → Bool) (arr : Nat → α) (size n iterator : Nat) :
    (insert_find_logged lt arr size n iterator).val = .ok (insert_find lt arr size n iterator) := by
  induction n generalizing iterator with
  | zero => rfl
  | succ n ih =>
      by_cases hs : iterator < size
      · rw [insert_find_logged, if_pos hs, Logged.val_bind, read_slot_val, ok_bind, insert_find]
        by_cases hlt : lt (arr iterator) = true
        · rw [if_pos hlt, if_pos ⟨hs, hlt⟩, ih]
        · rw [if_neg hlt, if_neg (fun h => hlt h.2), Logged.val_pure]
      · rw [insert_find_logged, if_neg hs, insert_find, if_neg (fun h => hs h.1), Logged.val_pure]

theorem insert_shift_logged_val (size n : Nat) (arr : Nat → α) (iterator : Nat) (tmp : α) :
    (insert_shift_logged size n arr iterator tmp).val = .ok (insert_shift size n arr iterator tmp) := by
  induction n generalizing arr iterator tmp with
  | zero => rfl
  | succ n ih =>
      by_cases hs : iterator < size
      · rw [insert_shift_logged, if_pos hs, Logged.val_bind, read_slot_val, ok_bind, Logged.val_bind,
          write_slot_val, ok_bind, insert_shift, if_pos hs, ih]
      · rw [insert_shift_logged, if_neg hs, insert_shift, if_neg hs, Logged.val_pure]

theorem remove_shift_logged_val (size n : Nat) (arr : Nat → α) (i : Nat) :
    (remove_shift_logged size n arr i).val = .ok (remove_shift size n arr i) := by
  induction n generalizing arr i with
  | zero => rfl
  | succ n ih =>
      by_cases hs : i < size
      · rw [remove_shift_logged, if_pos hs, Logged.val_bind, read_slot_val, ok_bind, Logged.val_bind,
          write_slot_val, ok_bind, remove_shift, if_pos hs, ih]
      · rw [remove_shift_logged, if_neg hs, remove_shift, if_neg hs, Logged.val_pure]

/-- **Erasing the log** of an insertion. -/
theorem insert_sorted_array_logged_val (s : σ) (a : SortedArray σ α) (el : α) :
    (insert_sorted_array_logged s a el).val = insert_sorted_array s a el := by
  unfold insert_sorted_array_logged insert_sorted_array
  cases a.sa_cmp with
  | none => rfl
  | some cmp =>
      simp only [Logged.val_bind, Logged.val_lift, insert_find_logged_val, ok_bind]
      congr 1
      funext u
      split
      · simp only [Logged.val_bind, write_slot_val, ok_bind, Logged.val_pure]
      · simp only [Logged.val_bind, read_slot_val, write_slot_val, insert_shift_logged_val, ok_bind,
          Logged.val_pure]

/-- **Erasing the log** of a lookup. -/
theorem lookup_sorted_array_logged_val (a : SortedArray σ α) (i : Nat) :
    (lookup_sorted_array_logged a i).val = lookup_sorted_array a i := by
  unfold lookup_sorted_array_logged lookup_sorted_array
  simp only [Logged.val_bind, Logged.val_lift, read_slot_val]

/-- **Erasing the log** of a removal. -/
theorem remove_sorted_array_logged_val (a : SortedArray σ α) (i : Nat) :
    (remove_sorted_array_logged a i).val = remove_sorted_array a i := by
  unfold remove_sorted_array_logged remove_sorted_array
  simp only [Logged.val_bind, Logged.val_lift, remove_shift_logged_val, ok_bind, Logged.val_pure]

/-! ## §3. What the operations touch. -/

variable {P : Nat → Prop}

theorem all_read_slot {arr : Nat → α} {k : Nat} : (read_slot arr k).All P ↔ P k := by
  unfold read_slot
  rw [Logged.all_touch_bind]
  exact and_iff_left (Logged.all_pure _)

theorem all_write_slot {arr : Nat → α} {k : Nat} {v : α} : (write_slot arr k v).All P ↔ P k := by
  unfold write_slot
  rw [Logged.all_touch_bind]
  exact and_iff_left (Logged.all_pure _)

/-- A loop round that reads one slot and writes one. -/
theorem all_read_write {β : Type} {arr : Nat → α} {j k : Nat} {v : α → α}
    {f : α → (Nat → α) → Slots β} :
    (read_slot arr j >>= fun x => write_slot arr k (v x) >>= f x).All P
      ↔ P j ∧ P k ∧ (f (arr j) (set_slot arr k (v (arr j)))).All P := by
  rw [Logged.all_bind, all_read_slot, read_slot_val]
  refine and_congr_right fun _ => ⟨fun h => ?_, fun h x hx => ?_⟩
  · have h := h _ rfl
    rw [Logged.all_bind, all_write_slot, write_slot_val] at h
    exact ⟨h.1, h.2 _ rfl⟩
  · obtain rfl := Except.ok.inj hx
    rw [Logged.all_bind, all_write_slot, write_slot_val]
    exact ⟨h.1, fun y hy => by obtain rfl := Except.ok.inj hy; exact h.2⟩

/-- The search reads the contents. -/
theorem all_insert_find_logged {lt : α → Bool} {arr : Nat → α} {size : Nat} (hP : ∀ k, k < size → P k)
    (n iterator : Nat) : (insert_find_logged lt arr size n iterator).All P := by
  induction n generalizing iterator with
  | zero => exact Logged.all_pure _
  | succ n ih =>
      rw [insert_find_logged]
      split
      · rename_i hs
        rw [Logged.all_bind, all_read_slot]
        refine ⟨hP _ hs, fun x _ => ?_⟩
        split
        · exact ih _
        · exact Logged.all_pure _
      · exact Logged.all_pure _

/-- The rotating swap touches the contents and the slot behind them. -/
theorem all_insert_shift_logged {size : Nat} (hP : ∀ k, k ≤ size → P k) (n : Nat) (arr : Nat → α)
    (iterator : Nat) (tmp : α) : (insert_shift_logged size n arr iterator tmp).All P := by
  induction n generalizing arr iterator tmp with
  | zero => exact Logged.all_pure _
  | succ n ih =>
      rw [insert_shift_logged]
      split
      · rename_i hs
        rw [all_read_write]
        exact ⟨hP _ hs, hP _ hs, ih _ _ _⟩
      · exact Logged.all_pure _

/-- The removal loop stays below `m` exactly if the slot behind the contents does. -/
theorem all_remove_shift_logged {size m : Nat} (n : Nat) (arr : Nat → α) {i : Nat} (hn : size ≤ i + n)
    (hi : i < size) : (remove_shift_logged size n arr i).All (· < m) ↔ size < m := by
  induction n generalizing arr i with
  | zero => omega
  | succ n ih =>
      rw [remove_shift_logged, if_pos hi, all_read_write]
      by_cases hlast : i + 1 < size
      · rw [ih _ (by omega) hlast]
        omega
      · -- the last round reads the slot behind the contents
        have hdone : (remove_shift_logged size n (set_slot arr i (arr (i + 1))) (i + 1)).All (· < m) := by
          cases n with
          | zero => exact Logged.all_pure _
          | succ n =>
              rw [remove_shift_logged, if_neg hlast]
              exact Logged.all_pure _
        constructor
        · rintro ⟨h, -⟩
          omega
        · intro h
          exact ⟨by omega, by omega, hdone⟩

/-- **An insertion** that passes its assertions stays inside. -/
theorem all_insert_sorted_array_logged (s : σ) (a : SortedArray σ α) (el : α) :
    (insert_sorted_array_logged s a el).All (· < a.sa_maxsize) := by
  unfold insert_sorted_array_logged
  cases a.sa_cmp with
  | none => exact Logged.all_lift _
  | some cmp =>
      dsimp only
      rw [Logged.all_bind]
      refine ⟨Logged.all_lift _, fun _ hroom => ?_⟩
      rw [Logged.val_lift, KASSERT_eq_ok, decide_eq_true_eq] at hroom
      have hsize : ∀ k, k ≤ a.sa_size → k < a.sa_maxsize := fun k hk => by omega
      rw [Logged.all_bind]
      refine ⟨all_insert_find_logged (fun k hk => hsize k (by omega)) _ _, fun iterator hit => ?_⟩
      rw [insert_find_logged_val] at hit
      obtain rfl := Except.ok.inj hit
      have hle := (insert_find_spec (fun x => decide (cmp s x el < 0)) a.sa_array a.sa_size
        a.sa_size 0 (by omega) (by omega)).2.1
      split
      · rw [Logged.all_bind, all_write_slot]
        exact ⟨hsize _ (Nat.le_refl _), fun _ _ => Logged.all_pure _⟩
      · rw [all_read_write]
        refine ⟨hsize _ hle, hsize _ hle, ?_⟩
        rw [Logged.all_bind]
        exact ⟨all_insert_shift_logged hsize _ _ _ _, fun _ _ => Logged.all_pure _⟩

/-- **A lookup** stays inside the contents. -/
theorem all_lookup_sorted_array_logged (a : SortedArray σ α) (i : Nat) :
    (lookup_sorted_array_logged a i).All (· < a.sa_size) := by
  unfold lookup_sorted_array_logged
  rw [Logged.all_bind]
  refine ⟨Logged.all_lift _, fun _ hi => ?_⟩
  rw [Logged.val_lift, KASSERT_eq_ok, decide_eq_true_eq] at hi
  exact all_read_slot.mpr hi

/-- **A removal** stays inside exactly if the array is not full. -/
theorem all_remove_sorted_array_logged {a : SortedArray σ α} {i : Nat} (hi : i < a.sa_size) :
    (remove_sorted_array_logged a i).All (· < a.sa_maxsize) ↔ a.sa_size < a.sa_maxsize := by
  unfold remove_sorted_array_logged
  rw [decide_eq_true hi, KASSERT_true, Logged.all_bind]
  constructor
  · rintro ⟨-, h⟩
    have h := h () rfl
    rw [Logged.all_bind] at h
    exact (all_remove_shift_logged _ _ (by omega) hi).mp h.1
  · intro h
    refine ⟨Logged.all_lift _, fun _ _ => ?_⟩
    rw [Logged.all_bind]
    exact ⟨(all_remove_shift_logged _ _ (by omega) hi).mpr h, fun _ _ => Logged.all_pure _⟩

/-! ## §4. Whole runs. -/

/-- The indices of `sa_array` that a call reads or writes. -/
def SortedState.touched (x : SortedState σ α) : SortedOp σ α → List Nat
  | .insert el => (insert_sorted_array_logged x.env x.arr el).log
  | .remove i => (remove_sorted_array_logged x.arr i).log
  | .lookup i => (lookup_sorted_array_logged x.arr i).log
  | .rekey _ => []

/-- One step, with no condition on the keys. -/
def StorageStep (x : SortedState σ α) : SortedOp σ α → SortedState σ α → Prop
  | .rekey s, y => y = ⟨s, x.arr⟩
  | op, y => SortedStep x op y

/-- The array has its capacity, and its contents fit. -/
def Fits (maxsize : Nat) (x : SortedState σ α) : Prop :=
  x.arr.sa_maxsize = maxsize ∧ x.arr.sa_size ≤ maxsize

theorem StorageStep.fits {maxsize : Nat} {x y : SortedState σ α} {op : SortedOp σ α}
    (hx : Fits maxsize x) (h : StorageStep x op y) : Fits maxsize y := by
  obtain ⟨hmax, hsize⟩ := hx
  cases op with
  | insert el =>
      have hstep : insert_sorted_array x.env x.arr el = .ok y.arr := h.1
      cases hcmp : x.arr.sa_cmp with
      | none => exact absurd hstep (by simp [insert_sorted_array, hcmp])
      | some cmp =>
          have hroom := (insert_sorted_array_entries hcmp hstep).1
          obtain ⟨b, hb, hbsize, hbmax⟩ := insert_sorted_array_returns x.env el hcmp hroom
          obtain rfl := Except.ok.inj (hstep.symm.trans hb)
          exact ⟨hbmax.trans hmax, by omega⟩
  | remove i =>
      have hstep : remove_sorted_array x.arr i = .ok y.arr := h.1
      obtain ⟨b, hb, hbsize, hbmax⟩ := remove_sorted_array_returns (remove_sorted_array_entries hstep).1
      obtain rfl := Except.ok.inj (hstep.symm.trans hb)
      exact ⟨hbmax.trans hmax, by omega⟩
  | lookup i =>
      obtain rfl : y = x := h.2
      exact ⟨hmax, hsize⟩
  | rekey s =>
      obtain rfl : y = ⟨s, x.arr⟩ := h
      exact ⟨hmax, hsize⟩

/-- **One call** leaves the storage exactly if it removes from a full array. -/
theorem StorageStep.touched_lt {maxsize : Nat} {x y : SortedState σ α} {op : SortedOp σ α}
    (hx : Fits maxsize x) (h : StorageStep x op y) :
    (∀ k ∈ x.touched op, k < maxsize) ↔ ¬ ((∃ i, op = .remove i) ∧ x.arr.sa_size = maxsize) := by
  obtain ⟨hmax, hsize⟩ := hx
  cases op with
  | insert el =>
      refine iff_of_true ?_ (by simp)
      rw [← hmax]
      exact all_insert_sorted_array_logged x.env x.arr el
  | remove i =>
      have hstep : remove_sorted_array x.arr i = .ok y.arr := h.1
      have hall := all_remove_sorted_array_logged (remove_sorted_array_entries hstep).1
      rw [hmax] at hall
      refine hall.trans ⟨fun hlt hfull => by omega, fun hfull => ?_⟩
      have hne : x.arr.sa_size ≠ maxsize := fun he => hfull ⟨⟨i, rfl⟩, he⟩
      omega
  | lookup i =>
      refine iff_of_true (fun k hk => ?_) (by simp)
      have hlt : k < x.arr.sa_size := all_lookup_sorted_array_logged x.arr i k hk
      omega
  | rekey s => exact iff_of_true (fun k hk => absurd hk List.not_mem_nil) (by simp)

/-- **Where the array stays inside its storage.**  The logged operations are the operations; and for every
    comparison, every capacity and every run of calls that pass their assertions, all indices touched are
    below the capacity if and only if no call removes from a full array. -/
theorem sorted_array_stays_inside (cmp : σ → α → α → Int) (s : σ) (null : α) (maxsize : Nat)
    {tr : List (SortedOp σ α × SortedState σ α)}
    (run : Trace StorageStep (SortedState.init s null maxsize cmp) tr) :
    (∀ (env : σ) (a : SortedArray σ α) (el : α) (i : Nat),
        (insert_sorted_array_logged env a el).val = insert_sorted_array env a el
          ∧ (remove_sorted_array_logged a i).val = remove_sorted_array a i
          ∧ (lookup_sorted_array_logged a i).val = lookup_sorted_array a i)
      ∧ (Along (fun x op => ∀ k ∈ x.touched op, k < maxsize) (SortedState.init s null maxsize cmp) tr
        ↔ Along (fun x op => ¬ ((∃ i, op = .remove i) ∧ x.arr.sa_size = maxsize))
          (SortedState.init s null maxsize cmp) tr) := by
  constructor
  · intro env a el i
    exact ⟨insert_sorted_array_logged_val env a el, remove_sorted_array_logged_val a i,
      lookup_sorted_array_logged_val a i⟩
  · exact Trace.along_iff (I := Fits maxsize) (fun _ _ _ hx h => h.fits hx)
      (fun _ _ _ hx h => h.touched_lt hx) ⟨rfl, Nat.zero_le _⟩ run

/-- An insertion and a removal, with room left. -/
theorem sorted_array_stays_inside_run :
    ∃ tr : List (SortedOp Unit Nat × SortedState Unit Nat),
      Trace StorageStep (SortedState.init () 0 2 byDifference) tr
        ∧ Along (fun x op => ∀ k ∈ x.touched op, k < 2) (SortedState.init () 0 2 byDifference) tr := by
  obtain ⟨a, ha, hasize, hamax⟩ := insert_sorted_array_returns ()
    (a := place_sorted_array 0 2 (some byDifference)) 7 rfl (by decide)
  have hsize : a.sa_size = 1 := hasize
  obtain ⟨b, hb, -⟩ := remove_sorted_array_returns (a := a) (i := 0) (by omega)
  have run : Trace StorageStep (SortedState.init () 0 2 byDifference)
      [(.insert 7, ⟨(), a⟩), (.remove 0, ⟨(), b⟩)] := ⟨⟨ha, rfl⟩, ⟨hb, rfl⟩, trivial⟩
  refine ⟨_, run, (sorted_array_stays_inside byDifference () 0 2 run).2.mpr ⟨by simp, ?_, trivial⟩⟩
  rintro ⟨-, hfull⟩
  have hfull : a.sa_size = 2 := hfull
  omega

/-- **An array of one slot**: the removal of its only element leaves the storage. -/
theorem full_removal_leaves_the_storage :
    ∃ tr : List (SortedOp Unit Nat × SortedState Unit Nat),
      Trace StorageStep (SortedState.init () 0 1 byDifference) tr
        ∧ ¬ Along (fun x op => ∀ k ∈ x.touched op, k < 1) (SortedState.init () 0 1 byDifference) tr := by
  obtain ⟨a, ha, hasize, hamax⟩ := insert_sorted_array_returns ()
    (a := place_sorted_array 0 1 (some byDifference)) 7 rfl (by decide)
  have hsize : a.sa_size = 1 := hasize
  have hmax : a.sa_maxsize = 1 := hamax
  obtain ⟨b, hb, -⟩ := remove_sorted_array_returns (a := a) (i := 0) (by omega)
  have run : Trace StorageStep (SortedState.init () 0 1 byDifference)
      [(.insert 7, ⟨(), a⟩), (.remove 0, ⟨(), b⟩)] := ⟨⟨ha, rfl⟩, ⟨hb, rfl⟩, trivial⟩
  refine ⟨_, run, fun h => ?_⟩
  have hall : (remove_sorted_array_logged a 0).All (· < a.sa_maxsize) := by
    rw [hmax]
    exact h.2.1
  have hlt := (all_remove_sorted_array_logged (by omega)).mp hall
  omega

end JamesM
