/-
  JamesM.Comparators — the two comparison functions of the repository.

  `default_cmp_func` returns the difference of two pointers and
  `vm_heap_header_cmp` that of two unsigned sizes, each as a signed `int`.  The sign
  is that of the comparison as long as the keys are less than half the range apart,
  and the wrong one beyond.

  Main results:
    * `toInt32_sub32_agrees` — the pairs for which the sign is right;
    * `comparators_order` — the sequences of insertions that leave an ordered array.
-/
import JamesM.Heap.Def
import JamesM.SortedRuns

namespace JamesM

open JamesM.Word32 JamesM.ByteMem JamesM.Lib

/-! ## §1. One comparison. -/

/-- `default_cmp_func(a, b)`: a pointer difference returned as an `int`. -/
def default_cmp_func (a b : Nat) : Int := toInt32 (sub32 a b)

/-- The contract of a `cmp_func_t`: "an integer greater than, equal to, or less than 0, according as
    the first argument is greater than, equal to, or less than the second argument". -/
def SignAgrees (c : Int) (a b : Nat) : Prop := (0 < c ↔ b < a) ∧ (c = 0 ↔ a = b) ∧ (c < 0 ↔ a < b)

/-- The difference fits an `int`: `a` is less than `2^31` above `b`, or at most `2^31` below it. -/
def Near (a b : Nat) : Prop := a < b + 2147483648 ∧ b ≤ a + 2147483648

/-- When the difference is negative. -/
theorem toInt32_sub32_neg {a b : Nat} (ha : a < 4294967296) (hb : b < 4294967296) :
    toInt32 (sub32 a b) < 0 ↔ (a < b ∧ b ≤ a + 2147483648) ∨ b + 2147483648 ≤ a := by
  unfold toInt32 sub32
  split <;> omega

/-- **One pair**: the sign is right exactly if the difference fits. -/
theorem toInt32_sub32_agrees {a b : Nat} (ha : a < 4294967296) (hb : b < 4294967296) :
    SignAgrees (toInt32 (sub32 a b)) a b ↔ Near a b := by
  unfold SignAgrees Near toInt32 sub32
  split <;> omega

/-! ## §2. One insertion. -/

section
variable {σ α : Type} (key : σ → α → Nat)

/-- The comparison of two keys by their difference. -/
def key_cmp (s : σ) (a b : α) : Int := toInt32 (sub32 (key s a) (key s b))

/-- The contents are in non-decreasing order of their keys. -/
def KeysAscend (x : SortedState σ α) : Prop :=
  x.arr.entries.Pairwise fun a b => key x.env a ≤ key x.env b

/-- A key `k` can be placed among the keys of `l`: none of those below it is more than `2^31` below,
    and if there are any from it on, the nearest is less than `2^31` above. -/
def Placeable (s : σ) (l : List α) (k : Nat) : Prop :=
  (∀ y ∈ l, key s y < k → k ≤ key s y + 2147483648)
    ∧ ((∃ y ∈ l, k ≤ key s y) → ∃ y ∈ l, k ≤ key s y ∧ key s y < k + 2147483648)

variable {key}

/-- **Into an ordered list** the insertion is right exactly if the key can be placed. -/
theorem list_insert_ascend {s : σ} (el : α) (hkey : ∀ s a, key s a < 4294967296) :
    ∀ {l : List α}, l.Pairwise (fun a b => key s a ≤ key s b) →
      ((list_insert (key_cmp key) s el l).Pairwise (fun a b => key s a ≤ key s b)
        ↔ Placeable key s l (key s el))
  | [], _ => by simp [list_insert, Placeable]
  | x :: l, hl => by
      obtain ⟨hx, htail⟩ := List.pairwise_cons.mp hl
      have hneg := toInt32_sub32_neg (hkey s x) (hkey s el)
      unfold list_insert
      rw [List.orderedInsert]
      by_cases hlt : key_cmp key s x el < 0
      · rw [if_neg (not_not.mpr hlt)]
        have hmem : ∀ z, z ∈ list_insert (key_cmp key) s el l ↔ z = el ∨ z ∈ l := fun z =>
          List.mem_orderedInsert _
        have ih := list_insert_ascend el hkey htail
        rw [List.pairwise_cons]
        rcases hneg.mp hlt with ⟨hbelow, hnear⟩ | hfar
        · -- `x` is below and stays before the new element
          have hfirst : ∀ z ∈ list_insert (key_cmp key) s el l, key s x ≤ key s z := by
            intro z hz
            rcases (hmem z).mp hz with rfl | hz
            · exact Nat.le_of_lt hbelow
            · exact hx z hz
          refine (and_iff_right hfirst).trans (ih.trans ?_)
          have hnot : ¬ key s el ≤ key s x := by omega
          simp only [Placeable, List.forall_mem_cons, List.exists_mem_cons_iff, hnot, false_and,
            false_or]
          exact and_congr_left fun _ => (and_iff_right fun _ => hnear).symm
        · -- `x` is far above and the new element is passed behind it
          refine iff_of_false (fun h => ?_) fun h => ?_
          · have hle := h.1 el ((hmem el).mpr (.inl rfl))
            omega
          · obtain ⟨y, hy, hle, hclose⟩ := h.2 ⟨x, List.mem_cons_self, by omega⟩
            rcases List.mem_cons.mp hy with rfl | hy
            · omega
            · have hxy := hx y hy
              omega
      · rw [if_pos hlt, List.pairwise_cons]
        have hge := mt hneg.mpr hlt
        rw [and_iff_left hl]
        by_cases hle : key s el ≤ key s x
        · refine iff_of_true (fun z hz => ?_) ⟨fun y hy hbelow => ?_, fun _ =>
            ⟨x, List.mem_cons_self, hle, by omega⟩⟩
          · rcases List.mem_cons.mp hz with rfl | hz
            · exact hle
            · exact hle.trans (hx z hz)
          · rcases List.mem_cons.mp hy with rfl | hy
            · omega
            · have hxy := hx y hy
              omega
        · -- `x` is far below and the new element stops before it
          refine iff_of_false (fun h => hle (h x List.mem_cons_self)) fun h => ?_
          have hnear := h.1 x List.mem_cons_self (by omega)
          omega

/-! ## §3. Sequences of insertions. -/

/-- An insertion, or a change that leaves the keys of what is stored. -/
def InsertStep (key : σ → α → Nat) (x : SortedState σ α) : SortedOp σ α → SortedState σ α → Prop
  | .insert el, y => insert_sorted_array x.env x.arr el = .ok y.arr ∧ y.env = x.env
  | .rekey s, y => (∀ e ∈ x.arr.entries, key s e = key x.env e) ∧ y = ⟨s, x.arr⟩
  | _, _ => False

/-- The keys that are inserted can be placed. -/
def InsertsPlaceable (key : σ → α → Nat) (x : SortedState σ α) (op : SortedOp σ α) : Prop :=
  ∀ el, op = .insert el → Placeable key x.env x.arr.entries (key x.env el)

/-- What a step does to the contents and to their keys. -/
theorem InsertStep.entries {x y : SortedState σ α} {op : SortedOp σ α}
    (hcmp : x.arr.sa_cmp = some (key_cmp key)) (h : InsertStep key x op y) :
    y.arr.sa_cmp = some (key_cmp key) ∧ x.arr.entries.Sublist y.arr.entries
      ∧ (∀ e ∈ x.arr.entries, key y.env e = key x.env e)
      ∧ ((∃ el, op = .insert el ∧ y.env = x.env
            ∧ y.arr.entries = list_insert (key_cmp key) x.env el x.arr.entries)
          ∨ (∃ s, op = .rekey s) ∧ y.arr.entries = x.arr.entries) := by
  cases op with
  | insert el =>
      obtain ⟨hins, henv⟩ := h
      obtain ⟨-, -, hcmp', hentries⟩ := insert_sorted_array_entries hcmp hins
      refine ⟨hcmp'.trans hcmp, ?_, fun e _ => by rw [henv], .inl ⟨el, rfl, henv, hentries⟩⟩
      rw [hentries]
      exact List.sublist_orderedInsert _ _
  | remove i => exact h.elim
  | lookup i => exact h.elim
  | rekey s =>
      obtain ⟨hkeys, rfl⟩ := h
      exact ⟨hcmp, List.Sublist.refl _, hkeys, .inr ⟨⟨s, rfl⟩, rfl⟩⟩

/-- Keys that stay give the same order. -/
theorem ascend_congr {s s' : σ} {l : List α} (h : ∀ e ∈ l, key s' e = key s e) :
    l.Pairwise (fun a b => key s' a ≤ key s' b) ↔ l.Pairwise (fun a b => key s a ≤ key s b) :=
  List.Pairwise.iff_of_mem fun ha hb => by rw [h _ ha, h _ hb]

/-- No step puts an array in order that was not. -/
theorem InsertStep.not_ascend {x y : SortedState σ α} {op : SortedOp σ α}
    (hcmp : x.arr.sa_cmp = some (key_cmp key)) (h : InsertStep key x op y) (hx : ¬ KeysAscend key x) :
    ¬ KeysAscend key y := by
  obtain ⟨-, hsub, hkeys, -⟩ := h.entries hcmp
  exact fun hy => hx ((ascend_congr hkeys).mp (hy.sublist hsub))

/-- A step keeps an ordered array in order exactly if the key it inserts can be placed. -/
theorem InsertStep.ascend_iff (hkey : ∀ s a, key s a < 4294967296) {x y : SortedState σ α}
    {op : SortedOp σ α} (hcmp : x.arr.sa_cmp = some (key_cmp key)) (h : InsertStep key x op y)
    (hx : KeysAscend key x) : KeysAscend key y ↔ InsertsPlaceable key x op := by
  obtain ⟨-, -, hkeys, ⟨el, rfl, henv, hentries⟩ | ⟨⟨s, rfl⟩, hentries⟩⟩ := h.entries hcmp
  · unfold KeysAscend
    rw [henv, hentries, list_insert_ascend _ hkey hx]
    exact ⟨fun h e he => by injection he with he; rwa [← he], fun h => h el rfl⟩
  · refine iff_of_true ?_ fun el he => by injection he
    unfold KeysAscend
    rw [hentries]
    exact (ascend_congr hkeys).mpr hx

/-- **A sequence of insertions**: the array ends in order exactly if every key could be placed. -/
theorem insertions_ascend (key : σ → α → Nat) {null : α} {maxsize : Nat} {s : σ}
    (hkey : ∀ s a, key s a < 4294967296)
    {tr : List (SortedOp σ α × SortedState σ α)}
    (run : Trace (InsertStep key) (SortedState.init s null maxsize (key_cmp key)) tr) :
    KeysAscend key (final (SortedState.init s null maxsize (key_cmp key)) tr)
      ↔ Along (InsertsPlaceable key) (SortedState.init s null maxsize (key_cmp key)) tr :=
  Trace.final_iff (I := fun x => x.arr.sa_cmp = some (key_cmp key))
    (fun _ _ _ hcmp h => ⟨(h.entries hcmp).1, h.not_ascend hcmp⟩)
    (fun _ _ _ hcmp h => h.ascend_iff hkey hcmp) rfl List.Pairwise.nil run

/-- Two insertions into an empty array. -/
theorem two_insertions (key : σ → α → Nat) (s : σ) (null x y : α) :
    ∃ tr, Trace (InsertStep key) (SortedState.init s null 2 (key_cmp key)) tr
      ∧ (Along (InsertsPlaceable key) (SortedState.init s null 2 (key_cmp key)) tr
          ↔ Placeable key s [x] (key s y)) := by
  obtain ⟨a, ha, hasize, hamax⟩ := insert_sorted_array_returns s
    (a := place_sorted_array null 2 (some (key_cmp key))) x rfl Nat.two_pos
  obtain ⟨-, -, hacmp, haentries⟩ := insert_sorted_array_entries rfl ha
  have hsize : a.sa_size = 1 := hasize
  have hmax : a.sa_maxsize = 2 := hamax
  have hentries : a.entries = [x] := haentries
  obtain ⟨b, hb, -⟩ := insert_sorted_array_returns s (a := a) y hacmp (by omega)
  refine ⟨[(.insert x, ⟨s, a⟩), (.insert y, ⟨s, b⟩)], ⟨⟨ha, rfl⟩, ⟨hb, rfl⟩, trivial⟩, ?_⟩
  have hfirst : Placeable key s ([] : List α) (key s x) := by simp [Placeable]
  constructor
  · intro h
    rw [← hentries]
    exact h.2.1 y rfl
  · intro h
    refine ⟨fun el he => ?_, fun el he => ?_, trivial⟩
    · injection he with he
      rw [← he]
      exact hfirst
    · injection he with he
      show Placeable key s a.entries (key s el)
      rw [hentries, ← he]
      exact h

end

/-! ## §4. The two functions. -/

/-- A 32-bit pointer. -/
abbrev Pointer := { a : Nat // a < 4294967296 }

/-- `default_cmp_func` as the comparison of an array of pointers. -/
def pointer_cmp (_ : Unit) (a b : Pointer) : Int := default_cmp_func a.1 b.1

/-- The key of a pointer is its address. -/
def address (_ : Unit) (a : Pointer) : Nat := a.1

theorem hh_size_lt (mem : Mem) (h : Nat) : hh_size mem h < 4294967296 := read32_lt _ _

/-- **The comparators.**  On one pair, each has the right sign exactly if the difference fits an
    `int`; and a sequence of insertions, of pointers or of headers, leaves an array in non-decreasing
    order exactly if each inserted key could be placed. -/
theorem comparators_order (maxsize : Nat) :
    (∀ a b : Pointer, SignAgrees (default_cmp_func a.1 b.1) a.1 b.1 ↔ Near a.1 b.1)
      ∧ (∀ (mem : Mem) (a b : Nat), SignAgrees (vm_heap_header_cmp mem a b) (hh_size mem a) (hh_size mem b)
          ↔ Near (hh_size mem a) (hh_size mem b))
      ∧ (∀ (null : Pointer) (tr : List (SortedOp Unit Pointer × SortedState Unit Pointer)),
          Trace (InsertStep address) (SortedState.init () null maxsize pointer_cmp) tr →
            (KeysAscend address (final (SortedState.init () null maxsize pointer_cmp) tr)
              ↔ Along (InsertsPlaceable address) (SortedState.init () null maxsize pointer_cmp) tr))
      ∧ (∀ (mem : Mem) (tr : List (SortedOp Mem Nat × SortedState Mem Nat)),
          Trace (InsertStep hh_size) (SortedState.init mem 0 maxsize vm_heap_header_cmp) tr →
            (KeysAscend hh_size (final (SortedState.init mem 0 maxsize vm_heap_header_cmp) tr)
              ↔ Along (InsertsPlaceable hh_size) (SortedState.init mem 0 maxsize vm_heap_header_cmp) tr)) :=
  ⟨fun a b => toInt32_sub32_agrees a.2 b.2,
   fun mem a b => toInt32_sub32_agrees (hh_size_lt mem a) (hh_size_lt mem b),
   fun _ _ run => insertions_ascend address (fun _ a => a.2) run,
   fun _ _ run => insertions_ascend hh_size hh_size_lt run⟩

/-- A memory with two headers: of size 1 at `0x1000` and of size `size` at `0x2000`. -/
def twoHeaders (size : Nat) : Mem := write32 (write32 (fun _ => 0) 0x1008 1) 0x2008 size

theorem twoHeaders_sizes (size : Nat) (hsize : size < 4294967296) :
    hh_size (twoHeaders size) 0x1000 = 1 ∧ hh_size (twoHeaders size) 0x2000 = size := by
  unfold hh_size twoHeaders
  constructor
  · rw [read32_write32_ne _ _ (by omega), read32_write32 _ _ (by omega)]
  · rw [read32_write32 _ _ hsize]

/-- Two pointers and two headers in order. -/
theorem comparators_order_small :
    SignAgrees (default_cmp_func 5 9) 5 9
      ∧ (∃ tr, Trace (InsertStep address) (SortedState.init () ⟨0, by decide⟩ 2 pointer_cmp) tr
          ∧ KeysAscend address (final (SortedState.init () ⟨0, by decide⟩ 2 pointer_cmp) tr))
      ∧ ∃ tr, Trace (InsertStep hh_size) (SortedState.init (twoHeaders 64) 0 2 vm_heap_header_cmp) tr
          ∧ KeysAscend hh_size (final (SortedState.init (twoHeaders 64) 0 2 vm_heap_header_cmp) tr) := by
  obtain ⟨hpair, -, hpointers, hheaders⟩ := comparators_order 2
  obtain ⟨hsize, hsize'⟩ := twoHeaders_sizes 64 (by decide)
  obtain ⟨tr, run, hplace⟩ := two_insertions address () ⟨0, by decide⟩ ⟨9, by decide⟩ ⟨5, by decide⟩
  obtain ⟨tr', run', hplace'⟩ := two_insertions hh_size (twoHeaders 64) 0 0x2000 0x1000
  refine ⟨(hpair ⟨5, by decide⟩ ⟨9, by decide⟩).mpr (by simp [Near]), ⟨tr, run, ?_⟩, tr', run', ?_⟩
  · refine (hpointers _ _ run).mpr (hplace.mpr ?_)
    simp [Placeable, address]
  · refine (hheaders _ _ run').mpr (hplace'.mpr ?_)
    simp [Placeable, hsize, hsize']

/-- **More than half the range apart**: 0 is inserted behind `0x80000001`, and a header of size 1
    behind one of size `0x80000002`. -/
theorem comparators_disorder :
    ¬ SignAgrees (default_cmp_func 0 0x80000001) 0 0x80000001
      ∧ (∃ tr, Trace (InsertStep address) (SortedState.init () ⟨0, by decide⟩ 2 pointer_cmp) tr
          ∧ ¬ KeysAscend address (final (SortedState.init () ⟨0, by decide⟩ 2 pointer_cmp) tr))
      ∧ ∃ tr, Trace (InsertStep hh_size)
            (SortedState.init (twoHeaders 0x80000002) 0 2 vm_heap_header_cmp) tr
          ∧ ¬ KeysAscend hh_size
              (final (SortedState.init (twoHeaders 0x80000002) 0 2 vm_heap_header_cmp) tr) := by
  obtain ⟨hsize, hsize'⟩ := twoHeaders_sizes 0x80000002 (by decide)
  obtain ⟨tr, run, hplace⟩ := two_insertions address () ⟨0, by decide⟩ ⟨0x80000001, by decide⟩
    ⟨0, by decide⟩
  obtain ⟨tr', run', hplace'⟩ := two_insertions hh_size (twoHeaders 0x80000002) 0 0x2000 0x1000
  refine ⟨fun h => ?_, ⟨tr, run, fun h => ?_⟩, tr', run', fun h => ?_⟩
  · have hnear := (toInt32_sub32_agrees (by decide) (by decide)).mp h
    simp [Near] at hnear
  · have h := hplace.mp ((insertions_ascend address (fun _ a => a.2) run).mp h)
    simp [Placeable, address] at h
  · have h := hplace'.mp ((insertions_ascend hh_size hh_size_lt run').mp h)
    simp [Placeable, hsize, hsize'] at h

end JamesM
