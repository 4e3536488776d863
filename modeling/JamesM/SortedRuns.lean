/-
  JamesM.SortedRuns — the sorted array over whole runs.

  A run is a sequence of calls that pass their assertions, with the keys of the
  elements allowed to change as long as the stored ones compare as before.  Beside
  it runs a list: an insertion puts the element directly before the first one that
  is not less, a removal erases a position.

  Main result: `sorted_array_refines_list`.
-/
import JamesM.SortedArray
import JamesM.Lib.Trace

namespace JamesM

open JamesM.Lib

variable {σ α : Type}

/-! ## §1. Runs. -/

/-- A call, or a change of what the comparison reads. -/
inductive SortedOp (σ α : Type) where
  | insert (el : α)
  | remove (i : Nat)
  | lookup (i : Nat)
  | rekey (s : σ)

/-- The array, and what its comparison reads. -/
structure SortedState (σ α : Type) where
  env : σ
  arr : SortedArray σ α

/-- What is stored compares as before. -/
def KeysKept (a : SortedArray σ α) (s s' : σ) : Prop :=
  ∀ cmp, a.sa_cmp = some cmp → ∀ x ∈ a.entries, ∀ y ∈ a.entries, (cmp s' x y < 0 ↔ cmp s x y < 0)

/-- One step.  A call returns, so its assertions hold. -/
def SortedStep (x : SortedState σ α) : SortedOp σ α → SortedState σ α → Prop
  | .insert el, y => insert_sorted_array x.env x.arr el = .ok y.arr ∧ y.env = x.env
  | .remove i, y => remove_sorted_array x.arr i = .ok y.arr ∧ y.env = x.env
  | .lookup i, y => (∃ v, lookup_sorted_array x.arr i = .ok v) ∧ y = x
  | .rekey s, y => KeysKept x.arr x.env s ∧ y = ⟨s, x.arr⟩

/-- An empty array of capacity `maxsize`. -/
def SortedState.init (s : σ) (null : α) (maxsize : Nat) (cmp : σ → α → α → Int) : SortedState σ α :=
  ⟨s, place_sorted_array null maxsize (some cmp)⟩

/-! ## §2. The list. -/

/-- Insert `el` directly before the first element that is not less than it. -/
def list_insert (cmp : σ → α → α → Int) (s : σ) (el : α) (l : List α) : List α :=
  l.orderedInsert (fun x y => ¬ cmp s y x < 0) el

/-- The list after the operations, from `l`. -/
def list_after (cmp : σ → α → α → Int) : σ → List α → List (SortedOp σ α) → List α
  | _, l, [] => l
  | s, l, .insert el :: ops => list_after cmp s (list_insert cmp s el l) ops
  | s, l, .remove i :: ops => list_after cmp s (l.eraseIdx i) ops
  | s, l, .lookup _ :: ops => list_after cmp s l ops
  | _, l, .rekey s :: ops => list_after cmp s l ops

/-- No element is less than one before it. -/
def InOrder (cmp : σ → α → α → Int) (s : σ) (l : List α) : Prop := l.Pairwise fun x y => ¬ cmp s y x < 0

/-- What a step does to the contents. -/
def EntryStep (x : SortedState σ α) : SortedOp σ α → SortedState σ α → Prop
  | .insert el, y => y.arr.entries.Perm (el :: x.arr.entries) ∧ x.arr.entries.Sublist y.arr.entries
  | .remove i, y => y.arr.entries.Sublist x.arr.entries
      ∧ ∃ v, x.arr.entries[i]? = some v ∧ x.arr.entries.Perm (v :: y.arr.entries)
  | .lookup i, y => (∃ v, lookup_sorted_array x.arr i = .ok v ∧ x.arr.entries[i]? = some v)
      ∧ y.arr.entries = x.arr.entries
  | .rekey _, y => y.arr.entries = x.arr.entries

/-! ## §3. One step. -/

theorem lookup_sorted_array_entries {a : SortedArray σ α} {i : Nat} {v : α}
    (h : lookup_sorted_array a i = .ok v) : a.entries[i]? = some v := by
  simp only [lookup_sorted_array, bind_ok_iff, KASSERT_eq_ok, decide_eq_true_eq] at h
  obtain ⟨-, hi, hv⟩ := h
  rw [a.getElem?_entries, if_pos hi]
  exact congrArg some (Except.ok.inj hv)

theorem SortedStep.cmp {x y : SortedState σ α} {op : SortedOp σ α} (h : SortedStep x op y) :
    y.arr.sa_cmp = x.arr.sa_cmp := by
  cases op with
  | insert el =>
      cases hcmp : x.arr.sa_cmp with
      | none => exact absurd h.1 (by simp [insert_sorted_array, hcmp])
      | some cmp => rw [(insert_sorted_array_entries hcmp h.1).2.2.1, hcmp]
  | remove i => exact (remove_sorted_array_entries h.1).2.2.1
  | lookup i => rw [h.2]
  | rekey s => rw [h.2]

/-- **One step** of the array is one step of the list, and moves no other element. -/
theorem SortedStep.entries {cmp : σ → α → α → Int} {x y : SortedState σ α} {op : SortedOp σ α}
    (hcmp : x.arr.sa_cmp = some cmp) (h : SortedStep x op y) :
    (∀ ops, list_after cmp x.env x.arr.entries (op :: ops) = list_after cmp y.env y.arr.entries ops)
      ∧ EntryStep x op y := by
  cases op with
  | insert el =>
      obtain ⟨-, -, -, hentries⟩ := insert_sorted_array_entries hcmp h.1
      refine ⟨fun ops => ?_, ?_, ?_⟩
      · rw [list_after, list_insert, ← hentries, h.2]
      · rw [hentries]
        exact List.perm_orderedInsert _ _ _
      · rw [hentries]
        exact List.sublist_orderedInsert _ _
  | remove i =>
      obtain ⟨hi, -, -, hentries⟩ := remove_sorted_array_entries h.1
      have hlen : i < x.arr.entries.length := by
        rw [x.arr.length_entries]
        exact hi
      refine ⟨fun ops => ?_, ?_, x.arr.entries[i], List.getElem?_eq_getElem hlen, ?_⟩
      · rw [list_after, ← hentries, h.2]
      · rw [hentries]
        exact List.eraseIdx_sublist _ _
      · rw [hentries]
        exact (List.getElem_cons_eraseIdx_perm hlen).symm
  | lookup i =>
      obtain ⟨⟨v, hv⟩, rfl⟩ := h
      exact ⟨fun ops => rfl, ⟨v, hv, lookup_sorted_array_entries hv⟩, rfl⟩
  | rekey s =>
      obtain ⟨-, rfl⟩ := h
      exact ⟨fun ops => rfl, rfl⟩

/-- With a strict weak order, the contents stay in order. -/
theorem SortedStep.ordered {cmp : σ → α → α → Int} {x y : SortedState σ α} {op : SortedOp σ α}
    (horder : ∀ s, IsStrictWeakOrder α fun a b => cmp s a b < 0) (hcmp : x.arr.sa_cmp = some cmp)
    (h : SortedStep x op y) (hx : InOrder cmp x.env x.arr.entries) : InOrder cmp y.env y.arr.entries := by
  cases op with
  | insert el =>
      obtain ⟨-, -, -, hentries⟩ := insert_sorted_array_entries hcmp h.1
      have hso := horder x.env
      -- "not greater" is a total preorder
      have : Std.Total fun a b => ¬ cmp x.env b a < 0 :=
        ⟨fun a b => by
          by_contra hc
          obtain ⟨h1, h2⟩ := not_or.mp hc
          exact hso.irrefl a (hso.trans _ _ _ (not_not.mp h2) (not_not.mp h1))⟩
      have : IsTrans α fun a b => ¬ cmp x.env b a < 0 :=
        ⟨fun a b c hab hbc hca => by
          by_cases h1 : cmp x.env a b < 0
          · exact hbc (hso.trans _ _ _ hca h1)
          · by_cases h2 : cmp x.env b c < 0
            · exact hab (hso.trans _ _ _ h2 hca)
            · exact (hso.incomp_trans a b c ⟨h1, hab⟩ ⟨h2, hbc⟩).2 hca⟩
      unfold InOrder at hx ⊢
      rw [hentries, h.2]
      exact List.Pairwise.orderedInsert _ _ hx
  | remove i =>
      obtain ⟨-, -, -, hentries⟩ := remove_sorted_array_entries h.1
      unfold InOrder at hx ⊢
      rw [hentries, h.2]
      exact hx.sublist (List.eraseIdx_sublist _ _)
  | lookup i =>
      rw [h.2]
      exact hx
  | rekey s =>
      obtain ⟨hkept, rfl⟩ := h
      exact hx.imp_of_mem fun ha hb hab => fun hlt => hab ((hkept cmp hcmp _ hb _ ha).mp hlt)

/-! ## §4. Whole runs. -/

theorem Trace.list_after {cmp : σ → α → α → Int} : ∀ {tr : List (SortedOp σ α × SortedState σ α)}
    {x : SortedState σ α}, x.arr.sa_cmp = some cmp → Trace SortedStep x tr →
      JamesM.list_after cmp x.env x.arr.entries (tr.map Prod.fst) = (final x tr).arr.entries
        ∧ Trace EntryStep x tr
  | [], x, _, _ => ⟨rfl, trivial⟩
  | (op, y) :: tr, x, hcmp, ⟨hstep, htr⟩ => by
      obtain ⟨hlist, hentry⟩ := hstep.entries hcmp
      obtain ⟨hfinal, hrest⟩ := Trace.list_after (hstep.cmp.trans hcmp) htr
      refine ⟨?_, hentry, hrest⟩
      rw [List.map_cons, hlist]
      exact hfinal

/-- **The array is the list.**  For every comparison whose sign is a strict weak order, every capacity
    and every run: the contents are the list; they are in order; no insertion or removal loses,
    duplicates or moves another element; and a lookup gives the element of the list. -/
theorem sorted_array_refines_list {cmp : σ → α → α → Int}
    (horder : ∀ s, IsStrictWeakOrder α fun a b => cmp s a b < 0) (s : σ) (null : α) (maxsize : Nat)
    {tr : List (SortedOp σ α × SortedState σ α)}
    (run : Trace SortedStep (SortedState.init s null maxsize cmp) tr) :
    (final (SortedState.init s null maxsize cmp) tr).arr.entries = list_after cmp s [] (tr.map Prod.fst)
      ∧ InOrder cmp (final (SortedState.init s null maxsize cmp) tr).env
          (final (SortedState.init s null maxsize cmp) tr).arr.entries
      ∧ (∀ i v, lookup_sorted_array (final (SortedState.init s null maxsize cmp) tr).arr i = .ok v
          ↔ (list_after cmp s [] (tr.map Prod.fst))[i]? = some v)
      ∧ Trace EntryStep (SortedState.init s null maxsize cmp) tr := by
  obtain ⟨hlist, hentry⟩ := Trace.list_after
    (show (SortedState.init s null maxsize cmp).arr.sa_cmp = some cmp from rfl) run
  have hempty : (SortedState.init s null maxsize cmp).arr.entries = [] := rfl
  rw [hempty] at hlist
  have hordered := Trace.reached (C := fun _ _ => True) (R := fun _ _ _ => True)
    (I := fun x : SortedState σ α => x.arr.sa_cmp = some cmp ∧ InOrder cmp x.env x.arr.entries)
    (fun x op y h _ hstep => ⟨⟨hstep.cmp.trans h.1, hstep.ordered horder h.1 h.2⟩, trivial⟩)
    ⟨rfl, by rw [hempty]; exact List.Pairwise.nil⟩ run (along_true _ _) (reached_final _ tr)
  refine ⟨hlist.symm, hordered.2, fun i v => ?_, hentry⟩
  have hs : list_after cmp s [] (tr.map Prod.fst)
      = (final (SortedState.init s null maxsize cmp) tr).arr.entries := hlist
  rw [hs]
  refine ⟨lookup_sorted_array_entries, fun h => ?_⟩
  rw [SortedArray.getElem?_entries] at h
  split at h
  · rename_i hi
    rw [lookup_sorted_array_returns hi, Option.some.inj h]
  · exact absurd h (by simp)

/-- Elements compared by their value, as a difference. -/
def byDifference (_ : Unit) (a b : Nat) : Int := (a : Int) - b

theorem byDifference_order (s : Unit) : IsStrictWeakOrder Nat fun a b => byDifference s a b < 0 := by
  have hlt : ∀ a b, byDifference s a b < 0 ↔ a < b := by
    intro a b
    unfold byDifference
    omega
  simp only [hlt]
  exact { irrefl := fun a => Nat.lt_irrefl a
          trans := fun _ _ _ => Nat.lt_trans
          incomp_trans := fun a b c h h' => by omega }

/-- Two insertions, a removal and a lookup. -/
theorem sorted_array_refines_list_run :
    ∃ tr : List (SortedOp Unit Nat × SortedState Unit Nat),
      Trace SortedStep (SortedState.init () 0 4 byDifference) tr
        ∧ (final (SortedState.init () 0 4 byDifference) tr).arr.entries = [2] := by
  obtain ⟨a, ha⟩ : ∃ a, insert_sorted_array () (place_sorted_array 0 4 (some byDifference)) 2 = .ok a :=
    ⟨_, rfl⟩
  obtain ⟨b, hb⟩ : ∃ b, insert_sorted_array () a 1 = .ok b := by
    obtain rfl := Except.ok.inj ha
    exact ⟨_, rfl⟩
  obtain ⟨c, hc⟩ : ∃ c, remove_sorted_array b 0 = .ok c := by
    obtain rfl := Except.ok.inj ha
    obtain rfl := Except.ok.inj hb
    exact ⟨_, rfl⟩
  obtain ⟨v, hv⟩ : ∃ v, lookup_sorted_array c 0 = .ok v := by
    obtain rfl := Except.ok.inj ha
    obtain rfl := Except.ok.inj hb
    obtain rfl := Except.ok.inj hc
    exact ⟨_, rfl⟩
  have run : Trace SortedStep (SortedState.init () 0 4 byDifference)
      [(.insert 2, ⟨(), a⟩), (.insert 1, ⟨(), b⟩), (.remove 0, ⟨(), c⟩), (.lookup 0, ⟨(), c⟩)] :=
    ⟨⟨ha, rfl⟩, ⟨hb, rfl⟩, ⟨hc, rfl⟩, ⟨⟨v, hv⟩, rfl⟩, trivial⟩
  exact ⟨_, run, (sorted_array_refines_list byDifference_order () 0 4 run).1⟩

end JamesM
