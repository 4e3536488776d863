/-
  JamesM.Lib.Logged — a computation that keeps a log.

  A `Logged` computation returns or stops with an error, and in both cases leaves
  the list of the entries it made on the way.  An instrumented program is proved
  equal to the plain one by `val_bind`; a property of its whole log is taken apart
  by `all_bind`.
-/
import Mathlib.Data.List.Basic

namespace JamesM.Lib

/-- The outcome of a computation, with what it logged. -/
structure Logged (ℓ ε α : Type) where
  log : List ℓ
  val : Except ε α

namespace Logged

variable {ℓ ε α β : Type}

/-- Go on with the result of `x`, if it has one. -/
protected def andThen (x : Logged ℓ ε α) (f : α → Logged ℓ ε β) : Logged ℓ ε β :=
  match x.val with
  | .ok a => ⟨x.log ++ (f a).log, (f a).val⟩
  | .error e => ⟨x.log, .error e⟩

instance : Monad (Logged ℓ ε) where
  pure a := ⟨[], .ok a⟩
  bind := Logged.andThen

/-- Log one entry. -/
def touch (l : ℓ) : Logged ℓ ε Unit := ⟨[l], .ok ()⟩

/-- Log several. -/
def touchAll (ls : List ℓ) : Logged ℓ ε Unit := ⟨ls, .ok ()⟩

/-- Run a computation that logs nothing. -/
def lift (x : Except ε α) : Logged ℓ ε α := ⟨[], x⟩

/-- Every entry of the log satisfies `P`. -/
def All (P : ℓ → Prop) (x : Logged ℓ ε α) : Prop := ∀ l ∈ x.log, P l

/-! ## §1. The outcome. -/

@[simp] theorem val_pure (a : α) : (pure a : Logged ℓ ε α).val = .ok a := rfl

@[simp] theorem val_touch (l : ℓ) : (touch l : Logged ℓ ε Unit).val = .ok () := rfl

@[simp] theorem val_touchAll (ls : List ℓ) : (touchAll ls : Logged ℓ ε Unit).val = .ok () := rfl

@[simp] theorem val_lift (x : Except ε α) : (lift x : Logged ℓ ε α).val = x := rfl

@[simp] theorem val_bind (x : Logged ℓ ε α) (f : α → Logged ℓ ε β) :
    (x >>= f).val = (x.val >>= fun a => (f a).val) := by
  show (Logged.andThen x f).val = _
  unfold Logged.andThen
  cases x.val <;> rfl

theorem val_ite (c : Prop) [Decidable c] (x y : Logged ℓ ε α) :
    (if c then x else y).val = if c then x.val else y.val := by
  split <;> rfl

/-! ## §2. The log. -/

variable {P : ℓ → Prop}

@[simp] theorem all_pure (a : α) : (pure a : Logged ℓ ε α).All P := by
  intro l hl
  exact absurd hl List.not_mem_nil

@[simp] theorem all_lift (x : Except ε α) : (lift x : Logged ℓ ε α).All P := by
  intro l hl
  exact absurd hl List.not_mem_nil

@[simp] theorem all_touch {l : ℓ} : (touch l : Logged ℓ ε Unit).All P ↔ P l := by
  simp [All, touch]

@[simp] theorem all_touchAll {ls : List ℓ} : (touchAll ls : Logged ℓ ε Unit).All P ↔ ∀ l ∈ ls, P l :=
  Iff.rfl

/-- The log of a sequence: that of the first part and, if it returns, that of the second. -/
theorem all_bind {x : Logged ℓ ε α} {f : α → Logged ℓ ε β} :
    (x >>= f).All P ↔ x.All P ∧ ∀ a, x.val = .ok a → (f a).All P := by
  obtain ⟨log, val⟩ := x
  cases val with
  | error e =>
      have hlog : ((⟨log, .error e⟩ : Logged ℓ ε α) >>= f).log = log := rfl
      simp [All, hlog]
  | ok a =>
      have hlog : ((⟨log, .ok a⟩ : Logged ℓ ε α) >>= f).log = log ++ (f a).log := rfl
      simp [All, hlog, or_imp, forall_and]

/-- How much a sequence logs. -/
theorem length_bind_le {x : Logged ℓ ε α} {f : α → Logged ℓ ε β} {a b : Nat} (hx : x.log.length ≤ a)
    (hf : ∀ r, x.val = .ok r → (f r).log.length ≤ b) : (x >>= f).log.length ≤ a + b := by
  obtain ⟨log, val⟩ := x
  cases val with
  | error e =>
      have hlog : ((⟨log, .error e⟩ : Logged ℓ ε α) >>= f).log = log := rfl
      rw [hlog]
      exact Nat.le_add_right_of_le hx
  | ok r =>
      have hlog : ((⟨log, .ok r⟩ : Logged ℓ ε α) >>= f).log = log ++ (f r).log := rfl
      rw [hlog, List.length_append]
      exact Nat.add_le_add hx (hf r rfl)

-- from here on a sequence is only taken apart by the three lemmas on it
attribute [irreducible] Logged.andThen

/-- After one entry. -/
theorem all_touch_bind {l : ℓ} {f : Unit → Logged ℓ ε β} :
    (touch l >>= f).All P ↔ P l ∧ (f ()).All P := by
  rw [all_bind, all_touch]
  exact and_congr_right fun _ => ⟨fun h => h () rfl, fun h _ _ => h⟩

end Logged

end JamesM.Lib
