/-
  JamesM.Common — how a kernel routine ends, and the byte loops of `common.c`.

  A routine either returns or stops the kernel: `_panic` prints and spins for
  ever, so a `PANIC` (and a failed `KASSERT`, which is one) is the end of the run.
  Recursion that the source does not bound carries fuel, and `Halt.fuel` is the
  model's own way of saying that the bound was reached.
-/
import JamesM.Lib.ByteMem

namespace JamesM

open JamesM.ByteMem

/-! ## §1. Ends of a run. -/

/-- Why a routine did not return. -/
inductive Halt where
  /-- `PANIC(msg)`, or `KASSERT(msg, cond)` with a false condition. -/
  | panic (msg : String)
  /-- An access outside the object a pointer points into, or through NULL. -/
  | fault
  /-- The recursion went deeper than the fuel given. -/
  | fuel
  deriving DecidableEq, Repr

/-- The outcome of a routine. -/
abbrev Result := Except Halt

/-- `KASSERT(msg, cond)`. -/
def KASSERT (msg : String) (cond : Bool) : Result Unit :=
  if cond then .ok () else .error (.panic msg)

theorem KASSERT_eq_ok {msg : String} {cond : Bool} {u : Unit} :
    KASSERT msg cond = .ok u ↔ cond = true := by
  unfold KASSERT
  cases cond <;> simp

theorem KASSERT_true (msg : String) : KASSERT msg true = .ok () := rfl

theorem KASSERT_ne_fuel (msg : String) (cond : Bool) : KASSERT msg cond ≠ .error .fuel := by
  unfold KASSERT
  cases cond <;> simp

/-- A sequence returns exactly when both parts do. -/
theorem bind_ok_iff {α β : Type} {x : Result α} {f : α → Result β} {r : β} :
    (x >>= f) = .ok r ↔ ∃ a, x = .ok a ∧ f a = .ok r := by
  cases x with
  | error e => simp [bind, Except.bind]
  | ok a => simp [bind, Except.bind]

@[simp] theorem ok_bind {α β : Type} (a : α) (f : α → Result β) : ((.ok a : Result α) >>= f) = f a :=
  rfl

@[simp] theorem error_bind {α β : Type} (e : Halt) (f : α → Result β) :
    ((.error e : Result α) >>= f) = .error e := rfl

/-- A call that returns, followed by one that returns. -/
theorem bind_returns {α β : Type} {x : Result α} {f : α → Result β} {Q : α → Prop} {P : β → Prop}
    (hx : ∃ a, x = .ok a ∧ Q a) (hf : ∀ a, x = .ok a → Q a → ∃ b, f a = .ok b ∧ P b) :
    ∃ b, (x >>= f) = .ok b ∧ P b := by
  obtain ⟨a, hx, hQ⟩ := hx
  obtain ⟨b, hb, hP⟩ := hf a hx hQ
  exact ⟨b, by rw [hx, ok_bind, hb], hP⟩

/-- A sequence that does not return ran out of fuel in one of its parts, or in none. -/
theorem bind_ne_fuel {α β : Type} {x : Result α} {f : α → Result β} (hx : x ≠ .error .fuel)
    (hf : ∀ a, x = .ok a → f a ≠ .error .fuel) : (x >>= f) ≠ .error .fuel := by
  cases x with
  | error e => simpa using hx
  | ok a => simpa using hf a rfl

/-! ## §2. `char`, `memset`, `bzero`. -/

/-- A byte as the `char` the source computes with, which is signed. -/
def char_value (b : UInt8) : Int := if b.toNat < 128 then b.toNat else (b.toNat : Int) - 256


/-- `memset(b, c, len)`: store `c` at `*bb++`, `len` times. -/
def memset (m : Mem) (b : Nat) (c : UInt8) : Nat → Mem
  | 0 => m
  | len + 1 => memset (write8 m b c) (b + 1) c len

/-- `bzero(b, len)`. -/
def bzero (m : Mem) (b len : Nat) : Mem := memset m b 0 len

theorem memset_apply (c : UInt8) (len : Nat) :
    ∀ (m : Mem) (b x : Nat), memset m b c len x = if b ≤ x ∧ x < b + len then c else m x := by
  induction len with
  | zero => intro m b x; rw [if_neg (by omega)]; rfl
  | succ len ih =>
      intro m b x
      rw [memset, ih]
      by_cases hx : b + 1 ≤ x ∧ x < b + 1 + len
      · rw [if_pos hx, if_pos (by omega)]
      · rw [if_neg hx]
        by_cases hb : x = b
        · subst hb; rw [write8_same, if_pos (by omega)]
        · rw [write8_ne _ _ hb, if_neg (by omega)]

theorem bzero_in {m : Mem} {b len x : Nat} (h : b ≤ x ∧ x < b + len) : bzero m b len x = 0 := by
  rw [bzero, memset_apply, if_pos h]

/-- `bzero` touches its own region only. -/
theorem bzero_eqOutside (m : Mem) (b len : Nat) : EqOutside b (b + len) m (bzero m b len) :=
  fun x hx => by rw [bzero, memset_apply, if_neg (by omega)]

/-- A word inside a cleared region is zero. -/
theorem read32_bzero {m : Mem} {b len a : Nat} (h1 : b ≤ a) (h2 : a + 4 ≤ b + len) :
    read32 (bzero m b len) a = 0 := by
  unfold read32
  rw [bzero_in (by omega), bzero_in (by omega), bzero_in (by omega), bzero_in (by omega)]
  rfl

theorem exists_of_isOk {α : Type} {x : Result α} (h : x.isOk = true) : ∃ a, x = .ok a := by
  cases x with
  | ok a => exact ⟨a, rfl⟩
  | error e => exact absurd h Bool.noConfusion

end JamesM
