/-
  JamesM.Lib.Stack — a stack of 32-bit words that grows down in a byte memory.

  `Holds mem sp ws` says that the words from `sp` upwards are `ws`, the top of the
  stack first.  Pushing a list of words puts it on top in reverse order and changes
  no byte at or above the old top.
-/
import JamesM.Lib.ByteMem
import JamesM.Lib.Word32

namespace JamesM.Stack

open JamesM.ByteMem JamesM.Word32

/-- The words from `sp` upwards. -/
def Holds (mem : Mem) (sp : Nat) : List Nat → Prop
  | [] => True
  | w :: ws => read32 mem sp = w ∧ Holds mem (sp + 4) ws

/-- The memory and the top after pushing a word. -/
def push (s : Mem × Nat) (w : Nat) : Mem × Nat := (write32 s.1 (sub32 s.2 4) w, sub32 s.2 4)

/-- The memory and the top after pushing the words of a list, first to last. -/
def pushes (ws : List Nat) (mem : Mem) (sp : Nat) : Mem × Nat := ws.foldl push (mem, sp)

theorem pushes_append (vs ws : List Nat) (mem : Mem) (sp : Nat) :
    pushes (vs ++ ws) mem sp = pushes ws (pushes vs mem sp).1 (pushes vs mem sp).2 := List.foldl_append

/-- Only the bytes of the words matter. -/
theorem Holds.congr {mem mem' : Mem} {ws : List Nat} : ∀ {sp : Nat}, Holds mem sp ws →
    (∀ x, sp ≤ x → x < sp + 4 * ws.length → mem' x = mem x) → Holds mem' sp ws := by
  induction ws with
  | nil => exact fun _ _ => trivial
  | cons w ws ih =>
      intro sp h hsame
      rw [List.length_cons] at hsame
      refine ⟨?_, ih h.2 fun x h1 h2 => hsame x (by omega) (by omega)⟩
      rw [read32_congr fun x h1 h2 => hsame x h1 (by omega)]
      exact h.1

/-- One word. -/
theorem Holds.push {mem : Mem} {sp w : Nat} {ws : List Nat} (h : Holds mem sp ws) (hsp : 4 ≤ sp)
    (hw : w < 4294967296) : Holds (write32 mem (sp - 4) w) (sp - 4) (w :: ws) := by
  refine ⟨read32_write32 _ _ hw, ?_⟩
  rw [Nat.sub_add_cancel hsp]
  exact h.congr fun x h1 _ => write32_of_out mem w (by omega)

/-- **Pushing a list.** -/
theorem Holds.pushes (vs : List Nat) : ∀ {mem : Mem} {sp : Nat} {ws : List Nat}, Holds mem sp ws →
    4 * vs.length ≤ sp → sp < 4294967296 → (∀ v ∈ vs, v < 4294967296) →
    (Stack.pushes vs mem sp).2 = sp - 4 * vs.length
      ∧ Holds (Stack.pushes vs mem sp).1 (sp - 4 * vs.length) (vs.reverse ++ ws)
      ∧ EqOutside (sp - 4 * vs.length) sp mem (Stack.pushes vs mem sp).1 := by
  induction vs with
  | nil => exact fun h _ _ _ => ⟨rfl, h, .refl _ _ _⟩
  | cons v vs ih =>
      intro mem sp ws h hroom hsp hlt
      rw [List.length_cons] at hroom ⊢
      have hsub : sub32 sp 4 = sp - 4 := sub32_of_le hsp (by omega)
      have hpush := h.push (by omega) (hlt v List.mem_cons_self)
      obtain ⟨h1, h2, h3⟩ := ih hpush (by omega) (by omega) fun w hw => hlt w (List.mem_cons_of_mem _ hw)
      have hlen : sp - 4 - 4 * vs.length = sp - 4 * (vs.length + 1) := by omega
      rw [hlen] at h1 h2 h3
      have hstep : Stack.pushes (v :: vs) mem sp = Stack.pushes vs (write32 mem (sp - 4) v) (sp - 4) := by
        rw [Stack.pushes, List.foldl_cons, Stack.push, hsub]
        rfl
      rw [hstep]
      refine ⟨h1, ?_, fun x hx => ?_⟩
      · rw [List.reverse_cons, List.append_assoc]
        exact h2
      · rw [h3 x (by omega), write32_of_out mem v (by omega)]

end JamesM.Stack
