/-
  JamesM.Interrupt.Stub — the interrupt stubs (`interrupt.s`).

  When an interrupt is taken the processor pushes `eflags`, `cs` and `eip`, and for
  some exceptions an error code.  The stubs push the rest of a `struct cpu_regs`,
  call a C function on it, and take it down again.  A stub is a list of
  instructions, run on the registers and the memory of the processor.

  The kernel only ever runs at ring 0, so the processor pushes no stack pointer, and
  `iret` takes three words and not the five of the comment there: `useresp` and `ss`
  of the structure are the top two words of the interrupted stack.

  Main result: `stub_is_transparent`.
-/
import JamesM.Lib.Stack
import JamesM.Lib.Descriptor
import JamesM.Common

namespace JamesM

open JamesM.ByteMem JamesM.Word32 JamesM.Stack JamesM.Descriptor

/-! ## §1. The processor. -/

/-- The registers and the memory. -/
structure Cpu where
  eax : Nat
  ecx : Nat
  edx : Nat
  ebx : Nat
  esp : Nat
  ebp : Nat
  esi : Nat
  edi : Nat
  cs : Nat
  ds : Nat
  es : Nat
  fs : Nat
  gs : Nat
  ss : Nat
  eip : Nat
  eflags : Nat
  mem : Mem

/-- `struct cpu_regs`. -/
structure CpuRegs where
  ds : Nat
  edi : Nat
  esi : Nat
  ebp : Nat
  esp : Nat
  ebx : Nat
  edx : Nat
  ecx : Nat
  eax : Nat
  int_no : Nat
  err_code : Nat
  eip : Nat
  cs : Nat
  eflags : Nat
  useresp : Nat
  ss : Nat

/-- The structure at address `p`. -/
def read_regs (mem : Mem) (p : Nat) : CpuRegs :=
  { ds := read32 mem p, edi := read32 mem (p + 4), esi := read32 mem (p + 8), ebp := read32 mem (p + 12)
    esp := read32 mem (p + 16), ebx := read32 mem (p + 20), edx := read32 mem (p + 24)
    ecx := read32 mem (p + 28), eax := read32 mem (p + 32), int_no := read32 mem (p + 36)
    err_code := read32 mem (p + 40), eip := read32 mem (p + 44), cs := read32 mem (p + 48)
    eflags := read32 mem (p + 52), useresp := read32 mem (p + 56), ss := read32 mem (p + 60) }

/-- `sizeof(struct cpu_regs)`. -/
def sizeof_cpu_regs : Nat := 64

/-- Push the words of a list, first to last. -/
def Cpu.pushes (ws : List Nat) (c : Cpu) : Cpu :=
  { c with mem := (Stack.pushes ws c.mem c.esp).1, esp := (Stack.pushes ws c.mem c.esp).2 }

/-- The word at the top of the stack, and the ones below it. -/
def Cpu.top (c : Cpu) (i : Nat) : Nat := read32 c.mem (add32 c.esp (4 * i))

/-- Take `n` words off the stack. -/
def Cpu.drop (n : Nat) (c : Cpu) : Cpu := { c with esp := add32 c.esp (4 * n) }

/-- Set or clear the interrupt flag, bit 9 of `eflags`. -/
def Cpu.setIf (on : Bool) (c : Cpu) : Cpu :=
  { c with eflags := c.eflags - 512 * (c.eflags / 512 % 2) + if on then 512 else 0 }

/-- The exceptions for which the processor pushes an error code. -/
def pushes_error_code (v : Nat) : Bool := [8, 10, 11, 12, 13, 14, 17, 21, 29, 30].contains v

/-- An interrupt through a gate at ring 0: what the processor pushes, and where it goes on.  An interrupt
    gate clears the interrupt flag. -/
def Cpu.interrupt (g : Gate) (err : Option Nat) (c : Cpu) : Cpu :=
  let d := (c.pushes ([c.eflags, c.cs, c.eip] ++ err.toList)).setIf false
  { d with eip := g.offset, cs := g.selector }

/-! ## §2. The stubs. -/

/-- The segment registers a stub loads. -/
inductive SegReg where
  | ds
  | es
  | fs
  | gs

/-- The registers a stub moves to them. -/
inductive Reg16 where
  | ax
  | bx

/-- The instructions of the stubs; `jmp` to the common part is left out. -/
inductive Instr where
  | cli
  | sti
  | push_byte (n : Nat)
  | pusha
  | popa
  | mov_ax_ds
  | mov_ax (n : Nat)
  | mov_seg (s : SegReg) (r : Reg16)
  | push_eax
  | pop_eax
  | pop_ebx
  | call
  | add_esp (n : Nat)
  | iret

/-- The exceptions declared with `ISR_ERRCODE`. -/
def has_error_code (v : Nat) : Bool := v == 8 || v == 10 || v == 11 || v == 12 || v == 13 || v == 14

/-- The stubs agree with the processor but for four exceptions: the alignment check, which is for ring 3,
    control protection, and the two that a hypervisor raises. -/
theorem has_error_code_iff {v : Nat} (hv : v < 32) :
    has_error_code v = pushes_error_code v ↔ v ∉ [17, 21, 29, 30] := by
  interval_cases v <;> decide

/-- The two common stubs.  They differ in the register `r` that the saved `ds` is popped to and moved
    from. -/
def common_stub (pop : Instr) (r : Reg16) : List Instr :=
  [.pusha, .mov_ax_ds, .push_eax,
    -- load the kernel data segment descriptor
    .mov_ax 0x10, .mov_seg .ds .ax, .mov_seg .es .ax, .mov_seg .fs .ax, .mov_seg .gs .ax,
    .call,
    -- reload the original data segment descriptor
    pop, .mov_seg .ds r, .mov_seg .es r, .mov_seg .fs r, .mov_seg .gs r,
    .popa, .add_esp 8, .sti, .iret]

/-- `isr_common_stub`. -/
def isr_common_stub : List Instr := common_stub .pop_eax .ax

/-- `irq_common_stub`. -/
def irq_common_stub : List Instr := common_stub .pop_ebx .bx

/-- `isr0` to `isr31`. -/
def isr_stub (n : Nat) : List Instr :=
  if has_error_code n then .cli :: .push_byte n :: isr_common_stub
  else .cli :: .push_byte 0 :: .push_byte n :: isr_common_stub

/-- `irq0` to `irq15`. -/
def irq_stub (n : Nat) : List Instr := .cli :: .push_byte 0 :: .push_byte (32 + n) :: irq_common_stub

/-- A C function called with a `struct cpu_regs`: what it does to the kernel, what it leaves in the
    processor, and the address it returns to. -/
structure CFunction (σ : Type) where
  body : CpuRegs → σ → Result σ
  leave : Cpu → Cpu
  ret : Nat

/-- `mov s, w`. -/
def Cpu.load (s : SegReg) (w : Nat) (c : Cpu) : Cpu :=
  match s with
  | .ds => { c with ds := w % 65536 }
  | .es => { c with es := w % 65536 }
  | .fs => { c with fs := w % 65536 }
  | .gs => { c with gs := w % 65536 }

/-- `ax` or `bx`. -/
def Cpu.reg (r : Reg16) (c : Cpu) : Nat :=
  match r with
  | .ax => c.eax
  | .bx => c.ebx

/-- One instruction. -/
def exec {σ : Type} (f : CFunction σ) : Instr → Cpu → σ → Result (Cpu × σ)
  | .cli, c, w => .ok (c.setIf false, w)
  | .sti, c, w => .ok (c.setIf true, w)
  | .push_byte n, c, w => .ok (c.pushes [n], w)
  | .pusha, c, w => .ok (c.pushes [c.eax, c.ecx, c.edx, c.ebx, c.esp, c.ebp, c.esi, c.edi], w)
  | .popa, c, w =>
      -- the saved stack pointer, word 3, is skipped
      let d := c.drop 8
      .ok ({ d with
        edi := c.top 0, esi := c.top 1, ebp := c.top 2, ebx := c.top 4
        edx := c.top 5, ecx := c.top 6, eax := c.top 7 }, w)
  | .mov_ax_ds, c, w => .ok ({ c with eax := 65536 * (c.eax / 65536) + c.ds }, w)
  | .mov_ax n, c, w => .ok ({ c with eax := 65536 * (c.eax / 65536) + n }, w)
  | .mov_seg s r, c, w => .ok (c.load s (c.reg r), w)
  | .push_eax, c, w => .ok (c.pushes [c.eax], w)
  | .pop_eax, c, w =>
      let d := c.drop 1
      .ok ({ d with eax := c.top 0 }, w)
  | .pop_ebx, c, w =>
      let d := c.drop 1
      .ok ({ d with ebx := c.top 0 }, w)
  | .call, c, w => do
      let c := c.pushes [f.ret]
      let w ← f.body (read_regs c.mem (c.esp + 4)) w
      .ok ((f.leave c).drop 1, w)
  | .add_esp n, c, w => .ok ({ c with esp := add32 c.esp n }, w)
  | .iret, c, w =>
      let d := c.drop 3
      .ok ({ d with eip := c.top 0, cs := c.top 1 % 65536, eflags := c.top 2 }, w)

/-- A list of instructions. -/
def run {σ : Type} (f : CFunction σ) : List Instr → Cpu → σ → Result (Cpu × σ)
  | [], c, w => .ok (c, w)
  | i :: is, c, w => do
      let (c, w) ← exec f i c w
      run f is c w

/-- Taking the interrupt `v`: the gate, then the stub. -/
def take_interrupt {σ : Type} (f : CFunction σ) (g : Gate) (v : Nat) (err : Option Nat) (c : Cpu) (w : σ) :
    Result (Cpu × σ) :=
  run f (if v < 32 then isr_stub v else irq_stub (v - 32)) (c.interrupt g err) w

section

variable {σ : Type} (f : CFunction σ) (c : Cpu) (w : σ)

theorem exec_pusha :
    exec f .pusha c w = .ok (c.pushes [c.eax, c.ecx, c.edx, c.ebx, c.esp, c.ebp, c.esi, c.edi], w) := rfl

theorem exec_mov_ax_ds : exec f .mov_ax_ds c w = .ok ({ c with eax := 65536 * (c.eax / 65536) + c.ds }, w) := rfl

theorem exec_mov_ax (n : Nat) :
    exec f (.mov_ax n) c w = .ok ({ c with eax := 65536 * (c.eax / 65536) + n }, w) := rfl

theorem exec_mov_seg (s : SegReg) (r : Reg16) : exec f (.mov_seg s r) c w = .ok (c.load s (c.reg r), w) := rfl

theorem exec_push_eax : exec f .push_eax c w = .ok (c.pushes [c.eax], w) := rfl

theorem exec_pop_eax : exec f .pop_eax c w = .ok ({ c.drop 1 with eax := c.top 0 }, w) := rfl

theorem exec_pop_ebx : exec f .pop_ebx c w = .ok ({ c.drop 1 with ebx := c.top 0 }, w) := rfl

theorem exec_popa : exec f .popa c w = .ok ({ c.drop 8 with
    edi := c.top 0, esi := c.top 1, ebp := c.top 2, ebx := c.top 4
    edx := c.top 5, ecx := c.top 6, eax := c.top 7 }, w) := rfl

theorem exec_add_esp (n : Nat) : exec f (.add_esp n) c w = .ok ({ c with esp := add32 c.esp n }, w) := rfl

theorem exec_sti : exec f .sti c w = .ok (c.setIf true, w) := rfl

theorem exec_iret : exec f .iret c w
    = .ok ({ c.drop 3 with eip := c.top 0, cs := c.top 1 % 65536, eflags := c.top 2 }, w) := rfl

theorem exec_call : exec f .call c w
    = (do let w ← f.body (read_regs (c.pushes [f.ret]).mem ((c.pushes [f.ret]).esp + 4)) w
          .ok ((f.leave (c.pushes [f.ret])).drop 1, w)) := rfl

end

/-! ## §3. What a stub builds. -/

/-- The registers hold 32-bit words, the segment registers selectors, and the processor is at ring 0. -/
structure Cpu.Ok (c : Cpu) : Prop where
  eax : c.eax < 4294967296
  ecx : c.ecx < 4294967296
  edx : c.edx < 4294967296
  ebx : c.ebx < 4294967296
  esp : c.esp < 4294967296
  ebp : c.ebp < 4294967296
  esi : c.esi < 4294967296
  edi : c.edi < 4294967296
  cs : c.cs < 65536
  ds : c.ds < 65536
  eip : c.eip < 4294967296
  eflags : c.eflags < 4294967296
  ring : c.cs % 4 = 0

/-- What the stubs rely on: the stack pointer comes back, the stack segment stays, and the argument is left
    as it is.  The last is no promise of the calling convention, which gives the argument to the function
    called; it holds of the functions of `isr.c`, which do not assign to it, as the `Makefile` builds them,
    without optimisation. -/
structure Cdecl {σ : Type} (f : CFunction σ) : Prop where
  ret : f.ret < 4294967296
  esp : ∀ c, (f.leave c).esp = c.esp
  ss : ∀ c, (f.leave c).ss = c.ss
  argument : ∀ c x, c.esp + 4 ≤ x → x < c.esp + 4 + sizeof_cpu_regs → (f.leave c).mem x = c.mem x

/-- The argument of the C function when `c` is interrupted. -/
def interruptedRegs (c : Cpu) (v : Nat) (err : Option Nat) : CpuRegs :=
  { ds := 65536 * (c.eax / 65536) + c.ds, edi := c.edi, esi := c.esi, ebp := c.ebp, esp := c.esp - 20
    ebx := c.ebx, edx := c.edx, ecx := c.ecx, eax := c.eax, int_no := v, err_code := err.getD 0
    eip := c.eip, cs := c.cs, eflags := c.eflags
    -- not pushed at ring 0: what the interrupted code has on its stack
    useresp := read32 c.mem c.esp, ss := read32 c.mem (c.esp + 4) }

/-- What the processor and the stub push before the C function is called, first to last. -/
def savedWords (c : Cpu) (v e : Nat) : List Nat :=
  [c.eflags, c.cs, c.eip, e, v] ++ [c.eax, c.ecx, c.edx, c.ebx, c.esp - 20, c.ebp, c.esi, c.edi]
    ++ [65536 * (c.eax / 65536) + c.ds]

/-- The words on the stack when the function is called: these, and the return address. -/
def stubWords (c : Cpu) (v e ret : Nat) : List Nat := savedWords c v e ++ [ret]

/-- `c` after an interrupt through `g`, with the words `ws` on its stack. -/
def Cpu.entered (g : Gate) (ws : List Nat) (c : Cpu) : Cpu :=
  { c with
    mem := (Stack.pushes ws c.mem c.esp).1, esp := (Stack.pushes ws c.mem c.esp).2
    cs := g.selector, eip := g.offset, eflags := (c.setIf false).eflags }

/-- The processor at that call. -/
def atCall (g : Gate) (c : Cpu) (v e ret : Nat) : Cpu :=
  Cpu.entered g (stubWords c v e ret)
    { c with eax := 65536 * (c.eax / 65536) + 0x10, ds := 0x10, es := 0x10, fs := 0x10, gs := 0x10 }

theorem stubWords_lt {c : Cpu} {v e ret : Nat} (ok : c.Ok) (hv : v < 48) (he : e < 4294967296)
    (hret : ret < 4294967296) : ∀ w ∈ stubWords c v e ret, w < 4294967296 := by
  obtain ⟨h1, h2, h3, h4, h5, h6, h7, h8, h9, h10, h11, h12, -⟩ := ok
  intro w hw
  simp only [stubWords, savedWords, List.mem_append, List.mem_cons, List.not_mem_nil, or_false] at hw
  omega

/-- The words are on the stack, and nothing above has changed. -/
theorem atCall_holds (g : Gate) {c : Cpu} {v e ret : Nat} (ok : c.Ok) (hroom : 60 ≤ c.esp) (hv : v < 48)
    (he : e < 4294967296) (hret : ret < 4294967296) :
    (atCall g c v e ret).esp = c.esp - 60
      ∧ Holds (atCall g c v e ret).mem (c.esp - 60) (stubWords c v e ret).reverse
      ∧ EqOutside (c.esp - 60) c.esp c.mem (atCall g c v e ret).mem := by
  obtain ⟨hesp, hholds, hout⟩ := Holds.pushes (stubWords c v e ret) (show Holds c.mem c.esp [] from trivial)
    hroom ok.esp (stubWords_lt ok hv he hret)
  rw [List.append_nil] at hholds
  exact ⟨hesp, hholds, hout⟩

/-- **The frame.**  What the C function finds as its argument. -/
theorem read_regs_atCall (g : Gate) {c : Cpu} {v e : Nat} {err : Option Nat} {ret : Nat} (ok : c.Ok)
    (hroom : 60 ≤ c.esp) (hv : v < 48) (he : e < 4294967296) (herr : err.getD 0 = e)
    (hret : ret < 4294967296) :
    read_regs (atCall g c v e ret).mem ((atCall g c v e ret).esp + 4) = interruptedRegs c v err := by
  obtain ⟨hesp, hholds, hout⟩ := atCall_holds g ok hroom hv he hret
  have htop : ∀ x, c.esp ≤ x → read32 (atCall g c v e ret).mem x = read32 c.mem x :=
    fun x hx => hout.read32 (.inr hx)
  simp only [stubWords, savedWords, List.cons_append, List.nil_append, List.reverse_cons, List.reverse_nil,
    Holds, Nat.add_assoc, Nat.reduceAdd, and_true] at hholds
  obtain ⟨-, h0, h1, h2, h3, h4, h5, h6, h7, h8, h9, h10, h11, h12, h13⟩ := hholds
  unfold read_regs interruptedRegs
  simp only [hesp, Nat.add_assoc, Nat.reduceAdd]
  rw [h0, h1, h2, h3, h4, h5, h6, h7, h8, h9, h10, h11, h12, h13, herr, Nat.sub_add_cancel hroom,
    htop c.esp (Nat.le_refl _), show c.esp - 60 + 64 = c.esp + 4 by omega, htop (c.esp + 4) (by omega)]

/-! ## §4. Up to the call. -/

theorem Cpu.entered_pushes (g : Gate) (vs ws : List Nat) (c : Cpu) :
    (c.entered g vs).pushes ws = c.entered g (vs ++ ws) := by
  unfold Cpu.entered Cpu.pushes
  dsimp only
  rw [Stack.pushes_append]

/-- The gate has cleared the interrupt flag, so `cli` does nothing. -/
theorem Cpu.entered_cli (g : Gate) (ws : List Nat) (c : Cpu) :
    (c.entered g ws).setIf false = c.entered g ws := by
  have hflags : c.eflags - 512 * (c.eflags / 512 % 2) + 0
      - 512 * ((c.eflags - 512 * (c.eflags / 512 % 2) + 0) / 512 % 2) + 0
        = c.eflags - 512 * (c.eflags / 512 % 2) + 0 := by omega
  unfold Cpu.entered Cpu.setIf
  dsimp only
  rw [if_neg Bool.false_ne_true, hflags]

/-- One instruction that returns. -/
theorem run_step {σ : Type} {f : CFunction σ} {i : Instr} {is : List Instr} {c : Cpu} {w : σ} {r : Cpu × σ}
    (h : exec f i c w = .ok r) : run f (i :: is) c w = run f is r.1 r.2 := by
  rw [run, h, ok_bind]

/-- The first instructions of a stub make the two kinds of exceptions look the same. -/
theorem take_interrupt_enters {σ : Type} (f : CFunction σ) (g : Gate) {v : Nat} {err : Option Nat} (c : Cpu)
    (w : σ) (herr : err.isSome = (decide (v < 32) && has_error_code v)) :
    take_interrupt f g v err c w
      = run f (if v < 32 then isr_common_stub else irq_common_stub)
          (c.entered g [c.eflags, c.cs, c.eip, err.getD 0, v]) w := by
  have hint : c.interrupt g err = c.entered g ([c.eflags, c.cs, c.eip] ++ err.toList) := rfl
  unfold take_interrupt
  rw [hint]
  by_cases h32 : v < 32
  · rw [if_pos h32, if_pos h32, isr_stub]
    rw [decide_eq_true h32, Bool.true_and] at herr
    cases err with
    | some e =>
        rw [← herr, Option.isSome_some, if_pos rfl]
        rw [run_step rfl, run_step rfl, Cpu.entered_cli, Cpu.entered_pushes]
        rfl
    | none =>
        rw [← herr, Option.isSome_none, if_neg Bool.false_ne_true]
        rw [run_step rfl, run_step rfl, run_step rfl, Cpu.entered_cli, Cpu.entered_pushes, Cpu.entered_pushes]
        rfl
  · rw [if_neg h32, if_neg h32, irq_stub]
    rw [decide_eq_false h32, Bool.false_and, Option.isSome_eq_false_iff, Option.isNone_iff_eq_none] at herr
    subst herr
    rw [run_step rfl, run_step rfl, run_step rfl, Cpu.entered_cli, Cpu.entered_pushes, Cpu.entered_pushes,
      show 32 + (v - 32) = v by omega]
    rfl

section

variable (g : Gate) (ws : List Nat) (c : Cpu)

theorem Cpu.entered_eax : (c.entered g ws).eax = c.eax := rfl
theorem Cpu.entered_ecx : (c.entered g ws).ecx = c.ecx := rfl
theorem Cpu.entered_edx : (c.entered g ws).edx = c.edx := rfl
theorem Cpu.entered_ebx : (c.entered g ws).ebx = c.ebx := rfl
theorem Cpu.entered_ebp : (c.entered g ws).ebp = c.ebp := rfl
theorem Cpu.entered_esi : (c.entered g ws).esi = c.esi := rfl
theorem Cpu.entered_edi : (c.entered g ws).edi = c.edi := rfl
theorem Cpu.entered_ds : (c.entered g ws).ds = c.ds := rfl
theorem Cpu.entered_ss : (c.entered g ws).ss = c.ss := rfl
theorem Cpu.entered_esp : (c.entered g ws).esp = (Stack.pushes ws c.mem c.esp).2 := rfl

/-- Loading a register that `entered` does not touch. -/
theorem Cpu.entered_load (s : SegReg) (n : Nat) : (c.entered g ws).load s n = (c.load s n).entered g ws := by
  cases s <;> rfl

theorem Cpu.entered_set_eax (n : Nat) :
    { c.entered g ws with eax := n } = Cpu.entered g ws { c with eax := n } := rfl

end

-- from here on only the lemmas above look inside
attribute [irreducible] Cpu.entered

/-- **Up to the call.**  The common part pushes the rest of the structure, and the kernel's data segment
    is loaded. -/
theorem common_stub_calls {σ : Type} (f : CFunction σ) (g : Gate) (is : List Instr) {c : Cpu} {v e : Nat} (w : σ)
    (ok : c.Ok) (hroom : 60 ≤ c.esp) (hv : v < 48) (he : e < 4294967296) :
    run f (.pusha :: .mov_ax_ds :: .push_eax :: .mov_ax 0x10 :: .mov_seg .ds .ax :: .mov_seg .es .ax
        :: .mov_seg .fs .ax :: .mov_seg .gs .ax :: is) (c.entered g [c.eflags, c.cs, c.eip, e, v]) w
      = run f is (Cpu.entered g (savedWords c v e)
          { c with eax := 65536 * (c.eax / 65536) + 0x10, ds := 0x10, es := 0x10, fs := 0x10, gs := 0x10 }) w := by
  obtain ⟨-, -, -, -, -, -, -, -, h9, h10, h11, h12, -⟩ := id ok
  have hlt : ∀ x ∈ [c.eflags, c.cs, c.eip, e, v], x < 4294967296 := by
    intro x hx
    simp only [List.mem_cons, List.not_mem_nil, or_false] at hx
    omega
  obtain ⟨hesp, -⟩ := Holds.pushes [c.eflags, c.cs, c.eip, e, v] (show Holds c.mem c.esp [] from trivial)
    (show 20 ≤ c.esp by omega) ok.esp hlt
  have hesp : (c.entered g [c.eflags, c.cs, c.eip, e, v]).esp = c.esp - 20 := by
    rw [Cpu.entered_esp, hesp]
    rfl
  -- the stack, in three steps
  have hpusha : exec f .pusha (c.entered g [c.eflags, c.cs, c.eip, e, v]) w
      = .ok (c.entered g ([c.eflags, c.cs, c.eip, e, v]
          ++ [c.eax, c.ecx, c.edx, c.ebx, c.esp - 20, c.ebp, c.esi, c.edi]), w) := by
    rw [exec_pusha, hesp, Cpu.entered_pushes, Cpu.entered_eax, Cpu.entered_ecx, Cpu.entered_edx, Cpu.entered_ebx,
      Cpu.entered_ebp, Cpu.entered_esi, Cpu.entered_edi]
  have hlast : ([c.eflags, c.cs, c.eip, e, v]
      ++ [c.eax, c.ecx, c.edx, c.ebx, c.esp - 20, c.ebp, c.esi, c.edi]) ++ [65536 * (c.eax / 65536) + c.ds]
        = savedWords c v e := rfl
  generalize [c.eflags, c.cs, c.eip, e, v]
    ++ [c.eax, c.ecx, c.edx, c.ebx, c.esp - 20, c.ebp, c.esi, c.edi] = ws at hpusha hlast
  have hax : exec f .mov_ax_ds (c.entered g ws) w
      = .ok (Cpu.entered g ws { c with eax := 65536 * (c.eax / 65536) + c.ds }, w) := by
    rw [exec_mov_ax_ds, Cpu.entered_set_eax, Cpu.entered_eax, Cpu.entered_ds]
  have hpush : exec f .push_eax (Cpu.entered g ws { c with eax := 65536 * (c.eax / 65536) + c.ds }) w
      = .ok (Cpu.entered g (savedWords c v e) { c with eax := 65536 * (c.eax / 65536) + c.ds }, w) := by
    rw [exec_push_eax, Cpu.entered_eax, Cpu.entered_pushes, hlast]
  generalize savedWords c v e = ws' at hpush
  -- the kernel's data segment
  have hmov : exec f (.mov_ax 0x10) (Cpu.entered g ws' { c with eax := 65536 * (c.eax / 65536) + c.ds }) w
      = .ok (Cpu.entered g ws' { c with eax := 65536 * (c.eax / 65536) + 0x10 }, w) := by
    rw [exec_mov_ax, Cpu.entered_set_eax, Cpu.entered_eax,
      show (65536 * (c.eax / 65536) + c.ds) / 65536 = c.eax / 65536 by omega]
  have hds : (65536 * (c.eax / 65536) + 0x10) % 65536 = 0x10 := by omega
  have hload : ∀ s d, d.eax = 65536 * (c.eax / 65536) + 0x10 →
      exec f (.mov_seg s .ax) (Cpu.entered g ws' d) w = .ok (Cpu.entered g ws' (d.load s 0x10), w) := by
    intro s d hd
    rw [exec_mov_seg, Cpu.reg, Cpu.entered_eax, hd, Cpu.entered_load]
    cases s <;> simp only [Cpu.load, hds]
  rw [run_step hpusha]
  dsimp only
  rw [run_step hax]
  dsimp only
  rw [run_step hpush]
  dsimp only
  rw [run_step hmov]
  dsimp only
  rw [run_step (hload .ds _ rfl)]
  dsimp only
  rw [run_step (hload .es _ rfl)]
  dsimp only
  rw [run_step (hload .fs _ rfl)]
  dsimp only
  rw [run_step (hload .gs _ rfl)]
  rfl

/-- **The call.**  The C function gets the interrupted registers; what follows runs on what it leaves. -/
theorem run_call {σ : Type} {f : CFunction σ} (abi : Cdecl f) (g : Gate) (is : List Instr) {c : Cpu} {v : Nat}
    {err : Option Nat} (w : σ) (ok : c.Ok) (hroom : 60 ≤ c.esp) (hv : v < 48) (he : err.getD 0 < 4294967296) :
    run f (.call :: is) (Cpu.entered g (savedWords c v (err.getD 0))
        { c with eax := 65536 * (c.eax / 65536) + 0x10, ds := 0x10, es := 0x10, fs := 0x10, gs := 0x10 }) w
      = (do let w' ← f.body (interruptedRegs c v err) w
            run f is ((f.leave (atCall g c v (err.getD 0) f.ret)).drop 1) w') := by
  rw [run, exec_call, Cpu.entered_pushes]
  have hcall : Cpu.entered g (savedWords c v (err.getD 0) ++ [f.ret])
        { c with eax := 65536 * (c.eax / 65536) + 0x10, ds := 0x10, es := 0x10, fs := 0x10, gs := 0x10 }
      = atCall g c v (err.getD 0) f.ret := rfl
  rw [hcall, read_regs_atCall g ok hroom hv he rfl abi.ret]
  cases f.body (interruptedRegs c v err) w <;> rfl

/-! ## §5. After the call. -/

/-- Words off the stack, as long as the stack does not wrap. -/
theorem Cpu.drop_eq {c : Cpu} {n k : Nat} (hesp : c.esp = k) (hk : k + 4 * n < 4294967296) :
    c.drop n = { c with esp := k + 4 * n } := by
  rw [Cpu.drop, hesp, add32_of_lt hk]

theorem Cpu.top_eq {c : Cpu} {i k w : Nat} (hesp : c.esp = k) (hk : k + 4 * i < 4294967296)
    (hw : read32 c.mem (k + 4 * i) = w) : c.top i = w := by
  rw [Cpu.top, hesp, add32_of_lt hk, hw]

/-- **After the call.**  The rest of the common part takes the structure down again. -/
theorem common_stub_returns {σ : Type} (f : CFunction σ) {pop : Instr} {r : Reg16} {b : Cpu}
    {ds edi esi ebp esp ebx edx ecx eax v e eip cs eflags : Nat} (w : σ)
    (hpop : pop = .pop_eax ∧ r = .ax ∨ pop = .pop_ebx ∧ r = .bx) (hroom : b.esp + 60 < 4294967296)
    (hcs : cs < 65536)
    (h : Holds b.mem (b.esp + 4) [ds, edi, esi, ebp, esp, ebx, edx, ecx, eax, v, e, eip, cs, eflags]) :
    run f [pop, .mov_seg .ds r, .mov_seg .es r, .mov_seg .fs r, .mov_seg .gs r, .popa, .add_esp 8, .sti, .iret]
        (b.drop 1) w
      = .ok ({ b with
          eax := eax, ecx := ecx, edx := edx, ebx := ebx, esp := b.esp + 60, ebp := ebp, esi := esi, edi := edi
          cs := cs, ds := ds % 65536, es := ds % 65536, fs := ds % 65536, gs := ds % 65536
          eip := eip, eflags := eflags }, w) := by
  simp only [Holds, Nat.add_assoc, Nat.reduceAdd, and_true] at h
  obtain ⟨h0, h1, h2, h3, -, h5, h6, h7, h8, -, -, h11, h12, h13⟩ := h
  generalize hs : b.esp = k at *
  -- the saved data segment
  have hsegments : ∃ a x, run f [pop, .mov_seg .ds r, .mov_seg .es r, .mov_seg .fs r, .mov_seg .gs r, .popa,
        .add_esp 8, .sti, .iret] (b.drop 1) w
      = run f [.popa, .add_esp 8, .sti, .iret] { b with
          esp := k + 8, eax := a, ebx := x
          ds := ds % 65536, es := ds % 65536, fs := ds % 65536, gs := ds % 65536 } w := by
    have hdrop : b.drop 1 = { b with esp := k + 4 } := Cpu.drop_eq hs (by omega)
    have htop : Cpu.top { b with esp := k + 4 } 0 = ds := Cpu.top_eq (k := k + 4) rfl (by omega) h0
    have hdrop2 : Cpu.drop 1 { b with esp := k + 4 } = { b with esp := k + 8 } :=
      Cpu.drop_eq (k := k + 4) rfl (by omega)
    rw [hdrop]
    rcases hpop with ⟨rfl, rfl⟩ | ⟨rfl, rfl⟩
    · refine ⟨ds, b.ebx, ?_⟩
      rw [run_step (exec_pop_eax f _ w), htop, hdrop2]
      rw [run_step (exec_mov_seg f _ _ .ds .ax), run_step (exec_mov_seg f _ _ .es .ax),
        run_step (exec_mov_seg f _ _ .fs .ax), run_step (exec_mov_seg f _ _ .gs .ax)]
      rfl
    · refine ⟨b.eax, ds, ?_⟩
      rw [run_step (exec_pop_ebx f _ w), htop, hdrop2]
      rw [run_step (exec_mov_seg f _ _ .ds .bx), run_step (exec_mov_seg f _ _ .es .bx),
        run_step (exec_mov_seg f _ _ .fs .bx), run_step (exec_mov_seg f _ _ .gs .bx)]
      rfl
  obtain ⟨a, x, hrun⟩ := hsegments
  rw [hrun]
  generalize hd : ({ b with
    esp := k + 8, eax := a, ebx := x
    ds := ds % 65536, es := ds % 65536, fs := ds % 65536, gs := ds % 65536 } : Cpu) = d
  have hdesp : d.esp = k + 8 := by rw [← hd]
  have hdmem : d.mem = b.mem := by rw [← hd]
  -- the saved registers, and over the number and the error code
  have htop : ∀ i w, i < 8 → read32 b.mem (k + 8 + 4 * i) = w → d.top i = w := fun i w hi hw =>
    Cpu.top_eq hdesp (by omega) (by rw [hdmem]; exact hw)
  have hdrop : d.drop 8 = { d with esp := k + 40 } := Cpu.drop_eq hdesp (by omega)
  rw [run_step (exec_popa f d w), hdrop, htop 0 edi (by decide) h1, htop 1 esi (by decide) h2,
    htop 2 ebp (by decide) h3, htop 4 ebx (by decide) h5, htop 5 edx (by decide) h6, htop 6 ecx (by decide) h7,
    htop 7 eax (by decide) h8]
  rw [run_step (exec_add_esp f _ _ 8), run_step (exec_sti f _ _)]
  dsimp only
  rw [add32_of_lt (show k + 40 + 8 < 4294967296 by omega)]
  generalize hd' : Cpu.setIf true { d with
    esp := k + 40 + 8, edi := edi, esi := esi, ebp := ebp, ebx := ebx, edx := edx, ecx := ecx, eax := eax } = d'
  have hdesp' : d'.esp = k + 48 := by rw [← hd']; rfl
  have hdmem' : d'.mem = b.mem := by rw [← hd', ← hd]; rfl
  have htop' : ∀ i w, i < 3 → read32 b.mem (k + 48 + 4 * i) = w → d'.top i = w := fun i w hi hw =>
    Cpu.top_eq hdesp' (by omega) (by rw [hdmem']; exact hw)
  have hdrop' : d'.drop 3 = { d' with esp := k + 60 } := Cpu.drop_eq hdesp' (by omega)
  rw [run_step (exec_iret f d' w), hdrop', htop' 0 eip (by decide) h11, htop' 1 cs (by decide) h12,
    htop' 2 eflags (by decide) h13, Nat.mod_eq_of_lt hcs, ← hd', ← hd]
  rfl

/-! ## §6. The whole stub. -/

/-- The processor after the stub of an interrupt whose C function left it with memory `m`: as it was
    interrupted, except that `ds`, which is all that is saved, has been copied to `es`, `fs` and `gs`. -/
def Cpu.resumed (m : Mem) (c : Cpu) : Cpu := { c with es := c.ds, fs := c.ds, gs := c.ds, mem := m }

/-- **The stub is transparent.**  Whatever gate the interrupt goes through, with or without an error
    code, the C function is called once, on the interrupted registers; when it returns, the interrupted code goes
    on with the registers, the flags and the stack pointer it had, and its stack has not been written. -/
theorem stub_is_transparent {σ : Type} {f : CFunction σ} (abi : Cdecl f) (g : Gate) {c : Cpu} {v : Nat}
    {err : Option Nat} (w : σ) (ok : c.Ok) (hroom : 60 ≤ c.esp) (hv : v < 48)
    (herr : err.isSome = (decide (v < 32) && has_error_code v)) (he : err.getD 0 < 4294967296) :
    take_interrupt f g v err c w
        = (do let w' ← f.body (interruptedRegs c v err) w
              .ok (c.resumed (f.leave (atCall g c v (err.getD 0) f.ret)).mem, w'))
      ∧ (atCall g c v (err.getD 0) f.ret).esp = c.esp - 60
      ∧ EqOutside (c.esp - 60) c.esp c.mem (atCall g c v (err.getD 0) f.ret).mem := by
  obtain ⟨hesp, hholds, hout⟩ := atCall_holds g ok hroom hv he abi.ret
  refine ⟨?_, hesp, hout⟩
  have hlt := ok.esp
  have hcs := ok.cs
  have hds := ok.ds
  -- what the function leaves behind: the same stack, its own return address apart
  generalize hb : f.leave (atCall g c v (err.getD 0) f.ret) = b
  have hbesp : b.esp = c.esp - 60 := by rw [← hb, abi.esp, hesp]
  have hbss : b.ss = c.ss := by rw [← hb, abi.ss, atCall, Cpu.entered_ss]
  have hbholds : Holds b.mem (b.esp + 4) (savedWords c v (err.getD 0)).reverse := by
    rw [stubWords, List.reverse_append, List.reverse_singleton, List.singleton_append] at hholds
    rw [hbesp]
    refine hholds.2.congr fun x h1 h2 => ?_
    rw [← hb]
    refine abi.argument _ x (by rw [hesp]; exact h1) ?_
    have hlen : (savedWords c v (err.getD 0)).reverse.length = 14 := by rw [List.length_reverse]; rfl
    rw [hlen] at h2
    rw [hesp, sizeof_cpu_regs]
    omega
  simp only [savedWords, List.cons_append, List.nil_append, List.reverse_cons, List.reverse_nil] at hbholds
  have hstub : ∃ pop r, (pop = .pop_eax ∧ r = .ax ∨ pop = .pop_ebx ∧ r = .bx)
      ∧ (if v < 32 then isr_common_stub else irq_common_stub) = common_stub pop r := by
    by_cases h32 : v < 32
    · exact ⟨.pop_eax, .ax, .inl ⟨rfl, rfl⟩, if_pos h32⟩
    · exact ⟨.pop_ebx, .bx, .inr ⟨rfl, rfl⟩, if_neg h32⟩
  obtain ⟨pop, r, hpop, hcommon⟩ := hstub
  rw [take_interrupt_enters f g c w herr, hcommon, common_stub, common_stub_calls f g _ w ok hroom hv he,
    run_call abi g _ w ok hroom hv he, hb]
  cases f.body (interruptedRegs c v err) w with
  | error e => rfl
  | ok w' =>
      rw [ok_bind, ok_bind, common_stub_returns f w' hpop (by omega) hcs hbholds]
      congr 2
      have hseg : (65536 * (c.eax / 65536) + c.ds) % 65536 = c.ds := by omega
      rw [Cpu.resumed, hbesp, Nat.sub_add_cancel hroom, hseg, hbss]

/-- A C function that adds up the interrupt numbers, clobbers the scratch registers and uses its stack. -/
def clobber : CFunction Nat :=
  { body := fun regs n => .ok (n + regs.int_no)
    leave := fun c => { c with eax := 0, ecx := 1, edx := 2, ebx := 3, mem := write32 c.mem (c.esp - 4) 7 }
    ret := 0x100200 }

theorem clobber_cdecl : Cdecl clobber where
  ret := by decide
  esp := fun _ => rfl
  ss := fun _ => rfl
  argument := fun c x h _ => write32_of_out c.mem 7 (by omega)

/-- A processor at ring 0. -/
def ring0 : Cpu :=
  { eax := 1, ecx := 2, edx := 3, ebx := 4, esp := 0x9000, ebp := 0x9100, esi := 5, edi := 6
    cs := 0x08, ds := 0x10, es := 0x10, fs := 0x10, gs := 0x10, ss := 0x10
    eip := 0x100400, eflags := 0x246, mem := fun _ => 0 }

theorem ring0_ok : ring0.Ok := by
  constructor <;> decide

end JamesM
