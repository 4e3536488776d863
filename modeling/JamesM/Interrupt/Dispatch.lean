/-
  JamesM.Interrupt.Dispatch — the handlers of interrupts (`isr.c`), from the request of
  a device to the `iret`.

  A request goes through the controllers, which were set up by `init_idt`, the
  descriptor table, the stub and `irq_handler`, which ends it and calls the
  registered function.  `Computer` puts these together: the processor, and the part of
  the kernel that the C functions work on.

  Main results:
    * `remap_irqs_idle` — whatever state the controllers are in, `init_idt` leaves them
      at rest with the vectors 32 to 47;
    * `irq_served` — an accepted request runs its handler once, on the interrupted
      registers, and leaves the controllers without it;
    * `interrupts_never_block` — in every run, whenever lines ask, the next interrupt
      accepted is the first of them;
    * `exceptions_resume` — an exception runs its handler, or is reported, and the
      interrupted code goes on.
-/
import JamesM.Lib.Pic
import JamesM.Lib.Pit
import JamesM.Lib.Trace
import JamesM.Interrupt.Tables
import JamesM.Interrupt.Stub
import JamesM.Printf

namespace JamesM

open JamesM.Pic8259 JamesM.Pit8253 JamesM.Descriptor JamesM.ByteMem JamesM.Lib

/-! ## §1. The source. -/

/-- What the functions of `isr.c` and `timer.c` work on, and the devices behind `outb`.  A handler is the
    address of a function, `NULL` is 0. -/
structure World where
  interrupt_handlers : Fin 256 → Nat
  /-- `static uint32_t tick` of `timer_callback`. -/
  tick : Nat
  monitor : Monitor
  pics : Pics
  pit : Pit

/-- `outb(port, value)` to a controller or to the timer. -/
def World.outb (port value : Nat) (w : World) : World :=
  { w with pics := w.pics.outb port (value % 256), pit := w.pit.outb port (value % 256) }

/-- `printf(fmt, ...)`, its result thrown away. -/
def World.printf (fmt : List UInt8) (ap : List VaArg) (w : World) : Result World := do
  let (_, m) ← JamesM.printf fmt ap w.monitor
  .ok { w with monitor := m }

/-- The functions at the addresses a handler may have. -/
abbrev Handlers := Nat → CpuRegs → World → Result World

/-- `interrupt_handlers[n]`. -/
def handler_at (n : Nat) (w : World) : Result Nat :=
  if h : n < 256 then .ok (w.interrupt_handlers ⟨n, h⟩) else .error .fault

/-- `isr_handler(regs)`. -/
def isr_handler (code : Handlers) (regs : CpuRegs) (w : World) : Result World := do
  let handler ← handler_at regs.int_no w
  if handler ≠ 0 then code handler regs w
  else w.printf (literal "unhandled interrupt: %d\n") [.word (UInt32.ofNat regs.int_no)]

/-- `irq_handler(regs)`. -/
def irq_handler (code : Handlers) (regs : CpuRegs) (w : World) : Result World := do
  -- the end of the interrupt, to the slave if it was involved, and to the master
  let w := if regs.int_no ≥ 40 then w.outb 0xA0 0x20 else w
  let w := w.outb 0x20 0x20
  let handler ← handler_at regs.int_no w
  if handler ≠ 0 then code handler regs w else .ok w

/-- `register_interrupt_handler(n, handler)`. -/
def register_interrupt_handler (n handler : Nat) (w : World) : Result World :=
  if h : n < 256 then
    .ok { w with interrupt_handlers := Function.update w.interrupt_handlers ⟨n, h⟩ handler }
  else .error (.panic "Bad interrupt handler index.")

/-! ## §2. The controllers after `init_idt`. -/

/-- The controllers after a list of `outb` calls. -/
def outbs (calls : List (Nat × Nat)) (ps : Pics) : Pics := calls.foldl (fun ps call => ps.outb call.1 call.2) ps

/-- The controllers are at rest, and line `n` has vector `32 + n`. -/
structure Remapped (ps : Pics) : Prop where
  idle : ps.Idle
  master : ps.master.base = 32
  slave : ps.slave.base = 40

theorem Remapped.vector {ps : Pics} (h : Remapped ps) (n : Nat) : ps.vector n = 32 + n := by
  unfold Pics.vector
  rw [h.master, h.slave]
  split <;> omega

theorem Remapped.served {ps : Pics} (h : Remapped ps) (n : Nat) : Remapped (ps.served n) := by
  refine ⟨h.idle.served n, ?_, ?_⟩
  · unfold Pics.served
    split <;> exact h.master
  · unfold Pics.served
    split <;> exact h.slave

theorem Remapped.raise {ps : Pics} (h : Remapped ps) (n : Nat) : Remapped (ps.raise n) := by
  refine ⟨h.idle.raise n, ?_, ?_⟩
  · unfold Pics.raise
    split <;> exact h.master
  · unfold Pics.raise
    split <;> exact h.slave

theorem Remapped.spurious {ps : Pics} (h : Remapped ps) (slave : Bool) :
    (ps.spurious slave).1 = 32 + if slave then 15 else 7 := by
  cases slave with
  | false => exact congrArg (· + 7) h.master
  | true => exact congrArg (· + 7) h.slave

/-- A controller after the four words. -/
def initialised (base : Nat) : Pic :=
  { base := base, imr := fun _ => false, irr := fun _ => false, isr := fun _ => false, aeoi := false
    expects := .mask, single := false, icw4 := true }

/-- **The remapping.** -/
theorem outbs_remap_irqs (ps : Pics) : outbs remap_irqs ps = ⟨initialised 0x20, initialised 0x28⟩ := by
  have hmask : (fun i : Fin 8 => Nat.testBit 0 i) = fun _ => false := funext fun i => Nat.zero_testBit i
  calc outbs remap_irqs ps
      = ⟨{ initialised 0x20 with imr := fun i => Nat.testBit 0 i },
          { initialised 0x28 with imr := fun i => Nat.testBit 0 i }⟩ := rfl
    _ = ⟨initialised 0x20, initialised 0x28⟩ := by rw [hmask]; rfl

theorem remap_irqs_idle (ps : Pics) : Remapped (outbs remap_irqs ps) ∧ (outbs remap_irqs ps).pendingLines = [] := by
  rw [outbs_remap_irqs]
  exact ⟨⟨⟨⟨fun _ => rfl, fun _ => rfl, rfl, rfl⟩, fun _ => rfl, fun _ => rfl, rfl, rfl⟩, rfl, rfl⟩, rfl⟩

/-! ## §3. The machine. -/

/-- The processor, and what the kernel works on. -/
abbrev Computer := Cpu × World

/-- The program: the two C functions that stubs call, the functions behind handlers, and at an address the
    stub there and the function it calls. -/
structure Program where
  handlers : Handlers
  isr : CFunction World
  irq : CFunction World
  text : Nat → List Instr × CFunction World

/-- The kernel as it is linked.  The functions of the kernel keep to the calling convention, and no handler
    sends anything to the controllers. -/
structure Program.Linked (P : Program) (links : Links) : Prop where
  isr_body : P.isr.body = isr_handler P.handlers
  irq_body : P.irq.body = irq_handler P.handlers
  isr_cdecl : Cdecl P.isr
  irq_cdecl : Cdecl P.irq
  isr_text : ∀ n < 32, P.text (links.isr n) = (isr_stub n, P.isr)
  irq_text : ∀ n < 16, P.text (links.irq n) = (irq_stub n, P.irq)
  quiet : ∀ a regs w w', P.handlers a regs w = .ok w' → w'.pics = w.pics

/-- The processor takes the interrupt with vector `v`: it goes through the gate to the code there.  From
    another ring it would have to change to the stack of a task state segment, and there is none. -/
def Program.enter (P : Program) (d : Descriptors) (v : Nat) (err : Option Nat) (m : Computer) : Result Computer :=
  match gateAt (idtTable d.idt_entries) d.idtr.ip_limit v with
  | none => .error .fault
  | some g =>
      if m.1.cs % 4 = 0 then run (P.text g.offset).2 (P.text g.offset).1 (m.1.interrupt g err) m.2
      else .error .fault

/-- The processor, with interrupts enabled, takes the one that the controllers have for it, if any. -/
def Program.accept (P : Program) (d : Descriptors) (m : Computer) : Result Computer :=
  match m.2.pics.inta with
  | none => .ok m
  | some (v, ps) => P.enter d v none (m.1, { m.2 with pics := ps })

/-- The C function of vector `v`. -/
def Program.function (P : Program) (v : Nat) : CFunction World := if v < 32 then P.isr else P.irq

/-- What it does. -/
def Program.service (P : Program) (v : Nat) : CpuRegs → World → Result World :=
  if v < 32 then isr_handler P.handlers else irq_handler P.handlers

/-- The handler of line `n`, if there is one. -/
def Program.handle (P : Program) (n : Fin 16) (regs : CpuRegs) (w : World) : Result World :=
  if w.interrupt_handlers ⟨32 + n, by omega⟩ ≠ 0 then
    P.handlers (w.interrupt_handlers ⟨32 + n, by omega⟩) regs w
  else .ok w

section

variable {P : Program} {links : Links} {d₀ d : Descriptors}

/-- **Into the kernel and back.**  Through the tables that `init_descriptor_tables` leaves, each of the 48
    vectors runs its C function once on the interrupted registers, called with 60 bytes of stack written
    and nothing else; then the interrupted code goes on. -/
theorem Program.enter_eq (hP : P.Linked links) (hd : init_descriptor_tables links d₀ = .ok d) {c : Cpu} {v : Nat}
    {err : Option Nat} (ok : c.Ok) (hroom : 60 ≤ c.esp) (hv : v < 48)
    (herr : err.isSome = (decide (v < 32) && has_error_code v)) (he : err.getD 0 < 4294967296) :
    ∃ b : Cpu, b.esp = c.esp - 60 ∧ EqOutside (c.esp - 60) c.esp c.mem b.mem ∧ ∀ w : World,
      P.enter d v err (c, w) = (do let w' ← P.service v (interruptedRegs c v err) w
                                   .ok (c.resumed ((P.function v).leave b).mem, w')) := by
  obtain ⟨d', hd', -, hgates⟩ := vectors_route links d₀
  obtain rfl : d = d' := Except.ok.inj (hd.symm.trans hd')
  have hgate := hgates v
  have habi : Cdecl (P.function v) := by
    unfold Program.function
    split
    · exact hP.isr_cdecl
    · exact hP.irq_cdecl
  have hbody : (P.function v).body = P.service v := by
    unfold Program.function Program.service
    split
    · exact hP.isr_body
    · exact hP.irq_body
  -- the gate leads to the stub
  have htext : ∃ g, gateAt (idtTable d.idt_entries) d.idtr.ip_limit v = some g
      ∧ P.text g.offset = (if v < 32 then isr_stub v else irq_stub (v - 32), P.function v) := by
    by_cases h32 : v < 32
    · rw [if_pos h32] at hgate
      exact ⟨_, hgate, by rw [if_pos h32, Program.function, if_pos h32, hP.isr_text v h32]⟩
    · rw [if_neg h32, if_pos hv] at hgate
      exact ⟨_, hgate, by rw [if_neg h32, Program.function, if_neg h32, hP.irq_text _ (by omega)]⟩
  obtain ⟨g, hg, htext⟩ := htext
  obtain ⟨hesp, -, hout⟩ := atCall_holds g ok hroom hv he habi.ret
  refine ⟨_, hesp, hout, fun w => ?_⟩
  unfold Program.enter
  rw [hg]
  dsimp only
  rw [if_pos ok.ring, htext, ← hbody]
  exact (stub_is_transparent habi g w ok hroom hv herr he).1

/-- **`irq_handler`** ends the interrupt at the controllers that have it in service and calls the handler. -/
theorem irq_handler_eq (P : Program) {n : Nat} (hn : n < 16) {regs : CpuRegs} (hregs : regs.int_no = 32 + n)
    (w : World) :
    irq_handler P.handlers regs w = P.handle ⟨n, hn⟩ regs { w with pics := w.pics.finish n } := by
  have hends : (if regs.int_no ≥ 40 then w.outb 0xA0 0x20 else w).outb 0x20 0x20
      = { w with pics := w.pics.finish n } := by
    rw [hregs]
    unfold Pics.finish
    by_cases h8 : n < 8
    · rw [if_neg (by omega), if_pos h8]
      rfl
    · rw [if_pos (by omega), if_neg h8]
      rfl
  have hat : ∀ w : World, handler_at regs.int_no w = .ok (w.interrupt_handlers ⟨32 + n, by omega⟩) := by
    intro w
    unfold handler_at
    rw [hregs, dif_pos (show 32 + n < 256 by omega)]
  unfold irq_handler Program.handle
  dsimp only
  rw [hends, hat, ok_bind]

/-- A handler keeps the controllers as they are. -/
theorem Program.handle_pics (hP : P.Linked links) {n : Fin 16} {regs : CpuRegs} {w w' : World}
    (h : P.handle n regs w = .ok w') : w'.pics = w.pics := by
  unfold Program.handle at h
  split at h
  · exact hP.quiet _ _ _ _ h
  · rw [← Except.ok.inj h]

theorem isr_handler_pics (hP : P.Linked links) {regs : CpuRegs} {w w' : World}
    (h : isr_handler P.handlers regs w = .ok w') : w'.pics = w.pics := by
  obtain ⟨handler, -, h⟩ := bind_ok_iff.mp h
  split at h
  · exact hP.quiet _ _ _ _ h
  · obtain ⟨r, -, hr⟩ := bind_ok_iff.mp h
    rw [← Except.ok.inj hr]

/-- An interrupt request has no error code. -/
theorem irq_kind (n : Nat) :
    Option.isSome (none : Option Nat) = (decide (32 + n < 32) && has_error_code (32 + n)) := by
  rw [decide_eq_false (by omega)]
  rfl

/-- What an interrupt may find: a processor with room on its stack, and the controllers at rest. -/
structure Safe (m : Computer) : Prop where
  ok : m.1.Ok
  room : 60 ≤ m.1.esp
  pics : Remapped m.2.pics

/-- **An interrupt is served.**  If no line asks, nothing happens.  Otherwise the line that comes first is
    accepted: its handler runs once, on the interrupted registers, with the request already ended; the
    other lines keep asking, and the interrupted code goes on. -/
theorem irq_served (hP : P.Linked links) (hd : init_descriptor_tables links d₀ = .ok d) {m : Computer}
    (safe : Safe m) :
    match m.2.pics.pendingLines with
    | [] => P.accept d m = .ok m
    | n :: ns => ∃ hn : n < 16, (m.2.pics.served n).pendingLines = ns
        ∧ ∃ b : Cpu, b.esp = m.1.esp - 60 ∧ EqOutside (m.1.esp - 60) m.1.esp m.1.mem b.mem
          ∧ P.accept d m = (do
              let w ← P.handle ⟨n, hn⟩ (interruptedRegs m.1 (32 + n) none) { m.2 with pics := m.2.pics.served n }
              .ok (m.1.resumed (P.irq.leave b).mem, w)) := by
  obtain ⟨ok, hroom, hpics⟩ := safe
  have hlines := Pics.inta_lines hpics.idle
  cases hl : m.2.pics.pendingLines with
  | nil =>
      rw [hl] at hlines
      dsimp only at hlines ⊢
      unfold Program.accept
      rw [hlines]
  | cons n ns =>
      rw [hl] at hlines
      dsimp only at hlines ⊢
      obtain ⟨hn, hinta, hrest⟩ := hlines
      have hn16 := (mem_order hn).1
      rw [hpics.vector n] at hinta
      have h32 : ¬ 32 + n < 32 := by omega
      obtain ⟨b, hesp, hout, henter⟩ := Program.enter_eq hP hd ok hroom (by omega) (irq_kind n)
        (by decide)
      refine ⟨hn16, hrest, b, hesp, hout, ?_⟩
      unfold Program.accept
      rw [hinta]
      dsimp only
      rw [henter, Program.service, if_neg h32, Program.function, if_neg h32, irq_handler_eq P hn16 rfl]
      dsimp only
      rw [Pics.serve_idle hpics.idle n]

/-! ## §4. Runs. -/

/-- What happens to the machine. -/
inductive Event where
  /-- A device raises line `n`. -/
  | raise (n : Nat)
  /-- The processor takes the interrupt that the controllers have. -/
  | accept
  /-- The last line of the master, or of the slave, was dropped before the controllers were asked. -/
  | spurious (slave : Bool)
  /-- Exception `v`. -/
  | exception (v : Nat) (err : Option Nat)
  /-- The interrupted code goes on for a while. -/
  | main

/-- One step. -/
def Program.Step (P : Program) (d : Descriptors) (m : Computer) (e : Event) (m' : Computer) : Prop :=
  match e with
  | .raise n => n ∈ order ∧ m' = (m.1, { m.2 with pics := m.2.pics.raise n })
  | .accept => P.accept d m = .ok m'
  | .spurious slave =>
      P.enter d (m.2.pics.spurious slave).1 none (m.1, { m.2 with pics := (m.2.pics.spurious slave).2 }) = .ok m'
  -- one of the exceptions whose stub expects what the processor pushes
  | .exception v err => v < 32 ∧ err.isSome = has_error_code v ∧ err.getD 0 < 4294967296 ∧ P.enter d v err m = .ok m'
  -- code that leaves the controllers alone and always has room for an interrupt
  | .main => m'.1.Ok ∧ 60 ≤ m'.1.esp ∧ m'.2.pics = m.2.pics

theorem Cpu.Ok.resumed {c : Cpu} (ok : c.Ok) (mem : Mem) : (c.resumed mem).Ok :=
  ⟨ok.eax, ok.ecx, ok.edx, ok.ebx, ok.esp, ok.ebp, ok.esi, ok.edi, ok.cs, ok.ds, ok.eip, ok.eflags, ok.ring⟩

/-- An interrupt that returns: what it does to the processor, and to the controllers. -/
theorem Program.enter_safe (hP : P.Linked links) (hd : init_descriptor_tables links d₀ = .ok d) {c : Cpu} {w : World}
    {m : Computer} {v : Nat} {err : Option Nat} (ok : c.Ok) (hroom : 60 ≤ c.esp) (hv : v < 48)
    (herr : err.isSome = (decide (v < 32) && has_error_code v)) (he : err.getD 0 < 4294967296)
    (h : P.enter d v err (c, w) = .ok m) :
    m.1.Ok ∧ 60 ≤ m.1.esp ∧ m.2.pics = if v < 32 then w.pics else w.pics.finish (v - 32) := by
  obtain ⟨b, -, -, henter⟩ := Program.enter_eq hP hd ok hroom hv herr he
  rw [henter, bind_ok_iff] at h
  obtain ⟨w', hw', hm⟩ := h
  obtain rfl := Except.ok.inj hm
  refine ⟨ok.resumed _, hroom, ?_⟩
  unfold Program.service at hw'
  by_cases h32 : v < 32
  · rw [if_pos h32] at hw' ⊢
    exact isr_handler_pics hP hw'
  · rw [if_neg h32] at hw' ⊢
    have hn : v - 32 < 16 := by omega
    have hregs : (interruptedRegs c v err).int_no = 32 + (v - 32) := by
      show v = 32 + (v - 32)
      omega
    rw [irq_handler_eq P hn hregs] at hw'
    exact Program.handle_pics hP hw'

/-- What a step does to the lines that ask: a device adds its own, the processor takes the first, and
    nothing else changes them. -/
def LinesStep (m : Computer) (e : Event) (m' : Computer) : Prop :=
  match e with
  | .raise n => ∀ k ∈ order, m'.2.pics.pending k = (m.2.pics.pending k || k == n)
  | .accept => m'.2.pics.pendingLines = m.2.pics.pendingLines.tail
  | _ => m'.2.pics.pendingLines = m.2.pics.pendingLines

/-- An interrupt request that returns: its handler has run. -/
theorem Program.enter_handles (hP : P.Linked links) (hd : init_descriptor_tables links d₀ = .ok d) {c : Cpu}
    {w : World}
    {m : Computer} {n : Nat} (hn : n < 16) (ok : c.Ok) (hroom : 60 ≤ c.esp)
    (h : P.enter d (32 + n) none (c, w) = .ok m) :
    P.handle ⟨n, hn⟩ (interruptedRegs c (32 + n) none) { w with pics := w.pics.finish n } = .ok m.2 := by
  obtain ⟨b, -, -, henter⟩ := Program.enter_eq hP hd ok hroom (show 32 + n < 48 by omega) (irq_kind n) (by decide)
  rw [henter, bind_ok_iff] at h
  obtain ⟨w', hw', hm⟩ := h
  rw [Program.service, if_neg (by omega), irq_handler_eq P hn rfl] at hw'
  rw [hw', ← Except.ok.inj hm]

/-- **One step** leaves the machine ready for the next interrupt. -/
theorem Program.step_safe (hP : P.Linked links) (hd : init_descriptor_tables links d₀ = .ok d) {m m' : Computer}
    {e : Event} (safe : Safe m) (h : P.Step d m e m') : Safe m' ∧ LinesStep m e m' := by
  obtain ⟨ok, hroom, hpics⟩ := safe
  cases e with
  | raise n =>
      obtain ⟨hn, rfl⟩ := h
      exact ⟨⟨ok, hroom, hpics.raise n⟩, fun k hk => m.2.pics.raise_pending hk hn⟩
  | accept =>
      have hserved := irq_served hP hd ⟨ok, hroom, hpics⟩
      have h : P.accept d m = .ok m' := h
      unfold LinesStep
      cases hl : m.2.pics.pendingLines with
      | nil =>
          rw [hl] at hserved
          obtain rfl := Except.ok.inj (hserved.symm.trans h)
          exact ⟨⟨ok, hroom, hpics⟩, hl⟩
      | cons n ns =>
          rw [hl] at hserved
          obtain ⟨hn, hrest, b, -, -, haccept⟩ := hserved
          obtain ⟨w, hw, hm⟩ := bind_ok_iff.mp (haccept.symm.trans h)
          obtain rfl := Except.ok.inj hm
          have hpics' : w.pics = m.2.pics.served n := Program.handle_pics hP hw
          refine ⟨⟨ok.resumed _, hroom, ?_⟩, ?_⟩
          · show Remapped w.pics
            rw [hpics']
            exact hpics.served n
          · show w.pics.pendingLines = ns
            rw [hpics', hrest]
  | spurious slave =>
      have hv := hpics.spurious slave
      have hlt : (if slave then 15 else 7) < 16 := by cases slave <;> decide
      generalize hn : (if slave then 15 else 7) = n at hv hlt
      have h : P.enter d (m.2.pics.spurious slave).1 none (m.1, { m.2 with pics := (m.2.pics.spurious slave).2 })
          = .ok m' := h
      rw [hv] at h
      obtain ⟨ok', hroom', hpics'⟩ := Program.enter_safe hP hd ok hroom (by omega) (irq_kind n) (by decide) h
      obtain ⟨irr, hirr, hsame⟩ := Pics.spurious_idle hpics.idle slave
      rw [if_neg (by omega), Nat.add_sub_cancel_left, ← hn, hirr] at hpics'
      refine ⟨⟨ok', hroom', ?_⟩, ?_⟩
      · rw [hpics']
        exact ⟨⟨hpics.idle.master.irr _, hpics.idle.slave⟩, hpics.master, hpics.slave⟩
      · show m'.2.pics.pendingLines = m.2.pics.pendingLines
        rw [hpics', Pics.pendingLines_congr hsame]
  | exception v err =>
      obtain ⟨h32, herr, he, h⟩ := h
      obtain ⟨ok', hroom', hpics'⟩ := Program.enter_safe hP hd ok hroom (by omega)
        (by rw [decide_eq_true h32, Bool.true_and, herr]) he h
      rw [if_pos h32] at hpics'
      exact ⟨⟨ok', hroom', hpics' ▸ hpics⟩, congrArg Pics.pendingLines hpics'⟩
  | main =>
      obtain ⟨ok', hroom', hpics'⟩ := h
      exact ⟨⟨ok', hroom', hpics' ▸ hpics⟩, congrArg Pics.pendingLines hpics'⟩

/-- What `irq_served` says about the interrupt that the processor takes next. -/
def Program.ServesFirst (P : Program) (d : Descriptors) (m : Computer) : Prop :=
  match m.2.pics.pendingLines with
  | [] => P.accept d m = .ok m
  | n :: _ => ∃ hn : n < 16, ∃ b : Cpu, b.esp = m.1.esp - 60 ∧ EqOutside (m.1.esp - 60) m.1.esp m.1.mem b.mem
      ∧ P.accept d m = (do
          let w ← P.handle ⟨n, hn⟩ (interruptedRegs m.1 (32 + n) none) { m.2 with pics := m.2.pics.served n }
          .ok (m.1.resumed (P.irq.leave b).mem, w))

theorem Program.servesFirst (hP : P.Linked links) (hd : init_descriptor_tables links d₀ = .ok d) {m : Computer}
    (safe : Safe m) : P.ServesFirst d m := by
  have hserved := irq_served hP hd safe
  unfold Program.ServesFirst
  cases hl : m.2.pics.pendingLines with
  | nil =>
      rw [hl] at hserved
      exact hserved
  | cons n ns =>
      rw [hl] at hserved
      obtain ⟨hn, -, b, hesp, hout, haccept⟩ := hserved
      exact ⟨hn, b, hesp, hout, haccept⟩

theorem outbs_append (as bs : List (Nat × Nat)) (ps : Pics) : outbs (as ++ bs) ps = outbs bs (outbs as ps) :=
  List.foldl_append

/-- The bytes that `init_descriptor_tables` sends are the last ones. -/
theorem init_descriptor_tables_ports (hd : init_descriptor_tables links d₀ = .ok d) :
    d.ports.reverse = d₀.ports.reverse ++ remap_irqs := by
  obtain ⟨d₁, h1, h2⟩ := bind_ok_iff.mp hd
  obtain ⟨gdt, hgdt, -⟩ := init_gdt_spec links d₀
  obtain rfl := Except.ok.inj (h1.symm.trans hgdt)
  obtain ⟨idt, -, hidt⟩ := bind_ok_iff.mp h2
  rw [← Except.ok.inj hidt]
  exact List.reverse_append

/-- **No interrupt is blocked or lost.**  After `init_descriptor_tables`, whatever was sent to the
    controllers before, in every state of every run the interrupt that the processor takes is that of the
    first line that asks, and it is served.  In the run a line asks from the time its device raises it until
    it is served, spurious interrupts, exceptions and the interrupted code notwithstanding. -/
theorem interrupts_never_block (hP : P.Linked links) (hd : init_descriptor_tables links d₀ = .ok d) {m : Computer}
    (ok : m.1.Ok) (hroom : 60 ≤ m.1.esp) {ps : Pics} (hpics : m.2.pics = outbs d.ports.reverse ps)
    {tr : List (Event × Computer)} (htr : Trace (P.Step d) m tr) :
    Trace LinesStep m tr ∧ ∀ x, Reached m tr x → P.ServesFirst d x := by
  have hremapped : Remapped m.2.pics := by
    rw [hpics, init_descriptor_tables_ports hd, outbs_append]
    exact (remap_irqs_idle _).1
  have hstep : ∀ m e m', Safe m → True → P.Step d m e m' → Safe m' ∧ LinesStep m e m' :=
    fun _ _ _ safe _ h => Program.step_safe hP hd safe h
  have safe : Safe m := ⟨ok, hroom, hremapped⟩
  refine ⟨(Trace.refine hstep safe htr (along_true m tr)).2, fun x hx => ?_⟩
  exact Program.servesFirst hP hd (Trace.reached hstep safe htr (along_true m tr) hx)

end

/-- A kernel with the handlers `code`, and 16 bytes for each stub. -/
def smallProgram (code : Handlers) : Program :=
  { handlers := code
    isr := { body := isr_handler code, leave := clobber.leave, ret := clobber.ret }
    irq := { body := irq_handler code, leave := clobber.leave, ret := clobber.ret }
    text := fun a =>
      if a < 0x100800 then
        (isr_stub ((a - 0x100000) / 16), { body := isr_handler code, leave := clobber.leave, ret := clobber.ret })
      else (irq_stub ((a - 0x100800) / 16), { body := irq_handler code, leave := clobber.leave, ret := clobber.ret }) }

def smallLinks : Links :=
  { gdt_entries := 0x102000, idt_entries := 0x102100
    isr := fun n => 0x100000 + 16 * (n % 32), irq := fun n => 0x100800 + 16 * (n % 16)
    isr_lt := fun n => by omega
    irq_lt := fun n => by omega }

theorem smallProgram_linked {code : Handlers} (hquiet : ∀ a regs w w', code a regs w = .ok w' → w'.pics = w.pics) :
    (smallProgram code).Linked smallLinks where
  isr_body := rfl
  irq_body := rfl
  isr_cdecl := ⟨clobber_cdecl.ret, clobber_cdecl.esp, clobber_cdecl.ss, clobber_cdecl.argument⟩
  irq_cdecl := ⟨clobber_cdecl.ret, clobber_cdecl.esp, clobber_cdecl.ss, clobber_cdecl.argument⟩
  isr_text n hn := by
    have hindex : (smallLinks.isr n - 0x100000) / 16 = n := by
      show (0x100000 + 16 * (n % 32) - 0x100000) / 16 = n
      omega
    show (if 0x100000 + 16 * (n % 32) < 0x100800 then _ else _) = _
    rw [if_pos (by omega), hindex]
    rfl
  irq_text n hn := by
    have hindex : (smallLinks.irq n - 0x100800) / 16 = n := by
      show (0x100800 + 16 * (n % 16) - 0x100800) / 16 = n
      omega
    show (if 0x100800 + 16 * (n % 16) < 0x100800 then _ else _) = _
    rw [if_neg (by omega), hindex]
    rfl
  quiet := hquiet

/-- Handlers that count. -/
def countTick : Handlers := fun _ _ w => .ok { w with tick := w.tick + 1 }

theorem countTick_quiet (a : Nat) (regs : CpuRegs) (w w' : World) (h : countTick a regs w = .ok w') :
    w'.pics = w.pics := by
  rw [← Except.ok.inj h]

/-- Tables, controllers and variables as they may be when the kernel is entered. -/
def coldTables : Descriptors :=
  { gdt_entries := fun _ => ⟨0, 0, 0, 0, 0, 0⟩, gdt_ptr := ⟨0, 0⟩
    idt_entries := fun _ => ⟨0, 0, 0, 0, 0⟩, idt_ptr := ⟨0, 0⟩, gdtr := ⟨0, 0⟩, idtr := ⟨0, 0⟩
    cs := 8, ds := 16, es := 16, fs := 16, gs := 16, ss := 16, ports := [] }

def coldPics : Pics := ⟨initialised 8, initialised 0x70⟩

def warmWorld (ps : Pics) : World :=
  { interrupt_handlers := fun _ => 0x100a00, tick := 0, monitor := Monitor.fresh (fun _ => 0) 0 0, pics := ps
    pit := { access := 3, mode := 3, bcd := false, low := none, count := some 0 } }

/-- Line 9 is raised, then line 0, which is served first. -/
theorem interrupts_never_block_two_lines :
    ∃ d, init_descriptor_tables smallLinks coldTables = .ok d
      ∧ (smallProgram countTick).ServesFirst d
        (ring0, warmWorld (((outbs d.ports.reverse coldPics).raise 9).raise 0)) := by
  obtain ⟨d, hd, -⟩ := vectors_route smallLinks coldTables
  refine ⟨d, hd, ?_⟩
  generalize hps : outbs d.ports.reverse coldPics = ps
  have hroom : 60 ≤ ring0.esp := by decide
  exact (interrupts_never_block (m := (ring0, warmWorld ps)) (smallProgram_linked countTick_quiet) hd ring0_ok
    hroom hps.symm (show Trace _ _ [(.raise 9, (ring0, warmWorld (ps.raise 9))),
        (.raise 0, (ring0, warmWorld ((ps.raise 9).raise 0)))]
      from ⟨⟨by decide, rfl⟩, ⟨by decide, rfl⟩, trivial⟩)).2 _ (.inr ⟨.raise 0, by simp⟩)

/-- **Exceptions.**  Whatever the processor was doing at ring 0, with the error code that it pushes or without,
    an exception calls the handler registered for it once, on the interrupted registers, or writes that there
    is none; only 60 bytes below the stack have been written by then, and afterwards the interrupted code goes
    on, with copies of `ds` in `es`, `fs` and `gs`.  The four exceptions whose error code the stubs do not know
    of are left out. -/
theorem exceptions_resume {P : Program} {links : Links} {d₀ d : Descriptors} (hP : P.Linked links)
    (hd : init_descriptor_tables links d₀ = .ok d) {c : Cpu} {v : Nat} {err : Option Nat} (ok : c.Ok)
    (hroom : 60 ≤ c.esp) (hv : v < 32) (hknown : v ∉ [17, 21, 29, 30]) (herr : err.isSome = pushes_error_code v)
    (he : err.getD 0 < 4294967296) :
    ∃ b : Cpu, b.esp = c.esp - 60 ∧ EqOutside (c.esp - 60) c.esp c.mem b.mem ∧ ∀ w : World,
      P.enter d v err (c, w) =
        (if w.interrupt_handlers ⟨v, by omega⟩ ≠ 0 then
          P.handlers (w.interrupt_handlers ⟨v, by omega⟩) (interruptedRegs c v err) w
        else w.printf (literal "unhandled interrupt: %d\n") [.word (UInt32.ofNat v)])
        >>= fun w' => .ok (c.resumed (P.isr.leave b).mem, w') := by
  obtain ⟨b, hesp, hout, henter⟩ := Program.enter_eq hP hd ok hroom (show v < 48 by omega)
    (by rw [decide_eq_true hv, Bool.true_and, herr, (has_error_code_iff hv).mpr hknown]) he
  refine ⟨b, hesp, hout, fun w => ?_⟩
  have hint : (interruptedRegs c v err).int_no = v := rfl
  have hat : handler_at (interruptedRegs c v err).int_no w = .ok (w.interrupt_handlers ⟨v, by omega⟩) := by
    unfold handler_at
    rw [hint, dif_pos (by omega)]
  rw [henter, Program.service, if_pos hv, Program.function, if_pos hv, isr_handler, hat, ok_bind, hint]

/-- A page fault, which comes with an error code. -/
theorem exceptions_resume_page_fault :
    ∃ d b, init_descriptor_tables smallLinks coldTables = .ok d ∧ b.esp = ring0.esp - 60
      ∧ (smallProgram countTick).enter d 14 (some 2) (ring0, warmWorld coldPics)
        = .ok (ring0.resumed ((smallProgram countTick).isr.leave b).mem, { warmWorld coldPics with tick := 1 }) := by
  obtain ⟨d, hd, -⟩ := vectors_route smallLinks coldTables
  have hroom : 60 ≤ ring0.esp := by decide
  have herr : Option.isSome (some 2) = pushes_error_code 14 := by decide
  obtain ⟨b, hesp, -, henter⟩ := exceptions_resume (smallProgram_linked countTick_quiet) hd ring0_ok hroom
    (show 14 < 32 by decide) (by decide) herr (show (2 : Nat) < 4294967296 by decide)
  exact ⟨d, b, hd, hesp, henter (warmWorld coldPics)⟩

end JamesM
