/-
  JamesM.Interrupt.Timer — the clock (`timer.c`).

  `init_timer` registers `timer_callback` for line 0 and programs the interval timer;
  each interrupt of the timer then prints a line with the number of ticks so far.

  Main results:
    * `timer_rate` — the timer divides its clock as asked for exactly if the frequency
      is between 19 Hz and half of the clock's own;
    * `ticks_logged` — in every run the number of ticks is that of the interrupts of
      the timer, and the console has one line for each of them and for each exception,
      in order.
-/
import JamesM.Interrupt.Dispatch

namespace JamesM

open JamesM.Pic8259 JamesM.Pit8253 JamesM.Word32 JamesM.Lib

/-! ## §1. The source. -/

def IRQ0 : Nat := 32

/-- `timer_callback(regs)`. -/
def timer_callback (_regs : CpuRegs) (w : World) : Result World :=
  let tick := add32 w.tick 1
  World.printf (literal "Tick: %d\n") [.word (UInt32.ofNat tick)] { w with tick := tick }

/-- `init_timer(freq)`; `callback` is the address of `timer_callback`.  A division by zero is an exception. -/
def init_timer (callback freq : Nat) (w : World) : Result World := do
  let w ← register_interrupt_handler IRQ0 callback w
  if freq = 0 then .error .fault
  else
    let div := 1193180 / freq
    -- the command byte
    let w := w.outb 0x43 0x36
    let lo := div &&& 0xFF
    let hi := (div >>> 8) &&& 0xFF
    .ok ((w.outb 0x40 lo).outb 0x40 hi)

/-! ## §2. The rate. -/

theorem init_timer_eq (callback : Nat) {freq : Nat} (hfreq : freq ≠ 0) (w : World) :
    init_timer callback freq w = .ok { w with
      interrupt_handlers := Function.update w.interrupt_handlers 32 callback
      pit := { access := 3, mode := 3, bcd := false, low := none, count := some (1193180 / freq % 65536) } } := by
  have hcount : 256 * (((1193180 / freq) >>> 8 &&& 0xFF) % 256) + (1193180 / freq &&& 0xFF) % 256
      = 1193180 / freq % 65536 := by
    rw [land_ff, land_ff, Nat.shiftRight_eq_div_pow]
    omega
  unfold init_timer register_interrupt_handler
  rw [dif_pos (by decide), ok_bind, if_neg hfreq]
  dsimp only
  unfold World.outb
  dsimp only
  rw [Pit.program _ _ _ _ (by decide) (by decide), hcount]
  rfl

/-- **The rate.**  The timer makes a square wave, and divides its clock of 1193180 Hz by the divisor asked
    for, which then is as close as can be, if and only if the frequency is between 19 Hz, below which the
    divisor does not fit in 16 bits, and 596590 Hz, above which it is less than 2. -/
theorem timer_rate (callback : Nat) {freq : Nat} (hfreq : freq ≠ 0) (w : World) :
    ∃ w', init_timer callback freq w = .ok w' ∧ w'.pit.mode = 3
      ∧ (w'.pit.divisor = some (1193180 / freq) ↔ 19 ≤ freq ∧ freq ≤ 596590)
      ∧ (19 ≤ freq → freq ≤ 596590 → ∃ n, w'.pit.divisor = some n
        ∧ freq * n ≤ 1193180 ∧ 1193180 < freq * (n + 1)) := by
  have hdiv : 1193180 / freq < 65536 ↔ 19 ≤ freq := by
    rcases Nat.lt_or_ge freq 19 with hlow | hlow
    · have hle : 1193180 / 18 ≤ 1193180 / freq := Nat.div_le_div_left (by omega) (by omega)
      omega
    · have hle : 1193180 / freq ≤ 1193180 / 19 := Nat.div_le_div_left hlow (by decide)
      omega
  have hhalf : 2 ≤ 1193180 / freq ↔ freq ≤ 596590 := by
    rw [Nat.le_div_iff_mul_le (by omega)]
    omega
  have hnot : 1193180 / freq ≠ 65536 := by
    -- the quotient jumps over 65536 between 18 Hz and 19 Hz
    rcases Nat.lt_or_ge freq 19 with hlow | hlow
    · have hle : 1193180 / 18 ≤ 1193180 / freq := Nat.div_le_div_left (by omega) (by omega)
      omega
    · have := hdiv.mpr hlow
      omega
  refine ⟨_, init_timer_eq callback hfreq w, rfl, ?_⟩
  rw [Pit.divisor_square_wave _ rfl rfl rfl]
  generalize hq : 1193180 / freq = div at hdiv hhalf hnot ⊢
  have hiff : (if div % 65536 = 0 then some 65536 else if div % 65536 = 1 then none else some (div % 65536))
      = some div ↔ 19 ≤ freq ∧ freq ≤ 596590 := by
    rw [← hdiv, ← hhalf]
    constructor
    · intro h
      split at h
      · exact absurd (Option.some.inj h).symm hnot
      · split at h
        · exact absurd h (by simp)
        · have := Option.some.inj h
          omega
    · rintro ⟨h1, h2⟩
      rw [if_neg (by omega), if_neg (by omega), Nat.mod_eq_of_lt h1]
  refine ⟨hiff, fun h1 h2 => ⟨div, hiff.mpr ⟨h1, h2⟩, ?_⟩⟩
  rw [← hq]
  exact ⟨Nat.mul_div_le 1193180 freq, Nat.lt_mul_div_succ 1193180 (Nat.pos_of_ne_zero hfreq)⟩

/-- A hundred ticks a second. -/
theorem timer_rate_100 :
    ∃ w', init_timer 0x100a00 100 (warmWorld coldPics) = .ok w' ∧ w'.pit.divisor = some 11931 := by
  obtain ⟨w', hw, -, hiff, -⟩ := timer_rate 0x100a00 (show 100 ≠ 0 by decide) (warmWorld coldPics)
  exact ⟨w', hw, hiff.mpr ⟨by decide, by decide⟩⟩

/-! ## §3. The log. -/

/-- The line of tick `k`. -/
def tickText (k : Nat) : List UInt8 := bytes "Tick: " ++ (Piece.signed (toInt32 k)).render ++ bytes "\n"

/-- The line of an exception without a handler. -/
def unhandledText (v : Nat) : List UInt8 :=
  bytes "unhandled interrupt: " ++ (Piece.signed (toInt32 v)).render ++ bytes "\n"

theorem World.printf_int {before after : List UInt8} (hbefore : Plain before) (hafter : Plain after) {k : Nat}
    (hk : k < 4294967296) (w : World) :
    w.printf (before ++ ch '%' :: ch 'd' :: (after ++ [0])) [.word (UInt32.ofNat k)]
      = .ok { w with monitor := mon_putchars (before ++ (Piece.signed (toInt32 k)).render ++ after) w.monitor } := by
  have hword : (UInt32.ofNat k).toNat = k := by
    rw [UInt32.toNat_ofNat']
    exact Nat.mod_eq_of_lt hk
  have hprintf := printf_one hbefore hafter (.signed (UInt32.ofNat k) []) w.monitor
  rw [hword] at hprintf
  unfold World.printf
  rw [hprintf, ok_bind]

/-- `timer_callback` counts and writes a line. -/
theorem timer_callback_eq (regs : CpuRegs) (w : World) :
    timer_callback regs w
      = .ok { w with tick := add32 w.tick 1, monitor := mon_putchars (tickText (add32 w.tick 1)) w.monitor } := by
  have hlt : add32 w.tick 1 < 4294967296 := Nat.mod_lt _ (by decide)
  unfold timer_callback
  dsimp only
  have hlit : literal "Tick: %d\n" = bytes "Tick: " ++ ch '%' :: ch 'd' :: (bytes "\n" ++ [0]) := by decide
  rw [hlit, World.printf_int (by decide) (by decide) hlt]
  rfl

/-- An exception without a handler. -/
theorem isr_handler_unhandled (code : Handlers) {regs : CpuRegs} {w : World} (hn : regs.int_no < 32)
    (h : w.interrupt_handlers ⟨regs.int_no, by omega⟩ = 0) :
    isr_handler code regs w
      = .ok { w with monitor := mon_putchars (unhandledText regs.int_no) w.monitor } := by
  have hlit : literal "unhandled interrupt: %d\n"
      = bytes "unhandled interrupt: " ++ ch '%' :: ch 'd' :: (bytes "\n" ++ [0]) := by decide
  unfold isr_handler handler_at
  rw [dif_pos (by omega), ok_bind, h, if_neg (not_not.mpr rfl), hlit,
    World.printf_int (by decide) (by decide) (by omega)]
  rfl

/-- What the log needs: `timer_callback` is the handler of line 0, and of the other handlers that are
    registered none returns. -/
structure Clocked (P : Program) (w : World) : Prop where
  handler : w.interrupt_handlers 32 ≠ 0
  callback : P.handlers (w.interrupt_handlers 32) = timer_callback
  others : ∀ n, n ≠ 32 → w.interrupt_handlers n = 0
    ∨ ∀ regs w₁ w₂, P.handlers (w.interrupt_handlers n) regs w₁ ≠ .ok w₂

/-- A step while the interrupted code leaves the data of the kernel alone. -/
def Program.IdleStep (P : Program) (d : Descriptors) (m : Computer) (e : Event) (m' : Computer) : Prop :=
  P.Step d m e m' ∧ (e = .main → m'.2 = m.2)

/-- The timer interrupts the processor. -/
def IsTick (m : Computer) : Event → Bool
  | .accept => m.2.pics.pendingLines.head? == some 0
  | _ => false

/-- The ticks of a run. -/
def ticks (m : Computer) : List (Event × Computer) → Nat
  | [] => 0
  | (e, m') :: tr => (if IsTick m e then 1 else 0) + ticks m' tr

/-- What one step writes when `k` ticks have been counted. -/
def stepText (k : Nat) (m : Computer) (e : Event) : List UInt8 :=
  if IsTick m e then tickText (add32 k 1)
  else
    match e with
    | .exception v _ => unhandledText v
    | _ => []

theorem stepText_exception (k : Nat) (m : Computer) (v : Nat) (err : Option Nat) :
    stepText k m (.exception v err) = unhandledText v := by
  unfold stepText
  exact if_neg Bool.false_ne_true

/-- What the run writes. -/
def transcript (k : Nat) (m : Computer) : List (Event × Computer) → List UInt8
  | [] => []
  | (e, m') :: tr => stepText k m e ++ transcript (if IsTick m e then add32 k 1 else k) m' tr

/-- What a step does to the data of the kernel, as far as the log depends on it. -/
structure Logs (w : World) (tick : Bool) (text : List UInt8) (w' : World) : Prop where
  handlers : w'.interrupt_handlers = w.interrupt_handlers
  tick : w'.tick = if tick then add32 w.tick 1 else w.tick
  monitor : w'.monitor = mon_putchars text w.monitor

section

variable {P : Program} {links : Links} {d₀ d : Descriptors}

/-- The handler of a line, when it returns. -/
theorem Clocked.handle {w w' : World} (clocked : Clocked P w) {n : Fin 16} {regs : CpuRegs}
    (h : P.handle n regs w = .ok w') :
    Logs w (n == 0) (if n = 0 then tickText (add32 w.tick 1) else []) w' := by
  unfold Program.handle at h
  by_cases hn : n = 0
  · subst hn
    have h : (if w.interrupt_handlers 32 ≠ 0 then P.handlers (w.interrupt_handlers 32) regs w else .ok w)
        = .ok w' := h
    rw [if_pos clocked.handler] at h
    have hcallback : timer_callback regs w = .ok w' := (congrFun (congrFun clocked.callback regs) w).symm.trans h
    rw [timer_callback_eq] at hcallback
    rw [if_pos rfl, show ((0 : Fin 16) == 0) = true from rfl]
    generalize ht : add32 w.tick 1 = t at hcallback ⊢
    generalize tickText t = text at hcallback ⊢
    obtain rfl := Except.ok.inj hcallback
    exact ⟨rfl, by rw [if_pos rfl, ht], rfl⟩
  · have hne : (⟨32 + n, by omega⟩ : Fin 256) ≠ 32 := fun he => hn (Fin.ext (by
      have : 32 + n.val = 32 := congrArg Fin.val he
      show n.val = 0
      omega))
    have hfalse : (n == 0) = false := by simpa using hn
    rw [if_neg hn, hfalse]
    rcases clocked.others _ hne with h0 | hnever
    · rw [if_neg (not_not.mpr h0)] at h
      obtain rfl := Except.ok.inj h
      exact ⟨rfl, rfl, rfl⟩
    · split at h
      · exact absurd h (hnever _ _ _)
      · obtain rfl := Except.ok.inj h
        exact ⟨rfl, rfl, rfl⟩

/-- An exception, when its handler returns. -/
theorem Clocked.exception {w w' : World} (clocked : Clocked P w) {regs : CpuRegs} (hn : regs.int_no < 32)
    (h : isr_handler P.handlers regs w = .ok w') : Logs w false (unhandledText regs.int_no) w' := by
  have hne : (⟨regs.int_no, by omega⟩ : Fin 256) ≠ 32 := fun he => by
    have : regs.int_no = 32 := congrArg Fin.val he
    omega
  by_cases h0 : w.interrupt_handlers ⟨regs.int_no, by omega⟩ = 0
  · rw [isr_handler_unhandled _ hn h0] at h
    generalize unhandledText regs.int_no = text at h ⊢
    obtain rfl := Except.ok.inj h
    exact ⟨rfl, rfl, rfl⟩
  · rcases clocked.others _ hne with h0' | hnever
    · exact absurd h0' h0
    · unfold isr_handler handler_at at h
      rw [dif_pos (by omega), ok_bind, if_pos h0] at h
      exact absurd h (hnever _ _ _)

/-- The controllers do not matter to the log. -/
theorem Clocked.pics {w : World} (clocked : Clocked P w) (ps : Pics) : Clocked P { w with pics := ps } :=
  ⟨clocked.handler, clocked.callback, clocked.others⟩

/-- A step that leaves the data of the kernel alone. -/
theorem Logs.same (w : World) : Logs w false [] w := ⟨rfl, rfl, rfl⟩

theorem Logs.pics {w w' : World} {tick : Bool} {text : List UInt8} {ps : Pics}
    (h : Logs { w with pics := ps } tick text w') : Logs w tick text w' := ⟨h.handlers, h.tick, h.monitor⟩

/-- **One step** writes its text. -/
theorem Program.idle_logs (hP : P.Linked links) (hd : init_descriptor_tables links d₀ = .ok d) {m m' : Computer}
    {e : Event} (safe : Safe m) (clocked : Clocked P m.2) (h : P.IdleStep d m e m') :
    Logs m.2 (IsTick m e) (stepText m.2.tick m e) m'.2 := by
  obtain ⟨h, hmain⟩ := h
  cases e with
  | raise n =>
      obtain ⟨-, rfl⟩ := h
      exact ⟨rfl, rfl, rfl⟩
  | accept =>
      have hserved := irq_served hP hd safe
      have h : P.accept d m = .ok m' := h
      unfold stepText IsTick
      cases hl : m.2.pics.pendingLines with
      | nil =>
          rw [hl] at hserved
          obtain rfl := Except.ok.inj (hserved.symm.trans h)
          exact .same _
      | cons n ns =>
          rw [hl] at hserved
          obtain ⟨hn, -, b, -, -, haccept⟩ := hserved
          obtain ⟨w, hw, hm⟩ := bind_ok_iff.mp (haccept.symm.trans h)
          obtain rfl := Except.ok.inj hm
          have hlogs := (Clocked.handle (clocked.pics _) hw).pics
          have hhead : ((n :: ns).head? == some 0) = (n == 0) := rfl
          rw [hhead]
          by_cases h0 : n = 0
          · subst h0
            exact hlogs
          · have hne : (⟨n, hn⟩ : Fin 16) ≠ 0 := fun he => h0 (congrArg Fin.val he)
            have hfalse : (n == 0) = false := by simpa using h0
            have hfalse' : ((⟨n, hn⟩ : Fin 16) == 0) = false := by simpa using hne
            rw [if_neg hne, hfalse'] at hlogs
            rw [hfalse]
            exact hlogs
  | spurious slave =>
      have hv := safe.pics.spurious slave
      have hn : (if slave then 15 else 7) < 16 ∧ (if slave then 15 else 7) ≠ 0 := by cases slave <;> decide
      generalize (if slave then 15 else 7) = n at hv hn
      have h : P.enter d (m.2.pics.spurious slave).1 none (m.1, { m.2 with pics := (m.2.pics.spurious slave).2 })
          = .ok m' := h
      rw [hv] at h
      have hlogs := (Clocked.handle ((clocked.pics _).pics _)
        (Program.enter_handles hP hd hn.1 safe.ok safe.room h)).pics.pics
      have hne : (⟨n, hn.1⟩ : Fin 16) ≠ 0 := fun he => hn.2 (congrArg Fin.val he)
      have hfalse : ((⟨n, hn.1⟩ : Fin 16) == 0) = false := by simpa using hne
      rw [if_neg hne, hfalse] at hlogs
      exact hlogs
  | exception v err =>
      obtain ⟨h32, herr, he, h⟩ := h
      obtain ⟨b, -, -, henter⟩ := Program.enter_eq hP hd safe.ok safe.room (show v < 48 by omega)
        (by rw [decide_eq_true h32, Bool.true_and, herr]) he
      have h : P.enter d v err (m.1, m.2) = .ok m' := h
      rw [henter, bind_ok_iff] at h
      obtain ⟨w, hw, hm⟩ := h
      obtain rfl := Except.ok.inj hm
      rw [Program.service, if_pos h32] at hw
      have hint : (interruptedRegs m.1 v err).int_no = v := rfl
      have hlogs := clocked.exception (by rw [hint]; exact h32) hw
      rw [hint] at hlogs
      rw [stepText_exception, show IsTick m (.exception v err) = false from rfl]
      exact hlogs
  | main =>
      rw [hmain rfl]
      exact .same _

/-- **A run** writes its transcript. -/
theorem Program.idle_run (hP : P.Linked links) (hd : init_descriptor_tables links d₀ = .ok d)
    {tr : List (Event × Computer)} : ∀ {m : Computer}, Safe m → Clocked P m.2 → m.2.tick < 4294967296 →
    Trace (P.IdleStep d) m tr →
    (final m tr).2.tick = (m.2.tick + ticks m tr) % 4294967296
      ∧ (final m tr).2.monitor = mon_putchars (transcript m.2.tick m tr) m.2.monitor := by
  induction tr with
  | nil =>
      intro m _ _ hlt _
      exact ⟨(Nat.mod_eq_of_lt hlt).symm, rfl⟩
  | cons x tr ih =>
      obtain ⟨e, m'⟩ := x
      intro m safe clocked hlt htr
      obtain ⟨hstep, htr⟩ := htr
      obtain ⟨hhandlers, htick, hmonitor⟩ := Program.idle_logs hP hd safe clocked hstep
      have safe' := (Program.step_safe hP hd safe hstep.1).1
      have clocked' : Clocked P m'.2 := by
        obtain ⟨h1, h2, h3⟩ := clocked
        exact ⟨hhandlers ▸ h1, hhandlers ▸ h2, hhandlers ▸ h3⟩
      have hlt' : m'.2.tick < 4294967296 := by
        rw [htick]
        split
        · exact Nat.mod_lt _ (by decide)
        · exact hlt
      obtain ⟨hticks, htext⟩ := ih safe' clocked' hlt' htr
      have hfinal : final m ((e, m') :: tr) = final m' tr := rfl
      refine ⟨?_, ?_⟩
      · rw [hfinal, hticks, htick, ticks]
        unfold add32
        split <;> omega
      · rw [hfinal, htext, htick, hmonitor, transcript, mon_putchars_append]

/-- **The clock.**  Once `init_timer` has returned, and as long as the interrupted code leaves the data of
    the kernel alone, the number of ticks in every run is the number of interrupts of the timer.  The
    console gets one line for each of them, with the ticks so far, and one for each exception that no handler
    is registered for, in the order in which they happened. -/
theorem ticks_logged (hP : P.Linked links) (hd : init_descriptor_tables links d₀ = .ok d) {m : Computer} (ok : m.1.Ok)
    (hroom : 60 ≤ m.1.esp) {ps : Pics} (hpics : m.2.pics = outbs d.ports.reverse ps) {callback freq : Nat}
    {w : World} (hinit : init_timer callback freq w = .ok m.2) (htick : w.tick = 0)
    (hcallback : P.handlers callback = timer_callback) (hne : callback ≠ 0)
    (hothers : ∀ n, n ≠ 32 → w.interrupt_handlers n = 0
      ∨ ∀ regs w₁ w₂, P.handlers (w.interrupt_handlers n) regs w₁ ≠ .ok w₂)
    {tr : List (Event × Computer)} (htr : Trace (P.IdleStep d) m tr) :
    (final m tr).2.tick = ticks m tr % 4294967296
      ∧ (final m tr).2.monitor = mon_putchars (transcript 0 m tr) m.2.monitor := by
  have hfreq : freq ≠ 0 := by
    rintro rfl
    exact nomatch hinit
  rw [init_timer_eq callback hfreq] at hinit
  have hw := Except.ok.inj hinit
  have hm : m.2.tick = 0 := by rw [← hw]; exact htick
  have hhandlers : m.2.interrupt_handlers = Function.update w.interrupt_handlers 32 callback := by rw [← hw]
  have clocked : Clocked P m.2 := by
    refine ⟨?_, ?_, fun n hn => ?_⟩
    · rw [hhandlers, Function.update_self]
      exact hne
    · rw [hhandlers, Function.update_self]
      exact hcallback
    · rw [hhandlers, Function.update_of_ne hn]
      exact hothers n hn
  have hremapped : Remapped m.2.pics := by
    rw [hpics, init_descriptor_tables_ports hd, outbs_append]
    exact (remap_irqs_idle _).1
  have hrun := Program.idle_run hP hd ⟨ok, hroom, hremapped⟩ clocked (by rw [hm]; decide) htr
  rw [hm, Nat.zero_add] at hrun
  exact hrun

end

/-- `timer_callback`, and no other function. -/
def clockCode : Handlers := fun a => if a = 0x100a00 then timer_callback else fun _ _ => .error .fault

theorem clockCode_quiet (a : Nat) (regs : CpuRegs) (w w' : World) (h : clockCode a regs w = .ok w') :
    w'.pics = w.pics := by
  unfold clockCode at h
  split at h
  · rw [timer_callback_eq] at h
    rw [← Except.ok.inj h]
  · exact nomatch h

/-- The world before `init_timer`, without handlers. -/
def clockWorld (ps : Pics) : World := { warmWorld ps with interrupt_handlers := fun _ => 0 }

/-- After `init_timer`, at 100 Hz. -/
def clocked (ps : Pics) : World :=
  { clockWorld ps with
    interrupt_handlers := Function.update (fun _ => 0) 32 0x100a00
    pit := { access := 3, mode := 3, bcd := false, low := none, count := some 11931 } }

/-- The first tick. -/
theorem ticks_logged_first_tick :
    ∃ d ps m', init_descriptor_tables smallLinks coldTables = .ok d ∧ ps = outbs d.ports.reverse coldPics
      ∧ (smallProgram clockCode).accept d (ring0, clocked (ps.raise 0)) = .ok m'
      ∧ m'.2.tick = 1 ∧ m'.2.monitor = mon_putchars (tickText 1) (Monitor.fresh (fun _ => 0) 0 0) := by
  obtain ⟨d, hd, -⟩ := vectors_route smallLinks coldTables
  have hP : (smallProgram clockCode).Linked smallLinks := smallProgram_linked clockCode_quiet
  have hroom : 60 ≤ ring0.esp := by decide
  have hremapped := remap_irqs_idle (outbs coldTables.ports.reverse coldPics)
  rw [← outbs_append, ← init_descriptor_tables_ports hd] at hremapped
  generalize hps : outbs d.ports.reverse coldPics = ps at hremapped
  have hlines : (clocked (ps.raise 0)).pics.pendingLines = [0] := by
    rw [← hps, init_descriptor_tables_ports hd, outbs_append, outbs_remap_irqs]
    rfl
  -- the interrupt is accepted, and the handler returns
  have hserved := irq_served hP hd (m := (ring0, clocked (ps.raise 0))) ⟨ring0_ok, hroom, hremapped.1.raise 0⟩
  rw [hlines] at hserved
  obtain ⟨hn, -, b, -, -, haccept⟩ := hserved
  have hcallback : ∀ regs w, (smallProgram clockCode).handlers 0x100a00 regs w = timer_callback regs w :=
    fun _ _ => rfl
  have hhandle : ∀ regs, ∃ w, (smallProgram clockCode).handle ⟨0, hn⟩ regs
      { clocked (ps.raise 0) with pics := (clocked (ps.raise 0)).pics.served 0 } = .ok w := fun regs =>
    ⟨_, (hcallback regs _).trans (timer_callback_eq regs _)⟩
  obtain ⟨w, hw⟩ := hhandle (interruptedRegs ring0 (32 + 0) none)
  rw [hw, ok_bind] at haccept
  have hinit : init_timer 0x100a00 100 (clockWorld ps) = .ok (clocked ps) :=
    init_timer_eq 0x100a00 (by decide) (clockWorld ps)
  obtain ⟨htick, hmonitor⟩ := ticks_logged hP hd (m := (ring0, clocked ps)) ring0_ok hroom hps.symm hinit rfl
    (funext fun regs => funext fun w => hcallback regs w) (by decide) (fun _ _ => .inl rfl)
    (show Trace _ _ [(.raise 0, (ring0, clocked (ps.raise 0))), (.accept, _)]
      from ⟨⟨⟨by decide, rfl⟩, nofun⟩, ⟨haccept, nofun⟩, trivial⟩)
  have hIs : IsTick (ring0, clocked (ps.raise 0)) .accept = true := by
    show ((clocked (ps.raise 0)).pics.pendingLines.head? == some 0) = true
    rw [hlines]
    rfl
  refine ⟨d, ps, _, hd, hps.symm, haccept, ?_, ?_⟩
  · have hcount : ∀ m', ticks (ring0, clocked ps)
        [(.raise 0, (ring0, clocked (ps.raise 0))), (.accept, m')] = 1 := fun m' => by
      rw [ticks, ticks, if_pos hIs]
      rfl
    rw [hcount] at htick
    exact htick.trans (by decide)
  · have htext : ∀ m', transcript 0 (ring0, clocked ps)
        [(.raise 0, (ring0, clocked (ps.raise 0))), (.accept, m')] = tickText (add32 0 1) := fun m' => by
      have hnot : ¬ IsTick (ring0, clocked ps) (.raise 0) = true := Bool.false_ne_true
      have hraise : stepText 0 (ring0, clocked ps) (.raise 0) = [] := if_neg hnot
      have htick : stepText 0 (ring0, clocked (ps.raise 0)) .accept = tickText (add32 0 1) := if_pos hIs
      rw [transcript, transcript, hraise, if_neg hnot, htick, transcript, List.append_nil, List.nil_append]
    rw [htext] at hmonitor
    exact hmonitor

end JamesM
