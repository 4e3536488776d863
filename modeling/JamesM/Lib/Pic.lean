/-
  JamesM.Lib.Pic — a pair of cascaded 8259A interrupt controllers.

  Each controller has eight inputs, input 0 first.  A request stays in `irr` until the
  processor accepts it; from then on it is in service, and blocks its own and every
  later input, until it is ended by an end-of-interrupt command.  The second
  controller hangs on input 2 of the first.

  Main results:
    * `Pics.inta_idle` — while nothing is in service, the pair presents the pending line
      that comes first, and with nothing pending it presents none;
    * `Pics.serve_idle` — accepted and ended, a request leaves the pair as it was, that
      request apart.
-/
import Mathlib.Tactic

namespace JamesM.Pic8259

/-! ## §1. One controller. -/

/-- What the next byte at the odd port is: a mask, or an initialisation word. -/
inductive Expects where
  | mask
  | vector
  | cascade
  | mode
  deriving DecidableEq, Repr

/-- The registers of a controller. -/
structure Pic where
  /-- The vector of input 0. -/
  base : Nat
  /-- The inputs that are masked, that ask for an interrupt, and that are in service. -/
  imr : Fin 8 → Bool
  irr : Fin 8 → Bool
  isr : Fin 8 → Bool
  /-- Requests are ended by the acknowledgement. -/
  aeoi : Bool
  expects : Expects
  single : Bool
  icw4 : Bool

/-- Setting one of eight bits. -/
def setBit (f : Fin 8 → Bool) (i : Fin 8) (b : Bool) : Fin 8 → Bool := fun j => if j = i then b else f j

/-- The non-specific end of interrupt. -/
def Pic.eoi (p : Pic) : Pic :=
  match Fin.find? p.isr with
  | none => p
  | some i => { p with isr := setBit p.isr i false }

/-- A byte at the even port.  Rotating priorities are left out. -/
def Pic.command (v : Nat) (p : Pic) : Pic :=
  if v.testBit 4 then
    { base := p.base, imr := fun _ => false, irr := fun _ => false, isr := fun _ => false, aeoi := false
      expects := .vector, single := v.testBit 1, icw4 := v.testBit 0 }
  -- status and special mask
  else if v.testBit 3 then p
  else if v / 32 = 1 then p.eoi
  else if v / 32 = 3 then { p with isr := setBit p.isr ⟨v % 8, Nat.mod_lt _ (by decide)⟩ false }
  else p

/-- A byte at the odd port. -/
def Pic.data (v : Nat) (p : Pic) : Pic :=
  let last : Expects := if p.icw4 then .mode else .mask
  match p.expects with
  | .mask => { p with imr := fun i => v.testBit i }
  | .vector => { p with base := v - v % 8, expects := if p.single then last else .cascade }
  | .cascade => { p with expects := last }
  | .mode => { p with aeoi := v.testBit 1, expects := .mask }

/-- The input that the controller has an interrupt for. -/
def Pic.asks (p : Pic) : Option (Fin 8) :=
  if p.expects = .mask then
    match Fin.find? (fun i => p.irr i && !p.imr i) with
    | none => none
    | some i =>
        match Fin.find? p.isr with
        | none => some i
        | some j => if j ≤ i then none else some i
  else none

/-- The processor accepts input `i`. -/
def Pic.ack (i : Fin 8) (p : Pic) : Pic :=
  { p with irr := setBit p.irr i false, isr := if p.aeoi then p.isr else setBit p.isr i true }

/-- Input `i` is raised. -/
def Pic.raise (i : Fin 8) (p : Pic) : Pic := { p with irr := setBit p.irr i true }

/-! ## §2. The pair. -/

/-- The two controllers of a PC. -/
structure Pics where
  master : Pic
  slave : Pic

/-- The master, with the slave on its input 2. -/
def Pics.wired (ps : Pics) : Pic :=
  { ps.master with irr := setBit ps.master.irr 2 ps.slave.asks.isSome }

/-- A byte on the port bus. -/
def Pics.outb (port v : Nat) (ps : Pics) : Pics :=
  if port = 0x20 then { ps with master := ps.master.command v }
  else if port = 0x21 then { ps with master := ps.master.data v }
  else if port = 0xA0 then { ps with slave := ps.slave.command v }
  else if port = 0xA1 then { ps with slave := ps.slave.data v }
  else ps

/-- The input of the master, or of the slave, that line `n` of the sixteen is on. -/
def pin (n : Nat) : Fin 8 := ⟨n % 8, Nat.mod_lt _ (by decide)⟩

/-- A device raises line `n`.  Nothing is on line 2 but the slave. -/
def Pics.raise (n : Nat) (ps : Pics) : Pics :=
  if n < 8 then { ps with master := ps.master.raise (pin n) } else { ps with slave := ps.slave.raise (pin n) }

/-- The processor accepts the interrupt, if there is one: its vector. -/
def Pics.inta (ps : Pics) : Option (Nat × Pics) :=
  match ps.wired.asks with
  | none => none
  | some i =>
      if i = 2 then
        match ps.slave.asks with
        | none => none
        | some j => some (ps.slave.base + j, { master := ps.master.ack 2, slave := ps.slave.ack j })
      else some (ps.master.base + i, { ps with master := ps.master.ack i })

/-- The lines, by priority: those of the slave stand where the slave is. -/
def order : List Nat := [0, 1, 8, 9, 10, 11, 12, 13, 14, 15, 3, 4, 5, 6, 7]

/-- Line `n` asks for an interrupt. -/
def Pics.pending (ps : Pics) (n : Nat) : Bool := if n < 8 then ps.master.irr (pin n) else ps.slave.irr (pin n)

/-- The lines that ask, by priority. -/
def Pics.pendingLines (ps : Pics) : List Nat := order.filter ps.pending

/-- The vector of line `n`. -/
def Pics.vector (ps : Pics) (n : Nat) : Nat := if n < 8 then ps.master.base + n else ps.slave.base + (n - 8)

/-- Nothing is in service, and nothing masked. -/
structure Pic.Idle (p : Pic) : Prop where
  imr : ∀ i, p.imr i = false
  isr : ∀ i, p.isr i = false
  aeoi : p.aeoi = false
  expects : p.expects = .mask

/-- Both controllers are idle. -/
structure Pics.Idle (ps : Pics) : Prop where
  master : ps.master.Idle
  slave : ps.slave.Idle

/-- The pair after line `n` has been accepted. -/
def Pics.accepted (n : Nat) (ps : Pics) : Pics :=
  if n < 8 then { ps with master := ps.master.ack (pin n) }
  else { master := ps.master.ack 2, slave := ps.slave.ack (pin n) }

/-- The request of line `n` taken away. -/
def Pics.served (n : Nat) (ps : Pics) : Pics :=
  if n < 8 then { ps with master := { ps.master with irr := setBit ps.master.irr (pin n) false } }
  else { master := { ps.master with irr := setBit ps.master.irr 2 false }
         slave := { ps.slave with irr := setBit ps.slave.irr (pin n) false } }

/-- A request is dropped before the processor accepts it: the controller that is asked answers with its
    last input, and has nothing in service.  If it is the slave, the master has its input 2. -/
def Pics.spurious (slave : Bool) (ps : Pics) : Nat × Pics :=
  if slave then (ps.slave.base + 7, { ps with master := ps.master.ack 2 }) else (ps.master.base + 7, ps)

/-- The end of the interrupt of line `n`: a command to each controller that has it in service. -/
def Pics.finish (n : Nat) (ps : Pics) : Pics :=
  if n < 8 then ps.outb 0x20 0x20 else (ps.outb 0xA0 0x20).outb 0x20 0x20

/-! ## §3. One controller at rest. -/

@[simp] theorem setBit_same (f : Fin 8 → Bool) (i : Fin 8) (b : Bool) : setBit f i b i = b := if_pos rfl

theorem setBit_ne (f : Fin 8 → Bool) {i j : Fin 8} (b : Bool) (h : j ≠ i) : setBit f i b j = f j := if_neg h

/-- With nothing masked or in service, the first request asks. -/
theorem Pic.Idle.asks {p : Pic} (h : p.Idle) : p.asks = Fin.find? p.irr := by
  have hirr : (fun i => p.irr i && !p.imr i) = p.irr := by
    funext i
    rw [h.imr i, Bool.not_false, Bool.and_true]
  have hisr : Fin.find? p.isr = none := Fin.find?_eq_none_iff.mpr h.isr
  unfold Pic.asks
  rw [if_pos h.expects, hirr, hisr]
  cases Fin.find? p.irr <;> rfl

/-- Nothing is in service, so there is nothing to end. -/
theorem Pic.Idle.eoi {p : Pic} (h : p.Idle) : p.eoi = p := by
  unfold Pic.eoi
  rw [Fin.find?_eq_none_iff.mpr h.isr]

/-- **A request accepted and ended.** -/
theorem Pic.Idle.ack_eoi {p : Pic} (h : p.Idle) (i : Fin 8) :
    (p.ack i).eoi = { p with irr := setBit p.irr i false } := by
  have hisr : (p.ack i).isr = setBit p.isr i true := by
    unfold Pic.ack
    rw [h.aeoi]
    rfl
  have hfirst : Fin.find? (p.ack i).isr = some i := by
    rw [hisr]
    refine Fin.find?_eq_some_iff.mpr ⟨setBit_same _ _ _, fun j hj => ?_⟩
    rw [setBit_ne _ _ (ne_of_lt hj), h.isr j]
  have hback : setBit (p.ack i).isr i false = p.isr := by
    rw [hisr]
    funext j
    by_cases hj : j = i
    · rw [hj, setBit_same, h.isr i]
    · rw [setBit_ne _ _ hj, setBit_ne _ _ hj]
  unfold Pic.eoi
  rw [hfirst]
  dsimp only
  rw [hback]
  rfl

theorem Pic.command_eoi (p : Pic) : p.command 0x20 = p.eoi := rfl

/-- Requests come and go. -/
theorem Pic.Idle.irr {p : Pic} (h : p.Idle) (irr : Fin 8 → Bool) : Pic.Idle { p with irr := irr } :=
  ⟨h.imr, h.isr, h.aeoi, h.expects⟩

/-! ## §4. The pair at rest. -/

theorem mem_order {n : Nat} (h : n ∈ order) : n < 16 ∧ n ≠ 2 := by
  have hall : ∀ n ∈ order, n < 16 ∧ n ≠ 2 := by decide
  exact hall n h

/-- The place of a line: by the master's input, then by the slave's. -/
def rank (n : Nat) : Nat := if n < 8 then 8 * n else n + 8

theorem order_sorted : order.Pairwise (fun m n => rank m < rank n) := by decide

theorem pin_inj {m n : Nat} (h : pin m = pin n) (hs : m / 8 = n / 8) : m = n := by
  have h := Fin.mk.inj h
  omega

/-- The input of the master that a line comes in on. -/
def masterPin (n : Nat) : Fin 8 := if n < 8 then pin n else 2

theorem Pics.wired_irr_eq (ps : Pics) : ps.wired.irr = setBit ps.master.irr 2 ps.slave.asks.isSome := rfl

/-- A line that asks is seen by the master. -/
theorem Pics.Idle.wired_irr {ps : Pics} (h : ps.Idle) {n : Nat} (hn : n ∈ order) (hp : ps.pending n = true) :
    ps.wired.irr (masterPin n) = true := by
  obtain ⟨h16, h2⟩ := mem_order hn
  unfold Pics.pending at hp
  unfold masterPin
  rw [Pics.wired_irr_eq]
  by_cases h8 : n < 8
  · rw [if_pos h8] at hp ⊢
    have hne : pin n ≠ 2 := fun he => h2 (pin_inj he (by omega))
    rw [setBit_ne _ _ hne, hp]
  · rw [if_neg h8] at hp ⊢
    rw [setBit_same, h.slave.asks, Fin.isSome_find?_iff]
    exact ⟨_, hp⟩

/-- **What the pair presents.**  The lines are taken by priority. -/
theorem Pics.inta_idle {ps : Pics} (h : ps.Idle) :
    (ps.inta = none ∧ ∀ n ∈ order, ps.pending n = false)
      ∨ ∃ n ∈ order, ps.pending n = true ∧ (∀ m ∈ order, ps.pending m = true → rank n ≤ rank m)
        ∧ ps.inta = some (ps.vector n, ps.accepted n) := by
  have hwired : ps.wired.Idle := h.master.irr _
  unfold Pics.inta
  rw [hwired.asks]
  cases hfind : Fin.find? ps.wired.irr with
  | none =>
      rw [Fin.find?_eq_none_iff] at hfind
      refine .inl ⟨rfl, fun n hn => Bool.eq_false_iff.mpr fun hp => ?_⟩
      exact Bool.false_ne_true ((hfind _).symm.trans (h.wired_irr hn hp))
  | some i =>
      right
      obtain ⟨hi, hbefore⟩ := Fin.find?_eq_some_iff.mp hfind
      -- no line on an earlier input asks
      have hle : ∀ m ∈ order, ps.pending m = true → i ≤ masterPin m := fun m hm hp =>
        le_of_not_gt fun hlt => Bool.false_ne_true ((hbefore _ hlt).symm.trans (h.wired_irr hm hp))
      dsimp only
      by_cases h2 : i = 2
      · subst h2
        have hsome : ps.slave.asks.isSome = true := hi
        obtain ⟨j, hj⟩ := Option.isSome_iff_exists.mp hsome
        rw [if_pos rfl, hj]
        rw [h.slave.asks] at hj
        obtain ⟨hirr, hfirst⟩ := Fin.find?_eq_some_iff.mp hj
        have hpin : pin (8 + j) = j := Fin.ext (by show (8 + j.val) % 8 = j.val; omega)
        have hn8 : ¬ 8 + j.val < 8 := by omega
        refine ⟨8 + j, ?_, ?_, fun m hm hp => ?_, ?_⟩
        · fin_cases j <;> decide
        · unfold Pics.pending
          rw [if_neg hn8, hpin, hirr]
        · have hm2 := hle m hm hp
          unfold masterPin at hm2
          unfold rank
          unfold Pics.pending at hp
          by_cases hm8 : m < 8
          · rw [if_pos hm8] at hm2 ⊢
            have hm2 : 2 ≤ m % 8 := hm2
            have := (mem_order hm).2
            rw [if_neg hn8]
            omega
          · rw [if_neg hm8] at hp ⊢
            have hjm : ¬ pin m < j := fun hlt => Bool.false_ne_true ((hfirst _ hlt).symm.trans hp)
            have hjm : ¬ m % 8 < j.val := hjm
            have := (mem_order hm).1
            rw [if_neg hn8]
            omega
        · unfold Pics.vector Pics.accepted
          rw [if_neg hn8, if_neg hn8, hpin, Nat.add_sub_cancel_left]
      · rw [if_neg h2]
        have hirr : ps.master.irr i = true := (setBit_ne _ _ h2).symm.trans hi
        have hpin : pin i = i := Fin.ext (Nat.mod_eq_of_lt i.isLt)
        refine ⟨i, ?_, ?_, fun m hm hp => ?_, ?_⟩
        · fin_cases i <;> first | decide | exact absurd rfl h2
        · unfold Pics.pending
          rw [if_pos i.isLt, hpin, hirr]
        · have hm2 := hle m hm hp
          unfold masterPin at hm2
          unfold rank
          rw [if_pos i.isLt]
          by_cases hm8 : m < 8
          · rw [if_pos hm8] at hm2 ⊢
            have hm2 : i.val ≤ m % 8 := hm2
            omega
          · rw [if_neg hm8] at hm2 ⊢
            have hm2 : i.val ≤ 2 := hm2
            omega
        · unfold Pics.vector Pics.accepted
          rw [if_pos i.isLt, if_pos i.isLt, hpin]

/-- **Accepted and ended**, a request leaves the pair as it was, that request apart. -/
theorem Pics.serve_idle {ps : Pics} (h : ps.Idle) (n : Nat) : (ps.accepted n).finish n = ps.served n := by
  unfold Pics.finish Pics.accepted Pics.served
  by_cases h8 : n < 8
  · rw [if_pos h8, if_pos h8, if_pos h8]
    show Pics.mk ((ps.master.ack (pin n)).command 0x20) ps.slave = _
    rw [Pic.command_eoi, h.master.ack_eoi]
  · rw [if_neg h8, if_neg h8, if_neg h8]
    show Pics.mk ((ps.master.ack 2).command 0x20) ((ps.slave.ack (pin n)).command 0x20) = _
    rw [Pic.command_eoi, Pic.command_eoi, h.master.ack_eoi, h.slave.ack_eoi]

theorem Pics.Idle.served {ps : Pics} (h : ps.Idle) (n : Nat) : (ps.served n).Idle := by
  unfold Pics.served
  split
  · exact ⟨h.master.irr _, h.slave⟩
  · exact ⟨h.master.irr _, h.slave.irr _⟩

theorem Pics.Idle.raise {ps : Pics} (h : ps.Idle) (n : Nat) : (ps.raise n).Idle := by
  unfold Pics.raise
  split
  · exact ⟨h.master.irr _, h.slave⟩
  · exact ⟨h.master, h.slave.irr _⟩

/-- An end of interrupt too many does nothing. -/
theorem Pics.Idle.finish {ps : Pics} (h : ps.Idle) (n : Nat) : ps.finish n = ps := by
  have hslave : ps.outb 0xA0 0x20 = ps := by
    show Pics.mk ps.master (ps.slave.command 0x20) = ps
    rw [Pic.command_eoi, h.slave.eoi]
  have hmaster : ps.outb 0x20 0x20 = ps := by
    show Pics.mk (ps.master.command 0x20) ps.slave = ps
    rw [Pic.command_eoi, h.master.eoi]
  unfold Pics.finish
  rw [hslave, hmaster, ite_self]

/-- A spurious request, ended like the others, leaves the pair as it was, as far as it matters. -/
theorem Pics.spurious_idle {ps : Pics} (h : ps.Idle) (slave : Bool) :
    ∃ irr : Fin 8 → Bool, (ps.spurious slave).2.finish (if slave then 15 else 7)
        = { ps with master := { ps.master with irr := irr } }
      ∧ ∀ i, i ≠ 2 → irr i = ps.master.irr i := by
  cases slave with
  | false =>
      refine ⟨ps.master.irr, ?_, fun _ _ => rfl⟩
      show ps.finish 7 = ps
      exact h.finish 7
  | true =>
      refine ⟨setBit ps.master.irr 2 false, ?_, fun i hi => setBit_ne _ _ hi⟩
      show Pics.mk ((ps.master.ack 2).command 0x20) (ps.slave.command 0x20) = _
      rw [Pic.command_eoi, Pic.command_eoi, h.master.ack_eoi, h.slave.eoi]

/-- The other lines still ask. -/
theorem Pics.served_pending (ps : Pics) {m n : Nat} (hm : m ∈ order) (hn : n ∈ order) :
    (ps.served n).pending m = (ps.pending m && m != n) := by
  obtain ⟨hm16, hm2⟩ := mem_order hm
  obtain ⟨hn16, hn2⟩ := mem_order hn
  unfold Pics.served Pics.pending
  by_cases hmn : m = n
  · subst hmn
    by_cases h8 : m < 8
    · simp [h8]
    · simp [h8]
  have hne : (m != n) = true := by simpa using hmn
  rw [hne, Bool.and_true]
  by_cases hn8 : n < 8
  · rw [if_pos hn8]
    by_cases hm8 : m < 8
    · rw [if_pos hm8, if_pos hm8]
      exact setBit_ne _ _ fun he => hmn (pin_inj he (by omega))
    · rw [if_neg hm8, if_neg hm8]
  · rw [if_neg hn8]
    by_cases hm8 : m < 8
    · rw [if_pos hm8, if_pos hm8]
      exact setBit_ne _ _ fun he => hm2 (pin_inj he (by omega))
    · rw [if_neg hm8, if_neg hm8]
      exact setBit_ne _ _ fun he => hmn (pin_inj he (by omega))

/-- A line that is raised asks, and the others as before. -/
theorem Pics.raise_pending (ps : Pics) {m n : Nat} (hm : m ∈ order) (hn : n ∈ order) :
    (ps.raise n).pending m = (ps.pending m || m == n) := by
  obtain ⟨hm16, -⟩ := mem_order hm
  obtain ⟨hn16, -⟩ := mem_order hn
  unfold Pics.raise Pics.pending
  by_cases hmn : m = n
  · subst hmn
    by_cases h8 : m < 8
    · simp [h8, Pic.raise]
    · simp [h8, Pic.raise]
  have hne : (m == n) = false := by simpa using hmn
  rw [hne, Bool.or_false]
  by_cases hn8 : n < 8
  · rw [if_pos hn8]
    by_cases hm8 : m < 8
    · rw [if_pos hm8, if_pos hm8]
      exact setBit_ne _ _ fun he => hmn (pin_inj he (by omega))
    · rw [if_neg hm8, if_neg hm8]
  · rw [if_neg hn8]
    by_cases hm8 : m < 8
    · rw [if_pos hm8, if_pos hm8]
    · rw [if_neg hm8, if_neg hm8]
      exact setBit_ne _ _ fun he => hmn (pin_inj he (by omega))

/-- Nothing hangs on input 2 of the master but the slave. -/
theorem Pics.pendingLines_congr {ps : Pics} {irr : Fin 8 → Bool} (h : ∀ i, i ≠ 2 → irr i = ps.master.irr i) :
    Pics.pendingLines { ps with master := { ps.master with irr := irr } } = ps.pendingLines := by
  refine List.filter_congr fun n hn => ?_
  obtain ⟨-, hn2⟩ := mem_order hn
  unfold Pics.pending
  by_cases h8 : n < 8
  · rw [if_pos h8, if_pos h8]
    exact h _ fun he => hn2 (pin_inj he (by omega))
  · rw [if_neg h8, if_neg h8]

/-- **One after another.**  The pair presents the first of the lines that ask; once it is served, the
    rest ask. -/
theorem Pics.inta_lines {ps : Pics} (h : ps.Idle) :
    match ps.pendingLines with
    | [] => ps.inta = none
    | n :: ns => n ∈ order ∧ ps.inta = some (ps.vector n, ps.accepted n) ∧ (ps.served n).pendingLines = ns := by
  have hsorted : ps.pendingLines.Pairwise (fun m n => rank m < rank n) := order_sorted.filter _
  have hmem : ∀ n, n ∈ ps.pendingLines ↔ n ∈ order ∧ ps.pending n = true := fun n => List.mem_filter
  rcases Pics.inta_idle h with ⟨hnone, hall⟩ | ⟨n, hn, hp, hleast, hsome⟩
  · have hnil : ps.pendingLines = [] := List.filter_eq_nil_iff.mpr fun n hn => by
      rw [hall n hn]
      exact Bool.false_ne_true
    rw [hnil]
    exact hnone
  · have hrest : (ps.served n).pendingLines = ps.pendingLines.filter (· != n) := by
      unfold Pics.pendingLines
      rw [List.filter_filter]
      refine List.filter_congr fun m hm => ?_
      rw [ps.served_pending hm hn, Bool.and_comm]
    have hin := (hmem n).mpr ⟨hn, hp⟩
    cases hlines : ps.pendingLines with
    | nil => rw [hlines] at hin; exact absurd hin (List.not_mem_nil)
    | cons a ns =>
        rw [hlines] at hin hsorted hrest
        obtain ⟨hhead, -⟩ := List.pairwise_cons.mp hsorted
        -- the least is the head
        have hna : n = a := by
          rcases List.mem_cons.mp hin with hna | hns
          · exact hna
          · have ha := (hmem a).mp (by rw [hlines]; exact List.mem_cons_self)
            have h1 := hleast a ha.1 ha.2
            have h2 := hhead n hns
            omega
        subst hna
        refine ⟨hn, hsome, ?_⟩
        rw [hrest, List.filter_cons_of_neg (by simp)]
        refine List.filter_eq_self.mpr fun m hm => ?_
        have hlt := hhead m hm
        simp only [bne_iff_ne, ne_eq]
        rintro rfl
        omega

end JamesM.Pic8259
