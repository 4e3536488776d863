/-
  JamesM.Heap.Isolation — runs of the heap.

  A session is the machine together with the blocks the clients hold.  Its steps are
  the calls of `alloc` and `free` that return, and the stores the clients make into
  their blocks.

  `HeapSafe` is what a step must meet, on the state before it, for the heap to stay
  sound: see `Guard.isolation` and `FreeSafe`.

  Main result: `heap_isolation`.
-/
import JamesM.Heap.Alloc
import JamesM.Heap.Free
import JamesM.Lib.Trace

namespace JamesM

open JamesM.ByteMem JamesM.Word32 JamesM.Lib

/-! ## §1. Sessions. -/

/-- The machine, and the blocks the clients hold: pointer and requested size. -/
structure Session where
  machine : Machine
  live : List (Nat × Nat)

/-- What clients do. -/
inductive HeapOp where
  /-- `alloc(size, page_align, kernel_heap)` -/
  | alloc (size : Nat) (page_align : Bool)
  /-- `free(p, kernel_heap)` -/
  | free (p : Nat)
  /-- a store of a byte -/
  | store (a : Nat) (v : UInt8)

/-- What a client may do: requests below `0x10000000` bytes, frees of the blocks it holds, stores into
    them. -/
def HeapOp.Allowed (s : Session) : HeapOp → Prop
  | .alloc size _ => size < 0x10000000
  | .free p => p ∈ s.live.map Prod.fst
  | .store a _ => ∃ l ∈ s.live, l.1 ≤ a ∧ a < l.1 + l.2

/-- What the kernel does. -/
def HeapOp.run (fuel : Nat) (s : Session) : HeapOp → Result Session
  | .alloc size page_align => do
      let (p, m) ← JamesM.alloc fuel size page_align s.machine
      .ok ⟨m, (p, size) :: s.live⟩
  | .free p => do
      let m ← JamesM.free p s.machine
      .ok ⟨m, s.live.filter fun l => l.1 != p⟩
  | .store a v => .ok ⟨{ s.machine with mem := write8 s.machine.mem a v }, s.live⟩

/-- A step that returns. -/
def HeapStep (s : Session) (op : HeapOp) (s' : Session) : Prop :=
  op.Allowed s ∧ ∃ fuel, op.run fuel s = .ok s'

/-- A step is safe. -/
def HeapSafe (s : Session) : HeapOp → Prop
  | .alloc size page_align => Guard.isolation.AllocOk size page_align s.machine
  | .free p => FreeSafe p s.machine
  | .store _ _ => True

/-- **Isolation.**  Payloads do not overlap, and every block, with its header and footer, is inside the
    heap. -/
structure Isolated (s : Session) : Prop where
  apart : s.live.Pairwise fun a b => a.1 + a.2 ≤ b.1 ∨ b.1 + b.2 ≤ a.1
  inside : ∀ a ∈ s.live, s.machine.heap.h_addr_start + 12 ≤ a.1
    ∧ a.1 + a.2 + 8 ≤ a.1 - 12 + hh_size s.machine.mem (a.1 - 12)
    ∧ a.1 - 12 + hh_size s.machine.mem (a.1 - 12) ≤ s.machine.heap.h_addr_end

/-- A call changes no byte of a block that is held before and after it. -/
def KeepsPayloads (s : Session) (op : HeapOp) (s' : Session) : Prop :=
  (∀ a v, op ≠ .store a v) →
    ∀ l ∈ s.live, l ∈ s'.live → ∀ x, l.1 ≤ x → x < l.1 + l.2 → s'.machine.mem x = s.machine.mem x

/-! ## §2. The invariant. -/

/-- The kernel is sound. -/
def Sound (s : Session) : Prop := ∃ regs, Kernel regs s.live s.machine

theorem Sound.isolated {s : Session} (h : Sound s) : Isolated s := by
  obtain ⟨regs, k⟩ := h
  obtain ⟨hpair, -⟩ := k.isolated
  refine ⟨hpair.imp fun {a b} h => by omega, fun a ha => ?_⟩
  obtain ⟨r, hr, -, hra, hrs⟩ := k.block a ha
  obtain ⟨h1, h2, -⟩ := k.heap.region_bounds hr
  rw [show a.1 - 12 = r.addr by omega, (k.heap.head r hr).size]
  omega

/-- A store into a block of a client. -/
theorem Kernel.store {regs : List Region} {live : List (Nat × Nat)} {m : Machine} {l : Nat × Nat} {a : Nat}
    (k : Kernel regs live m) (hl : l ∈ live) (h1 : l.1 ≤ a) (h2 : a < l.1 + l.2) (v : UInt8) :
    Kernel regs live { m with mem := write8 m.mem a v } := by
  obtain ⟨b, hb, hbb, hba, hbs⟩ := k.block l hl
  have hne : ∀ r ∈ regs, ∀ x, r.addr ≤ x → x < r.addr + r.size → x = a → r = b := by
    intro r hr x h3 h4 h5
    rcases k.heap.apart hr hb with h | h | h
    · exact h
    · omega
    · omega
  obtain ⟨hb1, hb2, -⟩ := k.heap.region_bounds hb
  have hmax := k.heap.bounds.max
  have hhigh := k.heap.bounds.high
  have hoff := k.paging.dir_off
  have htab : ∀ t, t < 1024 →
      pd_table (write8 m.mem a v) m.kernel_directory t = pd_table m.mem m.kernel_directory t :=
    fun t ht => read32_congr fun x h3 h4 => write8_ne _ _ (by omega)
  refine ⟨?_, ?_, k.block, k.nodup⟩
  · refine k.heap.of_agree rfl (fun r hr x h3 h4 => write8_ne _ _ fun h => ?_)
      fun r hr _ x h3 h4 => write8_ne _ _ fun h => ?_
    · have := k.heap.size r hr
      have := hne r hr x h3 (by omega) h
      subst this
      omega
    · have := k.heap.size r hr
      have := hne r hr x (by omega) (by omega) h
      subst this
      omega
  · exact k.paging.of_blocks rfl rfl rfl rfl rfl (by dsimp only; omega) k.paging.mapped htab
      fun r hr _ hl => ⟨hr, hl⟩

/-- **One step.** -/
theorem Sound.step {s s' : Session} {op : HeapOp} (h : Sound s) (hsafe : HeapSafe s op)
    (hstep : HeapStep s op s') : Sound s' ∧ KeepsPayloads s op s' := by
  obtain ⟨regs, k⟩ := h
  obtain ⟨hallowed, fuel, hrun⟩ := hstep
  cases op with
  | alloc size page_align =>
      simp only [HeapOp.run, bind_ok_iff] at hrun
      obtain ⟨⟨p, m'⟩, halloc, hs'⟩ := hrun
      have hs' := Except.ok.inj hs'
      subst hs'
      have hsize : size < 0x10000000 := hallowed
      obtain ⟨regs', k', hp⟩ := k.alloc (by omega) hsafe halloc
      exact ⟨⟨regs', k'⟩, fun _ l hl _ => hp.payload l hl⟩
  | free p =>
      simp only [HeapOp.run, bind_ok_iff] at hrun
      obtain ⟨m', hfree, hs'⟩ := hrun
      have hs' := Except.ok.inj hs'
      subst hs'
      obtain ⟨pre, lefts, b, rights, post, -, -, -, -, -, -, k', hp, -⟩ := k.free hallowed hsafe hfree
      exact ⟨⟨_, k'⟩, fun _ l _ hl => hp.payload l hl⟩
  | store a v =>
      have hs' := Except.ok.inj hrun
      subst hs'
      obtain ⟨l, hl, h1, h2⟩ := hallowed
      exact ⟨⟨regs, k.store hl h1 h2 v⟩, fun hne => absurd rfl (hne a v)⟩

/-! ## §3. The start. -/

/-- The kernel as `init_paging` calls `init_heap`: the directory and the page tables keep out of the
    heap's address range, and the pages of the initial heap have tables. -/
structure PagingReady (start : Nat) (m : Machine) : Prop where
  nframes : m.nframes ≤ 1048576
  dir_off : m.kernel_directory + 8196 ≤ start ∨ start + 0x0FFFF000 ≤ m.kernel_directory
  tables : Tables m.kernel_directory m.mem
  place : ∀ t, t < 1024 → pd_table m.mem m.kernel_directory t ≠ 0 →
    pd_table m.mem m.kernel_directory t + 4096 ≤ start
      ∨ start + 0x0FFFF000 ≤ pd_table m.mem m.kernel_directory t
  mapped : ∀ q, start / 0x1000 ≤ q → q < start / 0x1000 + 256 →
    pd_table m.mem m.kernel_directory (q / 1024) ≠ 0

/-- **The start.**  A page-aligned heap of `0x100000` bytes that may grow to `0x0FFFF000`, just
    initialised; nobody holds a block. -/
structure HeapStart (start : Nat) (s : Session) : Prop where
  aligned : start % 0x1000 = 0
  high : start + 0x0FFFF000 < 4294967296
  init : ∃ m m₁ su ro, PagingReady start m
    ∧ init_heap start (start + 0x100000) (start + 0x0FFFF000) su ro m = .ok m₁
    ∧ s.machine = { m₁ with heap_ready := true }
  live : s.live = []

/-- The first hole. -/
def firstHole (start : Nat) : Region := ⟨start + 0x81000, 0x7F000, true⟩

/-- What `init_heap` builds: one hole, which has a header but no footer. -/
theorem init_heap_ok {start : Nat} {su ro : Int} {m m' : Machine} (haligned : start % 0x1000 = 0)
    (hhigh : start + 0x0FFFF000 < 4294967296)
    (h : init_heap start (start + 0x100000) (start + 0x0FFFF000) su ro m = .ok m') :
    m' = { m with mem := put_header m.mem (start + 0x81000) 1 0x7F000, heap := m'.heap }
      ∧ m'.heap.h_addr_start = start + 0x81000 ∧ m'.heap.h_addr_end = start + 0x100000
      ∧ m'.heap.h_addr_max = start + 0x0FFFF000
      ∧ m'.heap.h_index.entries = [start + 0x81000]
      ∧ m'.heap.h_index.sa_cmp = some vm_heap_header_cmp := by
  have hindex : 4 * VM_HEAP_INDEX_SIZE = 0x80000 := rfl
  have hfirst : following_page (add32 start (4 * VM_HEAP_INDEX_SIZE)) = start + 0x81000 := by
    rw [hindex, add32_of_lt (by omega), following_page_of_le (by omega) (by omega)]
    omega
  have hsize : sub32 (start + 0x100000) (start + 0x81000) = 0x7F000 := by
    rw [sub32_of_le (by omega) (by omega)]
    omega
  unfold init_heap at h
  simp only [hfirst, hsize, bind_ok_iff] at h
  obtain ⟨-, -, -, -, idx, hins, h⟩ := h
  obtain ⟨-, -, hcmp, hentries⟩ := insert_sorted_array_entries (show _ = some vm_heap_header_cmp from rfl) hins
  have h := Except.ok.inj h
  rw [← h]
  exact ⟨rfl, rfl, rfl, rfl, hentries, hcmp⟩

/-- **The start is sound.** -/
theorem HeapStart.kernel {start : Nat} {s : Session} (st : HeapStart start s) :
    Kernel [firstHole start] s.live s.machine
      ∧ s.machine.heap.h_index.entries = [start + 0x81000]
      ∧ s.machine.heap.h_addr_end = start + 0x100000 := by
  obtain ⟨m, m₁, su, ro, pr, hinit, hmachine⟩ := st.init
  obtain ⟨hm₁, hs, he, hx, hentries, hcmp⟩ := init_heap_ok st.aligned st.high hinit
  have haligned := st.aligned
  have hhigh := st.high
  have hmin : VM_HEAP_MIN_SIZE = 0x70000 := rfl
  have hmem : s.machine.mem = put_header m.mem (start + 0x81000) 1 0x7F000 := by rw [hmachine, hm₁]
  have hheap : s.machine.heap = m₁.heap := by rw [hmachine]
  have hdir : s.machine.kernel_directory = m.kernel_directory := by rw [hmachine, hm₁]
  have hout : EqOutside (start + 0x81000) (start + 0x8100C) m.mem s.machine.mem := by
    rw [hmem]
    exact put_header_eqOutside _ _ _ _
  have hdoff := pr.dir_off
  have htab : ∀ t, t < 1024 →
      pd_table s.machine.mem m.kernel_directory t = pd_table m.mem m.kernel_directory t :=
    fun t ht => hout.read32 (by omega)
  have hhdr : HdrAt s.machine.mem (firstHole start) := by
    rw [hmem]
    exact hdrAt_put_header m.mem (firstHole start) (by unfold firstHole; dsimp only; omega)
  rw [st.live]
  refine ⟨⟨⟨?_, ?_, ?_, ?_, ?_, ?_, ?_⟩, ⟨?_, ?_, ?_, ?_, ?_, ?_⟩, by simp, List.nodup_nil⟩,
    by rw [hheap]; exact hentries,
    by rw [hheap]; exact he⟩
  · rw [hheap]
    exact ⟨by omega, by omega, by omega, by omega, by omega, by omega, by omega⟩
  · have hlast : start + 0x81000 + 0x7F000 = start + 0x100000 := by omega
    rw [hheap, hs, he]
    exact ⟨rfl, hlast⟩
  · simp [firstHole]
  · simpa using hhdr
  · simp [firstHole]
  · rw [hheap, hentries]
    exact .refl _
  · rw [hheap]
    exact hcmp
  · rw [hmachine]
  · rw [hmachine, hm₁]
    exact pr.nframes
  · rw [hdir, hheap, hs, hx]
    omega
  · rw [hdir]
    exact pr.tables.congr htab
  · intro t ht hne
    rw [hdir, htab t ht] at hne ⊢
    unfold TablePlace
    rw [hheap, hs, hx]
    have := pr.place t ht hne
    omega
  · intro q h1 h2
    rw [hheap] at h1 h2
    rw [hs] at h1
    rw [he] at h2
    rw [hdir, htab _ (by omega)]
    exact pr.mapped q (by omega) (by omega)

theorem HeapStart.max {start : Nat} {s : Session} (st : HeapStart start s) :
    s.machine.heap.h_addr_max = start + 0x0FFFF000 := by
  obtain ⟨m, m₁, su, ro, -, hinit, hmachine⟩ := st.init
  obtain ⟨-, -, -, hmax, -⟩ := init_heap_ok st.aligned st.high hinit
  rw [hmachine]
  exact hmax

/-! ## §4. Whole runs. -/

/-- **Heap isolation.**  From a heap just initialised, over every run whose calls return and whose steps
    are safe: after every step the payloads of the blocks that are held are pairwise disjoint, every such
    block lies inside the heap with its header and its footer, and no call has changed a byte of a
    block that was held before and after it. -/
theorem heap_isolation {start : Nat} {s : Session} (st : HeapStart start s) {tr : List (HeapOp × Session)}
    (run : Trace HeapStep s tr) (safe : Along HeapSafe s tr) :
    (∀ x ∈ tr, Isolated x.2) ∧ Trace KeepsPayloads s tr := by
  obtain ⟨hall, hkeep⟩ := Trace.refine (C := HeapSafe) (R := KeepsPayloads)
    (fun s op s' (h : Sound s) hsafe hstep => h.step hsafe hstep) ⟨_, st.kernel.1⟩ run safe
  exact ⟨fun x hx => (hall x hx).isolated, hkeep⟩

/-- Every state of a safe run is sound. -/
theorem HeapStart.reached {start : Nat} {s x : Session} (st : HeapStart start s)
    {tr : List (HeapOp × Session)} (run : Trace HeapStep s tr) (safe : Along HeapSafe s tr)
    (hx : Reached s tr x) : Sound x :=
  Trace.reached (C := HeapSafe) (R := KeepsPayloads)
    (fun _ _ _ (h : Sound _) hsafe hstep => h.step hsafe hstep) ⟨_, st.kernel.1⟩ run safe hx

/-- The session after a step with two rounds of fuel, or the same session if the step does not return. -/
def HeapOp.result (s : Session) (op : HeapOp) : Session :=
  match op.run 2 s with
  | .ok s' => s'
  | .error _ => s

theorem HeapOp.step_result {s : Session} {op : HeapOp} (hallowed : op.Allowed s)
    (hok : (op.run 2 s).isOk = true) : HeapStep s op (op.result s) := by
  refine ⟨hallowed, 2, ?_⟩
  unfold HeapOp.result
  cases h : op.run 2 s with
  | ok s' => rfl
  | error e => rw [h] at hok; exact absurd hok Bool.noConfusion

instance (s : Session) (op : HeapOp) : Decidable (op.Allowed s) :=
  match op with
  | .alloc size _ => inferInstanceAs (Decidable (size < 0x10000000))
  | .free p => inferInstanceAs (Decidable (p ∈ s.live.map Prod.fst))
  | .store a _ => inferInstanceAs (Decidable (∃ l ∈ s.live, l.1 ≤ a ∧ a < l.1 + l.2))

/-- The run of a list of operations, each with two rounds of fuel. -/
def runOf (s : Session) : List HeapOp → List (HeapOp × Session)
  | [] => []
  | op :: ops => (op, op.result s) :: runOf (op.result s) ops

/-- Its last state. -/
def after (s : Session) : List HeapOp → Session
  | [] => s
  | op :: ops => after (op.result s) ops

/-- Every operation is allowed and returns. -/
def Runs (s : Session) : List HeapOp → Bool
  | [] => true
  | op :: ops => decide (op.Allowed s) && (op.run 2 s).isOk && Runs (op.result s) ops

theorem trace_runOf (s : Session) (ops : List HeapOp) (h : Runs s ops = true) :
    Trace HeapStep s (runOf s ops) := by
  induction ops generalizing s with
  | nil => trivial
  | cons op ops ih =>
      unfold Runs at h
      rw [Bool.and_eq_true, Bool.and_eq_true, decide_eq_true_eq] at h
      exact ⟨HeapOp.step_result h.1.1 h.1.2, ih _ h.2⟩

theorem reached_after (s : Session) (ops : List HeapOp) : Reached s (runOf s ops) (after s ops) := by
  induction ops generalizing s with
  | nil => exact .inl rfl
  | cons op ops ih =>
      right
      rcases ih (op.result s) with h | ⟨o, h⟩
      · exact ⟨op, by rw [after, h]; exact List.mem_cons_self⟩
      · exact ⟨o, List.mem_cons_of_mem _ h⟩

/-- A kernel with a page directory at `0x1000` and one page table at `0x4000`, for the addresses from
    `0xC0000000`. -/
def plainKernel : Machine :=
  { Machine.bare 0x6000 with
    mem := write32 (fun _ => 0) (0x1000 + 4 * 768) 0x4000, nframes := 0x1000, kernel_directory := 0x1000 }

/-- Its heap, just initialised. -/
def freshHeap : Session :=
  match init_heap 0xC0000000 0xC0100000 0xCFFFF000 0 0 plainKernel with
  | .ok m => ⟨{ m with heap_ready := true }, []⟩
  | .error _ => ⟨plainKernel, []⟩

theorem plainKernel_table {t : Nat} :
    pd_table plainKernel.mem 0x1000 t = if t = 768 then 0x4000 else 0 := by
  unfold pd_table plainKernel
  dsimp only
  by_cases ht : t = 768
  · rw [if_pos ht, ht, read32_write32 _ _ (by decide)]
  · rw [if_neg ht, read32_write32_ne _ _ (by omega)]
    rfl

/-- A kernel whose only page table is that one. -/
theorem pagingReady_of_table {start : Nat} {m : Machine} (hlow : 0xC0000000 ≤ start)
    (hhigh : start + 0x100000 ≤ 0xC0400000) (hnf : m.nframes ≤ 1048576) (hdir : m.kernel_directory = 0x1000)
    (htab : ∀ t, t < 1024 → pd_table m.mem 0x1000 t = if t = 768 then 0x4000 else 0) :
    PagingReady start m := by
  have hone : ∀ t, t < 1024 → pd_table m.mem 0x1000 t ≠ 0 → t = 768 ∧ pd_table m.mem 0x1000 t = 0x4000 := by
    intro t ht hne
    rw [htab t ht] at hne ⊢
    by_cases h : t = 768
    · exact ⟨h, if_pos h⟩
    · rw [if_neg h] at hne
      exact absurd rfl hne
  refine ⟨hnf, by omega, ⟨fun t ht hne => ?_, fun t s ht hs hts h1 h2 => ?_⟩, fun t ht hne => ?_,
    fun q h1 h2 => ?_⟩
  · rw [hdir] at hne ⊢
    rw [(hone t ht hne).2]
    decide
  · rw [hdir] at h1 h2
    exact absurd ((hone t ht h1).1.trans (hone s hs h2).1.symm) hts
  · rw [hdir] at hne ⊢
    rw [(hone t ht hne).2]
    omega
  · rw [hdir, htab _ (by omega), if_pos (by omega)]
    decide

theorem freshHeap_start : HeapStart 0xC0000000 freshHeap :=
  ⟨by decide, by decide,
    ⟨plainKernel, _, 0, 0, pagingReady_of_table (by decide) (by decide) (by decide) rfl
      fun _ _ => plainKernel_table, rfl, rfl⟩, rfl⟩

/-- Two blocks are held, a byte of the second one is written, and the first one is given back. -/
theorem heap_isolation_two_blocks :
    ∃ tr : List (HeapOp × Session),
      tr.map Prod.fst = [.alloc 100 false, .alloc 200 false, .store 0xC0081090 7, .free 0xC008100C]
        ∧ Trace HeapStep freshHeap tr ∧ (∀ x ∈ tr, Isolated x.2) ∧ Trace KeepsPayloads freshHeap tr := by
  have run := trace_runOf freshHeap [.alloc 100 false, .alloc 200 false, .store 0xC0081090 7, .free 0xC008100C]
    (by decide +kernel)
  have safe : Along HeapSafe freshHeap
      (runOf freshHeap [.alloc 100 false, .alloc 200 false, .store 0xC0081090 7, .free 0xC008100C]) := by
    refine ⟨Guard.AllocOk.of_hit (j := 0) (by decide +kernel) (fun h => absurd h (by decide)),
      Guard.AllocOk.of_hit (j := 0) (by decide +kernel) (fun h => absurd h (by decide)), trivial,
      ⟨fun h => ?_, fun h => ?_⟩, trivial⟩
    · exact absurd h (by decide +kernel)
    · exact absurd h (by decide +kernel)
  exact ⟨_, rfl, run, heap_isolation freshHeap_start run safe⟩

/-- **Live memory given back.**  A block of `0x71000` bytes, a small one after it; freeing the small one
    makes `contract` round its offset `0x71000` down to `0x70000`, and the heap now ends inside the
    block that is still held. -/
theorem contract_cuts_a_live_block :
    HeapStart 0xC0000000 freshHeap
      ∧ ∃ tr : List (HeapOp × Session),
        tr.map Prod.fst = [.alloc 0x70FEC false, .alloc 1 false, .free 0xC00F200C]
          ∧ Trace HeapStep freshHeap tr ∧ ¬ ∀ x ∈ tr, Isolated x.2 := by
  have run : Trace HeapStep freshHeap
      [(.alloc 0x70FEC false, HeapOp.result freshHeap (.alloc 0x70FEC false)),
        (.alloc 1 false,
          HeapOp.result (HeapOp.result freshHeap (.alloc 0x70FEC false)) (.alloc 1 false)),
        (.free 0xC00F200C,
          HeapOp.result (HeapOp.result (HeapOp.result freshHeap (.alloc 0x70FEC false)) (.alloc 1 false))
            (.free 0xC00F200C))] :=
    ⟨HeapOp.step_result (show 0x70FEC < 0x10000000 by decide) (by decide +kernel),
      HeapOp.step_result (show 1 < 0x10000000 by decide) (by decide +kernel),
      HeapOp.step_result (show 0xC00F200C ∈ _ by decide +kernel) (by decide +kernel), trivial⟩
  refine ⟨freshHeap_start, _, rfl, run, fun hall => ?_⟩
  obtain ⟨-, hinside⟩ := hall _ (List.mem_cons_of_mem _ (List.mem_cons_of_mem _ List.mem_cons_self))
  have hlast := (hinside (0xC008100C, 0x70FEC) (by decide +kernel)).2.2
  exact absurd hlast (by decide +kernel)

end JamesM
