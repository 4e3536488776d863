/-
  JamesM.Interrupt.Tables — the descriptor tables (`descriptor_tables.c`) and the
  routines that load them (`gdt_flush.s`, `idt_flush.s`).

  The source cuts addresses into the fields of packed structures; the processor puts
  them together again (`JamesM.Lib.Descriptor`).  What the linker decides is a
  parameter: the addresses of the tables and of the stubs.

  Main results:
    * `segment_round_trip` — the processor reads back what `gdt_set_gate` was given.
    * `kernel_memory_is_flat` — afterwards every segment register is flat, and so is
      every selector the table has.
    * `vectors_route` — the vectors 0 to 47 lead to their stubs, and no other vector
      leads anywhere.
-/
import JamesM.Lib.Descriptor
import JamesM.Lib.Word32
import JamesM.Common

namespace JamesM

open JamesM.Word32 JamesM.Descriptor

/-! ## §1. The source. -/

/-- `struct gdt_entry`. -/
structure GdtEntry where
  ge_limit_lo : Nat
  ge_base_lo : Nat
  ge_base_mi : Nat
  ge_access : Nat
  ge_granularity : Nat
  ge_base_hi : Nat
  deriving DecidableEq

/-- `struct gdt_ptr`. -/
structure GdtPtr where
  gp_limit : Nat
  gp_base : Nat

/-- `struct idt_entry`. -/
structure IdtEntry where
  ie_base_lo : Nat
  ie_sel : Nat
  ie_always0 : Nat
  ie_flags : Nat
  ie_base_hi : Nat
  deriving DecidableEq

/-- `struct idt_ptr`. -/
structure IdtPtr where
  ip_limit : Nat
  ip_base : Nat

/-- What the linker decides: where the tables are, and the stubs of `interrupt.s`. -/
structure Links where
  gdt_entries : Nat
  idt_entries : Nat
  isr : Nat → Nat
  irq : Nat → Nat
  isr_lt : ∀ n, isr n < 4294967296
  irq_lt : ∀ n, irq n < 4294967296

/-- The static variables of `descriptor_tables.c`, the registers of the processor that `lgdt`, `lidt`
    and the moves after them load, and the bytes sent to ports, newest first. -/
structure Descriptors where
  gdt_entries : Fin 5 → GdtEntry
  gdt_ptr : GdtPtr
  idt_entries : Fin 256 → IdtEntry
  idt_ptr : IdtPtr
  gdtr : GdtPtr
  idtr : IdtPtr
  cs : Nat
  ds : Nat
  es : Nat
  fs : Nat
  gs : Nat
  ss : Nat
  ports : List (Nat × Nat)

/-- The fields `gdt_set_gate` stores. -/
def gdt_gate (base limit access gran : Nat) : GdtEntry :=
  { ge_base_lo := base &&& 0xFFFF
    ge_base_mi := (base >>> 16) &&& 0xFF
    ge_base_hi := (base >>> 24) &&& 0xFF
    ge_limit_lo := limit &&& 0xFFFF
    ge_granularity := ((limit >>> 16) &&& 0x0F) ||| (gran &&& 0xF0)
    ge_access := access }

/-- `gdt_set_gate(n, base, limit, access, gran)`. -/
def gdt_set_gate (n base limit access gran : Nat) (gdt : Fin 5 → GdtEntry) : Result (Fin 5 → GdtEntry) :=
  if h : n < 5 then .ok (Function.update gdt ⟨n, h⟩ (gdt_gate base limit access gran))
  else .error (.panic "bad gdt_entries index")

/-- The fields `idt_set_gate` stores. -/
def idt_gate (base sel flags : Nat) : IdtEntry :=
  { ie_base_lo := base &&& 0xFFFF
    ie_base_hi := (base >>> 16) &&& 0xFFFF
    ie_sel := sel
    ie_always0 := 0
    ie_flags := flags }

/-- `idt_set_gate(n, base, sel, flags)`. -/
def idt_set_gate (n base sel flags : Nat) (idt : Fin 256 → IdtEntry) : Result (Fin 256 → IdtEntry) :=
  if h : n < 256 then .ok (Function.update idt ⟨n, h⟩ (idt_gate base sel flags))
  else .error (.panic "Bad idt_entries index")

/-- `gdt_flush(gdt_p)`. -/
def gdt_flush (gdt_p : GdtPtr) (d : Descriptors) : Descriptors :=
  { d with gdtr := gdt_p, ds := 0x10, es := 0x10, fs := 0x10, gs := 0x10, ss := 0x10, cs := 0x08 }

/-- `idt_flush(idt_p)`. -/
def idt_flush (idt_p : IdtPtr) (d : Descriptors) : Descriptors := { d with idtr := idt_p }

/-- `init_gdt()`. -/
def init_gdt (links : Links) (d : Descriptors) : Result Descriptors := do
  let gdt_ptr : GdtPtr := { gp_limit := 5 * 8 - 1, gp_base := links.gdt_entries }
  let gdt ← gdt_set_gate 0 0 0 0 0 d.gdt_entries                -- null segment
  let gdt ← gdt_set_gate 1 0 0xFFFFFFFF 0x9A 0xCF gdt           -- code segment
  let gdt ← gdt_set_gate 2 0 0xFFFFFFFF 0x92 0xCF gdt           -- data segment
  let gdt ← gdt_set_gate 3 0 0xFFFFFFFF 0xFA 0xCF gdt           -- user mode code segment
  let gdt ← gdt_set_gate 4 0 0xFFFFFFFF 0xF2 0xCF gdt           -- user mode data segment
  .ok (gdt_flush gdt_ptr { d with gdt_ptr := gdt_ptr, gdt_entries := gdt })

/-- The calls `outb(port, value)` of `init_idt`, first to last. -/
def remap_irqs : List (Nat × Nat) :=
  [(0x20, 0x11), (0xA0, 0x11), (0x21, 0x20), (0xA1, 0x28), (0x21, 0x04), (0xA1, 0x02), (0x21, 0x01),
    (0xA1, 0x01), (0x21, 0x00), (0xA1, 0x00)]

/-- The first two arguments of the calls `idt_set_gate(n, base, 0x08, 0x8E)` of `init_idt`. -/
def idt_gates (links : Links) : List (Nat × Nat) :=
  (List.range 32).map (fun n => (n, links.isr n)) ++ (List.range 16).map (fun n => (32 + n, links.irq n))

/-- These calls, one after another. -/
def set_gates : List (Nat × Nat) → (Fin 256 → IdtEntry) → Result (Fin 256 → IdtEntry)
  | [], idt => .ok idt
  | (n, base) :: gates, idt => do
      let idt ← idt_set_gate n base 0x08 0x8E idt
      set_gates gates idt

/-- `init_idt()`. -/
def init_idt (links : Links) (d : Descriptors) : Result Descriptors := do
  let idt_ptr : IdtPtr := { ip_limit := 256 * 8 - 1, ip_base := links.idt_entries }
  -- memset(&idt_entries, 0, sizeof(idt_entries))
  let idt ← set_gates (idt_gates links) fun _ => ⟨0, 0, 0, 0, 0⟩
  .ok (idt_flush idt_ptr
    { d with idt_ptr := idt_ptr, idt_entries := idt, ports := remap_irqs.reverse ++ d.ports })

/-- `init_descriptor_tables()`. -/
def init_descriptor_tables (links : Links) (d : Descriptors) : Result Descriptors := do
  let d ← init_gdt links d
  init_idt links d

/-! ## §2. The tables in memory. -/

/-- The bytes of an entry: the structure is packed, and words are little-endian. -/
def GdtEntry.byte (e : GdtEntry) : Nat → Nat
  | 0 => e.ge_limit_lo % 256
  | 1 => e.ge_limit_lo / 256
  | 2 => e.ge_base_lo % 256
  | 3 => e.ge_base_lo / 256
  | 4 => e.ge_base_mi
  | 5 => e.ge_access
  | 6 => e.ge_granularity
  | _ => e.ge_base_hi

/-- The same, for a gate. -/
def IdtEntry.byte (e : IdtEntry) : Nat → Nat
  | 0 => e.ie_base_lo % 256
  | 1 => e.ie_base_lo / 256
  | 2 => e.ie_sel % 256
  | 3 => e.ie_sel / 256
  | 4 => e.ie_always0
  | 5 => e.ie_flags
  | 6 => e.ie_base_hi % 256
  | _ => e.ie_base_hi / 256

/-- The bytes of entry `i` of the segment table. -/
def gdtTable (gdt : Fin 5 → GdtEntry) (i : Nat) : Nat → Nat :=
  if h : i < 5 then (gdt ⟨i, h⟩).byte else fun _ => 0

/-- The bytes of entry `v` of the interrupt table. -/
def idtTable (idt : Fin 256 → IdtEntry) (v : Nat) : Nat → Nat :=
  if h : v < 256 then (idt ⟨v, h⟩).byte else fun _ => 0

/-- What the fields of a segment stand for: the base whole, the low 20 bits of the limit, the access
    byte and the high nibble of the granularity. -/
def segmentOf (base limit access gran : Nat) : Segment :=
  { base := base, limit := limit % 1048576
    access := access / 2 % 2 = 1, executable := access / 8 % 2 = 1, user := access / 16 % 2 = 1
    dpl := access / 32 % 4, present := access / 128 % 2 = 1
    wide := gran / 64 % 2 = 1, granular := gran / 128 % 2 = 1 }

/-- The granularity byte: four bits of the limit, four flags. -/
theorem granularity_eq (limit gran : Nat) :
    ((limit >>> 16) &&& 0x0F) ||| (gran &&& 0xF0) = 16 * (gran / 16 % 16) + limit / 65536 % 16 := by
  rw [land_0f, land_f0, Nat.shiftRight_eq_div_pow, show (2 : Nat) ^ 16 = 65536 from rfl,
    lor_nibbles (Nat.mod_lt _ (by decide))]

/-- **The processor reads the segment back.** -/
theorem decode_gdt_gate {base : Nat} (limit access gran : Nat) (hbase : base < 4294967296) :
    Segment.decode (gdt_gate base limit access gran).byte = segmentOf base limit access gran := by
  have h16 : (2 : Nat) ^ 16 = 65536 := rfl
  have h24 : (2 : Nat) ^ 24 = 16777216 := rfl
  simp only [Segment.decode, segmentOf, gdt_gate, GdtEntry.byte]
  rw [granularity_eq, land_ffff, land_ffff, land_ff, land_ff, Nat.shiftRight_eq_div_pow,
    Nat.shiftRight_eq_div_pow, h16, h24]
  congr 1
  · omega
  · omega
  · exact decide_eq_decide.mpr (by omega)
  · exact decide_eq_decide.mpr (by omega)

/-- **The processor reads the gate back.** -/
theorem decode_idt_gate {base : Nat} (sel flags : Nat) (hbase : base < 4294967296) :
    Gate.decode (idt_gate base sel flags).byte
      = { offset := base, selector := sel, type := flags % 32, dpl := flags / 32 % 4
          present := flags / 128 % 2 = 1 } := by
  have h16 : (2 : Nat) ^ 16 = 65536 := rfl
  simp only [Gate.decode, idt_gate, IdtEntry.byte]
  rw [land_ffff, land_ffff, Nat.shiftRight_eq_div_pow, h16]
  congr 1
  · omega
  · omega

/-! ## §3. Setting entries. -/

/-- Inside its table `gdt_set_gate` returns: the entry is the one asked for, the others are kept. -/
theorem gdt_set_gate_spec {n base : Nat} (hn : n < 5) (hbase : base < 4294967296) (limit access gran : Nat)
    (gdt : Fin 5 → GdtEntry) :
    ∃ gdt', gdt_set_gate n base limit access gran gdt = .ok gdt'
      ∧ Segment.decode (gdtTable gdt' n) = segmentOf base limit access gran
      ∧ ∀ k, k ≠ n → gdtTable gdt' k = gdtTable gdt k := by
  refine ⟨_, dif_pos hn, ?_, fun k hk => ?_⟩
  · rw [gdtTable, dif_pos hn, Function.update_self, decode_gdt_gate limit access gran hbase]
  · unfold gdtTable
    by_cases hk5 : k < 5
    · rw [dif_pos hk5, dif_pos hk5, Function.update_of_ne fun h => hk (Fin.mk.inj h)]
    · rw [dif_neg hk5, dif_neg hk5]

/-- The same, for a gate. -/
theorem idt_set_gate_spec {n base : Nat} (hn : n < 256) (hbase : base < 4294967296) (sel flags : Nat)
    (idt : Fin 256 → IdtEntry) :
    ∃ idt', idt_set_gate n base sel flags idt = .ok idt'
      ∧ Gate.decode (idtTable idt' n)
        = { offset := base, selector := sel, type := flags % 32, dpl := flags / 32 % 4
            present := flags / 128 % 2 = 1 }
      ∧ ∀ k, k ≠ n → idtTable idt' k = idtTable idt k := by
  refine ⟨_, dif_pos hn, ?_, fun k hk => ?_⟩
  · rw [idtTable, dif_pos hn, Function.update_self, decode_idt_gate sel flags hbase]
  · unfold idtTable
    by_cases hk256 : k < 256
    · rw [dif_pos hk256, dif_pos hk256, Function.update_of_ne fun h => hk (Fin.mk.inj h)]
    · rw [dif_neg hk256, dif_neg hk256]

/-- **Setting entries of both tables.**  For every 32-bit base and any other arguments: the routines
    panic exactly for an index outside their table; otherwise the processor finds in that entry the base
    whole, the low 20 bits of the limit and the flags of the segment, or the address, the selector and
    the flags of the gate; and every other entry is as before. -/
theorem entries_round_trip {base : Nat} (hbase : base < 4294967296) (n limit access gran sel flags : Nat)
    (gdt : Fin 5 → GdtEntry) (idt : Fin 256 → IdtEntry) :
    (if n < 5 then
        ∃ gdt', gdt_set_gate n base limit access gran gdt = .ok gdt'
          ∧ Segment.decode (gdtTable gdt' n) = segmentOf base limit access gran
          ∧ ∀ k, k ≠ n → gdtTable gdt' k = gdtTable gdt k
      else gdt_set_gate n base limit access gran gdt = .error (.panic "bad gdt_entries index"))
      ∧ if n < 256 then
          ∃ idt', idt_set_gate n base sel flags idt = .ok idt'
            ∧ Gate.decode (idtTable idt' n)
              = { offset := base, selector := sel, type := flags % 32, dpl := flags / 32 % 4
                  present := flags / 128 % 2 = 1 }
            ∧ ∀ k, k ≠ n → idtTable idt' k = idtTable idt k
        else idt_set_gate n base sel flags idt = .error (.panic "Bad idt_entries index") := by
  constructor
  · by_cases hn : n < 5
    · rw [if_pos hn]
      exact gdt_set_gate_spec hn hbase limit access gran gdt
    · rw [if_neg hn]
      exact dif_neg hn
  · by_cases hn : n < 256
    · rw [if_pos hn]
      exact idt_set_gate_spec hn hbase sel flags idt
    · rw [if_neg hn]
      exact dif_neg hn

/-- The highest base, with all flags. -/
theorem entries_round_trip_top :
    ∃ gdt', gdt_set_gate 1 0xFFFFFFFF 0xFFFFF 0xFF 0xF0 (fun _ => ⟨0, 0, 0, 0, 0, 0⟩) = .ok gdt'
      ∧ (Segment.decode (gdtTable gdt' 1)).base = 0xFFFFFFFF := by
  obtain ⟨h, -⟩ := entries_round_trip (show 0xFFFFFFFF < 4294967296 by decide) 1 0xFFFFF 0xFF 0xF0 0 0
    (fun _ => ⟨0, 0, 0, 0, 0, 0⟩) fun _ => ⟨0, 0, 0, 0, 0⟩
  rw [if_pos (by decide)] at h
  obtain ⟨gdt', h1, h2, -⟩ := h
  exact ⟨gdt', h1, by rw [h2]; rfl⟩

/-! ## §4. The segments. -/

/-- The access byte of entry `i` of the table `init_gdt` builds. -/
def kernelAccess (i : Nat) : Nat :=
  if i = 1 then 0x9A else if i = 2 then 0x92 else if i = 3 then 0xFA else 0xF2

/-- The segment of that entry; entry 0 is the null segment. -/
def kernelSegment (i : Nat) : Segment := segmentOf 0 0xFFFFFFFF (kernelAccess i) 0xCF

theorem init_gdt_spec (links : Links) (d : Descriptors) :
    ∃ gdt, init_gdt links d = .ok (gdt_flush ⟨39, links.gdt_entries⟩
        { d with gdt_ptr := ⟨39, links.gdt_entries⟩, gdt_entries := gdt })
      ∧ ∀ i, 1 ≤ i → i < 5 → Segment.decode (gdtTable gdt i) = kernelSegment i := by
  obtain ⟨g0, h0, -, -⟩ := gdt_set_gate_spec (show 0 < 5 by decide)
    (show 0 < 4294967296 by decide) 0 0 0 d.gdt_entries
  obtain ⟨g1, h1, e1, -⟩ := gdt_set_gate_spec (show 1 < 5 by decide)
    (show 0 < 4294967296 by decide) 0xFFFFFFFF 0x9A 0xCF g0
  obtain ⟨g2, h2, e2, k2⟩ := gdt_set_gate_spec (show 2 < 5 by decide)
    (show 0 < 4294967296 by decide) 0xFFFFFFFF 0x92 0xCF g1
  obtain ⟨g3, h3, e3, k3⟩ := gdt_set_gate_spec (show 3 < 5 by decide)
    (show 0 < 4294967296 by decide) 0xFFFFFFFF 0xFA 0xCF g2
  obtain ⟨g4, h4, e4, k4⟩ := gdt_set_gate_spec (show 4 < 5 by decide)
    (show 0 < 4294967296 by decide) 0xFFFFFFFF 0xF2 0xCF g3
  refine ⟨g4, by rw [init_gdt, h0, ok_bind, h1, ok_bind, h2, ok_bind, h3, ok_bind, h4, ok_bind],
    fun i hi hi5 => ?_⟩
  obtain rfl | rfl | rfl | rfl : i = 1 ∨ i = 2 ∨ i = 3 ∨ i = 4 := by omega
  · rw [k4 1 (by decide), k3 1 (by decide), k2 1 (by decide), e1]
    rfl
  · rw [k4 2 (by decide), k3 2 (by decide), e2]
    rfl
  · rw [k4 3 (by decide), e3]
    rfl
  · rw [e4]
    rfl

/-- Every segment of the table is flat. -/
theorem kernelSegment_flat {i : Nat} (h1 : 1 ≤ i) (h5 : i < 5) : (kernelSegment i).Flat := by
  have hgranular : (kernelSegment i).granular = true := rfl
  have hlimit : (kernelSegment i).limit = 1048575 := by norm_num [kernelSegment, segmentOf]
  refine ⟨rfl, by rw [Segment.last, if_pos hgranular, hlimit], ?_⟩
  obtain rfl | rfl | rfl | rfl : i = 1 ∨ i = 2 ∨ i = 3 ∨ i = 4 := by omega
  all_goals rfl

/-- The selectors the processor accepts are those of the entries 1 to 4. -/
theorem segment_kernel {gdt : Fin 5 → GdtEntry}
    (hgdt : ∀ i, 1 ≤ i → i < 5 → Segment.decode (gdtTable gdt i) = kernelSegment i) (sel : Nat) :
    segmentAt (gdtTable gdt) 39 sel
      = if sel / 4 % 2 = 0 ∧ 1 ≤ sel / 8 ∧ sel / 8 ≤ 4 then some (kernelSegment (sel / 8)) else none := by
  unfold segmentAt
  by_cases h : sel / 4 % 2 = 0 ∧ 1 ≤ sel / 8 ∧ sel / 8 ≤ 4
  · rw [if_pos h, if_pos ⟨h.1, by omega, by omega⟩, hgdt _ h.2.1 (by omega)]
  · rw [if_neg h, if_neg fun h' => h ⟨h'.1, by omega, by omega⟩]

/-! ## §5. The gates. -/

/-- Distinct entries inside the table are all set, and the others are kept. -/
theorem set_gates_spec (gates : List (Nat × Nat)) : (∀ g ∈ gates, g.1 < 256 ∧ g.2 < 4294967296) →
    (gates.map Prod.fst).Nodup → ∀ idt, ∃ idt', set_gates gates idt = .ok idt'
      ∧ (∀ g ∈ gates, Gate.decode (idtTable idt' g.1) = ⟨g.2, 0x08, 0xE, 0, true⟩)
      ∧ ∀ v, v ∉ gates.map Prod.fst → idtTable idt' v = idtTable idt v := by
  induction gates with
  | nil => exact fun _ _ idt => ⟨idt, rfl, by simp, fun _ _ => rfl⟩
  | cons g gates ih =>
      intro hlt hnodup idt
      obtain ⟨n, base⟩ := g
      obtain ⟨hnot, hnodup⟩ := List.nodup_cons.mp hnodup
      obtain ⟨hn, hbase⟩ := hlt (n, base) List.mem_cons_self
      obtain ⟨idt₁, h1, hentry, hother⟩ := idt_set_gate_spec hn hbase 0x08 0x8E idt
      obtain ⟨idt₂, h2, hall, hkeep⟩ := ih (fun g hg => hlt g (List.mem_cons_of_mem _ hg)) hnodup idt₁
      refine ⟨idt₂, by rw [set_gates, h1, ok_bind, h2], fun g hg => ?_, fun v hv => ?_⟩
      · rcases List.mem_cons.mp hg with rfl | hg
        · rw [hkeep n hnot, hentry]
          rfl
        · exact hall g hg
      · rw [List.map_cons, List.mem_cons, not_or] at hv
        rw [hkeep v hv.2, hother v hv.1]

theorem idt_gates_lt (links : Links) : ∀ g ∈ idt_gates links, g.1 < 256 ∧ g.2 < 4294967296 := by
  intro g hg
  simp only [idt_gates, List.mem_append, List.mem_map, List.mem_range] at hg
  rcases hg with ⟨n, hn, rfl⟩ | ⟨n, hn, rfl⟩
  · exact ⟨by dsimp only; omega, links.isr_lt n⟩
  · exact ⟨by dsimp only; omega, links.irq_lt n⟩

theorem idt_gates_fst (links : Links) : (idt_gates links).map Prod.fst = List.range 48 := by
  rw [idt_gates, List.map_append, List.map_map, List.map_map]
  rfl

theorem idt_gates_nodup (links : Links) : ((idt_gates links).map Prod.fst).Nodup := by
  rw [idt_gates_fst]
  exact List.nodup_range

/-! ## §6. After `init_descriptor_tables`. -/

/-- **The kernel's memory is flat.**  Whatever the tables and the registers were before,
    `init_descriptor_tables` returns, and afterwards: the selectors the processor accepts are those of
    the entries 1 to 4 of the kernel's table, all of them flat; the code segment register is executable at
    ring 0, the five data segment registers are writeable at ring 0; and through each of the six every
    32-bit offset is its own linear address. -/
theorem kernel_memory_is_flat (links : Links) (d : Descriptors) :
    ∃ d', init_descriptor_tables links d = .ok d'
      ∧ d'.gdtr.gp_base = links.gdt_entries
      ∧ (∀ sel, (segmentAt (gdtTable d'.gdt_entries) d'.gdtr.gp_limit sel).isSome
          ↔ sel / 4 % 2 = 0 ∧ 1 ≤ sel / 8 ∧ sel / 8 ≤ 4)
      ∧ (∀ sel s, segmentAt (gdtTable d'.gdt_entries) d'.gdtr.gp_limit sel = some s → s.Flat)
      ∧ (∃ s, segmentAt (gdtTable d'.gdt_entries) d'.gdtr.gp_limit d'.cs = some s
          ∧ s.user = true ∧ s.executable = true ∧ s.dpl = 0)
      ∧ (∀ sel ∈ [d'.ds, d'.es, d'.fs, d'.gs, d'.ss],
          ∃ s, segmentAt (gdtTable d'.gdt_entries) d'.gdtr.gp_limit sel = some s
            ∧ s.user = true ∧ s.executable = false ∧ s.access = true ∧ s.dpl = 0)
      ∧ ∀ sel ∈ [d'.cs, d'.ds, d'.es, d'.fs, d'.gs, d'.ss], ∀ off, off < 4294967296 →
          linear (gdtTable d'.gdt_entries) d'.gdtr.gp_limit sel off = some off := by
  obtain ⟨gdt, hgdt, hentries⟩ := init_gdt_spec links d
  obtain ⟨idt, hidt, -⟩ := set_gates_spec (idt_gates links) (idt_gates_lt links) (idt_gates_nodup links)
    fun _ => ⟨0, 0, 0, 0, 0⟩
  have hseg := segment_kernel hentries
  have hdata : segmentAt (gdtTable gdt) 39 0x10 = some (kernelSegment 2) := by rw [hseg]; rfl
  have hcode : segmentAt (gdtTable gdt) 39 0x08 = some (kernelSegment 1) := by rw [hseg]; rfl
  refine ⟨_, by rw [init_descriptor_tables, hgdt, ok_bind, init_idt, hidt, ok_bind], rfl, fun sel => ?_,
    fun sel s hs => ?_, ⟨_, hcode, rfl, rfl, rfl⟩, fun sel hsel => ?_, fun sel hsel off hoff => ?_⟩
  · show (segmentAt (gdtTable gdt) 39 sel).isSome = true ↔ _
    rw [hseg]
    split
    · next h => exact iff_of_true rfl h
    · next h => exact iff_of_false (by simp) h
  · have hs : segmentAt (gdtTable gdt) 39 sel = some s := hs
    rw [hseg] at hs
    split at hs
    · next h =>
        rw [← Option.some.inj hs]
        exact kernelSegment_flat h.2.1 (by omega)
    · exact nomatch hs
  · have hsel : sel ∈ [0x10, 0x10, 0x10, 0x10, 0x10] := hsel
    obtain rfl : sel = 0x10 := by simpa using hsel
    exact ⟨_, hdata, rfl, rfl, rfl, rfl⟩
  · have hsel : sel ∈ [0x08, 0x10, 0x10, 0x10, 0x10, 0x10] := hsel
    obtain rfl | rfl : sel = 0x08 ∨ sel = 0x10 := by simpa using hsel
    · exact linear_flat hcode (kernelSegment_flat (by decide) (by decide)) hoff
    · exact linear_flat hdata (kernelSegment_flat (by decide) (by decide)) hoff

/-- **The vectors.**  Whatever the tables were before, after `init_descriptor_tables` the vectors 0 to 31
    lead to the exception stubs and 32 to 47 to the stubs of the interrupt requests, through a present
    32-bit interrupt gate at ring 0 in the kernel's code segment; no other vector has a gate.  The processor
    finds them in the kernel's table. -/
theorem vectors_route (links : Links) (d : Descriptors) :
    ∃ d', init_descriptor_tables links d = .ok d' ∧ d'.idtr.ip_base = links.idt_entries
      ∧ ∀ v, gateAt (idtTable d'.idt_entries) d'.idtr.ip_limit v
        = if v < 32 then some ⟨links.isr v, 0x08, 0xE, 0, true⟩
          else if v < 48 then some ⟨links.irq (v - 32), 0x08, 0xE, 0, true⟩
          else none := by
  obtain ⟨gdt, hgdt, -⟩ := init_gdt_spec links d
  obtain ⟨idt, hidt, hall, hkeep⟩ := set_gates_spec (idt_gates links) (idt_gates_lt links)
    (idt_gates_nodup links) fun _ => ⟨0, 0, 0, 0, 0⟩
  refine ⟨_, by rw [init_descriptor_tables, hgdt, ok_bind, init_idt, hidt, ok_bind], rfl, fun v => ?_⟩
  show gateAt (idtTable idt) 2047 v = _
  have hgate : ∀ a, (v, a) ∈ idt_gates links →
      gateAt (idtTable idt) 2047 v = some ⟨a, 0x08, 0xE, 0, true⟩ := by
    intro a ha
    have hv := (idt_gates_lt links _ ha).1
    have hdecode := hall _ ha
    dsimp only at hv hdecode
    unfold gateAt
    rw [hdecode, if_pos ⟨by omega, rfl⟩]
  by_cases h32 : v < 32
  · rw [if_pos h32]
    exact hgate _ (List.mem_append_left _ (List.mem_map.mpr ⟨v, List.mem_range.mpr h32, rfl⟩))
  rw [if_neg h32]
  by_cases h48 : v < 48
  · rw [if_pos h48]
    refine hgate _ (List.mem_append_right _ (List.mem_map.mpr ⟨v - 32, List.mem_range.mpr (by omega), ?_⟩))
    rw [show 32 + (v - 32) = v by omega]
  · -- the entry is still cleared
    rw [if_neg h48]
    unfold gateAt
    refine if_neg fun h => ?_
    have hpresent := h.2
    rw [hkeep v (by rw [idt_gates_fst, List.mem_range]; exact h48), idtTable, dif_pos (by omega)] at hpresent
    exact absurd hpresent (by decide)

end JamesM
