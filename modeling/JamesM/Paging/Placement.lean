/-
  JamesM.Paging.Placement — the placement allocator over whole runs.

  Before the heap exists `_kmalloc` is a bump allocator.  Its page alignment tests
  `placement_address & 0xFFFFF000`, which is not an is-aligned test: from 0x1000 on
  it always moves to the NEXT page boundary, also from an aligned address.

  Main results:
    * `_kmalloc_placement` — what one call returns and changes, exactly;
    * `placement_run_isolated` — over every run of the eight entry points the
      regions handed out are disjoint and increasing, and a call touches no byte of
      an earlier one.
-/
import JamesM.Paging.Def

namespace JamesM

open JamesM.ByteMem JamesM.Word32

/-! ## §1. One call. -/

/-- Where a placement allocation begins, in unbounded arithmetic. -/
def placement_start (flags placement : Nat) : Nat :=
  if flags &&& M_ALIGNED ≠ 0 then 0x1000 * (placement / 0x1000) + 0x1000 else placement

theorem le_placement_start (flags placement : Nat) : placement ≤ placement_start flags placement := by
  unfold placement_start
  split <;> omega

theorem placement_start_aligned {flags placement : Nat} (h : flags &&& M_ALIGNED ≠ 0) :
    placement_start flags placement % 0x1000 = 0 := by
  unfold placement_start
  rw [if_pos h]
  omega

/-- **One placement call.**  It returns its start, reports the same address as the physical one,
    moves the bump pointer to the end of the region, and clears the region if asked to. -/
theorem _kmalloc_placement (alloc : AllocFn) (phys : Bool) {len flags : Nat} {m : Machine}
    (hready : m.heap_ready = false) (hlow : 0x1000 ≤ m.placement_address)
    (hhigh : m.placement_address < 4294967296)
    (hwrap : placement_start flags m.placement_address + len < 4294967296) :
    _kmalloc alloc len phys flags m = .ok
      (placement_start flags m.placement_address,
        (if phys then some (placement_start flags m.placement_address) else none),
        { m with
          placement_address := placement_start flags m.placement_address + len
          mem := if flags &&& M_ZERO ≠ 0
            then bzero m.mem (placement_start flags m.placement_address) len else m.mem }) := by
  have hstart : (if flags &&& M_ALIGNED ≠ 0 ∧ m.placement_address &&& 0xFFFFF000 ≠ 0 then
        add32 (m.placement_address &&& 0xFFFFF000) 0x1000 else m.placement_address)
      = placement_start flags m.placement_address := by
    unfold placement_start at hwrap ⊢
    by_cases hf : flags &&& M_ALIGNED ≠ 0
    · rw [if_pos hf] at hwrap
      have hne : 4096 * (m.placement_address / 4096) ≠ 0 := by omega
      have hlt : 4096 * (m.placement_address / 4096) + 0x1000 < 4294967296 := by omega
      -- the masked test and the masked base, as divisions
      rw [if_pos hf, land_page hhigh, if_pos ⟨hf, hne⟩, add32_of_lt hlt]
    · rw [if_neg hf, if_neg (fun h => hf h.1)]
  simp only [_kmalloc, hready, if_true, hstart, ok_bind, add32_of_lt hwrap,
    sub32_of_le hwrap (Nat.le_add_left _ _), Nat.add_sub_cancel]
  by_cases hz : flags &&& M_ZERO ≠ 0
  · rw [if_pos hz, if_pos hz]
  · rw [if_neg hz, if_neg hz]

/-! ## §2. The eight entry points. -/

/-- The names of the entry points of `kmalloc.h`. -/
inductive KmallocFn where
  | kmalloc | kmalloc0 | kmalloc_a | kmalloc0_a | kmalloc_p | kmalloc0_p | kmalloc_ap | kmalloc0_ap
  deriving DecidableEq, Repr

namespace KmallocFn

/-- Calling an entry point. -/
def call (alloc : AllocFn) : KmallocFn → Nat → Machine → Result (Nat × Option Nat × Machine)
  | .kmalloc => JamesM.kmalloc alloc
  | .kmalloc0 => JamesM.kmalloc0 alloc
  | .kmalloc_a => JamesM.kmalloc_a alloc
  | .kmalloc0_a => JamesM.kmalloc0_a alloc
  | .kmalloc_p => JamesM.kmalloc_p alloc
  | .kmalloc0_p => JamesM.kmalloc0_p alloc
  | .kmalloc_ap => JamesM.kmalloc_ap alloc
  | .kmalloc0_ap => JamesM.kmalloc0_ap alloc

/-- The `_a` and `_ap` calls. -/
def aligned : KmallocFn → Bool
  | .kmalloc_a | .kmalloc0_a | .kmalloc_ap | .kmalloc0_ap => true
  | _ => false

/-- The `kmalloc0` calls. -/
def zeroes : KmallocFn → Bool
  | .kmalloc0 | .kmalloc0_a | .kmalloc0_p | .kmalloc0_ap => true
  | _ => false

/-- The `_p` and `_ap` calls. -/
def reports : KmallocFn → Bool
  | .kmalloc_p | .kmalloc0_p | .kmalloc_ap | .kmalloc0_ap => true
  | _ => false

/-- The flags an entry point passes on. -/
def flags : KmallocFn → Nat
  | .kmalloc | .kmalloc_p => 0
  | .kmalloc0 | .kmalloc0_p => M_ZERO
  | .kmalloc_a | .kmalloc_ap => M_ALIGNED
  | .kmalloc0_a | .kmalloc0_ap => M_ALIGNED ||| M_ZERO

theorem call_eq (alloc : AllocFn) (f : KmallocFn) (len : Nat) :
    f.call alloc len = _kmalloc alloc len f.reports f.flags := by
  cases f <;> rfl

theorem flags_aligned (f : KmallocFn) : f.flags &&& M_ALIGNED ≠ 0 ↔ f.aligned = true := by
  cases f <;> decide

theorem flags_zeroes (f : KmallocFn) : f.flags &&& M_ZERO ≠ 0 ↔ f.zeroes = true := by
  cases f <;> decide

end KmallocFn

/-- A call moves the bump pointer past `2^32`. -/
def Wraps (f : KmallocFn) (len : Nat) (m : Machine) : Prop :=
  4294967296 ≤ placement_start f.flags m.placement_address + len

/-- What one entry point does in the placement phase. -/
theorem KmallocFn.call_spec {alloc : AllocFn} {f : KmallocFn} {len addr : Nat} {phys : Option Nat}
    {m m' : Machine} (hready : m.heap_ready = false) (hlow : 0x1000 ≤ m.placement_address)
    (hhigh : m.placement_address < 4294967296) (hwrap : ¬ Wraps f len m)
    (h : f.call alloc len m = .ok (addr, phys, m')) :
    m.placement_address ≤ addr ∧ m'.placement_address = addr + len ∧ addr + len < 4294967296
      ∧ (f.aligned = true → addr % 0x1000 = 0)
      ∧ phys = (if f.reports then some addr else none)
      ∧ m'.mem = (if f.zeroes then bzero m.mem addr len else m.mem)
      ∧ m'.heap_ready = false := by
  unfold Wraps at hwrap
  rw [f.call_eq, _kmalloc_placement alloc _ hready hlow hhigh (by omega)] at h
  simp only [Except.ok.injEq, Prod.mk.injEq] at h
  obtain ⟨rfl, rfl, rfl⟩ := h
  refine ⟨le_placement_start _ _, rfl, by omega, fun hf => ?_, rfl, ?_, hready⟩
  · exact placement_start_aligned (f.flags_aligned.mpr hf)
  · simp only [f.flags_zeroes]

/-! ## §3. Runs. -/

/-- A region handed out: by which entry point, how long, where, and the physical address stored. -/
structure Placed where
  fn : KmallocFn
  len : Nat
  addr : Nat
  phys : Option Nat

/-- The machines a sequence of calls can reach from `m₀` while `kernel_heap` is NULL and the bump
    pointer does not wrap, with the regions handed out, oldest first. -/
inductive PlacementRun (alloc : AllocFn) (m₀ : Machine) : List Placed → Machine → Prop where
  | start : PlacementRun alloc m₀ [] m₀
  | call {rs : List Placed} {m m' : Machine} (fn : KmallocFn) (len : Nat) {addr : Nat}
      {phys : Option Nat} :
      PlacementRun alloc m₀ rs m → ¬ Wraps fn len m → fn.call alloc len m = .ok (addr, phys, m') →
      PlacementRun alloc m₀ (rs ++ [⟨fn, len, addr, phys⟩]) m'

/-- The invariant of a placement run: the regions lie in order between the first and the current
    bump pointer. -/
structure PlacementInv (m₀ : Machine) (rs : List Placed) (m : Machine) : Prop where
  ready : m.heap_ready = false
  low : m₀.placement_address ≤ m.placement_address
  high : m.placement_address < 4294967296
  order : rs.Pairwise (fun r s => r.addr + r.len ≤ s.addr)
  bounds : ∀ r ∈ rs, m₀.placement_address ≤ r.addr ∧ r.addr + r.len ≤ m.placement_address
  aligned : ∀ r ∈ rs, r.fn.aligned = true → r.addr % 0x1000 = 0
  phys : ∀ r ∈ rs, r.phys = if r.fn.reports then some r.addr else none

theorem PlacementInv.step {alloc : AllocFn} {m₀ m m' : Machine} {rs : List Placed} {fn : KmallocFn}
    {len addr : Nat} {phys : Option Nat} (hlow : 0x1000 ≤ m₀.placement_address)
    (inv : PlacementInv m₀ rs m) (hwrap : ¬ Wraps fn len m)
    (h : fn.call alloc len m = .ok (addr, phys, m')) :
    PlacementInv m₀ (rs ++ [⟨fn, len, addr, phys⟩]) m' := by
  obtain ⟨h1, h2, h3, h4, h5, -, h7⟩ :=
    KmallocFn.call_spec inv.ready (hlow.trans inv.low) inv.high hwrap h
  have hmem : ∀ r ∈ rs ++ [⟨fn, len, addr, phys⟩], r ∈ rs ∨ r = ⟨fn, len, addr, phys⟩ := by
    intro r hr; simpa using hr
  refine ⟨h7, ?_, by omega, ?_, fun r hr => ?_, fun r hr => ?_, fun r hr => ?_⟩
  · have := inv.low; omega
  · rw [List.pairwise_append]
    refine ⟨inv.order, List.pairwise_singleton _ _, fun r hr s hs => ?_⟩
    rw [List.mem_singleton] at hs
    subst hs
    have := (inv.bounds r hr).2
    show r.addr + r.len ≤ addr
    omega
  · rcases hmem r hr with hr | rfl
    · have := inv.bounds r hr; omega
    · have := inv.low; dsimp only; omega
  · rcases hmem r hr with hr | rfl
    · exact inv.aligned r hr
    · exact h4
  · rcases hmem r hr with hr | rfl
    · exact inv.phys r hr
    · exact h5

theorem PlacementRun.inv {alloc : AllocFn} {m₀ m : Machine} {rs : List Placed}
    (hready : m₀.heap_ready = false) (hlow : 0x1000 ≤ m₀.placement_address)
    (hhigh : m₀.placement_address < 4294967296) (run : PlacementRun alloc m₀ rs m) :
    PlacementInv m₀ rs m := by
  induction run with
  | start => exact ⟨hready, Nat.le_refl _, hhigh, .nil, by simp, by simp, by simp⟩
  | call fn len _ hwrap h ih => exact ih.step hlow hwrap h

/-- **The placement allocator over every run.**  The regions returned are pairwise disjoint and in
    increasing order, at or above the first bump pointer and below the current one; the `_a` and
    `_ap` results are page aligned; a reported physical address is the returned one; and the next
    call, whichever it is, changes memory only if it is a `kmalloc0` call, then clears exactly its
    own region, and leaves every byte of the earlier regions alone. -/
theorem placement_run_isolated (alloc : AllocFn) {m₀ m : Machine} {rs : List Placed}
    (hready : m₀.heap_ready = false) (hlow : 0x1000 ≤ m₀.placement_address)
    (hhigh : m₀.placement_address < 4294967296) (run : PlacementRun alloc m₀ rs m) :
    rs.Pairwise (fun r s => r.addr + r.len ≤ s.addr)
      ∧ (∀ r ∈ rs, m₀.placement_address ≤ r.addr ∧ r.addr + r.len ≤ m.placement_address
          ∧ (r.fn.aligned = true → r.addr % 0x1000 = 0)
          ∧ r.phys = (if r.fn.reports then some r.addr else none))
      ∧ ∀ (fn : KmallocFn) (len addr : Nat) (phys : Option Nat) (m' : Machine),
          ¬ Wraps fn len m → fn.call alloc len m = .ok (addr, phys, m') →
          (∀ x, addr ≤ x ∧ x < addr + len → m'.mem x = if fn.zeroes then 0 else m.mem x)
            ∧ (∀ x, ¬ (addr ≤ x ∧ x < addr + len) → m'.mem x = m.mem x)
            ∧ ∀ r ∈ rs, ∀ x, r.addr ≤ x ∧ x < r.addr + r.len → m'.mem x = m.mem x := by
  have inv := run.inv hready hlow hhigh
  refine ⟨inv.order, fun r hr => ⟨(inv.bounds r hr).1, (inv.bounds r hr).2, inv.aligned r hr,
    inv.phys r hr⟩, ?_⟩
  intro fn len addr phys m' hwrap h
  obtain ⟨h1, -, -, -, -, h6, -⟩ :=
    KmallocFn.call_spec inv.ready (hlow.trans inv.low) inv.high hwrap h
  have hout : ∀ x, ¬ (addr ≤ x ∧ x < addr + len) → m'.mem x = m.mem x := by
    intro x hx
    rw [h6]
    split
    · exact bzero_eqOutside m.mem addr len x (by omega)
    · rfl
  refine ⟨fun x hx => ?_, hout, fun r hr x hx => hout x ?_⟩
  · rw [h6]
    split
    · exact bzero_in hx
    · rfl
  · have := (inv.bounds r hr).2
    omega

/-- Two calls from an unaligned bump pointer. -/
theorem placement_run_isolated_two_calls :
    ∃ rs m, PlacementRun (fun _ _ _ => .error .fuel) (Machine.bare 0x100010) rs m
      ∧ rs.map (fun r => (r.addr, r.len)) = [(0x100010, 100), (0x101000, 4096)]
      ∧ rs.Pairwise (fun r s => r.addr + r.len ≤ s.addr) := by
  have run : PlacementRun (fun _ _ _ => .error .fuel) (Machine.bare 0x100010) _ _ :=
    .call .kmalloc0_ap 4096 (.call .kmalloc 100 .start (by unfold Wraps; decide) rfl)
      (by unfold Wraps; decide) rfl
  exact ⟨_, _, run, by decide, (placement_run_isolated _ rfl (by decide) (by decide) run).1⟩

end JamesM
