/-
  JamesM.Heap.Alloc — `alloc` as a whole.

  A call searches the index, and either carves the block out of the hole it finds
  or grows the heap and starts over.  `Guard.AllocOk` asks the guard of every round.

  Main results:
    * `Kernel.alloc` — a call that returns hands out a fresh block;
    * `Kernel.alloc_returns` — a call does return (or stops the kernel), because
      every round but the last brings the end of the heap nearer to its limit.
-/
import JamesM.Heap.Grow
import Mathlib.Logic.Relation

namespace JamesM

open JamesM.ByteMem JamesM.Word32 JamesM.Lib

/-! ## §1. Rounds. -/

/-- One round of `alloc` that finds no hole and grows the heap. -/
def Retry (size : Nat) (page_align : Bool) (m m' : Machine) : Prop :=
  find_smallest_hole (size + 20) page_align m = -1 ∧ alloc_grow (alloc 1) (size + 20) m = .ok m'

/-- What the guard asks of one round. -/
def Guard.RoundOk (G : Guard) (size : Nat) (page_align : Bool) (m : Machine) : Prop :=
  (∀ j : Nat, find_smallest_hole (size + 20) page_align m = (j : Int) → G.carve size page_align j m)
    ∧ (find_smallest_hole (size + 20) page_align m = -1 → G.GrowOk (size + 20) m)

/-- What the guard asks of a call: that every round of it is fine. -/
def Guard.AllocOk (G : Guard) (size : Nat) (page_align : Bool) (m : Machine) : Prop :=
  ∀ m', Relation.ReflTransGen (Retry size page_align) m m' → G.RoundOk size page_align m'

theorem Guard.AllocOk.round {G : Guard} {size : Nat} {page_align : Bool} {m : Machine}
    (ok : G.AllocOk size page_align m) : G.RoundOk size page_align m :=
  ok m .refl

theorem Guard.AllocOk.retry {G : Guard} {size : Nat} {page_align : Bool} {m m' : Machine}
    (ok : G.AllocOk size page_align m) (h : Retry size page_align m m') : G.AllocOk size page_align m' :=
  fun m'' h'' => ok m'' (.head h h'')

theorem Guard.AllocOk.weaken {G G' : Guard} (hG : G.Stronger G') {size : Nat} {page_align : Bool}
    {m : Machine} (ok : G.AllocOk size page_align m) : G'.AllocOk size page_align m := fun m' h =>
  ⟨fun j hj => hG.carve ((ok m' h).1 j hj), fun hmiss => ((ok m' h).2 hmiss).weaken hG⟩

/-- A call that finds a hole has one round. -/
theorem Guard.AllocOk.of_hit {G : Guard} {size j : Nat} {page_align : Bool} {m : Machine}
    (hit : find_smallest_hole (size + 20) page_align m = (j : Int)) (hcarve : G.carve size page_align j m) :
    G.AllocOk size page_align m := by
  intro m' h
  rcases Relation.ReflTransGen.cases_head h with rfl | ⟨m₁, ⟨hmiss, -⟩, -⟩
  · refine ⟨fun i hi => ?_, fun hmiss => ?_⟩
    · rw [show i = j by omega]
      exact hcarve
    · omega
  · omega

/-- **A call is a carving or a growth and another call.** -/
theorem Guard.AllocOk.alloc_cases {G : Guard} {fuel size p : Nat} {page_align : Bool} {m m' : Machine}
    (ok : G.AllocOk size page_align m) (hsize : size + 20 < 4294967296)
    (h : alloc (fuel + 1) size page_align m = .ok (p, m')) :
    (∃ j : Nat, find_smallest_hole (size + 20) page_align m = (j : Int) ∧ j < m.heap.h_index.sa_size
        ∧ hole_fits m.mem (size + 20) page_align (m.heap.h_index.sa_array j) = true
        ∧ G.carve size page_align j m ∧ alloc_carve size page_align j m = .ok (p, m'))
      ∨ ∃ m₁, G.GrowOk (size + 20) m ∧ Retry size page_align m m₁
        ∧ alloc fuel size page_align m₁ = .ok (p, m') := by
  rcases find_smallest_hole_cases (size + 20) page_align m with ⟨j, hj, hlt, hfits, -⟩ | ⟨hmiss, -⟩
  · rw [alloc_hit hsize hj] at h
    exact .inl ⟨j, hj, hlt, hfits, ok.round.1 j hj, h⟩
  · have hgrow := ok.round.2 hmiss
    have hnew : add32 size (sizeof_header + sizeof_footer) = size + 20 := add32_of_lt hsize
    rw [alloc] at h
    simp only [hnew, hmiss, if_true, bind_ok_iff] at h
    obtain ⟨m₁, hg, h⟩ := h
    cases fuel with
    | zero => exact absurd h (by simp [alloc])
    | succ fuel =>
        rw [hgrow.alloc_grow_fuel fuel] at hg
        exact .inr ⟨m₁, hgrow, ⟨hmiss, hg⟩, h⟩

/-! ## §2. What a call hands out. -/

/-- The block that was carved goes to the client. -/
theorem Kernel.hand_out {regs regs' : List Region} {live : List (Nat × Nat)} {m m' : Machine} {b : Region}
    {p size : Nat} (k : Kernel regs live m) (k' : Kernel regs' live m') (hp : Preserves regs regs' live m m')
    (htab : ∀ t, t < 1024 → pd_table m'.mem m.kernel_directory t = pd_table m.mem m.kernel_directory t)
    (hb : b ∈ regs') (hblock : b.hole = false) (hbp : b.addr + 12 = p) (hsize : size + 20 ≤ b.size)
    (hnew : ∀ r ∈ regs, r.hole = false → r.addr + r.size ≤ b.addr ∨ b.addr + b.size ≤ r.addr) :
    Kernel regs' ((p, size) :: live) m' := by
  -- no block that was there has this address
  have hne : ∀ r ∈ regs, r.hole = false → r.addr + 12 ≠ p := by
    intro r hr hrb h
    have := hnew r hr hrb
    have := (k.heap.region_bounds hr).2.2
    omega
  refine ⟨k'.heap, ⟨k'.paging.ready, k'.paging.nframes, k'.paging.dir_off, k'.paging.tables,
    fun t ht hne' => ?_, k'.paging.mapped⟩, fun l hl => ?_, List.nodup_cons.mpr ⟨fun hmem => ?_, k'.nodup⟩⟩
  · rw [hp.directory, htab t ht] at hne' ⊢
    rcases k.paging.place t ht hne' with h | h | ⟨r, hr, h1, h2, h3, h4⟩
    · exact .inl (by rw [hp.start]; exact h)
    · exact .inr (.inl (by rw [hp.max]; exact h))
    · refine .inr (.inr ⟨r, hp.blocks r hr h1, h1, h2, h3, fun hmem => ?_⟩)
      rcases List.mem_cons.mp hmem with h | h
      · exact hne r hr h1 h
      · exact h4 h
  · rcases List.mem_cons.mp hl with rfl | hl
    · exact ⟨b, hb, hblock, hbp, hsize⟩
    · exact k'.block l hl
  · obtain ⟨l, hl, hlp⟩ := List.mem_map.mp hmem
    obtain ⟨r, hr, hrb, hra, -⟩ := k.block l hl
    exact hne r hr hrb (hra.trans hlp)

/-- **`alloc` is safe.**  The block is the client's alone; everything that was there stays. -/
theorem Kernel.alloc {fuel : Nat} : ∀ {regs : List Region} {live : List (Nat × Nat)} {m m' : Machine}
    {size : Nat} {page_align : Bool} {p : Nat}, Kernel regs live m → size + 20 < 2147483648 →
    Guard.isolation.AllocOk size page_align m → JamesM.alloc fuel size page_align m = .ok (p, m') →
    ∃ regs', Kernel regs' ((p, size) :: live) m' ∧ Preserves regs regs' live m m' := by
  induction fuel with
  | zero => intro _ _ _ _ _ _ _ _ _ _ h; exact absurd h (by simp [JamesM.alloc])
  | succ fuel ih =>
      intro regs live m m' size page_align p k hsize ok h
      rcases ok.alloc_cases (by omega) h with ⟨j, -, hlt, hfits, hcarve, h⟩ | ⟨m₁, hgrow, hretry, h⟩
      · obtain ⟨regs', b, k', hp, -, htab, hb, hblock, hbp, hbs, hnew⟩ := k.carve hlt hfits hsize hcarve h
        exact ⟨regs', k.hand_out k' hp htab hb hblock hbp hbs hnew, hp⟩
      · obtain ⟨regs₁, -, k₁, hp₁, -⟩ := k.grow hgrow hretry.2
        obtain ⟨regs', k', hp'⟩ := ih k₁ hsize (ok.retry hretry) h
        exact ⟨regs', k', hp₁.trans hp'⟩

/-! ## §3. A call returns. -/

theorem carve_front_ne_fuel (page_align : Bool) (i pos size : Nat) (m : Machine) :
    carve_front page_align i pos size m ≠ .error .fuel := by
  unfold carve_front
  split
  · simp
  · exact bind_ne_fuel (remove_sorted_array_ne_fuel _ _) fun _ _ => by simp

theorem carve_rest_ne_fuel (size new_size pos left : Nat) (m : Machine) :
    carve_rest size new_size pos left m ≠ .error .fuel := by
  unfold carve_rest
  split
  · exact bind_ne_fuel (insert_sorted_array_ne_fuel _ _ _) fun _ _ => by simp
  · simp

theorem alloc_carve_ne_fuel (size : Nat) (page_align : Bool) (i : Nat) (m : Machine) :
    alloc_carve size page_align i m ≠ .error .fuel := by
  unfold alloc_carve
  refine bind_ne_fuel (lookup_sorted_array_ne_fuel _ _) fun hdr _ => ?_
  refine bind_ne_fuel (carve_front_ne_fuel _ _ _ _ _) fun r _ => ?_
  exact bind_ne_fuel (carve_rest_ne_fuel _ _ _ _ _) fun _ _ => by simp

theorem give_space_ne_fuel (old_length old_end_address : Nat) (m : Machine) :
    give_space old_length old_end_address m ≠ .error .fuel := by
  unfold give_space
  dsimp only
  split
  · exact bind_ne_fuel (insert_sorted_array_ne_fuel _ _ _) fun _ _ => by simp
  · exact bind_ne_fuel (lookup_sorted_array_ne_fuel _ _) fun _ _ => by simp

theorem Guard.TableOk.get_page_ne_fuel {G : Guard} {m : Machine} {a : Nat} (hok : G.TableOk m a) :
    get_page (alloc 1) a true m.kernel_directory m ≠ .error .fuel := by
  unfold get_page
  dsimp only
  by_cases hmiss : pd_table m.mem m.kernel_directory (a / 0x1000 / 1024) = 0
  · obtain ⟨j, hj, -⟩ := hok hmiss
    have hflag : (M_ALIGNED ||| M_ZERO) &&& M_ALIGNED ≠ 0 := by decide
    rw [if_neg (show ¬ read32 m.mem (m.kernel_directory + 4 * (a / 0x1000 / 1024)) ≠ 0 from not_not.mpr hmiss),
      if_pos rfl]
    refine bind_ne_fuel ?_ fun _ _ => by simp
    have hzero : (M_ALIGNED ||| M_ZERO) &&& M_ZERO ≠ 0 := by decide
    unfold kmalloc0_ap _kmalloc
    simp only [if_pos hzero, decide_eq_true hflag, alloc_hit (show sizeof_page_table + 20 < 4294967296 by decide) hj]
    split
    · simp
    · exact bind_ne_fuel (alloc_carve_ne_fuel _ _ _ _) fun _ _ => by simp
  · rw [if_pos (show read32 m.mem (m.kernel_directory + 4 * (a / 0x1000 / 1024)) ≠ 0 from hmiss)]
    simp

/-- The loop of `expand` has rounds enough. -/
theorem Guard.ExpandOk.loop_ne_fuel {G : Guard} {new_size : Nat} (hroom : new_size + 0x1000 < 4294967296) :
    ∀ {n i : Nat} {m : Machine}, G.ExpandOk new_size n i m → new_size ≤ i + 4096 * n →
      expand_loop (alloc 1) new_size n i m ≠ .error .fuel := by
  intro n
  induction n with
  | zero =>
      intro i m _ hn
      rw [expand_loop, if_neg (by omega)]
      simp
  | succ n ih =>
      intro i m hok hn
      rw [expand_loop]
      by_cases hi : i < new_size
      · rw [if_pos hi]
        obtain ⟨htable, hrest⟩ := hok hi
        refine bind_ne_fuel htable.get_page_ne_fuel fun r hg => ?_
        refine bind_ne_fuel (alloc_frame_ne_fuel _ _ _ _) fun m₂ hf => ?_
        refine ih (hrest _ _ _ hg hf) ?_
        rw [add32_of_lt (by omega)]
        omega
      · rw [if_neg hi]
        simp

theorem Guard.GrowOk.alloc_grow_ne_fuel {G : Guard} {new_size : Nat} {m : Machine} (ok : G.GrowOk new_size m)
    (b : Bounds m.heap) : alloc_grow (alloc 1) new_size m ≠ .error .fuel := by
  have hroom := ok.room
  have hlen := b.grown_length hroom
  have hold := b.length_eq
  obtain ⟨hd1, hd2, hd3⟩ := growth_facts new_size
  obtain ⟨b1, -, -, b4, -, -, -⟩ := b
  rw [alloc_grow_eq]
  refine bind_ne_fuel (KASSERT_ne_fuel _ _) fun _ _ => bind_ne_fuel (KASSERT_ne_fuel _ _) fun _ _ => ?_
  refine bind_ne_fuel ?_ fun _ _ => give_space_ne_fuel _ _ _
  refine ok.pages.loop_ne_fuel ?_ ?_
  · omega
  · rw [hold, hlen]
    omega

/-- **`alloc` returns, or stops the kernel.**  Every growth moves the end of the heap by a page at least,
    and the heap has a limit. -/
theorem Kernel.alloc_returns {n : Nat} : ∀ {regs : List Region} {live : List (Nat × Nat)} {m : Machine}
    {size : Nat} {page_align : Bool}, Kernel regs live m → size + 20 < 2147483648 →
    Guard.isolation.AllocOk size page_align m → m.heap.h_addr_max - m.heap.h_addr_end < 4096 * n →
    JamesM.alloc (n + 1) size page_align m ≠ .error .fuel := by
  induction n with
  | zero => intro _ _ _ _ _ _ _ _ h; exact absurd h (by omega)
  | succ n ih =>
      intro regs live m size page_align k hsize ok hn
      rcases find_smallest_hole_cases (size + 20) page_align m with ⟨j, hj, -⟩ | ⟨hmiss, -⟩
      · rw [alloc_hit (by omega) hj]
        exact alloc_carve_ne_fuel _ _ _ _
      · have hgrow := ok.round.2 hmiss
        have hnew : add32 size (sizeof_header + sizeof_footer) = size + 20 :=
          add32_of_lt (show size + 20 < 4294967296 by omega)
        rw [JamesM.alloc]
        simp only [hnew, hmiss, if_true]
        rw [hgrow.alloc_grow_fuel n]
        refine bind_ne_fuel (hgrow.alloc_grow_ne_fuel k.heap.bounds) fun m₁ hg => ?_
        obtain ⟨regs₁, -, k₁, hp₁, hend, -⟩ := k.grow hgrow hg
        obtain ⟨hd1, hd2, -⟩ := growth_facts (size + 20)
        have hmax := hp₁.max
        have hlim := k₁.heap.bounds.max
        exact ih k₁ hsize (ok.retry ⟨hmiss, hg⟩) (by omega)

end JamesM
