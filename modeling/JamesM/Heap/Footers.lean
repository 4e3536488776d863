/-
  JamesM.Heap.Footers — what the last 8 bytes of a region say, over whole runs.

  A right merge leaves a stale footer, so the footer of a hole need not point at the
  hole's own header.  It still points at a header INSIDE the hole, of a hole that ended
  there.  This weaker fact holds in every state of a safe run, for every hole but one
  that ends the heap (`init_heap` writes no footer for the first hole).

  Main result: `HeapStart.footed`.
-/
import JamesM.Heap.Isolation

namespace JamesM

open JamesM.ByteMem JamesM.Word32 JamesM.Lib

/-! ## §1. The invariant. -/

/-- The region ends with a footer that points at a header inside it, whose size reaches up to the end. -/
structure FtrIn (mem : Mem) (r : Region) : Prop where
  magic : hf_magic mem (r.addr + r.size - 8) = VM_HEAP_FTR_MAGIC
  low : r.addr ≤ hf_header mem (r.addr + r.size - 8)
  high : hf_header mem (r.addr + r.size - 8) + 12 ≤ r.addr + r.size
  size : hf_header mem (r.addr + r.size - 8) + hh_size mem (hf_header mem (r.addr + r.size - 8)) = r.addr + r.size

theorem FtrAt.ftrIn {mem : Mem} {r : Region} (h : FtrAt mem r) (hd : HdrAt mem r) (hs : 20 ≤ r.size) :
    FtrIn mem r := by
  refine ⟨h.magic, ?_, ?_, ?_⟩
  · rw [h.header]
  · rw [h.header]
    omega
  · rw [h.header, hd.size]

theorem FtrIn.congr {mem mem' : Mem} {r : Region} (h : FtrIn mem r) (hs : 20 ≤ r.size)
    (heq : ∀ x, r.addr ≤ x → x < r.addr + r.size → mem' x = mem x) : FtrIn mem' r := by
  obtain ⟨h1, h2, h3, h4⟩ := h
  have hmagic : hf_magic mem' (r.addr + r.size - 8) = hf_magic mem (r.addr + r.size - 8) :=
    read32_congr fun x h1 h2 => heq x (by omega) (by omega)
  have hheader : hf_header mem' (r.addr + r.size - 8) = hf_header mem (r.addr + r.size - 8) :=
    read32_congr fun x h1 h2 => heq x (by omega) (by omega)
  have hsize : hh_size mem' (hf_header mem (r.addr + r.size - 8))
      = hh_size mem (hf_header mem (r.addr + r.size - 8)) :=
    read32_congr fun x h1 h2 => heq x (by omega) (by omega)
  refine ⟨?_, ?_, ?_, ?_⟩
  · rw [hmagic]
    exact h1
  · rw [hheader]
    exact h2
  · rw [hheader]
    exact h3
  · rw [hheader, hsize]
    exact h4

/-- Every hole but one that ends the heap has such a footer. -/
def FootedAt (regs : List Region) (m : Machine) : Prop :=
  ∀ r ∈ regs, r.hole = true → FtrIn m.mem r ∨ r.addr + r.size = m.heap.h_addr_end

/-- The same, for the regions the machine has. -/
def Footed (m : Machine) : Prop := ∀ regs, Chain regs m → FootedAt regs m

theorem FootedAt.footed {regs : List Region} {m : Machine} (h : FootedAt regs m) (c : Chain regs m) :
    Footed m := by
  intro regs' c'
  rw [c'.unique c]
  exact h

/-- What keeps the holes and the end of the heap keeps their footers. -/
theorem Footed.of_same {regs : List Region} {m m' : Machine} (ft : Footed m) (c : Chain regs m)
    (c' : Chain regs m') (hend : m'.heap.h_addr_end = m.heap.h_addr_end)
    (hsame : SameFooters regs m.mem m'.mem) : Footed m' := by
  refine FootedAt.footed (show FootedAt regs m' from fun r hr hh => ?_) c'
  rcases ft regs c r hr hh with h | h
  · exact .inl (h.congr (c.size r hr) fun x h1 h2 => hsame r hr x h1 h2 (.inl hh))
  · exact .inr (h.trans hend.symm)

/-! ## §2. Requests. -/

theorem Footed.carve {regs : List Region} {m m' : Machine} {size : Nat} {page_align : Bool} {i p : Nat}
    (ft : Footed m) (inv : HeapInv regs m) (hi : i < m.heap.h_index.sa_size)
    (hfits : hole_fits m.mem (size + 20) page_align (m.heap.h_index.sa_array i) = true)
    (hsmall : size + 20 < 2147483648)
    (hsafe : CarveSafe size page_align (m.heap.h_index.sa_array i) m.mem)
    (h : alloc_carve size page_align i m = .ok (p, m')) : Footed m' := by
  obtain ⟨pre, g, post, rfl, hhole, haddr, hfit, hp, inv', hout, hcut, hm', -⟩ :=
    inv.carve hi hfits hsmall hsafe h
  obtain ⟨hbefore, hafter⟩ := inv.tiled.around
  have hend : m'.heap.h_addr_end = m.heap.h_addr_end := by rw [hm']
  refine FootedAt.footed (fun r hr hh => ?_) inv'.toChain
  have hkeep : r ∈ pre ++ g :: post → r.addr + r.size ≤ g.addr ∨ g.addr + g.size ≤ r.addr →
      FtrIn m'.mem r ∨ r.addr + r.size = m'.heap.h_addr_end := by
    intro hr hoff
    have hs := inv.size r hr
    rcases ft _ inv.toChain r hr hh with hf | hlast
    · exact .inl (hf.congr hs fun x h1 h2 => hout x (by omega))
    · rw [hend]
      exact .inr hlast
  rcases List.mem_append.mp hr with hr' | hr'
  · rcases List.mem_append.mp hr' with hr' | hr'
    · exact hkeep (by simp [hr']) (.inl (hbefore r hr'))
    · exact .inl ((hcut r hr').ftrIn (inv'.head r hr) (inv'.size r hr))
  · exact hkeep (by simp [hr']) (.inr (hafter r hr'))

/-- Making a page table for a page of the heap. -/
theorem Footed.get_page {regs : List Region} {live : List (Nat × Nat)} {m m' : Machine} {fuel a p : Nat}
    (ft : Footed m) (k : Kernel regs live m) (ha : a < 4294967296) (hok : Guard.isolation.TableOk m a)
    (h : get_page (alloc (fuel + 1)) a true m.kernel_directory m = .ok (p, m')) : Footed m' := by
  obtain ⟨regs', k', -, -, -, -, hcases⟩ := k.get_page ha hok h
  rcases hcases with rfl | ⟨j, T, m₁, hmiss, hj, hcarve, k₁, hheap⟩
  · exact ft
  · obtain ⟨i, hi, hguard⟩ := hok hmiss
    have hij : i = j := by omega
    subst hij
    rcases find_smallest_hole_cases (sizeof_page_table + 20) true m with ⟨n, hn, hlt, hfits, -⟩ | ⟨hneg, -⟩
    swap
    · omega
    have hin : n = i := by omega
    subst hin
    have ft₁ := ft.carve k.heap hlt hfits (by decide) hguard hcarve
    obtain ⟨T', m₂, w, hal, -, hm'⟩ := get_page_heap k.paging.ready hmiss h
    rw [alloc_hit (by decide) hj, hcarve] at hal
    obtain ⟨rfl, rfl⟩ := Prod.mk.inj (Except.ok.inj hal)
    -- the table lies in the payload of its block
    obtain ⟨regs₂, b, k₂, hp₂, -, -, hb, hbb, hT, hsize, -⟩ := k.carve hlt hfits (by decide) hguard hcarve
    have hregs : regs₂ = regs' := k₂.heap.toChain.unique k₁.heap.toChain
    subst hregs
    have hdoff := k.paging.dir_off
    have hmax := k₁.heap.bounds.max
    have hstart₂ := hp₂.start
    have hmax₂ := hp₂.max
    refine ft₁.of_same k₁.heap.toChain k'.heap.toChain (by rw [hheap]) (fun r hr x h1 h2 h3 => ?_)
    obtain ⟨hr1, hr2, hr3⟩ := k₁.heap.region_bounds hr
    have hoff : x < b.addr + 12 ∨ b.addr + b.size - 8 ≤ x := by
      rcases k₁.heap.apart hr hb with rfl | hd | hd
      · rcases h3 with h3 | h3
        · rw [hbb] at h3
          exact absurd h3 (by decide)
        · omega
      · omega
      · omega
    rw [hm']
    show heap_table_made m₁.mem m.kernel_directory (a / 0x1000 / 1024) T w x = m₁.mem x
    unfold heap_table_made
    rw [write32_of_out _ _ (by omega), write32_of_out _ _ (by omega)]
    exact bzero_eqOutside _ _ _ x (by omega)

theorem Footed.give_space {regs : List Region} {m m' : Machine} {d : Nat} (ft : Footed m)
    (inv : HeapInv regs m) (hhole : EndHole m) (hd : 20 ≤ d) (halign : d % 0x1000 = 0)
    (hmax : m.heap.h_addr_end + d ≤ m.heap.h_addr_max)
    (h : give_space (m.heap.h_addr_end - m.heap.h_addr_start) m.heap.h_addr_end
      { m with heap := { m.heap with h_addr_end := m.heap.h_addr_end + d } } = .ok m') : Footed m' := by
  obtain ⟨pre, olds, g, rfl, hgh, -, hge, inv', hout, hm', hcases⟩ := inv.give_space hhole hd halign hmax h
  have hend : m'.heap.h_addr_end = m.heap.h_addr_end + d := by rw [hm']
  refine FootedAt.footed (fun r hr hrh => ?_) inv'.toChain
  rcases List.mem_append.mp hr with hr | hr
  · have hin : r ∈ pre ++ olds := List.mem_append_left _ hr
    have hs := inv.size r hin
    have hbefore := inv'.tiled.around.1 r hr
    rcases ft _ inv.toChain r hin hrh with hf | hlast
    · exact .inl (hf.congr hs fun x h1 h2 => hout x (by omega))
    · -- a hole at the old end is not before the hole that has the new space
      exfalso
      rcases hcases with ⟨rfl, hempty, -⟩ | ⟨g₀, rfl, hg₀, rfl, -⟩
      · have := inv.mem_index.mpr ⟨r, hin, hrh, rfl⟩
        rw [hempty] at this
        exact absurd this (by simp)
      · have := inv.size g₀ (by simp)
        dsimp only at hge hbefore
        omega
  · rw [List.mem_singleton.mp hr]
    exact .inr (hge.trans hend.symm)

theorem Footed.grow {regs : List Region} {live : List (Nat × Nat)} {m m' : Machine} {new_size : Nat}
    (ft : Footed m) (k : Kernel regs live m) (ok : Guard.isolation.GrowOk new_size m)
    (h : alloc_grow (alloc 1) new_size m = .ok m') : Footed m' := by
  have hb := k.heap.bounds
  have hroom := ok.room
  obtain ⟨hmax, m₁, hloop, hspace⟩ := alloc_grow_ok hb.pageSpan hroom h
  obtain ⟨hd1, hd2, -⟩ := growth_facts new_size
  obtain ⟨i, hi, hgrown, ft₁⟩ := ok.pages.loop_invariant
    (J := fun i m₁ => Growing regs live m (grown_length new_size m) i m₁ ∧ Footed m₁)
    (fun i m₂ page m₃ m₄ hi hJ hok hg hf => by
      obtain ⟨hJ, ft₂⟩ := hJ
      refine ⟨hJ.page hi hok hg hf, ?_⟩
      obtain ⟨regs₂, k₂, -⟩ := hJ.kernel
      have hlt : add32 m₂.heap.h_addr_start i < 4294967296 := add32_lt _ _
      obtain ⟨regs₃, k₃, hp₃, -, hentry, -⟩ := k₂.get_page hlt hok hg
      obtain ⟨k₄, -, hheap₄, hfoot₄, -⟩ := k₃.alloc_frame (by rw [hp₃.directory]; exact hentry) hf
      exact (ft₂.get_page k₂ hlt hok hg).of_same k₃.heap.toChain k₄.heap.toChain (by rw [hheap₄]) hfoot₄)
    ⟨k.growing hroom, ft⟩ hloop
  obtain ⟨regs₁, k₁, hp₁⟩ := hgrown.kernel
  apply ft₁.give_space k₁.heap (ok.space m₁ hloop) (by omega) hd1 ?_ (hgrown.space k.heap.bounds hroom hspace)
  rw [hgrown.unmoved, hp₁.max]
  exact hmax

theorem Footed.alloc {fuel : Nat} : ∀ {regs : List Region} {live : List (Nat × Nat)} {m m' : Machine}
    {size : Nat} {page_align : Bool} {p : Nat}, Footed m → Kernel regs live m → size + 20 < 2147483648 →
    Guard.isolation.AllocOk size page_align m → JamesM.alloc fuel size page_align m = .ok (p, m') →
    Footed m' := by
  induction fuel with
  | zero => intro _ _ _ _ _ _ _ _ _ _ _ h; exact absurd h (by simp [JamesM.alloc])
  | succ fuel ih =>
      intro regs live m m' size page_align p ft k hsize ok h
      rcases ok.alloc_cases (by omega) h with ⟨j, -, hlt, hfits, hguard, h⟩ | ⟨m₁, hgrow, hretry, h⟩
      · exact ft.carve k.heap hlt hfits hsize hguard h
      · obtain ⟨regs₁, -, k₁, -⟩ := k.grow hgrow hretry.2
        exact ih (ft.grow k hgrow hretry.2) k₁ hsize (ok.retry hretry) h

/-! ## §3. Frees and stores. -/

/-- The regions around a joined hole keep their footers, and the hole has the footer of its last part. -/
theorem FootedAt.join {pre lefts rights post : List Region} {b g : Region} {m m' : Machine}
    (ft : FootedAt (pre ++ lefts ++ b :: (rights ++ post)) m)
    (inv : HeapInv (pre ++ lefts ++ b :: (rights ++ post)) m) (inv' : HeapInv (pre ++ g :: post) m')
    (hend : m'.heap.h_addr_end = m.heap.h_addr_end)
    (htiled : Tiled g.addr (lefts ++ b :: rights) (g.addr + g.size))
    (hinside : g.addr + g.size ≠ m.heap.h_addr_end)
    (hrights : ∀ r ∈ rights, r.hole = true)
    (hout : EqOutside g.addr (b.addr + b.size) m.mem m'.mem) (hfoot : rights = [] → FtrAt m'.mem g) :
    FootedAt (pre ++ g :: post) m' := by
  obtain ⟨c, hc1, hc2⟩ := tiles_append.mp htiled
  have hcb : b.addr = c := hc2.1
  subst hcb
  have hle := hc1.le
  have hrs : Tiled (b.addr + b.size) rights (g.addr + g.size) := hc2.2
  have hle' := hrs.le
  obtain ⟨hbefore, hafter⟩ := inv'.tiled.around
  have hkeep : ∀ r ∈ pre ++ lefts ++ b :: (rights ++ post), r.hole = true →
      r.addr + r.size ≤ g.addr ∨ g.addr + g.size ≤ r.addr →
      FtrIn m'.mem r ∨ r.addr + r.size = m'.heap.h_addr_end := by
    intro r hr hh hoff
    have hs := inv.size r hr
    rcases ft r hr hh with hf | hlast
    · exact .inl (hf.congr hs fun x h1 h2 => hout x (by omega))
    · exact .inr (hlast.trans hend.symm)
  intro r hr hh
  rcases List.mem_append.mp hr with hr' | hr'
  · exact hkeep r (by simp [hr']) hh (.inl (hbefore r hr'))
  · rcases List.mem_cons.mp hr' with rfl | hr'
    · cases hcase : rights with
      | nil => exact .inl ((hfoot hcase).ftrIn (inv'.head r hr) (inv'.size r hr))
      | cons r₁ rights' =>
          -- the last hole that was swallowed
          have hne : rights ≠ [] := by rw [hcase]; simp
          have hz : rights.getLast hne ∈ rights := List.getLast_mem hne
          have hzin : rights.getLast hne ∈ pre ++ lefts ++ b :: (rights ++ post) := by
            simp only [List.mem_append, List.mem_cons]
            exact .inr (.inr (.inl hz))
          have hzend : (rights.getLast hne).addr + (rights.getLast hne).size = r.addr + r.size := by
            rw [← List.dropLast_append_getLast hne] at hrs
            exact hrs.cut.2
          have hzb := (hrs.bounds _ hz).1
          have hzs := inv.size _ hzin
          rcases ft _ hzin (hrights _ hz) with hf | hz2
          · obtain ⟨f1, f2, f3, f4⟩ := hf.congr hzs fun x h1 h2 => hout x (by omega)
            rw [hzend] at f1 f2 f3 f4
            exact .inl ⟨f1, by omega, f3, f4⟩
          · omega
    · exact hkeep r (by simp [hr']) hh (.inr (hafter r hr'))

theorem Footed.free {regs : List Region} {live : List (Nat × Nat)} {m m' : Machine} {p : Nat}
    (ft : Footed m) (k : Kernel regs live m) (hp : p ∈ live.map Prod.fst) (hsafe : FreeSafe p m)
    (h : JamesM.free p m = .ok m') : Footed m' := by
  obtain ⟨pre, lefts, b, rights, post, rfl, hba, hblock, hlefts, hrights, htiled, k', hpres, hend, -, hlast, hmem⟩ :=
    k.free hp hsafe h
  have hb : b ∈ pre ++ lefts ++ b :: (rights ++ post) := by simp
  have hft := ft _ k.heap.toChain
  by_cases htail : freed_end (p - 12) m.mem = m.heap.h_addr_end
  · obtain ⟨rfl, hfoot, hsame⟩ := hlast htail
    refine FootedAt.footed (fun r hr hh => ?_) k'.heap.toChain
    rcases List.mem_append.mp hr with hr' | hr'
    · have hin : r ∈ pre ++ lefts ++ b :: (rights ++ []) := by simp [hr']
      have hs := k.heap.size r hin
      rcases hft r hin hh with hf | hr2
      · exact .inl (hf.congr hs fun x h1 h2 => hsame r hr' x h1 h2 (.inl hh))
      · -- it is not the last region
        obtain ⟨c, h1, h2⟩ := tiles_append.mp (k.heap.tiled.cut.1)
        have h3 := (h1.bounds r hr').2
        have h4 := h2.le
        have h5 := k.heap.region_bounds hb
        omega
    · rw [List.mem_singleton.mp hr']
      exact .inl (hfoot.ftrIn (k'.heap.head _ (by simp)) (k'.heap.size _ (by simp)))
  · obtain ⟨hout, hfoot⟩ := hmem htail
    have hend' := hend htail
    have hsize : freed_size (p - 12) m = freed_end (p - 12) m.mem - freed_start (p - 12) m.mem := by
      unfold freed_size
      rw [if_neg htail]
    have hle := htiled.le
    rw [hsize] at k' hfoot
    generalize freed_start (p - 12) m.mem = a at *
    generalize freed_end (p - 12) m.mem = e at *
    have hge : (⟨a, e - a, true⟩ : Region).addr + (⟨a, e - a, true⟩ : Region).size = e := by
      dsimp only
      omega
    apply (hft.join k.heap k'.heap hend' ?_ ?_ hrights hout hfoot).footed k'.heap.toChain
    · rw [hge]
      exact htiled
    · rw [hge]
      exact htail

/-- Clients store into payloads only. -/
theorem Footed.store {regs : List Region} {live : List (Nat × Nat)} {m : Machine} {l : Nat × Nat} {a : Nat}
    (ft : Footed m) (k : Kernel regs live m) (hl : l ∈ live) (h1 : l.1 ≤ a) (h2 : a < l.1 + l.2) (v : UInt8) :
    Footed { m with mem := write8 m.mem a v } := by
  obtain ⟨b, hb, hblock, hba, hbs⟩ := k.block l hl
  refine ft.of_same k.heap.toChain (k.store hl h1 h2 v).heap.toChain rfl (fun r hr x h3 h4 h5 => ?_)
  apply write8_ne
  rcases k.heap.apart hr hb with rfl | hd | hd
  · rcases h5 with h5 | h5
    · rw [hblock] at h5
      exact absurd h5 (by decide)
    · omega
  · omega
  · omega

/-! ## §4. Whole runs. -/

/-- The kernel is sound, and its regions have their footers. -/
def SoundFooted (s : Session) : Prop := ∃ regs, Kernel regs s.live s.machine ∧ Footed s.machine

/-- **One step.** -/
theorem SoundFooted.step {s s' : Session} {op : HeapOp} (h : SoundFooted s) (hsafe : HeapSafe s op)
    (hstep : HeapStep s op s') : SoundFooted s' := by
  obtain ⟨regs, k, ft⟩ := h
  obtain ⟨⟨regs', k'⟩, -⟩ := Sound.step ⟨regs, k⟩ hsafe hstep
  refine ⟨regs', k', ?_⟩
  obtain ⟨hallowed, fuel, hrun⟩ := hstep
  cases op with
  | alloc size page_align =>
      simp only [HeapOp.run, bind_ok_iff] at hrun
      obtain ⟨⟨p, m'⟩, halloc, hs'⟩ := hrun
      have hs' := Except.ok.inj hs'
      subst hs'
      have hsize : size < 0x10000000 := hallowed
      exact ft.alloc k (by omega) hsafe halloc
  | free p =>
      simp only [HeapOp.run, bind_ok_iff] at hrun
      obtain ⟨m', hfree, hs'⟩ := hrun
      have hs' := Except.ok.inj hs'
      subst hs'
      exact ft.free k hallowed hsafe hfree
  | store a v =>
      have hs' := Except.ok.inj hrun
      subst hs'
      obtain ⟨l, hl, h1, h2⟩ := hallowed
      exact ft.store k hl h1 h2 v

/-- **Footers over runs.**  In every state of a safe run, every hole but one that ends the heap ends with a
    footer that points into it. -/
theorem HeapStart.footed {start : Nat} {s x : Session} (st : HeapStart start s)
    {tr : List (HeapOp × Session)} (run : Trace HeapStep s tr) (safe : Along HeapSafe s tr)
    (hx : Reached s tr x) : SoundFooted x := by
  obtain ⟨k, hentries, hend⟩ := st.kernel
  have h0 : SoundFooted s := by
    refine ⟨_, k, FootedAt.footed (fun r hr _ => ?_) k.heap.toChain⟩
    have hlast : start + 0x81000 + 0x7F000 = start + 0x100000 := by omega
    rw [List.mem_singleton.mp hr, hend]
    exact .inr hlast
  exact Trace.reached (C := HeapSafe) (R := fun _ _ _ => True)
    (fun _ _ _ (h : SoundFooted _) hsafe hstep => ⟨h.step hsafe hstep, trivial⟩) h0 run safe hx

end JamesM
