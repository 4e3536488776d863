/-
  JamesM.Heap.BestFit — the order of the hole index, and what it is for.

  The index is sorted by the sizes in the headers.  Entries are inserted in order,
  but the sizes also change in place: the hole in front of a page-aligned block
  shrinks, the endmost hole grows with the heap, a left merge grows a hole, and
  `contract` shrinks one.  None of these moves the entry.  `Guard.order` and
  `FreeOrdered` ask that it need not move.

  Main result: `hole_index_best_fit`.
-/
import JamesM.Heap.Isolation
import JamesM.Lib.KeyedList

namespace JamesM

open JamesM.ByteMem JamesM.Word32 JamesM.Lib

/-! ## §1. The order. -/

/-- The index is in the order of the sizes. -/
def Ordered (m : Machine) : Prop := ByKey (hh_size m.mem) m.heap.h_index.entries

/-- The comparison of the index compares sizes, as long as they are positive `int`s. -/
theorem vm_heap_header_cmp_le {mem : Mem} {a b : Nat} (ha : hh_size mem a < 2147483648)
    (hb : hh_size mem b < 2147483648) :
    ¬ vm_heap_header_cmp mem b a < 0 ↔ hh_size mem a ≤ hh_size mem b := by
  unfold vm_heap_header_cmp sub32 toInt32
  split <;> omega

theorem HeapInv.size_lt {regs : List Region} {m : Machine} (inv : HeapInv regs m) {r : Region}
    (hr : r ∈ regs) : hh_size m.mem r.addr < 2147483648 := by
  obtain ⟨h1, h2, -⟩ := inv.region_bounds hr
  have hspan := inv.bounds.span
  have hmax := inv.bounds.max
  rw [(inv.head r hr).size]
  omega

/-- The sizes of the regions that two states share. -/
theorem Chain.size_eq {regs regs' : List Region} {m m' : Machine} (c : Chain regs m) (c' : Chain regs' m')
    {r : Region} (hr : r ∈ regs) (hr' : r ∈ regs') : hh_size m'.mem r.addr = hh_size m.mem r.addr := by
  rw [(c.head r hr).size, (c'.head r hr').size]

theorem HeapInv.size_eq {regs regs' : List Region} {m m' : Machine} (inv : HeapInv regs m)
    (inv' : HeapInv regs' m') {r : Region} (hr : r ∈ regs) (hr' : r ∈ regs') :
    hh_size m'.mem r.addr = hh_size m.mem r.addr :=
  inv.toChain.size_eq inv'.toChain hr hr'

theorem Ordered.of_regs {regs : List Region} {m m' : Machine} (ord : Ordered m) (inv : HeapInv regs m)
    (inv' : HeapInv regs m') (hentries : m'.heap.h_index.entries = m.heap.h_index.entries) : Ordered m' := by
  unfold Ordered at ord ⊢
  rw [hentries]
  refine ord.congr fun a ha => ?_
  obtain ⟨r, hr, -, rfl⟩ := inv.mem_index.mp ha
  exact inv.size_eq inv' hr hr

/-- Putting a header into an ordered index of holes. -/
theorem Chain.insert_ordered {regs : List Region} {m : Machine} {l : List Nat} {a : Nat}
    (c : Chain regs m) (hsmall : ∀ r ∈ regs, hh_size m.mem r.addr < 2147483648)
    (hl : ByKey (hh_size m.mem) l) (hsub : ∀ b ∈ l, b ∈ m.heap.h_index.entries)
    (ha : a ∈ m.heap.h_index.entries) :
    ByKey (hh_size m.mem) (l.orderedInsert (fun x y => ¬ vm_heap_header_cmp m.mem y x < 0) a) := by
  apply hl.insert
  intro b hb
  obtain ⟨r, hr, -, rfl⟩ := c.mem_index.mp ha
  obtain ⟨s, hs, -, rfl⟩ := c.mem_index.mp (hsub b hb)
  exact vm_heap_header_cmp_le (hsmall r hr) (hsmall s hs)

theorem HeapInv.insert_ordered {regs : List Region} {m : Machine} {l : List Nat} {a : Nat}
    (inv : HeapInv regs m) (hl : ByKey (hh_size m.mem) l) (hsub : ∀ b ∈ l, b ∈ m.heap.h_index.entries)
    (ha : a ∈ m.heap.h_index.entries) :
    ByKey (hh_size m.mem) (l.orderedInsert (fun x y => ¬ vm_heap_header_cmp m.mem y x < 0) a) :=
  inv.toChain.insert_ordered (fun _ hr => inv.size_lt hr) hl hsub ha

/-! ## §2. Carving. -/

/-- A page-aligned block leaves a hole in front that may stay where it is in the index. -/
def CarveOrdered (page_align : Bool) (j : Nat) (m : Machine) : Prop :=
  page_align = true →
    KeepsPlace (hh_size m.mem) m.heap.h_index.entries (m.heap.h_index.sa_array j)
      (carve_gap true (m.heap.h_index.sa_array j))

/-- The order of the index a carved chain leaves. -/
theorem Chain.carve_ordered {pre post : List Region} {g : Region} {m m' : Machine} {size i : Nat}
    {page_align : Bool} (ord : Ordered m) (c : Chain (pre ++ g :: post) m)
    (c' : Chain (pre ++ carved g size page_align ++ post) m')
    (hsmall : ∀ r ∈ pre ++ carved g size page_align ++ post, hh_size m'.mem r.addr < 2147483648)
    (hi : i < m.heap.h_index.sa_size) (haddr : g.addr = m.heap.h_index.sa_array i)
    (hplace : CarveOrdered page_align i m)
    (hentries : m'.heap.h_index.entries = carvedIndex m'.mem g size page_align i m.heap.h_index.entries) :
    Ordered m' := by
  -- the other holes keep their sizes
  have hsame : ∀ b ∈ m.heap.h_index.entries, b ≠ g.addr → hh_size m'.mem b = hh_size m.mem b := by
    intro b hb hne
    obtain ⟨r, hr, -, rfl⟩ := c.mem_index.mp hb
    apply c.size_eq c' hr
    simp only [List.mem_append, List.mem_cons] at hr ⊢
    rcases hr with hr | rfl | hr
    · exact .inl (.inl hr)
    · exact absurd rfl hne
    · exact .inr hr
  -- what is left of the index when the rest goes in
  have hleft : ByKey (hh_size m'.mem)
      (if page_align then m.heap.h_index.entries else m.heap.h_index.entries.eraseIdx i) := by
    cases page_align with
    | true =>
        have hgap : hh_size m'.mem g.addr = carve_gap true g.addr :=
          (c'.head ⟨g.addr, carve_gap true g.addr, true⟩ (by simp [carved])).size
        apply ByKey.resize ord c.entries_nodup hsame
        rw [hgap, haddr]
        exact hplace rfl
    | false =>
        refine ByKey.congr (ord.sublist (List.eraseIdx_sublist _ _)) fun b hb => ?_
        have hlen : i < m.heap.h_index.entries.length := by rw [m.heap.h_index.length_entries]; exact hi
        rw [← c.entries_nodup.erase_getElem i hlen] at hb
        refine hsame b (List.mem_of_mem_erase hb) fun heq => ?_
        rw [heq, haddr, ← m.heap.h_index.getElem_entries hlen] at hb
        exact c.entries_nodup.not_mem_erase hb
  unfold Ordered
  rw [hentries]
  unfold carvedIndex insertRest at hentries ⊢
  by_cases hrest : g.size - carve_gap page_align g.addr < size + 40
  · rw [if_pos hrest]
    exact hleft
  · rw [if_neg hrest] at hentries ⊢
    refine c'.insert_ordered hsmall hleft (fun b hb => ?_) ?_
    · rw [hentries]
      exact (List.mem_orderedInsert _).mpr (.inr hb)
    · rw [hentries]
      exact (List.mem_orderedInsert _).mpr (.inl rfl)

theorem Ordered.carve {regs : List Region} {m m' : Machine} {size : Nat} {page_align : Bool} {i p : Nat}
    (ord : Ordered m) (inv : HeapInv regs m) (hi : i < m.heap.h_index.sa_size)
    (hfits : hole_fits m.mem (size + 20) page_align (m.heap.h_index.sa_array i) = true)
    (hsmall : size + 20 < 2147483648)
    (hsafe : CarveSafe size page_align (m.heap.h_index.sa_array i) m.mem)
    (hplace : CarveOrdered page_align i m) (h : alloc_carve size page_align i m = .ok (p, m')) :
    Ordered m' := by
  obtain ⟨pre, g, post, rfl, -, haddr, -, -, inv', -, -, -, hentries⟩ :=
    inv.carve hi hfits hsmall hsafe h
  exact inv.toChain.carve_ordered ord inv'.toChain (fun r hr => inv'.size_lt hr) hi haddr hplace hentries

/-! ## §3. Growing. -/

/-- What the order asks for, on top of isolation: that a hole whose size changes may stay where it is. -/
def Guard.order : Guard where
  carve size page_align j m := Guard.isolation.carve size page_align j m ∧ CarveOrdered page_align j m
  grow d m := Guard.isolation.grow d m
    ∧ ∀ a ∈ m.heap.h_index.entries, (∀ b ∈ m.heap.h_index.entries, b ≤ a) →
      KeepsPlace (hh_size m.mem) m.heap.h_index.entries a (hh_size m.mem a + d)

theorem Guard.order_isolation : Guard.order.Stronger Guard.isolation := ⟨And.left, And.left⟩

theorem Ordered.get_page {regs : List Region} {live : List (Nat × Nat)} {m m' : Machine} {fuel a p : Nat}
    (ord : Ordered m) (k : Kernel regs live m) (ha : a < 4294967296) (hok : Guard.order.TableOk m a)
    (h : get_page (alloc (fuel + 1)) a true m.kernel_directory m = .ok (p, m')) : Ordered m' := by
  obtain ⟨regs', k', -, -, -, -, hcases⟩ := k.get_page ha (hok.weaken Guard.order_isolation) h
  rcases hcases with rfl | ⟨j, T, m₁, hmiss, hj, hcarve, k₁, hheap⟩
  · exact ord
  · obtain ⟨i, hi, hguard⟩ := hok hmiss
    rcases find_smallest_hole_cases (sizeof_page_table + 20) true m with ⟨n, hn, hlt, hfits, -⟩ | ⟨hneg, -⟩
    · have hij : i = n := by omega
      have hjn : j = n := by omega
      subst hij hjn
      have ord₁ := ord.carve k.heap hlt hfits (by decide) hguard.1 hguard.2 hcarve
      exact ord₁.of_regs k₁.heap k'.heap (by rw [hheap])
    · omega

theorem Ordered.give_space {regs : List Region} {m m' : Machine} {d : Nat} (ord : Ordered m)
    (inv : HeapInv regs m) (hguard : Guard.order.grow d m) (hd : 20 ≤ d) (halign : d % 0x1000 = 0)
    (hmax : m.heap.h_addr_end + d ≤ m.heap.h_addr_max)
    (h : give_space (m.heap.h_addr_end - m.heap.h_addr_start) m.heap.h_addr_end
      { m with heap := { m.heap with h_addr_end := m.heap.h_addr_end + d } } = .ok m') : Ordered m' := by
  obtain ⟨pre, olds, g, rfl, hgh, -, hge, inv', -, -, hcases⟩ :=
    inv.give_space hguard.1 hd halign hmax h
  unfold Ordered
  rcases hcases with ⟨-, -, hentries⟩ | ⟨g₀, rfl, hg₀, rfl, hentries⟩
  · rw [hentries]
    exact List.pairwise_singleton _ _
  · rw [hentries]
    have hmem₀ : g₀ ∈ pre ++ [g₀] := by simp
    have hsize₀ := (inv.head g₀ hmem₀).size
    have hsize : hh_size m'.mem g₀.addr = g₀.size + d :=
      (inv'.head { g₀ with size := g₀.size + d } (by simp)).size
    have hin : g₀.addr ∈ m.heap.h_index.entries := inv.mem_index.mpr ⟨g₀, hmem₀, hg₀, rfl⟩
    refine ByKey.resize (a := g₀.addr) ord inv.entries_nodup (fun b hb hne => ?_) ?_
    · obtain ⟨r, hr, -, rfl⟩ := inv.mem_index.mp hb
      refine inv.size_eq inv' hr ?_
      rcases List.mem_append.mp hr with hr | hr
      · exact List.mem_append_left _ hr
      · rw [List.mem_singleton.mp hr] at hne
        exact absurd rfl hne
    · rw [hsize, ← hsize₀]
      refine hguard.2 g₀.addr hin fun b hb => ?_
      obtain ⟨r, hr, -, rfl⟩ := inv.mem_index.mp hb
      rcases List.mem_append.mp hr with hr | hr
      · have := inv.tiled.around.1 r hr
        omega
      · rw [List.mem_singleton.mp hr]

theorem Ordered.grow {regs : List Region} {live : List (Nat × Nat)} {m m' : Machine} {new_size : Nat}
    (ord : Ordered m) (k : Kernel regs live m) (ok : Guard.order.GrowOk new_size m)
    (h : alloc_grow (alloc 1) new_size m = .ok m') : Ordered m' := by
  have hb := k.heap.bounds
  have hroom := ok.room
  obtain ⟨hmax, m₁, hloop, hspace⟩ := alloc_grow_ok hb.pageSpan hroom h
  obtain ⟨hd1, hd2, -⟩ := growth_facts new_size
  have hlen := hb.grown_length hroom
  obtain ⟨i, hi, hgrown, ord₁⟩ := ok.pages.loop_invariant
    (J := fun i m₁ => Growing regs live m (grown_length new_size m) i m₁ ∧ Ordered m₁)
    (fun i m₂ page m₃ m₄ hi hJ hok hg hf => by
      obtain ⟨hJ, ord₂⟩ := hJ
      refine ⟨hJ.page hi (hok.weaken Guard.order_isolation) hg hf, ?_⟩
      obtain ⟨regs₂, k₂, -⟩ := hJ.kernel
      have hlt : add32 m₂.heap.h_addr_start i < 4294967296 := add32_lt _ _
      obtain ⟨regs₃, k₃, hp₃, -, hentry, -⟩ := k₂.get_page hlt (hok.weaken Guard.order_isolation) hg
      obtain ⟨k₄, -, hheap₄, -⟩ := k₃.alloc_frame (by rw [hp₃.directory]; exact hentry) hf
      exact (ord₂.get_page k₂ hlt hok hg).of_regs k₃.heap k₄.heap (by rw [hheap₄]))
    ⟨k.growing hroom, ord⟩ hloop
  obtain ⟨regs₁, k₁, hp₁⟩ := hgrown.kernel
  have hguard := ok.space m₁ hloop
  have hd : grown_length new_size m - (m.heap.h_addr_end - m.heap.h_addr_start) = growth new_size := by omega
  rw [hd] at hguard
  refine ord₁.give_space k₁.heap hguard ?_ hd1 ?_ (hgrown.space k.heap.bounds hroom hspace)
  · omega
  · rw [hgrown.unmoved, hp₁.max]
    exact hmax

theorem Ordered.alloc {fuel : Nat} : ∀ {regs : List Region} {live : List (Nat × Nat)} {m m' : Machine}
    {size : Nat} {page_align : Bool} {p : Nat}, Ordered m → Kernel regs live m → size + 20 < 2147483648 →
    Guard.order.AllocOk size page_align m → JamesM.alloc fuel size page_align m = .ok (p, m') →
    Ordered m' := by
  induction fuel with
  | zero => intro _ _ _ _ _ _ _ _ _ _ _ h; exact absurd h (by simp [JamesM.alloc])
  | succ fuel ih =>
      intro regs live m m' size page_align p ord k hsize ok h
      rcases ok.alloc_cases (by omega) h with ⟨j, -, hlt, hfits, hguard, h⟩ | ⟨m₁, hgrow, hretry, h⟩
      · exact ord.carve k.heap hlt hfits hsize hguard.1 hguard.2 h
      · obtain ⟨regs₁, -, k₁, -⟩ := k.grow (hgrow.weaken Guard.order_isolation) hretry.2
        exact ih (ord.grow k hgrow hretry.2) k₁ hsize (ok.retry hretry) h

/-! ## §4. Freeing. -/

/-- Freeing the block at `p` is safe, and a hole to the left that takes it in may stay where it is in the
    index (without the hole to the right, which leaves it). -/
structure FreeOrdered (p : Nat) (m : Machine) : Prop where
  safe : FreeSafe p m
  place : LeftHole (p - 12) (flagged (p - 12) m.mem) →
    KeepsPlace (hh_size m.mem) (m.heap.h_index.entries.erase (p - 12 + hh_size m.mem (p - 12)))
      (freed_start (p - 12) m.mem) (freed_size (p - 12) m)

theorem Ordered.free {regs : List Region} {live : List (Nat × Nat)} {m m' : Machine} {p : Nat}
    (ord : Ordered m) (k : Kernel regs live m) (hp : p ∈ live.map Prod.fst) (hord : FreeOrdered p m)
    (h : free p m = .ok m') : Ordered m' := by
  obtain ⟨pre, lefts, b, rights, post, rfl, hbp, hblock, hlefts, hrights, htiled, k', -, -, hentries, -⟩ :=
    k.free hp hord.safe h
  have hb : b ∈ pre ++ lefts ++ b :: (rights ++ post) := by simp
  have hbsize := (k.heap.head b hb).size
  have hplace := hord.place
  rw [← hbp] at hplace hentries htiled k'
  rw [hbsize] at hplace
  set a := freed_start b.addr m.mem with ha
  set l := m.heap.h_index.entries.erase (b.addr + b.size) with hl
  have hsub : ∀ x ∈ l, x ∈ m'.heap.h_index.entries := by
    intro x hx
    rw [hentries]
    split
    · exact (List.mem_orderedInsert _).mpr (.inr hx)
    · exact hx
  have hain : a ∈ m'.heap.h_index.entries := 
    k'.heap.mem_index.mpr ⟨⟨a, freed_size b.addr m, true⟩, by simp, rfl, rfl⟩
  -- the other holes keep their sizes
  have hsame : ∀ x ∈ l, x ≠ a → hh_size m'.mem x = hh_size m.mem x := by
    intro x hx hne
    obtain ⟨r, hr, -, rfl⟩ := k'.heap.mem_index.mp (hsub x hx)
    refine k.heap.size_eq k'.heap ?_ hr
    simp only [List.mem_append, List.mem_cons] at hr ⊢
    rcases hr with hr | rfl | hr
    · exact .inl (.inl hr)
    · exact absurd rfl hne
    · exact .inr (.inr (.inr hr))
  have hordl : ByKey (hh_size m.mem) l := List.Pairwise.sublist List.erase_sublist ord
  unfold Ordered
  rw [hentries]
  by_cases hl0 : lefts = []
  · -- the freed hole is new in the index
    rw [if_pos hl0]
    rw [hl0, List.nil_append] at htiled
    have hab : b.addr = a := htiled.1
    refine k'.heap.insert_ordered (hordl.congr fun x hx => hsame x hx fun hxa => ?_) hsub hain
    obtain ⟨r, hr, hrh, hra⟩ := k.heap.mem_index.mp (List.mem_of_mem_erase hx)
    have := k.heap.eq_of_addr hr hb (by rw [hra, hxa, hab])
    rw [this, hblock] at hrh
    exact absurd hrh (by decide)
  · -- the hole to the left has grown
    rw [if_neg hl0]
    have hleft : LeftHole b.addr (flagged b.addr m.mem) := by
      by_contra hno
      have hab : a = b.addr := by rw [ha]; unfold freed_start; rw [if_neg hno]
      obtain ⟨x, lefts, rfl⟩ := List.exists_cons_of_ne_nil hl0
      have hx : x.addr = a := htiled.1
      have := k.heap.eq_of_addr (r := x) (s := b) (by simp) hb (by omega)
      rw [← this, hlefts x List.mem_cons_self] at hblock
      exact absurd hblock (by decide)
    have hsize : hh_size m'.mem a = freed_size b.addr m :=
      (k'.heap.head ⟨a, freed_size b.addr m, true⟩ (by simp)).size
    refine hordl.resize (k.heap.entries_nodup.erase _) hsame ?_
    rw [hsize]
    exact hplace hleft

/-! ## §5. Whole runs. -/

/-- The index lists the holes of the header chain, in the order of their sizes, and the search finds a
    best fit in it. -/
structure BestFit (m : Machine) : Prop where
  exact : ∃ hdrs : List Nat, Tiles id (hh_size m.mem) m.heap.h_addr_start hdrs m.heap.h_addr_end
    ∧ hdrs.Nodup ∧ m.heap.h_index.entries.Perm (hdrs.filter fun h => hh_is_hole m.mem h = 1)
  sorted : ByKey (hh_size m.mem) m.heap.h_index.entries
  found : ∀ size (j : Nat), find_smallest_hole size false m = (j : Int) →
    m.heap.h_index.sa_array j ∈ m.heap.h_index.entries ∧ size ≤ hh_size m.mem (m.heap.h_index.sa_array j)
      ∧ ∀ h ∈ m.heap.h_index.entries, size ≤ hh_size m.mem h →
        hh_size m.mem (m.heap.h_index.sa_array j) ≤ hh_size m.mem h
  none : ∀ size, find_smallest_hole size false m = -1
    ↔ ¬ ∃ h ∈ m.heap.h_index.entries, size ≤ hh_size m.mem h

/-- The headers of the regions are a chain. -/
theorem HeapInv.header_chain {regs : List Region} {m : Machine} (inv : HeapInv regs m) :
    Tiles id (hh_size m.mem) m.heap.h_addr_start (regs.map Region.addr) m.heap.h_addr_end
      ∧ (regs.map Region.addr).Nodup
      ∧ holes regs = (regs.map Region.addr).filter fun h => hh_is_hole m.mem h = 1 := by
  refine ⟨?_, ?_, ?_⟩
  · have hhead := inv.head
    have htiled := inv.tiled
    generalize m.heap.h_addr_start = a at htiled ⊢
    clear inv
    induction regs generalizing a with
    | nil => exact htiled
    | cons r regs ih =>
        obtain ⟨hr, htiled⟩ := htiled
        have hrest := ih (fun s hs => hhead s (List.mem_cons_of_mem _ hs)) _ htiled
        rw [← (hhead r List.mem_cons_self).size, hr] at hrest
        exact ⟨hr, hr ▸ hrest⟩
  · refine List.pairwise_map.mpr (inv.tiled.sorted.imp_of_mem fun {r s} hr _ h heq => ?_)
    have := inv.size_pos r hr
    omega
  · unfold holes
    rw [List.filter_map]
    refine congrArg (List.map Region.addr) (List.filter_congr fun r hr => ?_)
    simp only [Function.comp, (inv.head r hr).flag, Region.flag]
    cases r.hole <;> decide

/-- In an ordered index the first hole that fits is a smallest one. -/
theorem Ordered.found {m : Machine} (ord : Ordered m) {size j : Nat}
    (hj : find_smallest_hole size false m = (j : Int)) :
    m.heap.h_index.sa_array j ∈ m.heap.h_index.entries ∧ size ≤ hh_size m.mem (m.heap.h_index.sa_array j)
      ∧ ∀ h ∈ m.heap.h_index.entries, size ≤ hh_size m.mem h →
        hh_size m.mem (m.heap.h_index.sa_array j) ≤ hh_size m.mem h := by
  rcases find_smallest_hole_cases size false m with ⟨i, hi, hlt, hfits, hfirst⟩ | ⟨hmiss, -⟩
  · have hij : i = j := by omega
    subst hij
    have hslot : ∀ k, k < m.heap.h_index.sa_size →
        m.heap.h_index.entries[k]? = some (m.heap.h_index.sa_array k) := fun k hk => by
      rw [m.heap.h_index.getElem?_entries, if_pos hk]
    simp only [hole_fits_false, decide_eq_true_eq, decide_eq_false_iff_not] at hfits hfirst
    refine ⟨SortedArray.mem_entries.mpr ⟨i, hlt, rfl⟩, hfits, ?_⟩
    apply ord.first_fit (hslot i hlt)
    intro k b hk hb
    rw [hslot k (by omega)] at hb
    have := hfirst k hk
    rw [← Option.some.inj hb]
    omega
  · omega

theorem Ordered.best_fit {regs : List Region} {m : Machine} (ord : Ordered m) (inv : HeapInv regs m) :
    BestFit m := by
  obtain ⟨h1, h2, h3⟩ := inv.header_chain
  refine ⟨⟨_, h1, h2, h3 ▸ inv.index⟩, ord, fun size j hj => ord.found hj, fun size => ?_⟩
  rcases find_smallest_hole_cases size false m with ⟨i, hi, hlt, hfits, -⟩ | ⟨hmiss, hnone⟩
  · simp only [hole_fits_false, decide_eq_true_eq] at hfits
    refine ⟨fun h => absurd h (by omega), fun h => ?_⟩
    exact absurd ⟨_, SortedArray.mem_entries.mpr ⟨i, hlt, rfl⟩, hfits⟩ h
  · refine ⟨fun _ => ?_, fun _ => hmiss⟩
    rintro ⟨h, hh, hsize⟩
    obtain ⟨k, hk, rfl⟩ := SortedArray.mem_entries.mp hh
    have := hnone k hk
    rw [hole_fits_false, decide_eq_false_iff_not] at this
    exact this hsize

/-- A step keeps the order. -/
def OrderSafe (s : Session) : HeapOp → Prop
  | .alloc size page_align => Guard.order.AllocOk size page_align s.machine
  | .free p => FreeOrdered p s.machine
  | .store _ _ => True

/-- The kernel is sound, and its index is in order. -/
def SoundOrdered (s : Session) : Prop := ∃ regs, Kernel regs s.live s.machine ∧ Ordered s.machine

theorem SoundOrdered.step {s s' : Session} {op : HeapOp} (h : SoundOrdered s) (hsafe : OrderSafe s op)
    (hstep : HeapStep s op s') : SoundOrdered s' := by
  obtain ⟨regs, k, ord⟩ := h
  obtain ⟨hallowed, fuel, hrun⟩ := hstep
  cases op with
  | alloc size page_align =>
      simp only [HeapOp.run, bind_ok_iff] at hrun
      obtain ⟨⟨p, m'⟩, halloc, hs'⟩ := hrun
      have hs' := Except.ok.inj hs'
      subst hs'
      have hsize : size < 0x10000000 := hallowed
      obtain ⟨regs', k', -⟩ := k.alloc (by omega) (hsafe.weaken Guard.order_isolation) halloc
      exact ⟨regs', k', ord.alloc k (by omega) hsafe halloc⟩
  | free p =>
      simp only [HeapOp.run, bind_ok_iff] at hrun
      obtain ⟨m', hfree, hs'⟩ := hrun
      have hs' := Except.ok.inj hs'
      subst hs'
      obtain ⟨pre, lefts, b, rights, post, -, -, -, -, -, -, k', -⟩ := k.free hallowed hsafe.safe hfree
      exact ⟨_, k', ord.free k hallowed hsafe hfree⟩
  | store a v =>
      have hs' := Except.ok.inj hrun
      subst hs'
      obtain ⟨l, hl, h1, h2⟩ := hallowed
      exact ⟨regs, k.store hl h1 h2 v, ord.of_regs k.heap (k.store hl h1 h2 v).heap rfl⟩

/-- **Best fit.**  From a heap just initialised, over every run whose calls return and whose steps keep
    the order: at the start and after every step the index lists the holes of the header chain, each once,
    in the order of their sizes, and the search for a hole returns a smallest one that is large enough, or
    `-1` when there is none. -/
theorem hole_index_best_fit {start : Nat} {s : Session} (st : HeapStart start s)
    {tr : List (HeapOp × Session)} (run : Trace HeapStep s tr) (safe : Along OrderSafe s tr) :
    ∀ x, Reached s tr x → BestFit x.machine := by
  obtain ⟨k, hentries, -⟩ := st.kernel
  have h0 : SoundOrdered s := by
    refine ⟨_, k, ?_⟩
    unfold Ordered
    rw [hentries]
    exact List.pairwise_singleton _ _
  intro x hx
  obtain ⟨regs, k, ord⟩ := Trace.reached (C := OrderSafe) (R := fun _ _ _ => True)
    (fun s op s' (h : SoundOrdered s) hsafe hstep => ⟨h.step hsafe hstep, trivial⟩) h0 run safe hx
  exact ord.best_fit k.heap

/-- Two blocks, the first one given back: two holes, and a request that both of them could serve. -/
theorem hole_index_best_fit_two_holes :
    ∃ x : Session, x = after freshHeap [.alloc 100 false, .alloc 200 false, .free 0xC008100C]
      ∧ x.machine.heap.h_index.entries = [0xC0081000, 0xC0081154] ∧ BestFit x.machine
      ∧ find_smallest_hole 70 false x.machine = 0 := by
  have run := trace_runOf freshHeap [.alloc 100 false, .alloc 200 false, .free 0xC008100C] (by decide +kernel)
  have safe : Along OrderSafe freshHeap
      (runOf freshHeap [.alloc 100 false, .alloc 200 false, .free 0xC008100C]) := by
    refine ⟨Guard.AllocOk.of_hit (j := 0) (by decide +kernel)
        ⟨fun h => absurd h (by decide), fun h => absurd h (by decide)⟩,
      Guard.AllocOk.of_hit (j := 0) (by decide +kernel)
        ⟨fun h => absurd h (by decide), fun h => absurd h (by decide)⟩,
      ⟨⟨fun h => ?_, fun h => ?_⟩, fun h => ?_⟩, trivial⟩
    · exact absurd h (by decide +kernel)
    · exact absurd h (by decide +kernel)
    · exact absurd h (by decide +kernel)
  exact ⟨_, rfl, by decide +kernel, hole_index_best_fit freshHeap_start run safe _ (reached_after _ _),
    by decide +kernel⟩

/-- **The index falls out of order.**  Two page-aligned blocks: each leaves a hole in front of it, the
    second one a smaller hole, behind the first one in the index. -/
theorem aligned_blocks_break_the_order :
    HeapStart 0xC0000000 freshHeap
      ∧ ∃ tr : List (HeapOp × Session), tr.map Prod.fst = [.alloc 100 true, .alloc 100 true]
        ∧ Trace HeapStep freshHeap tr ∧ ¬ ∀ x ∈ tr, BestFit x.2.machine := by
  have run : Trace HeapStep freshHeap
      [(.alloc 100 true, HeapOp.result freshHeap (.alloc 100 true)),
        (.alloc 100 true, HeapOp.result (HeapOp.result freshHeap (.alloc 100 true)) (.alloc 100 true))] :=
    ⟨HeapOp.step_result (show 100 < 0x10000000 by decide) (by decide +kernel),
      HeapOp.step_result (show 100 < 0x10000000 by decide) (by decide +kernel), trivial⟩
  refine ⟨freshHeap_start, _, rfl, run, fun hall => ?_⟩
  have hfit := hall _ (List.mem_cons_of_mem _ List.mem_cons_self)
  obtain ⟨-, -, hleast⟩ := hfit.found 1 0 (by decide +kernel)
  exact absurd (hleast 0xC008206C (by decide +kernel) (by decide +kernel)) (by decide +kernel)

end JamesM
