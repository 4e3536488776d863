/-
  JamesM.Heap.Carve — the second half of `alloc`: cutting a block out of a hole.

  A page-aligned request leaves a hole in front of its block.  The source never
  asks whether that hole, or the one behind the block, is large enough for a header
  and a footer; `CarveSafe` is that question.

  Main results: `Chain.carve`, `HeapInv.carve`.
-/
import JamesM.Heap.Invariant

namespace JamesM

open JamesM.ByteMem JamesM.Word32 JamesM.Lib

/-! ## §1. The regions a hole is cut into. -/

/-- The room in front of a page-aligned block. -/
def carve_gap (page_align : Bool) (addr : Nat) : Nat := if page_align then 0xFF4 - addr % 0x1000 else 0

/-- The block and the hole after it, at `pos` with `left` bytes; a rest too small for a hole of its own
    goes to the block. -/
def cutBlock (pos left size : Nat) : List Region :=
  if left < size + 40 then [⟨pos, left, false⟩]
  else [⟨pos, size + 20, false⟩, ⟨pos + (size + 20), left - (size + 20), true⟩]

/-- The hole in front, the block, the hole after it. -/
def carved (g : Region) (size : Nat) (page_align : Bool) : List Region :=
  (if page_align then [⟨g.addr, carve_gap true g.addr, true⟩] else [])
    ++ cutBlock (g.addr + carve_gap page_align g.addr) (g.size - carve_gap page_align g.addr) size

/-- The holes a page-aligned request leaves are large enough for a header and a footer. -/
def CarveSafe (size : Nat) (page_align : Bool) (hdr : Nat) (mem : Mem) : Prop :=
  page_align = true → hdr % 0x1000 ≤ 0xFE0
    ∧ (hh_size mem hdr = carve_gap true hdr + (size + 20)
      ∨ carve_gap true hdr + (size + 40) ≤ hh_size mem hdr)

theorem tiled_cutBlock {pos left size : Nat} :
    Tiled pos (cutBlock pos left size) (pos + left) := by
  unfold cutBlock
  split
  · exact ⟨rfl, rfl⟩
  · refine ⟨rfl, rfl, ?_⟩
    rw [tiles_nil]
    dsimp only
    omega

theorem tiled_carved {g : Region} {size : Nat} {page_align : Bool}
    (h : carve_gap page_align g.addr + (size + 20) ≤ g.size) :
    Tiled g.addr (carved g size page_align) (g.addr + g.size) := by
  have hcut : Tiled _ (cutBlock (g.addr + carve_gap page_align g.addr)
      (g.size - carve_gap page_align g.addr) size) _ := tiled_cutBlock
  rw [show g.addr + carve_gap page_align g.addr + (g.size - carve_gap page_align g.addr)
    = g.addr + g.size by omega] at hcut
  unfold carved
  cases page_align with
  | false => exact hcut
  | true => exact ⟨rfl, hcut⟩

theorem size_cutBlock {pos left size : Nat} (h : size + 20 ≤ left) :
    ∀ r ∈ cutBlock pos left size, 20 ≤ r.size := by
  unfold cutBlock
  split
  · intro r hr
    rw [List.mem_singleton] at hr
    subst hr
    dsimp only
    omega
  · intro r hr
    rcases List.mem_cons.mp hr with rfl | hr
    · dsimp only; omega
    · rw [List.mem_singleton] at hr
      subst hr
      dsimp only
      omega

/-! ## §2. The stores. -/

/-- The index after the rest of the hole was put back. -/
def insertRest (mem : Mem) (pos left size : Nat) (l : List Nat) : List Nat :=
  if left < size + 40 then l
  else l.orderedInsert (fun x y => ¬ vm_heap_header_cmp mem y x < 0) (pos + (size + 20))

/-- Writing the block and the hole after it. -/
theorem carve_rest_spec {size new_size pos left : Nat} {m m' : Machine}
    (hnew : new_size = size + 20) (hfit : left = new_size ∨ new_size + 20 ≤ left)
    (hend : pos + left ≤ m.heap.h_addr_end) (hhigh : m.heap.h_addr_end < 4294967296)
    (hcmp : m.heap.h_index.sa_cmp = some vm_heap_header_cmp)
    (h : carve_rest size new_size pos left
      { m with mem := put_footer (put_header m.mem pos 0 new_size) (add32 (add32 pos sizeof_header) size)
                 pos } = .ok m') :
    EqOutside pos (pos + left) m.mem m'.mem
      ∧ (∀ r ∈ cutBlock pos left size, HdrAt m'.mem r ∧ FtrAt m'.mem r)
      ∧ m' = { m with mem := m'.mem, heap := { m.heap with h_index := m'.heap.h_index } }
      ∧ m'.heap.h_index.sa_cmp = some vm_heap_header_cmp
      ∧ m'.heap.h_index.entries = insertRest m'.mem pos left size m.heap.h_index.entries := by
  have hf : add32 (add32 pos sizeof_header) size = pos + new_size - 8 := by
    unfold sizeof_header
    rw [show add32 pos 12 = pos + 12 from add32_of_lt (by omega), add32_of_lt (by omega)]
    omega
  rw [hf] at h
  -- the block
  set mem₁ := put_footer (put_header m.mem pos 0 new_size) (pos + new_size - 8) pos with hmem₁
  have hout₁ : EqOutside pos (pos + new_size) m.mem mem₁ :=
    ((put_header_eqOutside m.mem pos 0 new_size).mono (by omega) (by omega)).trans
      ((put_footer_eqOutside _ _ _).mono (by omega) (by omega))
  have hh₁ : HdrAt mem₁ ⟨pos, new_size, false⟩ :=
    (hdrAt_put_header m.mem ⟨pos, new_size, false⟩ (by dsimp only; omega)).of_eqOutside
      (put_footer_eqOutside _ _ _) (.inl (by dsimp only; omega))
  have hf₁ : FtrAt mem₁ ⟨pos, new_size, false⟩ :=
    ftrAt_put_footer _ ⟨pos, new_size, false⟩ (by dsimp only; omega)
  unfold carve_rest at h
  rw [sub32_of_le (by omega) (by omega)] at h
  rcases hfit with hfit | hfit
  · -- nothing is left
    rw [if_neg (by omega)] at h
    injection h with h
    subst h
    have hcut : cutBlock pos left size = [⟨pos, new_size, false⟩] := by
      unfold cutBlock
      rw [if_pos (by omega), hfit]
    refine ⟨by rw [hfit]; exact hout₁, fun r hr => ?_, rfl, hcmp, ?_⟩
    · rw [hcut, List.mem_singleton] at hr
      subst hr
      exact ⟨hh₁, hf₁⟩
    · unfold insertRest
      rw [if_pos (by omega)]
  · rw [if_pos (by omega)] at h
    have hhole : add32 (add32 (add32 pos sizeof_header) size) sizeof_footer = pos + new_size := by
      rw [hf]
      unfold sizeof_footer
      rw [add32_of_lt (by omega)]
      omega
    have hfoot : sub32 (sub32 (add32 (pos + new_size) left) new_size) sizeof_footer
        = pos + new_size + (left - new_size) - 8 := by
      -- the sum may pass `2^32` before the subtraction brings it back
      unfold sub32 add32 sizeof_footer
      omega
    rw [bind_ok_iff] at h
    obtain ⟨idx, hins, h⟩ := h
    simp only [hhole, hfoot] at hins h
    rw [if_pos (by omega)] at hins h
    injection h with h
    subst h
    -- the hole after the block
    set mem₂ := put_footer (put_header mem₁ (pos + new_size) 1 (left - new_size))
      (pos + new_size + (left - new_size) - 8) (pos + new_size) with hmem₂
    have hout₂ : EqOutside (pos + new_size) (pos + left) mem₁ mem₂ :=
      ((put_header_eqOutside mem₁ _ 1 _).mono (by omega) (by omega)).trans
        ((put_footer_eqOutside _ _ _).mono (by omega) (by omega))
    have hh₂ : HdrAt mem₂ ⟨pos + new_size, left - new_size, true⟩ :=
      (hdrAt_put_header mem₁ ⟨pos + new_size, left - new_size, true⟩ (by dsimp only; omega)).of_eqOutside
        (put_footer_eqOutside _ _ _) (.inl (by dsimp only; omega))
    have hf₂ : FtrAt mem₂ ⟨pos + new_size, left - new_size, true⟩ :=
      ftrAt_put_footer _ ⟨pos + new_size, left - new_size, true⟩ (by dsimp only; omega)
    have hcut : cutBlock pos left size
        = [⟨pos, new_size, false⟩, ⟨pos + new_size, left - new_size, true⟩] := by
      unfold cutBlock
      rw [if_neg (by omega), hnew]
    obtain ⟨-, -, hc, he⟩ := insert_sorted_array_entries hcmp hins
    refine ⟨(hout₁.mono (by omega) (by omega)).trans (hout₂.mono (by omega) (by omega)),
      fun r hr => ?_, rfl, hc.trans hcmp, ?_⟩
    · rw [hcut] at hr
      rcases List.mem_cons.mp hr with rfl | hr
      · exact ⟨hh₁.of_eqOutside hout₂ (.inl (by dsimp only; omega)),
          hf₁.of_eqOutside (by dsimp only; omega) hout₂ (.inl (by dsimp only; omega))⟩
      · rw [List.mem_singleton] at hr
        subst hr
        exact ⟨hh₂, hf₂⟩
    · unfold insertRest
      rw [if_neg (by omega), ← hnew]
      exact he

/-- The index entries `alloc_carve` leaves: the slot of the hole goes unless a hole stays in front. -/
def carvedIndex (mem : Mem) (g : Region) (size : Nat) (page_align : Bool) (i : Nat) (l : List Nat) :
    List Nat :=
  insertRest mem (g.addr + carve_gap page_align g.addr) (g.size - carve_gap page_align g.addr) size
    (if page_align then l else l.eraseIdx i)

/-- Writing the hole in front, or taking the hole out of the index. -/
theorem carve_front_spec {page_align : Bool} {i pos left : Nat} {g : Region} {m m' : Machine}
    (hlow : page_align = true → 0x1000 ≤ g.addr) (hhigh : g.addr + g.size < 4294967296) (hgs : 20 ≤ g.size)
    (hsafe : page_align = true → g.addr % 0x1000 ≤ 0xFE0 ∧ carve_gap true g.addr ≤ g.size)
    (h : carve_front page_align i g.addr g.size m = .ok (pos, left, m')) :
    pos = g.addr + carve_gap page_align g.addr ∧ left = g.size - carve_gap page_align g.addr
      ∧ EqOutside g.addr pos m.mem m'.mem
      ∧ (page_align = true → HdrAt m'.mem ⟨g.addr, carve_gap true g.addr, true⟩
        ∧ FtrAt m'.mem ⟨g.addr, carve_gap true g.addr, true⟩)
      ∧ m' = { m with mem := m'.mem, heap := { m.heap with h_index := m'.heap.h_index } }
      ∧ m'.heap.h_index.sa_cmp = m.heap.h_index.sa_cmp
      ∧ m'.heap.h_index.entries
        = if page_align then m.heap.h_index.entries else m.heap.h_index.entries.eraseIdx i := by
  unfold carve_front at h
  cases page_align with
  | false =>
      rw [if_neg (fun h => absurd h.1 (by decide)), bind_ok_iff] at h
      obtain ⟨idx, hrem, h⟩ := h
      obtain ⟨-, -, hc, he⟩ := remove_sorted_array_entries hrem
      simp only [Except.ok.injEq, Prod.mk.injEq] at h
      obtain ⟨rfl, rfl, rfl⟩ := h
      exact ⟨rfl, rfl, EqOutside.refl _ _ _, fun h => absurd h (by decide), rfl, hc, he⟩
  | true =>
      obtain ⟨hpage, hgap⟩ := hsafe rfl
      have hlow := hlow rfl
      have hgapdef : carve_gap true g.addr = 0xFF4 - g.addr % 0x1000 := rfl
      -- a region of a heap above the first page always gets a hole in front
      have hne : g.addr &&& 0xFFFFF000 ≠ 0 := by rw [land_page (by omega)]; omega
      rw [if_pos ⟨rfl, hne⟩] at h
      have hloc : sub32 (sub32 (add32 g.addr 0x1000) (g.addr &&& 0xFFF)) sizeof_header
          = g.addr + carve_gap true g.addr := by
        rw [land_fff, hgapdef]
        unfold sub32 add32 sizeof_header
        omega
      have hsz : sub32 (sub32 0x1000 (g.addr &&& 0xFFF)) sizeof_header = carve_gap true g.addr := by
        rw [land_fff, hgapdef]
        unfold sub32 sizeof_header
        omega
      have hfoot : sub32 (g.addr + carve_gap true g.addr) sizeof_footer
          = g.addr + carve_gap true g.addr - 8 := by
        unfold sub32 sizeof_footer
        omega
      simp only [hloc, hsz, hfoot] at h
      set mem₁ := put_footer (put_header m.mem g.addr 1 (carve_gap true g.addr))
        (g.addr + carve_gap true g.addr - 8) g.addr with hmem₁
      have hh : HdrAt mem₁ ⟨g.addr, carve_gap true g.addr, true⟩ :=
        (hdrAt_put_header m.mem ⟨g.addr, carve_gap true g.addr, true⟩ (by dsimp only; omega)).of_eqOutside
          (put_footer_eqOutside _ _ _) (.inl (by dsimp only; omega))
      have hf : FtrAt mem₁ ⟨g.addr, carve_gap true g.addr, true⟩ :=
        ftrAt_put_footer _ ⟨g.addr, carve_gap true g.addr, true⟩ (by dsimp only; omega)
      have hread : hh_size mem₁ g.addr = carve_gap true g.addr := hh.size
      rw [hread, sub32_of_le (by omega) hgap] at h
      simp only [Except.ok.injEq, Prod.mk.injEq] at h
      obtain ⟨rfl, rfl, rfl⟩ := h
      refine ⟨rfl, rfl, ?_, fun _ => ⟨hh, hf⟩, rfl, rfl, rfl⟩
      exact ((put_header_eqOutside m.mem g.addr 1 _).mono (by omega) (by omega)).trans
        ((put_footer_eqOutside _ _ _).mono (by omega) (by omega))

/-- **What `alloc_carve` writes.**  The regions the hole is cut into, with their headers and footers,
    inside the hole; and the index. -/
theorem alloc_carve_spec {size : Nat} {page_align : Bool} {i p : Nat} {g : Region} {m m' : Machine}
    (hi : i < m.heap.h_index.sa_size → m.heap.h_index.sa_array i = g.addr)
    (hsize : hh_size m.mem g.addr = g.size) (hlow : page_align = true → 0x1000 ≤ g.addr)
    (hend : g.addr + g.size ≤ m.heap.h_addr_end) (hhigh : m.heap.h_addr_end < 4294967296)
    (hfit : carve_gap page_align g.addr + (size + 20) ≤ g.size)
    (hsafe : CarveSafe size page_align g.addr m.mem)
    (hcmp : m.heap.h_index.sa_cmp = some vm_heap_header_cmp)
    (h : alloc_carve size page_align i m = .ok (p, m')) :
    p = g.addr + carve_gap page_align g.addr + 12
      ∧ EqOutside g.addr (g.addr + g.size) m.mem m'.mem
      ∧ (∀ r ∈ carved g size page_align, HdrAt m'.mem r ∧ FtrAt m'.mem r)
      ∧ m' = { m with mem := m'.mem, heap := { m.heap with h_index := m'.heap.h_index } }
      ∧ m'.heap.h_index.sa_cmp = some vm_heap_header_cmp
      ∧ m'.heap.h_index.entries = carvedIndex m'.mem g size page_align i m.heap.h_index.entries := by
  unfold CarveSafe at hsafe
  rw [hsize] at hsafe
  have hgap20 : page_align = true → 20 ≤ carve_gap page_align g.addr := fun hp => by
    have := (hsafe hp).1
    rw [hp]
    show 20 ≤ 0xFF4 - g.addr % 0x1000
    omega
  have hgap0 : page_align = false → carve_gap page_align g.addr = 0 := fun hp => by rw [hp]; rfl
  unfold alloc_carve at h
  simp only [bind_ok_iff] at h
  obtain ⟨hdr, hlook, ⟨pos, left, m₁⟩, hfront, m₂, hrest, h⟩ := h
  simp only [lookup_sorted_array, bind_ok_iff, KASSERT_eq_ok, decide_eq_true_eq] at hlook
  obtain ⟨-, hlt, hlook⟩ := hlook
  injection hlook with hlook
  rw [hi hlt] at hlook
  subst hlook
  rw [hsize] at hfront hrest
  obtain ⟨hpos, hleft, hout, hhole, hm₁, hc₁, he₁⟩ := carve_front_spec hlow (by omega) (by omega)
    (fun hp => ⟨(hsafe hp).1, by subst hp; omega⟩) hfront
  simp only [Except.ok.injEq, Prod.mk.injEq] at h
  obtain ⟨hp, rfl⟩ := h
  have hheap : m₁.heap.h_addr_end = m.heap.h_addr_end := by rw [hm₁]
  have hnew : add32 size (sizeof_header + sizeof_footer) = size + 20 := add32_of_lt (by
    unfold sizeof_header sizeof_footer; omega)
  have hdiff : sub32 g.size (size + 20) = g.size - (size + 20) := sub32_of_le (by omega) (by omega)
  have hpos12 : add32 pos sizeof_header = pos + 12 := add32_of_lt (by unfold sizeof_header; omega)
  -- the block and the hole after it, whether or not the block takes all
  have htail : EqOutside pos (pos + left) m₁.mem m₂.mem
      ∧ (∀ r ∈ cutBlock pos left size, HdrAt m₂.mem r ∧ FtrAt m₂.mem r)
      ∧ m₂ = { m₁ with mem := m₂.mem, heap := { m₁.heap with h_index := m₂.heap.h_index } }
      ∧ m₂.heap.h_index.sa_cmp = some vm_heap_header_cmp
      ∧ m₂.heap.h_index.entries = insertRest m₂.mem pos left size m₁.heap.h_index.entries := by
    rw [hnew, hdiff] at hrest
    by_cases habs : g.size - (size + 20) < sizeof_header + sizeof_footer
    · have h20 : g.size < size + 40 := by
        unfold sizeof_header sizeof_footer at habs; omega
      have hpa : page_align = false := by
        cases page_align with
        | false => rfl
        | true => exact absurd (hgap20 rfl) (by omega)
      rw [hgap0 hpa] at hleft hpos
      simp only [decide_eq_true habs, if_true] at hrest
      rw [show add32 size (g.size - (size + 20)) = g.size - 20 by
        rw [add32_of_lt (by omega)]; omega] at hrest
      have hspec := carve_rest_spec (by omega) (.inl (by omega)) (by omega) (by omega)
        (hc₁.trans hcmp) hrest
      have hcut : cutBlock pos left (g.size - 20) = cutBlock pos left size := by
        unfold cutBlock
        rw [if_pos (by omega), if_pos (by omega)]
      have hins : ∀ l, insertRest m₂.mem pos left (g.size - 20) l = insertRest m₂.mem pos left size l := by
        intro l
        unfold insertRest
        rw [if_pos (by omega), if_pos (by omega)]
      rw [hcut, hins] at hspec
      exact hspec
    · have h40 : size + 40 ≤ g.size := by
        unfold sizeof_header sizeof_footer at habs; omega
      simp only [decide_eq_false habs, Bool.false_eq_true, if_false] at hrest
      refine carve_rest_spec rfl ?_ (by omega) (by omega) (hc₁.trans hcmp) hrest
      cases hpa : page_align with
      | false =>
          rw [hgap0 hpa] at hleft
          exact .inr (by omega)
      | true =>
          subst hpa
          have := (hsafe rfl).2
          omega
  obtain ⟨hout₂, htl, hm₂, hc₂, he₂⟩ := htail
  have hend' : pos + left = g.addr + g.size := by omega
  rw [hend'] at hout₂
  refine ⟨by rw [← hp, hpos12, hpos], ?_, fun r hr => ?_, ?_, hc₂, ?_⟩
  · exact (hout.mono (Nat.le_refl _) (by omega)).trans (hout₂.mono (by omega) (Nat.le_refl _))
  · unfold carved at hr
    rw [← hpos, ← hleft] at hr
    rcases List.mem_append.mp hr with hr | hr
    · cases page_align with
      | false => exact absurd hr (by simp)
      | true =>
          rw [if_pos rfl, List.mem_singleton] at hr
          subst hr
          obtain ⟨hh, hf⟩ := hhole rfl
          have := hgap20 rfl
          exact ⟨hh.of_eqOutside hout₂ (.inl (by dsimp only; omega)),
            hf.of_eqOutside (by dsimp only; omega) hout₂ (.inl (by dsimp only; omega))⟩
    · exact htl r hr
  · rw [hm₂, hm₁]
  · rw [he₂, he₁]
    unfold carvedIndex
    rw [hpos, hleft]

/-! ## §3. The invariant. -/

theorem holes_cutBlock (pos left size : Nat) :
    holes (cutBlock pos left size) = if left < size + 40 then [] else [pos + (size + 20)] := by
  unfold cutBlock
  split <;> rfl

theorem insertRest_perm (mem : Mem) (pos left size : Nat) (l : List Nat) :
    (insertRest mem pos left size l).Perm (holes (cutBlock pos left size) ++ l) := by
  rw [holes_cutBlock]
  unfold insertRest
  split
  · exact List.Perm.refl _
  · exact List.perm_orderedInsert _ _ _

/-- Taking out the entry of slot `i`. -/
theorem SortedArray.erase_perm {a : SortedArray Mem Nat} {i : Nat} (hi : i < a.sa_size) :
    a.entries.Perm (a.sa_array i :: a.entries.eraseIdx i) := by
  have hlen : i < a.entries.length := by rw [a.length_entries]; exact hi
  rw [← a.getElem_entries hlen]
  exact (List.getElem_cons_eraseIdx_perm hlen).symm

/-- The index after carving lists the holes after carving. -/
theorem carvedIndex_perm {mem : Mem} {pre post : List Region} {g : Region} {size i : Nat}
    {page_align : Bool} {a : SortedArray Mem Nat} (hi : i < a.sa_size) (hg : a.sa_array i = g.addr)
    (hhole : g.hole = true) (hperm : a.entries.Perm (holes (pre ++ g :: post))) :
    (carvedIndex mem g size page_align i a.entries).Perm
      (holes (pre ++ carved g size page_align ++ post)) := by
  refine List.perm_iff_count.mpr fun x => ?_
  have h1 := (insertRest_perm mem (g.addr + carve_gap page_align g.addr)
    (g.size - carve_gap page_align g.addr) size
    (if page_align then a.entries else a.entries.eraseIdx i)).count_eq x
  have h2 := hperm.count_eq x
  have h3 := (a.erase_perm hi).count_eq x
  rw [hg] at h3
  simp only [holes_append, holes_cons, hhole, if_true, List.count_append, List.count_cons] at h1 h2 h3
  unfold carvedIndex carved
  rw [h1]
  cases page_align with
  | false =>
      simp only [Bool.false_eq_true, if_false, holes_append, List.nil_append, List.count_append]
      omega
  | true =>
      simp only [if_true, holes_append, holes_cons, List.singleton_append, List.count_append,
        List.count_cons]
      omega

theorem size_carved {g : Region} {size : Nat} {page_align : Bool}
    (hfit : carve_gap page_align g.addr + (size + 20) ≤ g.size)
    (hsafe : page_align = true → g.addr % 0x1000 ≤ 0xFE0) : ∀ r ∈ carved g size page_align, 20 ≤ r.size := by
  intro r hr
  unfold carved at hr
  rcases List.mem_append.mp hr with hr | hr
  · cases page_align with
    | false => exact absurd hr (by simp)
    | true =>
        rw [if_pos rfl, List.mem_singleton] at hr
        subst hr
        have := hsafe rfl
        show 20 ≤ 0xFF4 - g.addr % 0x1000
        omega
  · exact size_cutBlock (by omega) r hr

/-- **Carving a chain.**  A hole that fits is cut into regions; the rest of the heap stays as it is. -/
theorem Chain.carve {regs : List Region} {m m' : Machine} {size : Nat} {page_align : Bool} {i p : Nat}
    (c : Chain regs m) (hhigh : m.heap.h_addr_end < 4294967296)
    (hlow : page_align = true → 0x1000 ≤ m.heap.h_addr_start) (hi : i < m.heap.h_index.sa_size)
    (hfit : ∀ g ∈ regs, g.addr = m.heap.h_index.sa_array i → carve_gap page_align g.addr + (size + 20) ≤ g.size)
    (hsafe : CarveSafe size page_align (m.heap.h_index.sa_array i) m.mem)
    (h : alloc_carve size page_align i m = .ok (p, m')) :
    ∃ pre g post, regs = pre ++ g :: post ∧ g.hole = true ∧ g.addr = m.heap.h_index.sa_array i
      ∧ carve_gap page_align g.addr + (size + 20) ≤ g.size
      ∧ p = g.addr + carve_gap page_align g.addr + 12
      ∧ Chain (pre ++ carved g size page_align ++ post) m'
      ∧ EqOutside g.addr (g.addr + g.size) m.mem m'.mem
      ∧ (∀ r ∈ carved g size page_align, FtrAt m'.mem r)
      ∧ m' = { m with mem := m'.mem, heap := { m.heap with h_index := m'.heap.h_index } }
      ∧ m'.heap.h_index.entries = carvedIndex m'.mem g size page_align i m.heap.h_index.entries := by
  obtain ⟨pre, g, post, rfl, hhole, haddr⟩ := c.slot hi
  have hg : g ∈ pre ++ g :: post := by simp
  obtain ⟨hb1, hb2, hb3⟩ := c.region_bounds hg
  have hsize := (c.head g hg).size
  have hfit := hfit g hg haddr
  rw [← haddr] at hsafe
  obtain ⟨hp, hout, hwritten, hm', hcmp, hentries⟩ := alloc_carve_spec (fun _ => haddr.symm) hsize
    (fun ha => by have := hlow ha; omega) hb2 (by omega) hfit hsafe c.cmp h
  refine ⟨pre, g, post, rfl, hhole, haddr, hfit, hp, ?_, hout, fun r hr => (hwritten r hr).2, hm', hentries⟩
  apply c.splice (by rw [hm']) (by rw [hm']) (tiled_carved hfit) (size_carved hfit fun ha => (hsafe ha).1)
    (fun r hr => (hwritten r hr).1) hout ?_ hcmp
  rw [hentries]
  exact carvedIndex_perm hi haddr.symm hhole c.index

/-- **Carving.** -/
theorem HeapInv.carve {regs : List Region} {m m' : Machine} {size : Nat} {page_align : Bool} {i p : Nat}
    (inv : HeapInv regs m) (hi : i < m.heap.h_index.sa_size)
    (hfits : hole_fits m.mem (size + 20) page_align (m.heap.h_index.sa_array i) = true)
    (hsmall : size + 20 < 2147483648)
    (hsafe : CarveSafe size page_align (m.heap.h_index.sa_array i) m.mem)
    (h : alloc_carve size page_align i m = .ok (p, m')) :
    ∃ pre g post, regs = pre ++ g :: post ∧ g.hole = true ∧ g.addr = m.heap.h_index.sa_array i
      ∧ carve_gap page_align g.addr + (size + 20) ≤ g.size
      ∧ p = g.addr + carve_gap page_align g.addr + 12
      ∧ HeapInv (pre ++ carved g size page_align ++ post) m'
      ∧ EqOutside g.addr (g.addr + g.size) m.mem m'.mem
      ∧ (∀ r ∈ carved g size page_align, FtrAt m'.mem r)
      ∧ m' = { m with mem := m'.mem, heap := { m.heap with h_index := m'.heap.h_index } }
      ∧ m'.heap.h_index.entries = carvedIndex m'.mem g size page_align i m.heap.h_index.entries := by
  obtain ⟨b1, -, -, -, b5, b6, b7⟩ := inv.bounds
  have hfit : ∀ g ∈ regs, g.addr = m.heap.h_index.sa_array i →
      carve_gap page_align g.addr + (size + 20) ≤ g.size := by
    intro g hg haddr
    obtain ⟨hb1, hb2, hb3⟩ := inv.region_bounds hg
    have hsize := (inv.head g hg).size
    rw [← haddr] at hfits hsafe
    cases page_align with
    | false =>
        rw [hole_fits_false, decide_eq_true_eq, hsize] at hfits
        show 0 + (size + 20) ≤ g.size
        omega
    | true =>
        rw [hole_fits_true (by omega) (by omega) hsmall (by omega), decide_eq_true_eq, hsize] at hfits
        have := (hsafe rfl).1
        unfold front_gap at hfits
        show 0xFF4 - g.addr % 0x1000 + (size + 20) ≤ g.size
        omega
  obtain ⟨pre, g, post, rfl, hhole, haddr, hfit, hp, c, hout, hfoot, hm', hentries⟩ :=
    inv.toChain.carve (by omega) (fun _ => b1) hi hfit hsafe h
  refine ⟨pre, g, post, rfl, hhole, haddr, hfit, hp, ?_, hout, hfoot, hm', hentries⟩
  exact inv.of_splice c (by rw [hm']) (by rw [hm']) (by rw [hm']) (fun r hr _ => hfoot r hr) hout

/-- The block that was cut out. -/
theorem exists_block_carved {g : Region} (size : Nat) {page_align : Bool}
    (h : carve_gap page_align g.addr + (size + 20) ≤ g.size) :
    ∃ b ∈ carved g size page_align, b.hole = false ∧ b.addr = g.addr + carve_gap page_align g.addr
      ∧ size + 20 ≤ b.size ∧ g.addr ≤ b.addr ∧ b.addr + b.size ≤ g.addr + g.size := by
  unfold carved cutBlock
  by_cases hs : g.size - carve_gap page_align g.addr < size + 40
  · rw [if_pos hs]
    exact ⟨_, List.mem_append_right _ (List.mem_singleton_self _), rfl, rfl, by dsimp only; omega,
      by dsimp only; omega, by dsimp only; omega⟩
  · rw [if_neg hs]
    exact ⟨_, List.mem_append_right _ List.mem_cons_self, rfl, rfl, by dsimp only; omega,
      by dsimp only; omega, by dsimp only; omega⟩

/-- **Carving under the clients' eyes.**  The new block is apart from every block that was there. -/
theorem Kernel.carve {regs : List Region} {live : List (Nat × Nat)} {m m' : Machine} {size : Nat}
    {page_align : Bool} {i p : Nat} (k : Kernel regs live m) (hi : i < m.heap.h_index.sa_size)
    (hfits : hole_fits m.mem (size + 20) page_align (m.heap.h_index.sa_array i) = true)
    (hsmall : size + 20 < 2147483648)
    (hsafe : CarveSafe size page_align (m.heap.h_index.sa_array i) m.mem)
    (h : alloc_carve size page_align i m = .ok (p, m')) :
    ∃ regs' b, Kernel regs' live m' ∧ Preserves regs regs' live m m'
      ∧ m'.heap.h_addr_end = m.heap.h_addr_end
      ∧ (∀ t, t < 1024 → pd_table m'.mem m.kernel_directory t = pd_table m.mem m.kernel_directory t)
      ∧ b ∈ regs' ∧ b.hole = false ∧ b.addr + 12 = p ∧ size + 20 ≤ b.size
      ∧ ∀ r ∈ regs, r.hole = false → r.addr + r.size ≤ b.addr ∨ b.addr + b.size ≤ r.addr := by
  obtain ⟨pre, g, post, rfl, hhole, -, hfit, hp, inv', hout, -, hm', -⟩ :=
    k.heap.carve hi hfits hsmall hsafe h
  obtain ⟨b, hb, hbb, hba, hbs, hb1, hb2⟩ := exists_block_carved size hfit
  have hg : g ∈ pre ++ g :: post := by simp
  obtain ⟨hg1, hg2, -⟩ := k.heap.region_bounds hg
  have hhigh := k.heap.bounds.high
  have hmax := k.heap.bounds.max
  -- the blocks that were there are not the hole
  have hold : ∀ r ∈ pre ++ g :: post, r.hole = false →
      r ∈ pre ++ carved g size page_align ++ post
        ∧ (r.addr + r.size ≤ g.addr ∨ g.addr + g.size ≤ r.addr) := by
    intro r hr hrb
    have hne : r ≠ g := fun h => by rw [h, hhole] at hrb; exact absurd hrb (by decide)
    refine ⟨?_, ?_⟩
    · simp only [List.mem_append, List.mem_cons] at hr ⊢
      rcases hr with hr | hr | hr
      · exact .inl (.inl hr)
      · exact absurd hr hne
      · exact .inr hr
    · rcases k.heap.apart hr hg with h | h
      · exact absurd h hne
      · exact h
  have hoff := k.paging.dir_off
  have htab : ∀ t, t < 1024 → pd_table m'.mem m.kernel_directory t = pd_table m.mem m.kernel_directory t :=
    fun t ht => hout.read32 (by omega)
  refine ⟨_, b, ⟨inv', ?_, fun l hl => ?_, k.nodup⟩, ⟨by rw [hm'], by rw [hm'], by rw [hm'],
    fun t ht _ => htab t ht, fun t ht hz hne => absurd ((htab t ht).trans hz) hne,
    fun r hr hrb => (hold r hr hrb).1, fun l hl x h1 h2 => ?_⟩, by rw [hm'], htab,
    by simp [hb], hbb, ?_, hbs, fun r hr hrb => ?_⟩
  · exact k.paging.of_blocks (by rw [hm']) (by rw [hm']) (by rw [hm']) (by rw [hm']) (by rw [hm'])
      (by rw [hm']; dsimp only; omega) (by rw [hm']; exact k.paging.mapped) htab
      fun r hr hrb hl => ⟨(hold r hr hrb).1, hl⟩
  · obtain ⟨r, hr, hrb, hra, hrs⟩ := k.block l hl
    exact ⟨r, (hold r hr hrb).1, hrb, hra, hrs⟩
  · obtain ⟨r, hr, hrb, hra, hrs⟩ := k.block l hl
    have := (hold r hr hrb).2
    exact hout x (by omega)
  · rw [hp, hba]
  · have := (hold r hr hrb).2
    omega

end JamesM
