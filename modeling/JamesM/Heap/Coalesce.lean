/-
  JamesM.Heap.Coalesce — what a freed block becomes.

  `free` joins the block with the holes around it.  A left merge rewrites the footer
  of the block; a right merge changes the header of the joined hole and leaves its
  footer as it was, pointing at the header that was swallowed.

  A joined hole at the end of the heap is handed to `contract`.  Its rounding tests
  one bit of the offset instead of the bits below the page, and the hole that would
  vanish is looked up in the index under the header of its right neighbour.

  Main results: `free_coalesces`, `free_contracts`.
-/
import JamesM.Heap.Fit
import Mathlib.Data.List.Chain

namespace JamesM

open JamesM.ByteMem JamesM.Word32 JamesM.Lib

/-! ## §1. Neighbours. -/

/-- No two holes are next to each other. -/
def Separated (regs : List Region) : Prop :=
  regs.IsChain fun r s => r.hole = true → s.hole = false

/-- The sizes of a row of regions add up to its length. -/
theorem sum_sizes {l : List Region} : ∀ {a e : Nat}, Tiled a l e → (l.map Region.size).sum = e - a := by
  induction l with
  | nil =>
      intro a e h
      have h : a = e := h
      simp [h]
  | cons r l ih =>
      intro a e h
      have hle := h.2.le
      rw [List.map_cons, List.sum_cons, ih h.2]
      omega

/-- What the left test sees when the neighbour has its footer. -/
theorem FtrAt.leftHole {mem : Mem} {l : Region} {header : Nat} (hf : FtrAt mem l) (hd : HdrAt mem l)
    (hs : 20 ≤ l.size) (hend : l.addr + l.size = header) :
    (LeftHole header (flagged header mem) ↔ l.hole = true) ∧ hf_header mem (header - 8) = l.addr := by
  subst hend
  have hflag := flagged_eqOutside (l.addr + l.size) mem
  have hmagic : hf_magic (flagged (l.addr + l.size) mem) (l.addr + l.size - 8) = VM_HEAP_FTR_MAGIC :=
    (hflag.read32 (.inl (by omega))).trans hf.magic
  have hheader : hf_header (flagged (l.addr + l.size) mem) (l.addr + l.size - 8) = l.addr :=
    (hflag.read32 (.inl (by omega))).trans hf.header
  have hishole : hh_is_hole (flagged (l.addr + l.size) mem) l.addr = l.flag :=
    (hflag.read32 (.inl (by omega))).trans hd.flag
  refine ⟨?_, hf.header⟩
  unfold LeftHole
  rw [hheader, hishole]
  unfold Region.flag
  cases l.hole with
  | false =>
      constructor
      · intro h
        exact absurd h.2 (by decide)
      · intro h
        exact absurd h (by decide)
  | true =>
      constructor
      · intro _
        rfl
      · intro _
        exact ⟨hmagic, rfl⟩

/-- Correct tags make the left test truthful, unless the block is the first region. -/
theorem TaggedAt.freeSafe_left {regs : List Region} {m : Machine} {b : Region} (tags : TaggedAt regs m)
    (inv : HeapInv regs m) (hb : b ∈ regs)
    (hfirst : b.addr = m.heap.h_addr_start → ¬ LeftHole b.addr (flagged b.addr m.mem))
    (hleft : LeftHole b.addr (flagged b.addr m.mem)) :
    hf_header m.mem (b.addr - 8) ∈ m.heap.h_index.entries
      ∧ hf_header m.mem (b.addr - 8) + hh_size m.mem (hf_header m.mem (b.addr - 8)) = b.addr := by
  obtain ⟨pre, post, rfl⟩ := exists_cut hb
  have hcut := inv.tiled.cut.1
  rcases List.eq_nil_or_concat pre with rfl | ⟨pre', l, rfl⟩
  · have hz : m.heap.h_addr_start = b.addr := hcut
    exact absurd hleft (hfirst hz.symm)
  · rw [List.concat_eq_append] at *
    have hl : l ∈ pre' ++ [l] ++ b :: post := by simp
    have hls := inv.size l hl
    have hlend : l.addr + l.size = b.addr := hcut.cut.2
    obtain ⟨hb1, hb2, hb3⟩ := inv.region_bounds hb
    have hfoot : FtrAt m.mem l := by
      rcases tags l hl with h | ⟨-, h⟩
      · exact h
      · omega
    obtain ⟨hiff, hheader⟩ := hfoot.leftHole (inv.head l hl) hls hlend
    rw [hheader, (inv.head l hl).size]
    exact ⟨inv.mem_index.mpr ⟨l, hl, hiff.mp hleft, rfl⟩, hlend⟩

/-! ## §2. Joining. -/

/-- What freeing the block at `p` should do, away from the end of the heap: the block and the holes next
    to it are one hole, with a header and a footer of its own; every region has its footer (but for a hole
    that ends the heap); no two holes are next to each other; and nothing else has changed. -/
structure Coalesced (regs regs' : List Region) (p : Nat) (m m' : Machine) : Prop where
  joined : ∃ pre lefts b rights post g, regs = pre ++ lefts ++ b :: (rights ++ post)
    ∧ regs' = pre ++ g :: post ∧ b.addr + 12 = p ∧ (∀ r ∈ lefts ++ rights, r.hole = true)
    ∧ g.hole = true ∧ g.size = ((lefts ++ b :: rights).map Region.size).sum ∧ FtrAt m'.mem g
    ∧ ∀ r ∈ pre ++ post, ∀ x, r.addr ≤ x → x < r.addr + r.size → m'.mem x = m.mem x
  chain : Chain regs' m'
  tagged : TaggedAt regs' m'
  separated : Separated regs'
  total : (regs'.map Region.size).sum = (regs.map Region.size).sum
  start : m'.heap.h_addr_start = m.heap.h_addr_start
  end_ : m'.heap.h_addr_end = m.heap.h_addr_end

/-- No hole begins where the block at `p` ends. -/
def NoHoleAfter (regs : List Region) (p : Nat) (m : Machine) : Prop :=
  ∀ r ∈ regs, r.hole = true → r.addr ≠ p - 12 + hh_size m.mem (p - 12)

/-- What the right test sees. -/
theorem HeapInv.freed_end_eq {p q : List Region} {b r : Region} {m : Machine}
    (inv : HeapInv (p ++ b :: r :: q) m) :
    freed_end b.addr m.mem = if r.hole then r.addr + r.size else b.addr + b.size := by
  have hra : r.addr = b.addr + b.size := inv.tiled.cut.2.1
  have hr : r ∈ p ++ b :: r :: q := by simp
  have hrd := inv.head r hr
  unfold freed_end
  simp only [(inv.head b (by simp)).size, ← hra, hrd.magic, hrd.flag, hrd.size]
  unfold Region.flag
  cases r.hole with
  | false => rfl
  | true => rfl

/-- What the left test sees. -/
theorem HeapInv.freed_start_eq {pre post : List Region} {l b : Region} {m : Machine}
    (inv : HeapInv (pre ++ l :: b :: post) m) (hf : FtrAt m.mem l) :
    freed_start b.addr m.mem = if l.hole then l.addr else b.addr := by
  have hba : b.addr = l.addr + l.size := inv.tiled.cut.2.1
  have hl : l ∈ pre ++ l :: b :: post := by simp
  obtain ⟨hiff, hheader⟩ := hf.leftHole (inv.head l hl) (inv.size l hl) hba.symm
  unfold freed_start
  cases hlh : l.hole with
  | false =>
      rw [if_neg (fun h => by rw [hiff.mp h] at hlh; exact absurd hlh (by decide))]
      rfl
  | true =>
      rw [if_pos (hiff.mpr hlh), hheader]
      rfl

/-- A region in place of a row of them keeps the holes apart if it has blocks on both sides. -/
theorem Separated.replace {pre mid post : List Region} {g : Region} (hsep : Separated (pre ++ mid ++ post))
    (hbefore : ∀ x ∈ pre.getLast?, x.hole = false) (hafter : ∀ y ∈ post.head?, y.hole = false) :
    Separated (pre ++ g :: post) := by
  unfold Separated at hsep ⊢
  rw [List.isChain_append] at hsep
  obtain ⟨hpre, hpost, -⟩ := hsep
  rw [List.isChain_append] at hpre
  refine List.isChain_append.mpr ⟨hpre.1, List.isChain_cons.mpr ⟨fun y hy _ => hafter y hy, hpost⟩,
    fun x hx y _ hxh => ?_⟩
  rw [hbefore x hx] at hxh
  exact absurd hxh (by decide)

/-- The region after the joined hole is a block. -/
theorem HeapInv.block_after {p rights post : List Region} {b : Region} {m : Machine}
    (inv : HeapInv (p ++ b :: (rights ++ post)) m) (hsep : Separated (p ++ b :: (rights ++ post)))
    (hrights : ∀ r ∈ rights, r.hole = true)
    (htiled : Tiled (b.addr + b.size) rights (freed_end b.addr m.mem)) : ∀ y ∈ post.head?, y.hole = false := by
  intro y hy
  cases hrs : rights with
  | nil =>
      -- the right test was made at `y`
      cases post with
      | nil => exact absurd hy (by simp)
      | cons r post =>
          have hyr : r = y := by simpa using hy
          subst hyr
          subst hrs
          have heq := inv.freed_end_eq (p := p) (b := b) (r := r) (q := post)
          cases hrh : r.hole with
          | false => rfl
          | true =>
              rw [hrh, if_pos rfl] at heq
              have hbe : b.addr + b.size = freed_end b.addr m.mem := htiled
              have hra : r.addr = b.addr + b.size := inv.tiled.cut.2.1
              have hrs := inv.size r (by simp)
              omega
  | cons r rights' =>
      -- the last hole that was swallowed has `y` after it
      have hne : rights ≠ [] := by
        rw [hrs]
        simp
      have hlast : rights.getLast hne ∈ (p ++ b :: rights).getLast? := by
        rw [List.getLast?_append_of_ne_nil _ (by simp), show b :: rights = [b] ++ rights from rfl,
          List.getLast?_append_of_ne_nil _ hne, List.getLast?_eq_getLast_of_ne_nil hne]
        rfl
      unfold Separated at hsep
      rw [show p ++ b :: (rights ++ post) = (p ++ b :: rights) ++ post by simp, List.isChain_append] at hsep
      exact hsep.2.2 _ hlast y hy (hrights _ (List.getLast_mem hne))

/-- The region before the joined hole is a block. -/
theorem HeapInv.block_before {pre lefts q : List Region} {b : Region} {m : Machine}
    (inv : HeapInv (pre ++ lefts ++ b :: q) m) (tags : TaggedAt (pre ++ lefts ++ b :: q) m)
    (hsep : Separated (pre ++ lefts ++ b :: q)) (hlefts : ∀ r ∈ lefts, r.hole = true)
    (htiled : Tiled (freed_start b.addr m.mem) lefts b.addr) : ∀ x ∈ pre.getLast?, x.hole = false := by
  intro x hx
  cases hls : lefts with
  | nil =>
      -- the left test was made at `x`, which has its footer
      subst hls
      obtain ⟨pre', rfl⟩ := List.getLast?_eq_some_iff.mp hx
      rw [List.append_nil, List.append_assoc] at inv tags
      have hxend : b.addr = x.addr + x.size := inv.tiled.cut.2.1
      have hxs := inv.size x (by simp)
      have hb3 := inv.region_bounds (r := b) (by simp)
      have hfx : FtrAt m.mem x := by
        rcases tags x (by simp) with hf | ⟨-, hf⟩
        · exact hf
        · omega
      have heq := inv.freed_start_eq hfx
      have hab : freed_start b.addr m.mem = b.addr := htiled
      cases hxh : x.hole with
      | false => rfl
      | true =>
          rw [hxh, if_pos rfl] at heq
          omega
  | cons l lefts' =>
      -- the hole before the block has `x` before it
      unfold Separated at hsep
      rw [List.append_assoc, List.isChain_append] at hsep
      have hhead : (lefts ++ b :: q).head? = some l := by
        rw [hls]
        rfl
      cases hxh : x.hole with
      | false => rfl
      | true =>
          have hl := hsep.2.2 x hx l hhead hxh
          rw [hlefts l (by rw [hls]; simp)] at hl
          exact absurd hl (by decide)

/-- The pieces of a free of the block at `p`: the regions `lefts`, the block `b` and the regions `rights`
    become the hole `g`. -/
structure Pieces (pre lefts : List Region) (b : Region) (rights post : List Region) (g : Region) (p : Nat)
    (m m' : Machine) : Prop where
  addr : b.addr + 12 = p
  block : b.hole = false
  holes : ∀ r ∈ lefts ++ rights, r.hole = true
  hole : g.hole = true
  tiled : Tiled g.addr (lefts ++ b :: rights) (g.addr + g.size)
  inv : HeapInv (pre ++ g :: post) m'
  start : m'.heap.h_addr_start = m.heap.h_addr_start
  end_ : m'.heap.h_addr_end = m.heap.h_addr_end
  separated : Separated (pre ++ g :: post)
  outside : EqOutside g.addr (b.addr + b.size) m.mem m'.mem
  foot : rights = [] → FtrAt m'.mem g
  below : g.addr + g.size < m.heap.h_addr_end

/-- **The pieces of a free.**  Where the regions have their footers and no two holes are next to each
    other, the regions that are joined are the block and the holes next to it. -/
theorem Kernel.free_pieces {regs : List Region} {live : List (Nat × Nat)} {m m' : Machine} {p : Nat}
    (k : Kernel regs live m) (tags : TaggedAt regs m) (hsep : Separated regs) (hp : p ∈ live.map Prod.fst)
    (hfirst : p - 12 = m.heap.h_addr_start → ¬ LeftHole (p - 12) (flagged (p - 12) m.mem))
    (hinside : freed_end (p - 12) m.mem ≠ m.heap.h_addr_end) (h : JamesM.free p m = .ok m') :
    ∃ pre lefts b rights post g, regs = pre ++ lefts ++ b :: (rights ++ post)
      ∧ Pieces pre lefts b rights post g p m m' := by
  -- the block
  obtain ⟨l, hl, hlp⟩ := List.mem_map.mp hp
  obtain ⟨b₀, hb₀, hb₀h, hb₀p, -⟩ := k.block l hl
  have hpa : p - 12 = b₀.addr := by omega
  have hsafe : FreeSafe p m := by
    refine ⟨fun hleft => ?_, fun hlast => absurd hlast hinside⟩
    rw [hpa] at hleft hfirst ⊢
    exact tags.freeSafe_left k.heap hb₀ hfirst hleft
  obtain ⟨pre, lefts, b, rights, post, rfl, hba, hblock, hlefts, hrights, htiled, k', hpres, hend, -, -, hmem⟩ :=
    k.free hp hsafe h
  have hend' := hend hinside
  obtain ⟨hout, hfoot⟩ := hmem hinside
  have hsize : freed_size (p - 12) m = freed_end (p - 12) m.mem - freed_start (p - 12) m.mem := by
    unfold freed_size
    rw [if_neg hinside]
  have hbb : b.addr + 12 = p := by omega
  have hle := htiled.le
  rw [hsize] at k' hfoot
  rw [show p - 12 = b.addr by omega] at *
  obtain ⟨c, htl, htr⟩ := tiles_append.mp htiled
  have hbc : b.addr = c := htr.1
  rw [← hbc] at htl htr
  have hbefore := k.heap.block_before tags hsep hlefts htl
  have hafter := k.heap.block_after hsep hrights htr.2
  have hgend : freed_start b.addr m.mem + (freed_end b.addr m.mem - freed_start b.addr m.mem)
      = freed_end b.addr m.mem := by omega
  have hlast := (k'.heap.region_bounds (r := ⟨freed_start b.addr m.mem,
    freed_end b.addr m.mem - freed_start b.addr m.mem, true⟩) (by simp)).2.1
  refine ⟨pre, lefts, b, rights, post, _, rfl, hbb, hblock, ?_, rfl, ?_, k'.heap, hpres.start, hend', ?_, hout,
    hfoot, ?_⟩
  · intro r hr
    rcases List.mem_append.mp hr with hr | hr
    · exact hlefts r hr
    · exact hrights r hr
  · dsimp only
    rw [hgend]
    exact htiled
  · have hmid : Separated (pre ++ (lefts ++ b :: rights) ++ post) := by
      rw [show pre ++ (lefts ++ b :: rights) ++ post = pre ++ lefts ++ b :: (rights ++ post) by simp]
      exact hsep
    exact hmid.replace hbefore hafter
  · dsimp only at hlast ⊢
    omega

/-! ## §3. Exactly when the tags are kept. -/

/-- What the pieces are cut into. -/
theorem Pieces.cut {pre lefts rights post : List Region} {b g : Region} {p : Nat} {m m' : Machine}
    (pc : Pieces pre lefts b rights post g p m m') :
    Tiled g.addr lefts b.addr ∧ Tiled (b.addr + b.size) rights (g.addr + g.size) := by
  obtain ⟨c, hlefts, hmid⟩ := tiles_append.mp pc.tiled
  have hcb : b.addr = c := hmid.1
  rw [← hcb] at hlefts hmid
  exact ⟨hlefts, hmid.2⟩

/-- The test for a hole after the block, made at the block. -/
theorem Pieces.noHoleAfter_iff {pre lefts rights post : List Region} {b g : Region} {p : Nat} {m m' : Machine}
    (pc : Pieces pre lefts b rights post g p m m') (inv : HeapInv (pre ++ lefts ++ b :: (rights ++ post)) m) :
    NoHoleAfter (pre ++ lefts ++ b :: (rights ++ post)) p m
      ↔ ∀ r ∈ pre ++ lefts ++ b :: (rights ++ post), r.hole = true → r.addr ≠ b.addr + b.size := by
  have hpa : p - 12 = b.addr := by
    have := pc.addr
    omega
  unfold NoHoleAfter
  rw [hpa, (inv.head b (by simp)).size]

/-- Nothing is joined after the block exactly when no hole begins there. -/
theorem Pieces.rights_eq_nil_iff {pre lefts rights post : List Region} {b g : Region} {p : Nat} {m m' : Machine}
    (pc : Pieces pre lefts b rights post g p m m') (inv : HeapInv (pre ++ lefts ++ b :: (rights ++ post)) m) :
    rights = [] ↔ NoHoleAfter (pre ++ lefts ++ b :: (rights ++ post)) p m := by
  rw [pc.noHoleAfter_iff inv]
  constructor
  · -- such a hole would be next to the joined one
    rintro rfl r hr hrh hra
    have hge : b.addr + b.size = g.addr + g.size := pc.cut.2
    have hr3 := inv.size r hr
    have hrpost : r ∈ post := by
      simp only [List.mem_append, List.mem_cons, List.nil_append] at hr
      rcases hr with (hr | hr) | rfl | hr
      · have hoff := pc.inv.tiled.around.1 r hr
        omega
      · have hoff := (pc.cut.1.bounds r hr).2
        omega
      · omega
      · exact hr
    cases post with
    | nil => exact absurd hrpost (by simp)
    | cons y post =>
        have hya : y.addr = g.addr + g.size := pc.inv.tiled.cut.2.1
        have hyr : y = r := pc.inv.eq_of_addr (by simp) (by simp [List.mem_cons.mp hrpost]) (by omega)
        have hyh := (List.isChain_cons_cons.mp (List.isChain_append.mp pc.separated).2.1).1 pc.hole
        rw [hyr, hrh] at hyh
        exact absurd hyh (by decide)
  · intro hno
    cases hrs : rights with
    | nil => rfl
    | cons r rights' =>
        subst hrs
        have hra : r.addr = b.addr + b.size := pc.cut.2.1
        exact absurd hra (hno r (by simp) (pc.holes r (by simp)))

/-- **A right merge leaves the footer of the hole that was swallowed.** -/
theorem Pieces.not_tagged {pre lefts rights post : List Region} {b g : Region} {p : Nat} {m m' : Machine}
    (pc : Pieces pre lefts b rights post g p m m') (inv : HeapInv (pre ++ lefts ++ b :: (rights ++ post)) m)
    (tags : TaggedAt (pre ++ lefts ++ b :: (rights ++ post)) m) (hne : rights ≠ []) :
    ¬ TaggedAt (pre ++ g :: post) m' := by
  intro htagged
  have hbelow := pc.below
  have hle := pc.cut.1.le
  have hrights := pc.cut.2
  have hz : rights.getLast hne ∈ rights := List.getLast_mem hne
  have hzin : rights.getLast hne ∈ pre ++ lefts ++ b :: (rights ++ post) := by
    simp only [List.mem_append, List.mem_cons]
    exact .inr (.inr (.inl hz))
  have hzend : (rights.getLast hne).addr + (rights.getLast hne).size = g.addr + g.size := by
    rw [← List.dropLast_append_getLast hne] at hrights
    exact hrights.cut.2
  have hzb := (hrights.bounds _ hz).1
  have hzs := inv.size _ hzin
  have hbs := inv.size b (by simp)
  have hzf : FtrAt m.mem (rights.getLast hne) := by
    rcases tags _ hzin with hf | ⟨-, hf⟩
    · exact hf
    · omega
  have hgf : FtrAt m'.mem g := by
    rcases htagged g (by simp) with hf | ⟨-, hf⟩
    · exact hf
    · rw [pc.end_] at hf
      omega
  -- one word cannot hold both header addresses
  have hsame : hf_header m'.mem (g.addr + g.size - 8) = hf_header m.mem (g.addr + g.size - 8) :=
    pc.outside.read32 (.inr (by omega))
  have hg := hgf.header
  have hl := hzf.header
  rw [hzend, ← hsame, hg] at hl
  omega

/-- **Without a right merge the tags are kept.** -/
theorem Pieces.coalesced {pre lefts post : List Region} {b g : Region} {p : Nat} {m m' : Machine}
    (pc : Pieces pre lefts b [] post g p m m') (inv : HeapInv (pre ++ lefts ++ b :: ([] ++ post)) m)
    (tags : TaggedAt (pre ++ lefts ++ b :: ([] ++ post)) m) :
    Coalesced (pre ++ lefts ++ b :: ([] ++ post)) (pre ++ g :: post) p m m' := by
  have hgf := pc.foot rfl
  have hge : b.addr + b.size = g.addr + g.size := pc.cut.2
  obtain ⟨hbefore, hafter⟩ := pc.inv.tiled.around
  have hoff : ∀ r ∈ pre ++ post, r.addr + r.size ≤ g.addr ∨ g.addr + g.size ≤ r.addr := by
    intro r hr
    rcases List.mem_append.mp hr with hr | hr
    · exact .inl (hbefore r hr)
    · exact .inr (hafter r hr)
  have hin : ∀ r ∈ pre ++ post, r ∈ pre ++ lefts ++ b :: ([] ++ post) := by
    intro r hr
    simp only [List.mem_append, List.mem_cons, List.nil_append] at hr ⊢
    tauto
  refine ⟨⟨pre, lefts, b, [], post, g, rfl, rfl, pc.addr, pc.holes, pc.hole, ?_, hgf, fun r hr x h1 h2 => ?_⟩,
    pc.inv.toChain, fun r hr => ?_, pc.separated, ?_, pc.start, pc.end_⟩
  · rw [sum_sizes pc.tiled]
    omega
  · have := hoff r hr
    exact pc.outside x (by omega)
  · by_cases hrg : r = g
    · rw [hrg]
      exact .inl hgf
    · have hr' : r ∈ pre ++ post := by
        simp only [List.mem_append, List.mem_cons] at hr ⊢
        tauto
      have hs := inv.size r (hin r hr')
      have := hoff r hr'
      rcases tags r (hin r hr') with hf | ⟨hrh, hf⟩
      · exact .inl (hf.of_eqOutside hs pc.outside (by omega))
      · exact .inr ⟨hrh, hf.trans pc.end_.symm⟩
  · rw [sum_sizes pc.inv.tiled, sum_sizes inv.tiled, pc.start, pc.end_]

/-- **Exactly when a free keeps the boundary tags.** -/
theorem Kernel.coalesced {regs : List Region} {live : List (Nat × Nat)} {m m' : Machine} {p : Nat}
    (k : Kernel regs live m) (tags : TaggedAt regs m) (hsep : Separated regs) (hp : p ∈ live.map Prod.fst)
    (hfirst : p - 12 = m.heap.h_addr_start → ¬ LeftHole (p - 12) (flagged (p - 12) m.mem))
    (hinside : freed_end (p - 12) m.mem ≠ m.heap.h_addr_end) (h : JamesM.free p m = .ok m') :
    (∃ regs', Coalesced regs regs' p m m') ↔ NoHoleAfter regs p m := by
  obtain ⟨pre, lefts, b, rights, post, g, rfl, pc⟩ := k.free_pieces tags hsep hp hfirst hinside h
  rw [← pc.rights_eq_nil_iff k.heap]
  constructor
  · rintro ⟨regs', co⟩
    by_contra hne
    rw [co.chain.unique pc.inv.toChain] at co
    exact pc.not_tagged k.heap tags hne co.tagged
  · rintro rfl
    exact ⟨_, pc.coalesced k.heap tags⟩

/-- **Coalescing.**  In every state of a run whose steps are safe, if the regions have their footers and no
    two holes are next to each other: freeing a block that is held, away from the end of the heap, joins it
    with its free neighbours and keeps the boundary tags exactly when the region after it is not a hole.
    (The bytes below the heap must not look like the footer of a hole if the block is the first one.) -/
theorem free_coalesces {start : Nat} {s x : Session} (st : HeapStart start s)
    {tr : List (HeapOp × Session)} (run : Trace HeapStep s tr) (safe : Along HeapSafe s tr)
    (hx : Reached s tr x) :
    ∃ regs, Kernel regs x.live x.machine
      ∧ (TaggedAt regs x.machine → Separated regs →
        ∀ (p : Nat) (m' : Machine), p ∈ x.live.map Prod.fst →
          (p - 12 = x.machine.heap.h_addr_start → ¬ LeftHole (p - 12) (flagged (p - 12) x.machine.mem)) →
          freed_end (p - 12) x.machine.mem ≠ x.machine.heap.h_addr_end → free p x.machine = .ok m' →
          ((∃ regs', Coalesced regs regs' p x.machine m') ↔ NoHoleAfter regs p x.machine)) := by
  obtain ⟨regs, k⟩ := st.reached run safe hx
  exact ⟨regs, k, fun tags hsep p m' hp hfirst hinside h => k.coalesced tags hsep hp hfirst hinside h⟩

/-- Where at most one hole is in the index, holes are not next to each other. -/
theorem HeapInv.separated {regs : List Region} {m : Machine} (inv : HeapInv regs m) {a : Nat}
    (hone : ∀ b ∈ m.heap.h_index.entries, b = a) : Separated regs := by
  apply List.Pairwise.isChain
  apply inv.tiled.sorted.imp_of_mem
  intro r s hr hs hle hrh
  cases hsh : s.hole with
  | false => rfl
  | true =>
      have h1 := hone r.addr (inv.mem_index.mpr ⟨r, hr, hrh, rfl⟩)
      have h2 := hone s.addr (inv.mem_index.mpr ⟨s, hs, hsh, rfl⟩)
      have := inv.size r hr
      omega

/-- Three blocks fill the heap, the first one is given back; then the second one is, and joins the hole
    before it. -/
theorem free_coalesces_with_the_hole_before :
    ∃ (x : Session) (m' : Machine),
      x = after freshHeap [.alloc 100 false, .alloc 100 false, .alloc 519932 false, .free 0xC008100C]
        ∧ free 0xC0081084 x.machine = .ok m' ∧ freed_start 0xC0081078 x.machine.mem = 0xC0081000
        ∧ ∃ regs regs', Coalesced regs regs' 0xC0081084 x.machine m' := by
  have run := trace_runOf freshHeap
    [.alloc 100 false, .alloc 100 false, .alloc 519932 false, .free 0xC008100C] (by decide +kernel)
  have safe : Along HeapSafe freshHeap
      (runOf freshHeap [.alloc 100 false, .alloc 100 false, .alloc 519932 false, .free 0xC008100C]) := by
    refine ⟨Guard.AllocOk.of_hit (j := 0) (by decide +kernel) (fun h => absurd h (by decide)),
      Guard.AllocOk.of_hit (j := 0) (by decide +kernel) (fun h => absurd h (by decide)),
      Guard.AllocOk.of_hit (j := 0) (by decide +kernel) (fun h => absurd h (by decide)),
      ⟨fun h => ?_, fun h => ?_⟩, trivial⟩
    · exact absurd h (by decide +kernel)
    · exact absurd h (by decide +kernel)
  obtain ⟨m', h⟩ := exists_of_isOk (x := free 0xC0081084
    (after freshHeap [.alloc 100 false, .alloc 100 false, .alloc 519932 false, .free 0xC008100C]).machine)
    (by decide +kernel)
  obtain ⟨regs, k, hall⟩ := free_coalesces freshHeap_start run safe (reached_after _ _)
  -- the hole that the first block has become is the only one
  have hone : (after freshHeap [.alloc 100 false, .alloc 100 false, .alloc 519932 false,
      .free 0xC008100C]).machine.heap.h_index.entries = [0xC0081000] := by decide +kernel
  have htags := k.heap.taggedAt (by
    rw [hone]
    intro b hb
    rw [List.mem_singleton.mp hb]
    decide +kernel)
  have hsep := k.heap.separated (a := 0xC0081000) (by
    rw [hone]
    exact fun b hb => List.mem_singleton.mp hb)
  have hafter : NoHoleAfter regs 0xC0081084 (after freshHeap
      [.alloc 100 false, .alloc 100 false, .alloc 519932 false, .free 0xC008100C]).machine := by
    intro r hr hrh
    have hin := k.heap.mem_index.mpr ⟨r, hr, hrh, rfl⟩
    rw [hone] at hin
    rw [List.mem_singleton.mp hin]
    decide +kernel
  exact ⟨_, m', rfl, h, by decide +kernel, regs,
    (hall htags hsep 0xC0081084 m' (by decide +kernel) (fun hfirst => absurd hfirst (by decide +kernel))
      (by decide +kernel) h).mpr hafter⟩

/-- **A stale footer.**  Three blocks fill the heap; the second is freed, and then the first.  The footer of
    the hole they become still points at the header of the second. -/
theorem free_leaves_a_stale_footer :
    HeapStart 0xC0000000 freshHeap
      ∧ ∃ (x : Session) (m' : Machine),
        x = after freshHeap [.alloc 100 false, .alloc 100 false, .alloc 519932 false, .free 0xC0081084]
          ∧ Trace HeapStep freshHeap
              (runOf freshHeap [.alloc 100 false, .alloc 100 false, .alloc 519932 false, .free 0xC0081084])
          ∧ 0xC008100C ∈ x.live.map Prod.fst
          ∧ freed_end 0xC0081000 x.machine.mem ≠ x.machine.heap.h_addr_end
          ∧ free 0xC008100C x.machine = .ok m'
          ∧ ∃ regs, Kernel regs x.live x.machine ∧ TaggedAt regs x.machine ∧ Separated regs
            ∧ ¬ ∃ regs', Coalesced regs regs' 0xC008100C x.machine m' := by
  have run : Trace HeapStep freshHeap
      (runOf freshHeap [.alloc 100 false, .alloc 100 false, .alloc 519932 false, .free 0xC0081084]) :=
    trace_runOf _ _ (by decide +kernel)
  have safe : Along HeapSafe freshHeap
      (runOf freshHeap [.alloc 100 false, .alloc 100 false, .alloc 519932 false, .free 0xC0081084]) := by
    refine ⟨Guard.AllocOk.of_hit (j := 0) (by decide +kernel) (fun h => absurd h (by decide)),
      Guard.AllocOk.of_hit (j := 0) (by decide +kernel) (fun h => absurd h (by decide)),
      Guard.AllocOk.of_hit (j := 0) (by decide +kernel) (fun h => absurd h (by decide)),
      ⟨fun h => ?_, fun h => ?_⟩, trivial⟩
    · exact absurd h (by decide +kernel)
    · exact absurd h (by decide +kernel)
  obtain ⟨regs, k⟩ := freshHeap_start.reached run safe (reached_after _ _)
  obtain ⟨m', h⟩ := exists_of_isOk (x := free 0xC008100C
    (after freshHeap [.alloc 100 false, .alloc 100 false, .alloc 519932 false, .free 0xC0081084]).machine)
    (by decide +kernel)
  have hone : (after freshHeap [.alloc 100 false, .alloc 100 false, .alloc 519932 false,
      .free 0xC0081084]).machine.heap.h_index.entries = [0xC0081078] := by decide +kernel
  have htags := k.heap.taggedAt (by
    rw [hone]
    intro b hb
    rw [List.mem_singleton.mp hb]
    decide +kernel)
  have hsep := k.heap.separated (a := 0xC0081078) (by
    rw [hone]
    intro b hb
    exact List.mem_singleton.mp hb)
  refine ⟨freshHeap_start, _, m', rfl, run, by decide +kernel, by decide +kernel, h, regs, k, htags, hsep,
    fun hco => ?_⟩
  have hno := (k.coalesced htags hsep (by decide +kernel) (fun _ => by decide +kernel) (by decide +kernel) h).mp hco
  obtain ⟨g, hg, hgh, hga⟩ := k.heap.mem_index.mp (by rw [hone]; exact List.mem_singleton_self _)
  apply hno g hg hgh
  rw [hga]
  decide +kernel

/-! ## §4. Shrinking. -/

/-- What freeing the block at `p` should do at the end of the heap, where `a` is the header of the joined
    hole: the heap still holds every other block, its end is page aligned, it is not shorter than
    `VM_HEAP_MIN_SIZE`; and the hole fills it up to its end and is listed once, or is gone. -/
structure Contracted (regs : List Region) (a p : Nat) (m m' : Machine) : Prop where
  blocks : ∀ r ∈ regs, r.hole = false → r.addr + 12 ≠ p → r.addr + r.size ≤ m'.heap.h_addr_end
  aligned : m'.heap.h_addr_end % 0x1000 = 0
  min : m'.heap.h_addr_start + VM_HEAP_MIN_SIZE ≤ m'.heap.h_addr_end
  start : m'.heap.h_addr_start = m.heap.h_addr_start
  hole : (a < m'.heap.h_addr_end ∧ HdrAt m'.mem ⟨a, m'.heap.h_addr_end - a, true⟩
      ∧ FtrAt m'.mem ⟨a, m'.heap.h_addr_end - a, true⟩ ∧ m'.heap.h_index.entries.count a = 1)
    ∨ (a = m'.heap.h_addr_end ∧ a ∉ m'.heap.h_index.entries)

theorem Kernel.contracts {regs : List Region} {live : List (Nat × Nat)} {m m' : Machine} {p : Nat}
    (k : Kernel regs live m) (hp : p ∈ live.map Prod.fst) (hsafe : FreeSafe p m)
    (hlast : freed_end (p - 12) m.mem = m.heap.h_addr_end) (h : JamesM.free p m = .ok m') :
    Contracted regs (freed_start (p - 12) m.mem) p m m' := by
  obtain ⟨pre, lefts, b, rights, post, rfl, hba, hblock, hlefts, hrights, htiled, k', hpres, -, -, hend, -⟩ :=
    k.free hp hsafe h
  obtain ⟨rfl, hfoot, -⟩ := hend hlast
  have hg : (⟨freed_start (p - 12) m.mem, freed_size (p - 12) m, true⟩ : Region)
      ∈ pre ++ [⟨freed_start (p - 12) m.mem, freed_size (p - 12) m, true⟩] := by simp
  have hb : b ∈ pre ++ lefts ++ b :: (rights ++ []) := by simp
  have hb1 := (k.heap.region_bounds hb).1
  have hlow := k.heap.bounds.low
  have hg3 := k'.heap.size _ hg
  have hgend := k'.heap.tiled.cut.2
  have hgend : freed_start (p - 12) m.mem + freed_size (p - 12) m = m'.heap.h_addr_end := hgend
  dsimp only at hg3
  have hsize : freed_size (p - 12) m = m'.heap.h_addr_end - freed_start (p - 12) m.mem := by omega
  have hhdr := k'.heap.head _ hg
  rw [hsize] at hhdr hfoot
  refine ⟨fun r hr hrb hne => ?_, k'.heap.bounds.end_aligned, k'.heap.bounds.min, hpres.start,
    .inl ⟨by omega, hhdr, hfoot, ?_⟩⟩
  · -- the other blocks come before the hole
    have hrpre : r ∈ pre := by
      simp only [List.mem_append, List.mem_cons, List.append_nil] at hr
      rcases hr with (hr | hr) | rfl | hr
      · exact hr
      · rw [hlefts r hr] at hrb
        exact absurd hrb (by decide)
      · exact absurd (show r.addr + 12 = p by omega) hne
      · rw [hrights r hr] at hrb
        exact absurd hrb (by decide)
    exact (k'.heap.region_bounds (List.mem_append_left _ hrpre)).2.1
  · exact List.count_eq_one_of_mem k'.heap.entries_nodup (k'.heap.mem_index.mpr ⟨_, hg, rfl, rfl⟩)

/-- **Contraction.**  In every state of a run whose steps are safe, and for every block that is held and
    whose joined hole ends the heap: if the footer below it tells the truth, and if the hole starts at
    least 20 bytes below the minimal length of the heap, the heap is well formed after the free. -/
theorem free_contracts {start : Nat} {s x : Session} (st : HeapStart start s)
    {tr : List (HeapOp × Session)} (run : Trace HeapStep s tr) (safe : Along HeapSafe s tr)
    (hx : Reached s tr x) :
    ∃ regs, Kernel regs x.live x.machine
      ∧ ∀ (p : Nat) (m' : Machine), p ∈ x.live.map Prod.fst → FreeSafe p x.machine →
        freed_end (p - 12) x.machine.mem = x.machine.heap.h_addr_end → free p x.machine = .ok m' →
        Contracted regs (freed_start (p - 12) x.machine.mem) p x.machine m' := by
  obtain ⟨regs, k⟩ := st.reached run safe hx
  exact ⟨regs, k, fun p m' hp hsafe hlast h => k.contracts hp hsafe hlast h⟩

/-- One block, freed again. -/
theorem free_contracts_one_block :
    ∃ (x : Session) (m' : Machine), x = after freshHeap [.alloc 100 false]
      ∧ free 0xC008100C x.machine = .ok m'
      ∧ ∃ regs, Contracted regs 0xC0081000 0xC008100C x.machine m' := by
  have run := trace_runOf freshHeap [.alloc 100 false] (by decide +kernel)
  have safe : Along HeapSafe freshHeap (runOf freshHeap [.alloc 100 false]) :=
    ⟨Guard.AllocOk.of_hit (j := 0) (by decide +kernel) (fun h => absurd h (by decide)), trivial⟩
  obtain ⟨m', h⟩ := exists_of_isOk
    (x := free 0xC008100C (after freshHeap [.alloc 100 false]).machine) (by decide +kernel)
  obtain ⟨regs, k, hall⟩ := free_contracts freshHeap_start run safe (reached_after _ _)
  have hfree : FreeSafe 0xC008100C (after freshHeap [.alloc 100 false]).machine := by
    refine ⟨fun h => ?_, fun _ => ?_⟩
    · exact absurd h (by decide +kernel)
    · decide +kernel
  have hc := hall 0xC008100C m' (by decide +kernel) hfree (by decide +kernel) h
  have ha : freed_start 0xC0081000 (after freshHeap [.alloc 100 false]).machine.mem = 0xC0081000 := by
    decide +kernel
  rw [show (0xC008100C : Nat) - 12 = 0xC0081000 from rfl, ha] at hc
  exact ⟨_, m', rfl, h, regs, hc⟩

/-- **The heap ends inside a block.**  A block of `0x71000` bytes, a small one after it, which is freed:
    `contract` takes the offset `0x71000` for `0x2000`, and settles on the minimal length. -/
theorem free_contracts_into_a_block :
    HeapStart 0xC0000000 freshHeap
      ∧ ∃ (x : Session) (m' : Machine), x = after freshHeap [.alloc 0x70FEC false, .alloc 1 false]
        ∧ Trace HeapStep freshHeap (runOf freshHeap [.alloc 0x70FEC false, .alloc 1 false])
        ∧ 0xC00F200C ∈ x.live.map Prod.fst
        ∧ freed_end 0xC00F2000 x.machine.mem = x.machine.heap.h_addr_end
        ∧ free 0xC00F200C x.machine = .ok m'
        ∧ ∃ regs, Kernel regs x.live x.machine ∧ TaggedAt regs x.machine
          ∧ ¬ Contracted regs (freed_start 0xC00F2000 x.machine.mem) 0xC00F200C x.machine m' := by
  have run := trace_runOf freshHeap [.alloc 0x70FEC false, .alloc 1 false] (by decide +kernel)
  have safe : Along HeapSafe freshHeap (runOf freshHeap [.alloc 0x70FEC false, .alloc 1 false]) :=
    ⟨Guard.AllocOk.of_hit (j := 0) (by decide +kernel) (fun h => absurd h (by decide)),
      Guard.AllocOk.of_hit (j := 0) (by decide +kernel) (fun h => absurd h (by decide)), trivial⟩
  obtain ⟨regs, k⟩ := freshHeap_start.reached run safe (reached_after _ _)
  obtain ⟨m', h⟩ := exists_of_isOk
    (x := free 0xC00F200C (after freshHeap [.alloc 0x70FEC false, .alloc 1 false]).machine) (by decide +kernel)
  have hend : (free 0xC00F200C (after freshHeap [.alloc 0x70FEC false, .alloc 1 false]).machine).map
      (fun m => m.heap.h_addr_end) = .ok 0xC00F1000 := by decide +kernel
  rw [h] at hend
  have hend : m'.heap.h_addr_end = 0xC00F1000 := Except.ok.inj hend
  refine ⟨freshHeap_start, _, m', rfl, run, by decide +kernel, by decide +kernel, h, regs, k,
    k.heap.taggedAt (by decide +kernel), fun hc => ?_⟩
  -- the large block is still held
  obtain ⟨r, hr, hrb, hra, hrs⟩ := k.block (0xC008100C, 0x70FEC) (by decide +kernel)
  dsimp only at hra hrs
  have := hc.blocks r hr hrb (by omega)
  omega

end JamesM
