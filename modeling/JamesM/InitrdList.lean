/-
  JamesM.InitrdList — do `vfs_readdir` and `vfs_finddir` show the same directory?

  The root and `/dev` share their two callbacks.  Both treat the root specially (its
  first entry is `dev`), and then go on with the files of the root whatever the node:
  `/dev` lists nothing at position 0 and all the files after that, and every file is
  found in it.

  Main result: `listing_and_lookup_agree`.
-/
import JamesM.Initrd

namespace JamesM

open JamesM.ByteMem JamesM.Word32

/-! ## §1. The entries of a directory. -/

/-- What `vfs_readdir(dir, index)` returns: NULL, or the name and the inode in `dirent`. -/
def listed (s : Initrd) (dir : NodePtr) (index : Nat) : Result (Option (List UInt8 × Nat)) := do
  let (node, s) ← vfs_readdir s dir index
  .ok (if node then some (printed s.dirent.name.bytes, s.dirent.inode) else none)

/-- `index` comes before the first NULL. -/
def BeforeNull (s : Initrd) (dir : NodePtr) (index : Nat) : Prop :=
  index < 4294967296 ∧ ∀ j, j ≤ index → ∃ e, listed s dir j = .ok (some e)

/-- Listing and lookup agree in `dir`. -/
structure DirAgrees (s : Initrd) (dir : NodePtr) : Prop where
  /-- What a call shows does not depend on the calls before it. -/
  steady : ∀ index d m, index < 4294967296 →
    listed { s with dirent := d, monitor := m } dir index = listed s dir index
  /-- A call changes `dirent` and prints. -/
  frame : ∀ index node s', index < 4294967296 → vfs_readdir s dir index = .ok (node, s') →
    ∃ d cs, s' = { s.wrote cs with dirent := d }
  /-- A name is found exactly when it is listed. -/
  found : ∀ str name, IsStr str name →
    ((∃ node, vfs_finddir s dir str = .ok (some node))
      ↔ ∃ index inode, BeforeNull s dir index ∧ listed s dir index = .ok (some (name, inode)))
  inode : ∀ str name node index inode, IsStr str name → vfs_finddir s dir str = .ok (some node) →
    BeforeNull s dir index → listed s dir index = .ok (some (name, inode)) →
    ∃ nd, s.deref node = .ok nd ∧ nd.inode = inode
  /-- After a NULL come only NULLs. -/
  stays : ∀ i j, i < j → j < 4294967296 → listed s dir i = .ok none → listed s dir j = .ok none

/-! ## §2. The callbacks on a mounted archive. -/

theorem init_initrd_dev_inode {mem : Mem} {addr fuel : Nat} {g : Garbage} {m : Monitor} {root : NodePtr} {s : Initrd}
    (h : init_initrd fuel mem addr g m = .ok (root, s)) : s.initrd_dev.inode = 0 := by
  unfold init_initrd at h
  rw [bind_ok_iff] at h
  obtain ⟨rootNode, -, h⟩ := h
  rw [bind_ok_iff] at h
  obtain ⟨devNode, hdev, h⟩ := h
  rw [bind_ok_iff] at h
  obtain ⟨⟨x, tfs⟩, -, h⟩ := h
  rw [bind_ok_iff] at h
  obtain ⟨nodes, -, h⟩ := h
  obtain ⟨-, hs⟩ := Prod.mk.inj (Except.ok.inj h)
  unfold init_directory at hdev
  rw [bind_ok_iff] at hdev
  obtain ⟨name, -, hnode⟩ := hdev
  rw [← hs, ← Except.ok.inj hnode]

variable {mem : Mem} {es : List TarEntry} {s : Initrd}

theorem Mounted.finddir (mt : Mounted mem es s) {dir : NodePtr} (hdir : dir = .initrd_root ∨ dir = .initrd_dev)
    (str : List UInt8) : vfs_finddir s dir str = initrd_finddir s dir str := by
  rcases hdir with rfl | rfl
  · simp only [vfs_finddir, Initrd.deref, ok_bind, mt.root.isdir, if_true, mt.root.finddir]
  · simp only [vfs_finddir, Initrd.deref, ok_bind, mt.dev.isdir, if_true, mt.dev.finddir]

/-- The search over the nodes fails when no file has the name. -/
theorem Mounted.finddir_from_none (mt : Mounted mem es s) {str name : List UInt8} (hstr : IsStr str name)
    (hnone : name ∉ es.map TarEntry.name) : ∀ n i, i + n = es.length →
      initrd_finddir_from s str n i = .ok none := by
  intro n
  induction n with
  | zero => intro i _; rfl
  | succ n ih =>
      intro i hi
      have hget : es[i]? = some (es[i]) := List.getElem?_eq_getElem (by omega)
      obtain ⟨nd, hnd, hfile⟩ := mt.deref_file hget
      obtain ⟨r, hr, hiff⟩ := strcmp_spec hstr hfile.name
      have hne : ¬ r = 0 := fun h => hnone (by
        rw [hiff.mp h]
        exact List.mem_map_of_mem (List.getElem_mem _))
      rw [initrd_finddir_from, hnd, ok_bind, hr, ok_bind, if_neg hne]
      exact ih (i + 1) (by omega)

/-- The files are looked up in every directory alike. -/
theorem Mounted.finddir_files (mt : Mounted mem es s) (dir : NodePtr)
    (hdir : dir = .initrd_root ∨ dir = .initrd_dev) {str name : List UInt8} (hstr : IsStr str name)
    (hdev : dir = .initrd_root → name ≠ devName) :
    (name ∉ es.map TarEntry.name → vfs_finddir s dir str = .ok none)
      ∧ ∀ k e, FirstNamed es name k e → vfs_finddir s dir str = .ok (some (.root_nodes k)) := by
  have hfiles : vfs_finddir s dir str = initrd_finddir_from s str es.length 0 := by
    rw [mt.finddir hdir, ← mt.count]
    unfold initrd_finddir
    rcases hdir with rfl | rfl
    · obtain ⟨r, hr, hiff⟩ := strcmp_spec hstr dev_literal_isStr
      have hne : ¬ r = 0 := fun h => hdev rfl (hiff.mp h)
      simp only [if_true, hr, ok_bind, hne, decide_false, Bool.false_eq_true, if_false]
    · simp only [reduceCtorEq, if_false, ok_bind, Bool.false_eq_true]
  rw [hfiles]
  exact ⟨fun hnone => mt.finddir_from_none hstr hnone _ 0 (by omega),
    fun k e hk => mt.finddir_from hstr hk _ 0 (by omega) (Nat.zero_le _)⟩

/-! ## §3. The listings. -/

/-- The entries of the root, by position. -/
theorem Mounted.listed_root (mt : Mounted mem es s) {index : Nat} (hindex : index < 4294967296) :
    listed s .initrd_root index
      = .ok (((devName, 0) :: es.mapIdx fun k e => (e.name, k))[index]?) := by
  have hsize := mt.size
  unfold listed
  cases index with
  | zero =>
      obtain ⟨d, hd, hstr, hinode⟩ := mt.readdir_dev
      rw [hd, ok_bind]
      dsimp only
      rw [if_pos rfl, printed_eq hstr, hinode]
      rfl
  | succ k =>
      rw [List.getElem?_cons_succ, List.getElem?_mapIdx]
      by_cases hk : k < es.length
      · have he : es[k]? = some es[k] := List.getElem?_eq_getElem hk
        obtain ⟨d, hd, hstr, hinode⟩ := mt.readdir_file _ (.inl rfl) he
        rw [hd, ok_bind, he]
        dsimp only
        rw [if_pos rfl, printed_eq hstr, hinode]
        rfl
      · have hnull := mt.readdir_null .initrd_root (.inl rfl) (k + 1)
          (fun _ => by omega) (by rw [sub32_of_le (by omega) (by omega)]; omega)
        rw [hnull, ok_bind, List.getElem?_eq_none (by omega)]
        rfl

/-- `/dev` starts with NULL. -/
theorem Mounted.listed_dev_zero (mt : Mounted mem es s) : listed s .initrd_dev 0 = .ok none := by
  have hsize := mt.size
  have hnull := mt.readdir_null .initrd_dev (.inr rfl) 0 (fun h => absurd h (by decide))
    (by
      unfold sub32
      omega)
  unfold listed
  rw [hnull, ok_bind]
  rfl

/-- A call of `vfs_readdir` changes `dirent` and prints, and looks at neither. -/
theorem Mounted.readdir_cases (mt : Mounted mem es s) {dir : NodePtr}
    (hdir : dir = .initrd_root ∨ dir = .initrd_dev) {index : Nat} (hindex : index < 4294967296) :
    vfs_readdir s dir index = .ok (false, s)
      ∨ ∃ d cs, vfs_readdir s dir index = .ok (true, { s.wrote cs with dirent := d }) := by
  have hsize := mt.size
  cases index with
  | zero =>
      rcases hdir with rfl | rfl
      · obtain ⟨d, hd, -⟩ := mt.readdir_dev
        exact .inr ⟨d, [], hd⟩
      · exact .inl (mt.readdir_null _ (.inr rfl) _ (fun h => absurd h (by decide)) (by
          unfold sub32
          omega))
  | succ k =>
      by_cases hk : k < es.length
      · obtain ⟨d, hd, -⟩ := mt.readdir_file _ hdir (List.getElem?_eq_getElem hk)
        exact .inr ⟨d, _, hd⟩
      · exact .inl (mt.readdir_null _ hdir _ (fun _ => by omega)
          (by rw [sub32_of_le (by omega) (by omega)]; omega))

/-- With distinct names, every file is the first one with its name. -/
theorem firstNamed_of_nodup (hnodup : (es.map TarEntry.name).Nodup) {k : Nat} {e : TarEntry}
    (he : es[k]? = some e) : FirstNamed es e.name k e := by
  refine ⟨he, rfl, fun j e' hj he' heq => ?_⟩
  obtain ⟨hk, rfl⟩ := List.getElem?_eq_some_iff.mp he
  obtain ⟨hj', rfl⟩ := List.getElem?_eq_some_iff.mp he'
  have hlen : (es.map TarEntry.name).length = es.length := List.length_map _
  have hnames : (es.map TarEntry.name)[j] = (es.map TarEntry.name)[k] := by
    rw [List.getElem_map, List.getElem_map]
    exact heq
  have hjk := hnodup.getElem_inj_iff.mp hnames
  omega

/-! ## §4. Agreement. -/

/-- The name of a listed file. -/
theorem listed_file {k : Nat} {name : List UInt8} {inode : Nat}
    (h : (es.mapIdx fun k e => (e.name, k))[k]? = some (name, inode)) :
    ∃ e, es[k]? = some e ∧ e.name = name ∧ inode = k := by
  rw [List.getElem?_mapIdx, Option.map_eq_some_iff] at h
  obtain ⟨e, he, hpair⟩ := h
  obtain ⟨h1, h2⟩ := Prod.mk.inj hpair
  exact ⟨e, he, h1, h2.symm⟩

/-- **The root.**  It shows `dev` and the files. -/
theorem Mounted.root_agrees (mt : Mounted mem es s) (hinode : s.initrd_dev.inode = 0)
    (hnodup : (es.map TarEntry.name).Nodup) (hdev : devName ∉ es.map TarEntry.name) :
    DirAgrees s .initrd_root := by
  have hsize := mt.size
  have hfile : ∀ (k : Nat) (e : TarEntry), es[k]? = some e → e.name ≠ devName := by
    intro k e he heq
    refine hdev (heq ▸ List.mem_map_of_mem ?_)
    obtain ⟨hk, rfl⟩ := List.getElem?_eq_some_iff.mp he
    exact List.getElem_mem hk
  refine ⟨fun index d m h => ?_, fun index node s' h hread => ?_, fun str name hstr => ⟨?_, ?_⟩, ?_,
    fun i j hij hj hnull => ?_⟩
  · rw [(mt.with_dirent d m).listed_root h, mt.listed_root h]
  · rcases mt.readdir_cases (.inl rfl) h with hnull | ⟨d, cs, hd⟩
    · rw [hnull] at hread
      exact ⟨s.dirent, [], (Prod.mk.inj (Except.ok.inj hread)).2.symm⟩
    · rw [hd] at hread
      exact ⟨d, cs, (Prod.mk.inj (Except.ok.inj hread)).2.symm⟩
  · rintro ⟨node, hnode⟩
    -- the entry that lists the name
    have hentry : ∃ index inode, index < es.length + 1
        ∧ ((devName, 0) :: es.mapIdx fun k e => (e.name, k))[index]? = some (name, inode) := by
      by_cases hname : name = devName
      · exact ⟨0, 0, by omega, by rw [hname]; rfl⟩
      · obtain ⟨hnone, -⟩ := mt.finddir_files _ (.inl rfl) hstr fun _ => hname
        by_cases hmem : name ∈ es.map TarEntry.name
        · obtain ⟨k, hk, hkname⟩ := List.getElem_of_mem hmem
          rw [List.length_map] at hk
          refine ⟨k + 1, k, by omega, ?_⟩
          rw [List.getElem?_cons_succ, List.getElem?_mapIdx, List.getElem?_eq_getElem hk, ← hkname,
            List.getElem_map]
          rfl
        · rw [hnone hmem] at hnode
          exact absurd hnode (by simp)
    obtain ⟨index, inode, hlt, hget⟩ := hentry
    refine ⟨index, inode, ⟨by omega, fun j hj => ?_⟩, by rw [mt.listed_root (by omega), hget]⟩
    rw [mt.listed_root (by omega), List.getElem?_eq_getElem (by simp; omega)]
    exact ⟨_, rfl⟩
  · rintro ⟨index, inode, ⟨hindex, -⟩, hlist⟩
    rw [mt.listed_root hindex] at hlist
    have hget := Except.ok.inj hlist
    cases index with
    | zero =>
        have hname : devName = name := (Prod.mk.inj (Option.some.inj hget)).1
        exact ⟨_, (mt.vfs_finddir_spec hstr).1 hname.symm⟩
    | succ k =>
        obtain ⟨e, he, rfl, -⟩ := listed_file hget
        exact ⟨_, (mt.finddir_files _ (.inl rfl) hstr fun _ => hfile k e he).2 k e
          (firstNamed_of_nodup hnodup he)⟩
  · intro str name node index inode hstr hnode hbefore hlist
    rw [mt.listed_root hbefore.1] at hlist
    have hget := Except.ok.inj hlist
    cases index with
    | zero =>
        obtain ⟨hname, hzero⟩ := Prod.mk.inj (Option.some.inj hget)
        rw [(mt.vfs_finddir_spec hstr).1 hname.symm] at hnode
        have hdevnode := Option.some.inj (Except.ok.inj hnode)
        exact ⟨s.initrd_dev, by rw [← hdevnode]; rfl, hinode.trans hzero⟩
    | succ k =>
        obtain ⟨e, he, rfl, rfl⟩ := listed_file hget
        rw [(mt.finddir_files _ (.inl rfl) hstr fun _ => hfile _ e he).2 _ e
          (firstNamed_of_nodup hnodup he)] at hnode
        have hnodek := Option.some.inj (Except.ok.inj hnode)
        obtain ⟨nd, hnd, hof⟩ := mt.deref_file he
        exact ⟨nd, by rw [← hnodek]; exact hnd, hof.inode⟩
  · rw [mt.listed_root (by omega)] at hnull
    rw [mt.listed_root hj]
    have hlen := List.getElem?_eq_none_iff.mp (Except.ok.inj hnull)
    rw [List.getElem?_eq_none (by omega)]

/-- `/dev` agrees with itself only when there is no file at all. -/
theorem Mounted.dev_agrees_iff (mt : Mounted mem es s) : DirAgrees s .initrd_dev ↔ es = [] := by
  constructor
  · intro h
    by_contra hne
    obtain ⟨e, es', rfl⟩ := List.exists_cons_of_ne_nil hne
    -- the first file is found in `/dev`, which lists nothing
    have hstr : IsStr (e.name ++ [0]) e.name := ⟨e.name_nul, [], rfl⟩
    obtain ⟨-, hfound⟩ := mt.finddir_files .initrd_dev (.inr rfl) hstr fun h => absurd h (by decide)
    have hfirst : FirstNamed (e :: es') e.name 0 e := ⟨rfl, rfl, fun j _ hj => absurd hj (Nat.not_lt_zero j)⟩
    obtain ⟨index, inode, ⟨-, hbefore⟩, -⟩ := (h.found _ _ hstr).mp ⟨_, hfound 0 e hfirst⟩
    obtain ⟨x, hx⟩ := hbefore 0 (Nat.zero_le _)
    rw [mt.listed_dev_zero] at hx
    exact absurd (Except.ok.inj hx) (by simp)
  · rintro rfl
    have hread : ∀ {s' : Initrd}, Mounted mem [] s' → ∀ index, vfs_readdir s' .initrd_dev index = .ok (false, s') :=
      fun mt' index => mt'.readdir_null _ (.inr rfl) _ (fun h => absurd h (by decide)) (Nat.zero_le _)
    have hnull : ∀ {s' : Initrd}, Mounted mem [] s' → ∀ index, listed s' .initrd_dev index = .ok none := by
      intro s' mt' index
      unfold listed
      rw [hread mt', ok_bind]
      rfl
    have hempty : ∀ index x, listed s .initrd_dev index ≠ .ok (some x) := by
      intro index x h
      rw [hnull mt] at h
      exact absurd (Except.ok.inj h) (by simp)
    refine ⟨fun index d m _ => ?_, fun index node s' _ h => ?_, fun str name hstr => ⟨?_, ?_⟩, ?_,
      fun i j _ _ _ => hnull mt j⟩
    · rw [hnull (mt.with_dirent d m), hnull mt]
    · rw [hread mt] at h
      exact ⟨s.dirent, [], (Prod.mk.inj (Except.ok.inj h)).2.symm⟩
    · rintro ⟨node, hnode⟩
      have hnone := (mt.finddir_files .initrd_dev (.inr rfl) hstr
        fun h => absurd h (by decide)).1 (by simp)
      rw [hnone] at hnode
      exact absurd hnode (by simp)
    · rintro ⟨index, inode, -, hlist⟩
      exact absurd hlist (hempty _ _)
    · intro _ _ _ index inode _ _ _ hlist
      exact absurd hlist (hempty _ _)

/-- **Listing and lookup.**  For every archive with distinct names, none of them `dev`: `init_initrd`
    returns, and whatever `dirent` holds and the screen shows, the listing of a directory agrees with the lookup
    in it, if and only if that directory is the root, or there is no file. -/
theorem listing_and_lookup_agree {addr fuel : Nat} (g : Garbage) (m : Monitor) (hfuel : es.length < fuel)
    (htar : TarRows mem addr es) (hfit : addr + tarLength es ≤ 4294967296)
    (hnodup : (es.map TarEntry.name).Nodup) (hdev : devName ∉ es.map TarEntry.name) :
    ∃ s, init_initrd fuel mem addr g m = .ok (.initrd_root, s)
      ∧ ∀ (d : Dirent) (m : Monitor) (dir : NodePtr), dir = .initrd_root ∨ dir = .initrd_dev →
        (DirAgrees { s with dirent := d, monitor := m } dir ↔ dir = .initrd_root ∨ es = []) := by
  obtain ⟨s, hinit, mt, -⟩ := init_initrd_rows g m hfuel htar hfit
  refine ⟨s, hinit, fun d m dir hdir => ?_⟩
  rcases hdir with rfl | rfl
  · have hinode : s.initrd_dev.inode = 0 := init_initrd_dev_inode hinit
    exact ⟨fun _ => .inl rfl, fun _ => (mt.with_dirent d m).root_agrees hinode hnodup hdev⟩
  · rw [(mt.with_dirent d m).dev_agrees_iff]
    exact ⟨.inr, fun h => h.resolve_left (by decide)⟩

/-- Files `a` and `y`. -/
def twoFiles : List TarEntry := [hiFile, ⟨[0x79], [], by decide, by decide, by decide⟩]

/-- The root of their archive. -/
theorem listing_and_lookup_agree_two_files :
    ∃ s, init_initrd 3 (tar_image 0x1000 twoFiles) 0x1000 zeroGarbage (Monitor.fresh (fun _ => 0) 0 0)
        = .ok (.initrd_root, s)
      ∧ DirAgrees s .initrd_root ∧ ¬ DirAgrees s .initrd_dev := by
  obtain ⟨s, hinit, hall⟩ := listing_and_lookup_agree zeroGarbage (Monitor.fresh (fun _ => 0) 0 0)
    (show twoFiles.length < 3 by decide) ((tar_image_tarAt 0x1000 twoFiles).rows twoFiles) (by decide) (by decide)
    (by decide)
  exact ⟨s, hinit, (hall s.dirent s.monitor .initrd_root (.inl rfl)).mpr (.inl rfl),
    fun h => absurd ((hall s.dirent s.monitor .initrd_dev (.inr rfl)).mp h) (by simp [twoFiles])⟩

/-- **`/dev`.**  The file `a` is found in `/dev`; the listing of `/dev` is empty, and goes on with that
    file behind its NULL. -/
theorem dev_finds_what_it_does_not_list :
    TarAt hiImage 0x1000 [hiFile]
      ∧ ∃ s, init_initrd 2 hiImage 0x1000 zeroGarbage (Monitor.fresh (fun _ => 0) 0 0) = .ok (.initrd_root, s)
        ∧ vfs_finddir s .initrd_dev [0x61, 0] = .ok (some (.root_nodes 0))
        ∧ listed s .initrd_dev 0 = .ok none ∧ listed s .initrd_dev 1 = .ok (some ([0x61], 0))
        ∧ ¬ DirAgrees s .initrd_dev := by
  obtain ⟨s, hinit, mt, -⟩ := init_initrd_mounted zeroGarbage (Monitor.fresh (fun _ => 0) 0 0)
    (show [hiFile].length < 2 by decide) hiImage_tarAt (by decide)
  have hstr : IsStr [0x61, 0] hiFile.name := ⟨by decide, [], rfl⟩
  obtain ⟨-, hfound⟩ := mt.finddir_files .initrd_dev (.inr rfl) hstr fun h => absurd h (by decide)
  obtain ⟨d, hd, hname, hinode⟩ := mt.readdir_file .initrd_dev (.inr rfl) (k := 0) (e := hiFile) rfl
  refine ⟨hiImage_tarAt, s, hinit, hfound 0 hiFile ⟨rfl, rfl, fun j _ hj => absurd hj (Nat.not_lt_zero j)⟩,
    mt.listed_dev_zero, ?_, fun h => absurd (mt.dev_agrees_iff.mp h) (by simp)⟩
  unfold listed
  rw [hd, ok_bind]
  dsimp only
  rw [if_pos rfl, printed_eq hname, hinode]
  rfl

end JamesM
