/-
  JamesM.InitrdWalk — the listing that `main.c` prints of the ramdisk.

  `vfs_print_content` walks the root with `vfs_readdir`, looks every name up again with
  `vfs_finddir` and reads what it finds, printing as it goes.  `initrd_readdir` prints a
  line of its own for every file.

  Main results:
    * `Mounted.print_content` — the listing and its text, from any position on;
    * `initrd_walk` — for every archive the listing shows `dev` and the files in order, and
      each name leads to the first file that has it.
-/
import JamesM.Initrd

namespace JamesM

open JamesM.ByteMem JamesM.Word32

/-! ## §1. The text of the listing. -/

/-- What is printed of data: the beginning, up to the first NUL. -/
def shownData (data : List UInt8) : List UInt8 := (data.take 1024).takeWhile (· ≠ 0)

/-- What is printed behind a name. -/
def contentsText (es : List TarEntry) (name : List UInt8) : List UInt8 :=
  if name = devName then bytes "\n\t(directory)\n"
  else bytes "\n\t contents:\n" ++
    (((es.find? fun e => e.name = name).map fun e => shownData e.data).getD [] ++ bytes "\n")

/-- The text of round `i`, on `name`. -/
def roundText (es : List TarEntry) (i : Nat) (name : List UInt8) : List UInt8 :=
  readdirText name i ++ (bytes "Found file " ++ name ++ contentsText es name)

/-- The text of the rounds from `i` on. -/
def listingFrom (es : List TarEntry) : Nat → List (List UInt8) → List UInt8
  | _, [] => []
  | i, name :: names => roundText es i name ++ listingFrom es (i + 1) names

/-- The text of the listing. -/
def listingText (es : List TarEntry) : List UInt8 := listingFrom es 0 (devName :: es.map TarEntry.name)

/-- The string in a buffer is what stands in front of its first NUL. -/
theorem isStr_takeWhile (d rest : List UInt8) : IsStr (d ++ 0 :: rest) (d.takeWhile (· ≠ 0)) := by
  induction d with
  | nil => exact ⟨by simp, rest, rfl⟩
  | cons b d ih =>
      by_cases hb : b = 0
      · subst hb
        exact ⟨by simp, d ++ 0 :: rest, rfl⟩
      · rw [List.takeWhile_cons_of_pos (by simpa using hb)]
        exact ih.cons hb

/-- The first file of a name is the one that is found by it. -/
theorem FirstNamed.find_eq {es : List TarEntry} {name : List UInt8} {i : Nat} {e : TarEntry}
    (h : FirstNamed es name i e) : (es.find? fun e => e.name = name) = some e := by
  obtain ⟨hi, hget⟩ := List.getElem?_eq_some_iff.mp h.get
  rw [List.find?_eq_some_iff_getElem]
  refine ⟨by simpa using h.name_eq, i, hi, hget, fun j hj => ?_⟩
  have hne := h.first j _ hj (List.getElem?_eq_getElem (by omega))
  simpa using hne

/-! ## §2. One round. -/

/-- What a round of the listing must show for its name. -/
structure Leads (es : List TarEntry) (l : Listed) : Prop where
  dev : l.name = devName → l.fsnode = .initrd_dev ∧ l.contents = none
  file : l.name ≠ devName → ∃ k e buf, FirstNamed es l.name k e ∧ l.fsnode = .root_nodes k
    ∧ l.contents = some (min 1024 e.data.length, buf)
    ∧ buf.bytes.take (min 1024 e.data.length) = e.data.take 1024

/-- The first bytes of the buffer survive the terminator that is stored behind them, and are what the buffer
    holds as a string. -/
theorem set_after {n : Nat} {buf : CharArray n} {l r : List UInt8} (h : buf.bytes = l ++ r)
    (hlt : l.length < n) :
    ∃ buf', buf.set l.length 0 = .ok buf' ∧ buf'.bytes.take l.length = l
      ∧ IsStr buf'.bytes (l.takeWhile (· ≠ 0)) := by
  have hlen := buf.length_eq
  have hr : r ≠ [] := by
    rintro rfl
    rw [h, List.append_nil] at hlen
    omega
  obtain ⟨b, r, rfl⟩ := List.exists_cons_of_ne_nil hr
  have hset : buf.bytes.set l.length 0 = l ++ 0 :: r := by
    rw [h, List.set_append_right _ _ (Nat.le_refl _), Nat.sub_self]
    rfl
  unfold CharArray.set
  rw [if_pos hlt]
  refine ⟨_, rfl, ?_, ?_⟩
  · dsimp only
    rw [hset]
    exact List.take_left' rfl
  · dsimp only
    rw [hset]
    exact isStr_takeWhile l r

theorem directory_prints : Prints (literal "\n\t(directory)\n", []) (bytes "\n\t(directory)\n") :=
  Prints.plain (by decide) []

theorem contents_prints : Prints (literal "\n\t contents:\n", []) (bytes "\n\t contents:\n") :=
  Prints.plain (by decide) []

theorem data_prints {str data : List UInt8} (h : IsStr str data) :
    Prints (literal "%s\n", [.chars str]) (data ++ bytes "\n") := by
  have hfmt : literal "%s\n" = [] ++ ch '%' :: ch 's' :: (bytes "\n" ++ [0]) := by decide
  rw [hfmt]
  exact Prints.one (by decide) (by decide) (.string [] h)

theorem name_prints {str name : List UInt8} (h : IsStr str name) :
    Prints (literal "Found file %s", [.chars str]) (bytes "Found file " ++ name) := by
  have hfmt : literal "Found file %s" = bytes "Found file " ++ ch '%' :: ch 's' :: ([] ++ [0]) := by decide
  have hprints := Prints.one (show Plain (bytes "Found file ") by decide) (show Plain [] by decide) (.string [] h)
  rw [List.append_nil] at hprints
  rw [hfmt]
  exact hprints

variable {mem : Mem} {es : List TarEntry} {s : Initrd}

/-- A file is read and printed. -/
theorem Mounted.print_file (mt : Mounted mem es s) {name : List UInt8} {k : Nat} {e : TarEntry}
    (hk : FirstNamed es name k e) (hname : name ≠ devName) (buf : CharArray 1025) :
    ∃ buf', print_entry mem s (.root_nodes k) buf
        = .ok (some (min 1024 e.data.length, buf'), s.wrote (contentsText es name))
      ∧ buf'.bytes.take (min 1024 e.data.length) = e.data.take 1024 := by
  obtain ⟨nd, hnd, hnode⟩ := mt.deref_file hk.get
  obtain ⟨buf₁, hread, hbytes⟩ := (mt.wrote (bytes "\n\t contents:\n")).vfs_read_spec hk buf 0 1024
    (Nat.zero_le _) (by decide) (by omega)
  rw [Nat.sub_zero] at hread hbytes
  rw [List.drop_zero] at hbytes
  have hlen : (e.data.take 1024).length = min 1024 e.data.length := List.length_take
  obtain ⟨buf₂, hset, htake, hstr⟩ := set_after hbytes (by omega)
  rw [hlen] at hset htake
  refine ⟨buf₂, ?_, htake⟩
  have hisdir : ¬ VFS_ISDIR nd = true := by
    unfold VFS_ISDIR
    rw [hnode.flags]
    decide
  rw [print_entry, hnd, ok_bind, if_neg hisdir, Initrd.printf_eq contents_prints, ok_bind, hread, ok_bind]
  dsimp only
  rw [hset, ok_bind, Initrd.printf_eq (data_prints hstr), ok_bind, Initrd.wrote_wrote, contentsText, if_neg hname,
    hk.find_eq, Option.map_some, Option.getD_some, shownData]

/-- One round on a name of the listing. -/
theorem Mounted.round (mt : Mounted mem es s) {name : List UInt8} (hmem : name ∈ devName :: es.map TarEntry.name)
    (hstr : IsStr s.dirent.name.bytes name) (buf : CharArray 1025) :
    ∃ fsnode contents, vfs_finddir s .initrd_root s.dirent.name.bytes = .ok (some fsnode)
      ∧ print_entry mem s fsnode buf = .ok (contents, s.wrote (contentsText es name))
      ∧ Leads es ⟨name, fsnode, contents⟩ := by
  obtain ⟨hdev, hfile⟩ := mt.vfs_finddir_spec hstr
  by_cases hname : name = devName
  · refine ⟨.initrd_dev, none, hdev hname, ?_, fun _ => ⟨rfl, rfl⟩, fun h => absurd hname h⟩
    rw [print_entry, Initrd.deref, ok_bind, if_pos mt.dev.isdir, Initrd.printf_eq directory_prints, ok_bind,
      contentsText, if_pos hname]
  · -- a name other than `dev` is the name of a file
    have hex : ∃ e ∈ es, e.name = name := by
      rcases List.mem_cons.mp hmem with h | h
      · exact absurd h hname
      · exact List.mem_map.mp h
    obtain ⟨k, e, hk⟩ := exists_firstNamed es hex
    obtain ⟨buf', hprint, htake⟩ := mt.print_file hk hname buf
    exact ⟨.root_nodes k, _, hfile k e hname hk, hprint, fun h => absurd h hname,
      fun _ => ⟨k, e, buf', hk, rfl, rfl, htake⟩⟩

/-! ## §3. The listing. -/

/-- **The listing** from position `i` on: the names from there on, each leading to its node, and their text on
    the screen. -/
theorem Mounted.print_content (stack : Nat → CharArray 1025) :
    ∀ (n fuel i : Nat) (s : Initrd), Mounted mem es s → i + n = es.length + 1 → n < fuel →
      ∃ ls d, print_content_from mem .initrd_root stack fuel i s
          = .ok (ls, { s.wrote (listingFrom es i ((devName :: es.map TarEntry.name).drop i)) with dirent := d })
        ∧ ls.map Listed.name = (devName :: es.map TarEntry.name).drop i
        ∧ ∀ l ∈ ls, Leads es l := by
  intro n
  induction n with
  | zero =>
      intro fuel i s mt hi hfuel
      obtain ⟨f, rfl⟩ := Nat.exists_eq_succ_of_ne_zero (Nat.ne_of_gt hfuel)
      have hend := (mt.vfs_readdir_spec i (by omega)).2 (by omega)
      have hdrop : (devName :: es.map TarEntry.name).drop i = [] :=
        List.drop_of_length_le (by rw [List.length_cons, List.length_map]; omega)
      refine ⟨[], s.dirent, ?_, by rw [hdrop]; rfl, by simp⟩
      rw [print_content_from, hend, ok_bind, hdrop]
      rfl
  | succ n ih =>
      intro fuel i s mt hi hfuel
      obtain ⟨f, rfl⟩ := Nat.exists_eq_succ_of_ne_zero (Nat.ne_of_gt (Nat.zero_lt_of_lt hfuel))
      have hlt : i < (devName :: es.map TarEntry.name).length := by
        rw [List.length_cons, List.length_map]
        omega
      have hdrop := (List.cons_getElem_drop_succ (h := hlt)).symm
      have hmem := List.getElem_mem hlt
      obtain ⟨d, hread, hstr⟩ := (mt.vfs_readdir_spec i (by omega)).1 _ (List.getElem?_eq_getElem hlt)
      generalize (devName :: es.map TarEntry.name)[i] = name at hdrop hmem hread hstr
      have hprint := Initrd.printf_eq (name_prints hstr) { s.wrote (readdirText name i) with dirent := d }
      have mt' := (mt.with_dirent d (mon_putchars (readdirText name i) s.monitor)).wrote (bytes "Found file " ++ name)
      obtain ⟨fsnode, contents, hfind, hcont, hleads⟩ := mt'.round hmem hstr (stack i)
      obtain ⟨ls, d', hls, hnames, hall⟩ := ih f (i + 1) _ (mt'.wrote (contentsText es name)) (by omega) (by omega)
      refine ⟨⟨printed d.name.bytes, fsnode, contents⟩ :: ls, d', ?_, ?_, ?_⟩
      · rw [print_content_from, hread, ok_bind]
        dsimp only
        rw [if_pos rfl, hprint, ok_bind]
        dsimp only [Initrd.wrote] at hfind hcont hls ⊢
        rw [hfind, ok_bind]
        dsimp only
        rw [hcont, ok_bind]
        dsimp only
        rw [hls, ok_bind, hdrop, listingFrom, roundText]
        simp only [mon_putchars_append]
      · rw [List.map_cons, hnames, hdrop]
        dsimp only
        rw [printed_eq hstr]
      · intro l hl
        rcases List.mem_cons.mp hl with rfl | hl
        · rw [printed_eq hstr]
          exact hleads
        · exact hall l hl

/-- **The walk, end to end.**  For every archive that fits the address space: `init_initrd` returns,
    `vfs_print_content` lists `dev` and then the files in order and stops, and for every name listed
    `vfs_finddir` finds a node: the device directory for `dev`, else the node of the first file with
    that name, whose length is the file's; and `vfs_read` of up to 1024 bytes returns and stores
    exactly the beginning of that file's data. -/
theorem initrd_walk {addr : Nat} (fuel : Nat) (g : Garbage) (m : Monitor)
    (stack : Nat → CharArray 1025) (hfuel : es.length + 1 < fuel) (htar : TarAt mem addr es)
    (hfit : addr + tarLength es ≤ 4294967296) :
    ∃ s ls s', init_initrd fuel mem addr g m = .ok (.initrd_root, s)
      ∧ vfs_print_content fuel mem .initrd_root stack s = .ok (ls, s')
      ∧ ls.length = es.length + 1
      ∧ ls.map Listed.name = devName :: es.map TarEntry.name
      ∧ (∀ l ∈ ls, ∀ str, IsStr str l.name →
          vfs_finddir s .initrd_root str = .ok (some l.fsnode))
      ∧ (∀ l ∈ ls, l.name = devName → l.fsnode = .initrd_dev)
      ∧ ∀ l ∈ ls, l.name ≠ devName → ∃ k e nd, FirstNamed es l.name k e ∧ l.fsnode = .root_nodes k
          ∧ s.deref l.fsnode = .ok nd ∧ nd.length = e.data.length
          ∧ (∃ buf, l.contents = some (min 1024 e.data.length, buf)
            ∧ buf.bytes.take (min 1024 e.data.length) = e.data.take 1024)
          ∧ ∀ buf : CharArray 1025, ∃ buf', vfs_read mem s l.fsnode 0 1024 buf
              = .ok (min 1024 e.data.length, buf')
            ∧ min 1024 e.data.length ≤ 1024
            ∧ buf'.bytes = e.data.take 1024 ++ buf.bytes.drop (min 1024 e.data.length) := by
  obtain ⟨s, hinit, mt, -⟩ := init_initrd_mounted g m (show es.length < fuel by omega) htar hfit
  obtain ⟨ls, d, hls, hnames, hleads⟩ :=
    Mounted.print_content stack (es.length + 1) fuel 0 s mt (by omega) hfuel
  rw [List.drop_zero] at hnames
  refine ⟨s, ls, _, hinit, hls, ?_, hnames, fun l hl str hstr => ?_,
    fun l hl h => ((hleads l hl).dev h).1, fun l hl h => ?_⟩
  · have := congrArg List.length hnames
    simpa using this
  · obtain ⟨hdev, hfile⟩ := mt.vfs_finddir_spec hstr
    by_cases hname : l.name = devName
    · rw [((hleads l hl).dev hname).1]
      exact hdev hname
    · obtain ⟨k, e, -, hk, hnode, -⟩ := (hleads l hl).file hname
      rw [hnode]
      exact hfile k e hname hk
  · obtain ⟨k, e, buf, hk, hnode, hcont, htake⟩ := (hleads l hl).file h
    obtain ⟨nd, hnd, hfile⟩ := mt.deref_file hk.get
    refine ⟨k, e, nd, hk, hnode, by rw [hnode]; exact hnd, hfile.length, ⟨buf, hcont, htake⟩,
      fun buf => ?_⟩
    obtain ⟨buf', hread, hbytes⟩ :=
      mt.vfs_read_spec hk buf 0 1024 (Nat.zero_le _) (by decide) (by omega)
    rw [Nat.sub_zero] at hread hbytes
    exact ⟨buf', by rw [hnode]; exact hread, by omega, hbytes⟩

/-- What is printed of the archive with the one file `a`. -/
example : listingText [hiFile] = bytes "Found file dev\n\t(directory)\n"
    ++ bytes "found a for index=1\nFound file a\n\t contents:\nhi\n" := by decide

/-- Files `dev`, `a` and `a` again. -/
def walkFiles : List TarEntry :=
  [⟨devName, [0x78], by decide, by decide, by decide⟩, hiFile, { hiFile with data := [0x68, 0x6F] }]

/-- The first file `a` is the second one. -/
theorem firstNamed_walkFiles {k : Nat} {e : TarEntry} (h : FirstNamed walkFiles [0x61] k e) : k = 1 ∧ e = hiFile := by
  match k, h with
  | 0, h =>
      have he : (⟨devName, [0x78], by decide, by decide, by decide⟩ : TarEntry) = e := Option.some.inj h.get
      have hname := h.name_eq
      rw [← he] at hname
      exact absurd hname (by decide)
  | 1, h => exact ⟨rfl, (Option.some.inj h.get).symm⟩
  | k + 2, h => exact absurd rfl (h.first 1 hiFile (by omega) rfl)

/-- The walk over their archive: both `a` lead to the first one. -/
theorem initrd_walk_duplicates :
    ∃ s ls s', init_initrd 5 (tar_image 0x1000 walkFiles) 0x1000 zeroGarbage (Monitor.fresh (fun _ => 0) 0 0)
        = .ok (.initrd_root, s)
      ∧ vfs_print_content 5 (tar_image 0x1000 walkFiles) .initrd_root (fun _ => .zero 1025) s = .ok (ls, s')
      ∧ ls.map Listed.name = [devName, devName, [0x61], [0x61]]
      ∧ (∀ l ∈ ls, l.name = devName → l.fsnode = .initrd_dev)
      ∧ ∀ l ∈ ls, l.name = [0x61] → l.fsnode = .root_nodes 1
        ∧ ∃ buf, l.contents = some (2, buf) ∧ buf.bytes.take 2 = [0x68, 0x69] := by
  obtain ⟨s, ls, s', h1, h2, -, h4, -, h6, h7⟩ := initrd_walk 5 zeroGarbage (Monitor.fresh (fun _ => 0) 0 0)
    (fun _ => .zero 1025) (by decide) (tar_image_tarAt 0x1000 walkFiles) (by decide)
  refine ⟨s, ls, s', h1, h2, h4, h6, fun l hl hname => ?_⟩
  obtain ⟨k, e, nd, hk, hnode, -, -, ⟨buf, hc, htake⟩, -⟩ := h7 l hl (by rw [hname]; decide)
  rw [hname] at hk
  obtain ⟨rfl, rfl⟩ := firstNamed_walkFiles hk
  exact ⟨hnode, buf, hc, htake⟩

end JamesM
