/-
  JamesM.Initrd — the initial ramdisk (`initrd.c`), the calls of the virtual file
  system on it (`vfs.c`), and the listing that `main.c` prints.

  A `struct vfs_node *` is one of the pointers the ramdisk hands out, and a function
  pointer is the name of the function.  Nodes and records are values: `kmalloc`
  returns fresh memory, so no two of them overlap.  What such memory holds before it
  is written is a parameter.  The screen goes along with the static variables, for
  `initrd_readdir` and the listing print as they go.

  Three searches by name have to agree: `initrd_finddir` over the nodes,
  `initrd_read` over the archive, and the positions `initrd_readdir` counts.

  Main results:
    * `init_initrd_rows` — every archive is mounted;
    * `Mounted.vfs_finddir_spec`, `Mounted.vfs_read_spec`, `Mounted.vfs_readdir_spec` — the
      searches on a mounted archive.
-/
import JamesM.Tar
import JamesM.Printf

namespace JamesM

open JamesM.ByteMem JamesM.Word32

/-! ## §1. Nodes. -/

def VFS_FILE : Nat := 0x01
def VFS_DIRECTORY : Nat := 0x02

/-- A `struct vfs_node *`: `initrd_root`, `initrd_dev` or `&root_nodes[i]`. -/
inductive NodePtr where
  | initrd_root
  | initrd_dev
  | root_nodes (i : Nat)
  deriving DecidableEq, Repr

/-- The functions a node's `read` can point to. -/
inductive ReadFn where
  | initrd_read

/-- The functions a node's `readdir` can point to. -/
inductive ReaddirFn where
  | initrd_readdir

/-- The functions a node's `finddir` can point to. -/
inductive FinddirFn where
  | initrd_finddir

/-- `struct vfs_node`. -/
structure VfsNode where
  name : CharArray 256
  flags : Nat
  inode : Nat
  length : Nat
  read : Option ReadFn
  readdir : Option ReaddirFn
  finddir : Option FinddirFn

/-- `VFS_ISDIR(node)`. -/
def VFS_ISDIR (node : VfsNode) : Bool := decide (node.flags &&& 0x7 = VFS_DIRECTORY)

/-- `struct dirent`. -/
structure Dirent where
  name : CharArray 128
  inode : Nat

/-- The static variables of `initrd.c`, and the screen. -/
structure Initrd where
  tar_files : List TarFile
  initrd_root : VfsNode
  initrd_dev : VfsNode
  root_nodes : List VfsNode
  nroot_nodes : Nat
  dirent : Dirent
  monitor : Monitor

/-- Following a node pointer. -/
def Initrd.deref (s : Initrd) : NodePtr → Result VfsNode
  | .initrd_root => .ok s.initrd_root
  | .initrd_dev => .ok s.initrd_dev
  | .root_nodes i =>
      match s.root_nodes[i]? with
      | some node => .ok node
      | none => .error .fault

/-- `(void)printf(fmt, ...)`. -/
def Initrd.printf (fmt : List UInt8) (ap : List VaArg) (s : Initrd) : Result Initrd := do
  let (_, m) ← JamesM.printf fmt ap s.monitor
  .ok { s with monitor := m }

/-! ## §2. The callbacks. -/

/-- The string literal `"dev"`. -/
def dev_literal : List UInt8 := [0x64, 0x65, 0x76, 0x00]

/-- The string literal `"initrd"`. -/
def initrd_literal : List UInt8 := [0x69, 0x6E, 0x69, 0x74, 0x72, 0x64, 0x00]

/-- `do { if (strcmp(tf->tf_filename, node->name) == 0) break; }
    while (tf = TAILQ_NEXT(tf, entries));`. -/
def initrd_search (name : List UInt8) : TarFile → List TarFile → Result (Option TarFile)
  | tf, [] => do
      let r ← strcmp tf.tf_filename.bytes name
      .ok (if r = 0 then some tf else none)
  | tf, next :: rest => do
      let r ← strcmp tf.tf_filename.bytes name
      if r = 0 then .ok (some tf) else initrd_search name next rest

/-- `initrd_read(node, offset, size, buffer)`: the length returned, and the buffer. -/
def initrd_read {n : Nat} (mem : Mem) (s : Initrd) (node : NodePtr) (offset size : Nat)
    (buffer : CharArray n) : Result (Nat × CharArray n) := do
  let nd ← s.deref node
  let tf ← match s.tar_files with
    | [] => .error .fault
    | first :: rest => initrd_search nd.name.bytes first rest
  match tf with
  | none => .ok (0, buffer)
  | some tf =>
      if offset > tf.tf_datasiz then .ok (0, buffer)
      else do
        let size := if add32 offset size > tf.tf_datasiz then sub32 tf.tf_datasiz offset else size
        let buffer ← buffer.memcpy (mem_bytes mem (add32 tf.tf_data offset) size) size
        .ok (size, buffer)

/-- `initrd_readdir(node, index)`: whether `&dirent` is returned and not NULL. -/
def initrd_readdir (s : Initrd) (node : NodePtr) (index : Nat) : Result (Bool × Initrd) :=
  if node = .initrd_root ∧ index = 0 then do
    let name ← s.dirent.name.memcpy dev_literal 4
    let name ← name.set 3 0
    .ok (true, { s with dirent := { name := name, inode := 0 } })
  else if sub32 index 1 ≥ s.nroot_nodes then .ok (false, s)
  else do
    let nd ← s.deref (.root_nodes (sub32 index 1))
    let s ← s.printf (literal "found %s for index=%d\n") [.chars nd.name.bytes, .word (UInt32.ofNat index)]
    let len ← strlen nd.name.bytes
    let name ← s.dirent.name.memcpy nd.name.bytes (len + 1)
    let name ← name.set len 0
    .ok (true, { s with dirent := { name := name, inode := nd.inode } })

/-- The loop of `initrd_finddir` over the `n` nodes from `i` on. -/
def initrd_finddir_from (s : Initrd) (name : List UInt8) : Nat → Nat → Result (Option NodePtr)
  | 0, _ => .ok none
  | n + 1, i => do
      let nd ← s.deref (.root_nodes i)
      let r ← strcmp name nd.name.bytes
      if r = 0 then .ok (some (.root_nodes i)) else initrd_finddir_from s name n (i + 1)

/-- `initrd_finddir(node, name)`. -/
def initrd_finddir (s : Initrd) (node : NodePtr) (name : List UInt8) : Result (Option NodePtr) := do
  let dev ← if node = .initrd_root then do
      let r ← strcmp name dev_literal
      .ok (decide (r = 0))
    else .ok false
  if dev then .ok (some .initrd_dev) else initrd_finddir_from s name s.nroot_nodes 0

/-! ## §3. The calls of `vfs.c`. -/

/-- `vfs_read(node, offset, size, buf)`. -/
def vfs_read {n : Nat} (mem : Mem) (s : Initrd) (node : NodePtr) (offset size : Nat)
    (buf : CharArray n) : Result (Nat × CharArray n) := do
  let nd ← s.deref node
  match nd.read with
  | some .initrd_read => initrd_read mem s node offset size buf
  | none => .ok (0, buf)

/-- `vfs_readdir(node, index)`. -/
def vfs_readdir (s : Initrd) (node : NodePtr) (index : Nat) : Result (Bool × Initrd) := do
  let nd ← s.deref node
  if VFS_ISDIR nd then
    match nd.readdir with
    | some .initrd_readdir => initrd_readdir s node index
    | none => .ok (false, s)
  else .ok (false, s)

/-- `vfs_finddir(node, name)`. -/
def vfs_finddir (s : Initrd) (node : NodePtr) (name : List UInt8) : Result (Option NodePtr) := do
  let nd ← s.deref node
  if VFS_ISDIR nd then
    match nd.finddir with
    | some .initrd_finddir => initrd_finddir s node name
    | none => .ok none
  else .ok none

/-! ## §4. `init_initrd` and `vfs_print_content`. -/

/-- What fresh memory holds: the nodes and the static `dirent` before they are written. -/
structure Garbage where
  node : NodePtr → VfsNode
  dirent : Dirent

/-- The common part of the two directory nodes; `len` counts the terminator of the name. -/
def init_directory (node : VfsNode) (name : List UInt8) (len : Nat) : Result VfsNode := do
  let name ← node.name.memcpy name len
  .ok { name := name, inode := 0, length := 0, flags := VFS_DIRECTORY, read := none
        readdir := some .initrd_readdir, finddir := some .initrd_finddir }

/-- The node of the `i`-th file. -/
def init_file (node : VfsNode) (i : Nat) (tf : TarFile) : Result VfsNode := do
  let len ← strlen tf.tf_filename.bytes
  let name ← node.name.memcpy tf.tf_filename.bytes (len + 1)
  .ok { name := name, length := tf.tf_datasiz, inode := i, flags := VFS_FILE
        read := some .initrd_read, readdir := none, finddir := none }

/-- `TAILQ_FOREACH(tf, tar_files, entries)`: one node for each file, from position `i` on. -/
def init_files (g : Garbage) : Nat → List TarFile → Result (List VfsNode)
  | _, [] => .ok []
  | i, tf :: rest => do
      let node ← init_file (g.node (.root_nodes i)) i tf
      let nodes ← init_files g (i + 1) rest
      .ok (node :: nodes)

/-- `init_initrd(addr)`: the root node, and the static variables beside the screen `m`. -/
def init_initrd (fuel : Nat) (mem : Mem) (addr : Nat) (g : Garbage) (m : Monitor) : Result (NodePtr × Initrd) := do
  let root ← init_directory (g.node .initrd_root) initrd_literal 7
  let dev ← init_directory (g.node .initrd_dev) dev_literal 4
  let (x, tar_files) ← tar_parse_mem fuel mem addr
  let root_nodes ← init_files g 0 tar_files
  .ok (.initrd_root,
    { tar_files := tar_files, initrd_root := root, initrd_dev := dev, root_nodes := root_nodes
      nroot_nodes := x, dirent := g.dirent, monitor := m })

/-- One round of the listing: the name printed, the node it was looked up to, and for a file what
    `vfs_read` returned and the buffer that is printed. -/
structure Listed where
  name : List UInt8
  fsnode : NodePtr
  contents : Option (Nat × CharArray 1025)

/-- `if (VFS_ISDIR(fsnode)) ... else ...`: nothing is read for a directory; for a file, up to 1024
    bytes go to `buf`, and a terminator behind them. -/
def print_entry (mem : Mem) (s : Initrd) (fsnode : NodePtr) (buf : CharArray 1025) :
    Result (Option (Nat × CharArray 1025) × Initrd) := do
  let nd ← s.deref fsnode
  if VFS_ISDIR nd then do
    let s ← s.printf (literal "\n\t(directory)\n") []
    .ok (none, s)
  else do
    let s ← s.printf (literal "\n\t contents:\n") []
    let (sz, buf) ← vfs_read mem s fsnode 0 1024 buf
    let buf ← buf.set sz 0
    let s ← s.printf (literal "%s\n") [.chars buf.bytes]
    .ok (some (sz, buf), s)

/-- The loop of `vfs_print_content` from position `i` on; `stack i` is what `buf` holds at the start of
    a round. -/
def print_content_from (mem : Mem) (vfs_root : NodePtr) (stack : Nat → CharArray 1025) :
    Nat → Nat → Initrd → Result (List Listed × Initrd)
  | 0, _, _ => .error .fuel
  | fuel + 1, i, s => do
      let (node, s) ← vfs_readdir s vfs_root i
      if node then do
        let s ← s.printf (literal "Found file %s") [.chars s.dirent.name.bytes]
        let fsnode ← vfs_finddir s vfs_root s.dirent.name.bytes
        match fsnode with
        | none => .error .fault
        | some fsnode => do
            let (contents, s) ← print_entry mem s fsnode (stack i)
            let l : Listed := ⟨printed s.dirent.name.bytes, fsnode, contents⟩
            let (rest, s) ← print_content_from mem vfs_root stack fuel (i + 1) s
            .ok (l :: rest, s)
      else .ok ([], s)

/-- `vfs_print_content()`: what was listed, and the state with the screen. -/
def vfs_print_content (fuel : Nat) (mem : Mem) (vfs_root : NodePtr) (stack : Nat → CharArray 1025)
    (s : Initrd) : Result (List Listed × Initrd) :=
  print_content_from mem vfs_root stack fuel 0 s

/-! ## §5. The mounted archive. -/

/-- The name `dev`. -/
def devName : List UInt8 := [0x64, 0x65, 0x76]

theorem dev_literal_isStr : IsStr dev_literal devName := ⟨by decide, [], rfl⟩

/-- `e` is the first file called `name`, at position `k`. -/
structure FirstNamed (es : List TarEntry) (name : List UInt8) (k : Nat) (e : TarEntry) : Prop where
  get : es[k]? = some e
  name_eq : e.name = name
  first : ∀ j e', j < k → es[j]? = some e' → e'.name ≠ name

theorem FirstNamed.cons {es : List TarEntry} {name : List UInt8} {k : Nat} {e e' : TarEntry}
    (h : FirstNamed es name k e') (hne : e.name ≠ name) : FirstNamed (e :: es) name (k + 1) e' := by
  refine ⟨h.get, h.name_eq, fun j d hj hd => ?_⟩
  cases j with
  | zero =>
      simp only [List.getElem?_cons_zero, Option.some.injEq] at hd
      rw [← hd]
      exact hne
  | succ j => exact h.first j d (by omega) hd

/-- A name that occurs occurs first somewhere. -/
theorem exists_firstNamed (es : List TarEntry) {name : List UInt8} (h : ∃ e ∈ es, e.name = name) :
    ∃ k e, FirstNamed es name k e := by
  induction es with
  | nil =>
      obtain ⟨e, he, -⟩ := h
      exact absurd he (by simp)
  | cons d es ih =>
      by_cases hd : d.name = name
      · exact ⟨0, d, rfl, hd, fun j _ hj => absurd hj (Nat.not_lt_zero j)⟩
      · obtain ⟨e, he, hen⟩ := h
        rcases List.mem_cons.mp he with rfl | he
        · exact absurd hen hd
        · obtain ⟨k, e', hk⟩ := ih ⟨e, he, hen⟩
          exact ⟨k + 1, e', hk.cons hd⟩

/-- The node of file `e` at position `i`. -/
structure IsFileNode (i : Nat) (e : TarEntry) (nd : VfsNode) : Prop where
  name : IsStr nd.name.bytes e.name
  length : nd.length = e.data.length
  inode : nd.inode = i
  flags : nd.flags = VFS_FILE
  read : nd.read = some .initrd_read

/-- The callbacks of a directory node. -/
structure IsDirectory (nd : VfsNode) : Prop where
  flags : nd.flags = VFS_DIRECTORY
  readdir : nd.readdir = some .initrd_readdir
  finddir : nd.finddir = some .initrd_finddir

/-- The ramdisk holds the archive `es`. -/
structure Mounted (mem : Mem) (es : List TarEntry) (s : Initrd) : Prop where
  size : es.length < 4294967295
  root : IsDirectory s.initrd_root
  dev : IsDirectory s.initrd_dev
  files : List.Forall₂ (Describes mem) es s.tar_files
  count : s.nroot_nodes = es.length
  nodes : ∀ i e, es[i]? = some e → ∃ nd, s.root_nodes[i]? = some nd ∧ IsFileNode i e nd

theorem IsDirectory.isdir {nd : VfsNode} (h : IsDirectory nd) : VFS_ISDIR nd = true := by
  unfold VFS_ISDIR
  rw [h.flags]
  rfl

theorem init_directory_spec (node : VfsNode) {lit name : List UInt8} (h : IsStr lit name)
    (hn : name.length < 256) :
    ∃ nd, init_directory node lit (name.length + 1) = .ok nd ∧ IsDirectory nd := by
  obtain ⟨d, hd, -⟩ := memcpy_str node.name h hn
  unfold init_directory
  rw [hd, ok_bind]
  exact ⟨_, rfl, ⟨rfl, rfl, rfl⟩⟩

theorem init_file_spec {mem : Mem} {e : TarEntry} {tf : TarFile} (node : VfsNode) (i : Nat)
    (h : Describes mem e tf) : ∃ nd, init_file node i tf = .ok nd ∧ IsFileNode i e nd := by
  have hle := e.name_le
  obtain ⟨d, hd, hstr⟩ := memcpy_str node.name h.name (by omega)
  unfold init_file
  rw [strlen_eq h.name, ok_bind, hd, ok_bind]
  exact ⟨_, rfl, ⟨hstr, h.size, rfl, rfl, rfl⟩⟩

theorem init_files_spec {mem : Mem} (g : Garbage) {es : List TarEntry} {tfs : List TarFile}
    (h : List.Forall₂ (Describes mem) es tfs) : ∀ i,
    ∃ nodes, init_files g i tfs = .ok nodes
      ∧ ∀ k e, es[k]? = some e → ∃ nd, nodes[k]? = some nd ∧ IsFileNode (i + k) e nd := by
  induction h with
  | nil => exact fun i => ⟨[], rfl, fun k e he => absurd he (by simp)⟩
  | cons hd hrest ih =>
      intro i
      obtain ⟨nd, hnd, hfile⟩ := init_file_spec (g.node (.root_nodes i)) i hd
      obtain ⟨nodes, hnodes, hall⟩ := ih (i + 1)
      refine ⟨nd :: nodes, by simp only [init_files, hnd, hnodes, ok_bind], fun k e' he' => ?_⟩
      cases k with
      | zero =>
          simp only [List.getElem?_cons_zero, Option.some.injEq] at he'
          rw [← he']
          exact ⟨nd, rfl, hfile⟩
      | succ k =>
          obtain ⟨nd', h1, h2⟩ := hall k e' he'
          refine ⟨nd', h1, ?_⟩
          rw [show i + (k + 1) = i + 1 + k by omega]
          exact h2

theorem length_le_tarLength (es : List TarEntry) : 512 * (es.length + 1) ≤ tarLength es := by
  induction es with
  | nil => exact Nat.le_refl _
  | cons e es ih =>
      rw [tarLength, List.length_cons]
      omega

/-- **Mounting.**  `init_initrd` on an archive. -/
theorem init_initrd_rows {mem : Mem} {addr fuel : Nat} {es : List TarEntry} (g : Garbage) (m : Monitor)
    (hfuel : es.length < fuel) (htar : TarRows mem addr es)
    (hfit : addr + tarLength es ≤ 4294967296) :
    ∃ s, init_initrd fuel mem addr g m = .ok (.initrd_root, s) ∧ Mounted mem es s ∧ s.monitor = m := by
  obtain ⟨root, hroot, hrdir⟩ := init_directory_spec (g.node .initrd_root)
    (show IsStr initrd_literal [0x69, 0x6E, 0x69, 0x74, 0x72, 0x64] from ⟨by decide, [], rfl⟩)
    (by decide)
  obtain ⟨dev, hdev, hddir⟩ := init_directory_spec (g.node .initrd_dev) dev_literal_isStr (by decide)
  obtain ⟨tfs, hparse, hall⟩ := tar_parse_rows hfuel htar hfit
  obtain ⟨nodes, hnodes, hn⟩ := init_files_spec g hall 0
  have hlen := length_le_tarLength es
  simp only [List.length_cons, List.length_nil, Nat.reduceAdd, devName] at hroot hdev
  unfold init_initrd
  rw [hroot, ok_bind, hdev, ok_bind, hparse, ok_bind]
  dsimp only
  rw [hnodes, ok_bind]
  refine ⟨_, rfl, ⟨by omega, hrdir, hddir, hall, rfl, fun i e he => ?_⟩, rfl⟩
  obtain ⟨nd, h1, h2⟩ := hn i e he
  rw [Nat.zero_add] at h2
  exact ⟨nd, h1, h2⟩

theorem init_initrd_mounted {mem : Mem} {addr fuel : Nat} {es : List TarEntry} (g : Garbage) (m : Monitor)
    (hfuel : es.length < fuel) (htar : TarAt mem addr es)
    (hfit : addr + tarLength es ≤ 4294967296) :
    ∃ s, init_initrd fuel mem addr g m = .ok (.initrd_root, s) ∧ Mounted mem es s ∧ s.monitor = m :=
  init_initrd_rows g m hfuel (htar.rows es) hfit

/-- Only `dirent` and the screen change while the ramdisk is read. -/
theorem Mounted.with_dirent {mem : Mem} {es : List TarEntry} {s : Initrd} (mt : Mounted mem es s)
    (d : Dirent) (m : Monitor) : Mounted mem es { s with dirent := d, monitor := m } :=
  ⟨mt.size, mt.root, mt.dev, mt.files, mt.count, mt.nodes⟩

theorem Mounted.deref_file {mem : Mem} {es : List TarEntry} {s : Initrd} (mt : Mounted mem es s)
    {i : Nat} {e : TarEntry} (he : es[i]? = some e) :
    ∃ nd, s.deref (.root_nodes i) = .ok nd ∧ IsFileNode i e nd := by
  obtain ⟨nd, h1, h2⟩ := mt.nodes i e he
  exact ⟨nd, by simp only [Initrd.deref, h1], h2⟩

/-! ## §6. The three searches. -/

/-- The search of `initrd_finddir` from position `i` on, when no earlier file has the name. -/
theorem Mounted.finddir_from {mem : Mem} {es : List TarEntry} {s : Initrd} (mt : Mounted mem es s)
    {str name : List UInt8} (hstr : IsStr str name) {k : Nat} {e : TarEntry}
    (hk : FirstNamed es name k e) :
    ∀ n i, i + n = es.length → i ≤ k →
      initrd_finddir_from s str n i = .ok (some (.root_nodes k)) := by
  have hlt : k < es.length := (List.getElem?_eq_some_iff.mp hk.get).1
  intro n
  induction n with
  | zero => intro i hi hik; omega
  | succ n ih =>
      intro i hi hik
      have hget : es[i]? = some (es[i]) := List.getElem?_eq_getElem (by omega)
      obtain ⟨nd, hnd, hfile⟩ := mt.deref_file hget
      obtain ⟨r, hr, hiff⟩ := strcmp_spec hstr hfile.name
      rw [initrd_finddir_from, hnd, ok_bind, hr, ok_bind]
      by_cases heq : i = k
      · subst heq
        have he : es[i] = e := Option.some.inj (hget.symm.trans hk.get)
        rw [if_pos (hiff.mpr (by rw [he, hk.name_eq]))]
      · have hne := hk.first i _ (by omega) hget
        rw [if_neg (fun h => hne (hiff.mp h).symm)]
        exact ih (i + 1) (by omega) (by omega)

/-- **Lookup.**  In the root, `dev` is the device directory, and any other name that occurs is the
    first file that has it. -/
theorem Mounted.vfs_finddir_spec {mem : Mem} {es : List TarEntry} {s : Initrd}
    (mt : Mounted mem es s) {str name : List UInt8} (hstr : IsStr str name) :
    (name = devName → vfs_finddir s .initrd_root str = .ok (some .initrd_dev))
      ∧ ∀ k e, name ≠ devName → FirstNamed es name k e →
        vfs_finddir s .initrd_root str = .ok (some (.root_nodes k)) := by
  obtain ⟨r, hr, hiff⟩ := strcmp_spec hstr dev_literal_isStr
  have hroot : vfs_finddir s .initrd_root str
      = if r = 0 then .ok (some .initrd_dev) else initrd_finddir_from s str s.nroot_nodes 0 := by
    simp only [vfs_finddir, Initrd.deref, ok_bind, mt.root.isdir, if_true, mt.root.finddir,
      initrd_finddir, hr, decide_eq_true_eq]
  rw [hroot]
  refine ⟨fun hdev => if_pos (hiff.mpr hdev), fun k e hne hk => ?_⟩
  rw [if_neg (fun h => hne (hiff.mp h)), mt.count]
  exact mt.finddir_from hstr hk _ 0 (by omega) (Nat.zero_le _)

/-- The search of `initrd_read` over a queue stops at the first record with the name. -/
theorem initrd_search_first {str name : List UInt8} (hstr : IsStr str name) :
    ∀ (rest : List TarFile) (tf : TarFile) (k : Nat) (tf' : TarFile), (tf :: rest)[k]? = some tf' →
      IsStr tf'.tf_filename.bytes name →
      (∀ j f, j < k → (tf :: rest)[j]? = some f → ∃ n, IsStr f.tf_filename.bytes n ∧ n ≠ name) →
      initrd_search str tf rest = .ok (some tf') := by
  -- the record in front, if it is the one
  have hhere : ∀ (tf tf' : TarFile) (rest : List TarFile), (tf :: rest)[0]? = some tf' →
      IsStr tf'.tf_filename.bytes name → initrd_search str tf rest = .ok (some tf') := by
    intro tf tf' rest hget hname
    have htf : tf = tf' := Option.some.inj hget
    subst htf
    obtain ⟨r, hr, hiff⟩ := strcmp_spec hname hstr
    cases rest with
    | nil => rw [initrd_search, hr, ok_bind, if_pos (hiff.mpr rfl)]
    | cons next rest => rw [initrd_search, hr, ok_bind, if_pos (hiff.mpr rfl)]
  intro rest
  induction rest with
  | nil =>
      intro tf k tf' hget hname _
      cases k with
      | zero => exact hhere tf tf' [] hget hname
      | succ k => exact absurd hget (by simp)
  | cons next rest ih =>
      intro tf k tf' hget hname hbefore
      cases k with
      | zero => exact hhere tf tf' _ hget hname
      | succ k =>
          obtain ⟨n, hn, hne⟩ := hbefore 0 tf (Nat.succ_pos k) rfl
          obtain ⟨r, hr, hiff⟩ := strcmp_spec hn hstr
          rw [initrd_search, hr, ok_bind, if_neg (fun h => hne (hiff.mp h))]
          exact ih next k tf' hget hname fun j f hj hf => hbefore (j + 1) f (by omega) hf

/-- The search of `initrd_read` over the archive stops at the first file with the name. -/
theorem initrd_search_spec {mem : Mem} {str name : List UInt8} (hstr : IsStr str name)
    {es : List TarEntry} {tf : TarFile} {rest : List TarFile} {k : Nat} {e : TarEntry}
    (hall : List.Forall₂ (Describes mem) es (tf :: rest)) (hk : FirstNamed es name k e) :
    ∃ tf', initrd_search str tf rest = .ok (some tf') ∧ Describes mem e tf' := by
  have hlen := hall.length_eq
  have hlt : k < es.length := (List.getElem?_eq_some_iff.mp hk.get).1
  -- the record at each position describes the file there
  have hat : ∀ (j : Nat) (h : j < es.length) (h' : j < (tf :: rest).length),
      Describes mem es[j] (tf :: rest)[j] := fun j h h' => List.Forall₂.get hall h h'
  have hek : es[k] = e := (List.getElem?_eq_some_iff.mp hk.get).2
  have hd := hat k hlt (by omega)
  rw [hek] at hd
  refine ⟨(tf :: rest).get ⟨k, by omega⟩, initrd_search_first hstr rest tf k _
    (List.getElem?_eq_getElem (by omega)) (hk.name_eq ▸ hd.name) fun j f hj hf => ?_, hd⟩
  obtain ⟨hj', rfl⟩ := List.getElem?_eq_some_iff.mp hf
  have hjlt : j < es.length := by omega
  exact ⟨_, (hat j hjlt hj').name, hk.first j _ hj (List.getElem?_eq_getElem hjlt)⟩

/-- A slice of the data of a file. -/
theorem Describes.slice {mem : Mem} {e : TarEntry} {tf : TarFile} (h : Describes mem e tf)
    (offset n : Nat) (hn : offset + n ≤ e.data.length) :
    mem_bytes mem (tf.tf_data + offset) n = (e.data.drop offset).take n := by
  obtain ⟨r, hr⟩ : ∃ r, e.data.length = offset + (n + r) := ⟨e.data.length - offset - n, by omega⟩
  have hdata := h.data
  rw [hr, mem_bytes_add, mem_bytes_add] at hdata
  rw [← hdata, List.drop_left' (length_mem_bytes _ _ _), List.take_left' (length_mem_bytes _ _ _)]

/-- **Reading the first file with a name**, from an offset inside it. -/
theorem Mounted.vfs_read_spec {mem : Mem} {es : List TarEntry} {s : Initrd} (mt : Mounted mem es s)
    {name : List UInt8} {k : Nat} {e : TarEntry} (hk : FirstNamed es name k e) {n : Nat}
    (buf : CharArray n) (offset size : Nat) (hoff : offset ≤ e.data.length)
    (hwrap : offset + size < 4294967296) (hbuf : min size (e.data.length - offset) ≤ n) :
    ∃ buf', vfs_read mem s (.root_nodes k) offset size buf
        = .ok (min size (e.data.length - offset), buf')
      ∧ buf'.bytes = (e.data.drop offset).take size ++ buf.bytes.drop (min size (e.data.length - offset)) := by
  obtain ⟨nd, hnd, hfile⟩ := mt.deref_file hk.get
  have hstr := hfile.name
  rw [hk.name_eq] at hstr
  obtain ⟨first, rest, hfiles⟩ : ∃ first rest, s.tar_files = first :: rest := by
    have hall := mt.files
    cases hq : s.tar_files with
    | nil =>
        rw [hq] at hall
        cases hall
        exact absurd hk.get (by simp)
    | cons first rest => exact ⟨first, rest, rfl⟩
  have hall := mt.files
  rw [hfiles] at hall
  obtain ⟨tf, hsearch, hd⟩ := initrd_search_spec hstr hall hk
  have hbound := hd.bound
  -- the length is cut at the end of the data
  have hsize : (if add32 offset size > tf.tf_datasiz then sub32 tf.tf_datasiz offset else size)
      = min size (e.data.length - offset) := by
    rw [add32_of_lt hwrap, hd.size, sub32_of_le (by omega) hoff]
    split <;> omega
  have htake : (e.data.drop offset).take size
      = (e.data.drop offset).take (min size (e.data.length - offset)) := by
    by_cases hle : size ≤ e.data.length - offset
    · rw [Nat.min_eq_left hle]
    · rw [Nat.min_eq_right (by omega), List.take_of_length_le (by rw [List.length_drop]; omega),
        List.take_of_length_le (by rw [List.length_drop])]
  have hslice := hd.slice offset (min size (e.data.length - offset)) (by omega)
  refine ⟨⟨(e.data.drop offset).take size ++ buf.bytes.drop (min size (e.data.length - offset)), ?_⟩,
    ?_, rfl⟩
  · rw [htake]
    simp [buf.length_eq]
    omega
  · simp only [vfs_read, hnd, ok_bind, hfile.read, initrd_read, hfiles, hsearch,
      if_neg (show ¬ offset > tf.tf_datasiz by rw [hd.size]; omega), hsize,
      add32_of_lt (show tf.tf_data + offset < 4294967296 by omega), CharArray.memcpy]
    rw [dif_pos ⟨hbuf, by rw [length_mem_bytes]⟩, ok_bind]
    simp only [hslice, htake, List.take_take, Nat.min_self]

/-! ## §7. The positions. -/

/-- What `initrd_readdir` prints of a file. -/
def foundText (name : List UInt8) (index : Nat) : List UInt8 :=
  bytes "found " ++ (name ++ (bytes " for index=" ++ ((Piece.signed (toInt32 (UInt32.ofNat index).toNat)).render
    ++ bytes "\n")))

theorem found_prints {str name : List UInt8} (h : IsStr str name) (index : Nat) :
    Prints (literal "found %s for index=%d\n", [.chars str, .word (UInt32.ofNat index)])
      (foundText name index) := by
  have hfmt : literal "found %s for index=%d\n" = bytes "found " ++ ch '%' :: ch 's' ::
      (bytes " for index=" ++ ch '%' :: ch 'd' :: (bytes "\n" ++ [0])) := by decide
  have hbefore : Plain (bytes "found ") := by decide
  have hbetween : Plain (bytes " for index=") := by decide
  rw [hfmt]
  exact Prints.two hbefore hbetween (by decide) (.string _ h) (.signed (UInt32.ofNat index) [])

/-- The state after some characters. -/
def Initrd.wrote (cs : List UInt8) (s : Initrd) : Initrd := { s with monitor := mon_putchars cs s.monitor }

theorem Initrd.wrote_wrote (cs ds : List UInt8) (s : Initrd) : (s.wrote cs).wrote ds = s.wrote (cs ++ ds) := by
  unfold Initrd.wrote
  rw [mon_putchars_append]

/-- A call of `printf`, by the text it stands for. -/
theorem Initrd.printf_eq {fmt : List UInt8} {ap : List VaArg} {text : List UInt8} (h : Prints (fmt, ap) text)
    (s : Initrd) : s.printf fmt ap = .ok (s.wrote text) := by
  unfold Initrd.printf
  rw [h.printf, ok_bind]
  rfl

section

variable {mem : Mem} {es : List TarEntry} {s : Initrd}

theorem Mounted.wrote (mt : Mounted mem es s) (cs : List UInt8) : Mounted mem es (s.wrote cs) :=
  mt.with_dirent s.dirent _

theorem Mounted.readdir (mt : Mounted mem es s) {dir : NodePtr} (hdir : dir = .initrd_root ∨ dir = .initrd_dev)
    (index : Nat) : vfs_readdir s dir index = initrd_readdir s dir index := by
  rcases hdir with rfl | rfl
  · simp only [vfs_readdir, Initrd.deref, ok_bind, mt.root.isdir, if_true, mt.root.readdir]
  · simp only [vfs_readdir, Initrd.deref, ok_bind, mt.dev.isdir, if_true, mt.dev.readdir]

/-- Both directories return NULL where no file is counted. -/
theorem Mounted.readdir_null (mt : Mounted mem es s) (dir : NodePtr)
    (hdir : dir = .initrd_root ∨ dir = .initrd_dev) (index : Nat) (hroot : dir = .initrd_root → index ≠ 0)
    (hlen : es.length ≤ sub32 index 1) : vfs_readdir s dir index = .ok (false, s) := by
  rw [mt.readdir hdir]
  unfold initrd_readdir
  rw [if_neg fun h => hroot h.1 h.2, mt.count, if_pos hlen]

/-- Position `k + 1` is the file at `k`, in both directories. -/
theorem Mounted.readdir_file (mt : Mounted mem es s) (dir : NodePtr)
    (hdir : dir = .initrd_root ∨ dir = .initrd_dev) {k : Nat} {e : TarEntry} (he : es[k]? = some e) :
    ∃ d, vfs_readdir s dir (k + 1) = .ok (true, { s.wrote (foundText e.name (k + 1)) with dirent := d })
      ∧ IsStr d.name.bytes e.name ∧ d.inode = k := by
  have hsize := mt.size
  have hlt : k < es.length := (List.getElem?_eq_some_iff.mp he).1
  have hle := e.name_le
  have hk : sub32 (k + 1) 1 = k := sub32_of_le (by omega) (by omega)
  obtain ⟨nd, hnd, hfile⟩ := mt.deref_file he
  have hprint := Initrd.printf_eq (found_prints hfile.name (k + 1)) s
  obtain ⟨d, hd, hstr⟩ := memcpy_str s.dirent.name hfile.name (by omega)
  obtain ⟨d', hd', hstr'⟩ := set_terminator hstr
  refine ⟨⟨d', nd.inode⟩, ?_, hstr', hfile.inode⟩
  rw [mt.readdir hdir]
  unfold initrd_readdir
  rw [if_neg fun h => absurd h.2 (by omega), hk, mt.count, if_neg (by omega), hnd, ok_bind, hprint, ok_bind,
    strlen_eq hfile.name, ok_bind]
  dsimp only [Initrd.wrote]
  rw [hd, ok_bind, hd', ok_bind]

/-- Position 0 of the root is `dev`. -/
theorem Mounted.readdir_dev (mt : Mounted mem es s) :
    ∃ d, vfs_readdir s .initrd_root 0 = .ok (true, { s with dirent := d })
      ∧ IsStr d.name.bytes devName ∧ d.inode = 0 := by
  obtain ⟨d, hd, hstr⟩ := memcpy_str s.dirent.name dev_literal_isStr (by decide)
  obtain ⟨d', hd', hstr'⟩ := set_terminator hstr
  simp only [devName, List.length_cons, List.length_nil, Nat.reduceAdd] at hd hd'
  refine ⟨⟨d', 0⟩, ?_, hstr', rfl⟩
  rw [mt.readdir (.inl rfl)]
  unfold initrd_readdir
  rw [if_pos ⟨rfl, rfl⟩, hd, ok_bind, hd', ok_bind]

/-- What `initrd_readdir` prints at a position of the root: nothing for `dev`. -/
def readdirText (name : List UInt8) : Nat → List UInt8
  | 0 => []
  | k + 1 => foundText name (k + 1)

/-- **The positions.**  Position 0 of the root is `dev`, position `k + 1` the file at `k`, and after
    the last file comes NULL. -/
theorem Mounted.vfs_readdir_spec (mt : Mounted mem es s) (index : Nat) (hindex : index ≤ es.length + 1) :
    (∀ name, (devName :: es.map TarEntry.name)[index]? = some name →
        ∃ d, vfs_readdir s .initrd_root index
            = .ok (true, { s.wrote (readdirText name index) with dirent := d })
          ∧ IsStr d.name.bytes name)
      ∧ (index = es.length + 1 → vfs_readdir s .initrd_root index = .ok (false, s)) := by
  have hsize := mt.size
  cases index with
  | zero =>
      refine ⟨fun name hname => ?_, fun h => absurd h (by omega)⟩
      have hname : devName = name := Option.some.inj hname
      obtain ⟨d, hd, hstr, -⟩ := mt.readdir_dev
      exact ⟨d, hd, hname ▸ hstr⟩
  | succ k =>
      refine ⟨fun name hname => ?_, fun h => ?_⟩
      · rw [List.getElem?_cons_succ, List.getElem?_map, Option.map_eq_some_iff] at hname
        obtain ⟨e, he, rfl⟩ := hname
        obtain ⟨d, hd, hstr, -⟩ := mt.readdir_file _ (.inl rfl) he
        exact ⟨d, hd, hstr⟩
      · refine mt.readdir_null _ (.inl rfl) _ (fun _ => by omega) ?_
        rw [sub32_of_le (by omega) (by omega)]
        omega

end

/-! ## §8. A small archive. -/

/-- A file `a` that holds `hi`. -/
def hiFile : TarEntry := ⟨[0x61], [0x68, 0x69], by decide, by decide, by decide⟩

/-- The archive of that file, at 0x1000. -/
def hiImage : Mem := fun a =>
  if a = 0x1000 then 0x61
  else if 0x107C ≤ a ∧ a < 0x1086 then 0x30
  else if a = 0x1086 then 0x32
  else if a = 0x1200 then 0x68
  else if a = 0x1201 then 0x69
  else 0

theorem hiImage_tarAt : TarAt hiImage 0x1000 [hiFile] := by
  refine ⟨by decide, by decide, by decide, by decide, fun i hi => ?_⟩
  have hp : padded hiFile.data.length = 512 := by decide
  unfold hiImage
  rw [hp]
  simp only [if_neg (show ¬ 0x1000 + (512 + 512) + i = 0x1000 by omega),
    if_neg (show ¬ (0x107C ≤ 0x1000 + (512 + 512) + i ∧ 0x1000 + (512 + 512) + i < 0x1086) by omega),
    if_neg (show ¬ 0x1000 + (512 + 512) + i = 0x1086 by omega),
    if_neg (show ¬ 0x1000 + (512 + 512) + i = 0x1200 by omega),
    if_neg (show ¬ 0x1000 + (512 + 512) + i = 0x1201 by omega)]

/-- Zeroed memory behind every node and the buffer. -/
def zeroGarbage : Garbage :=
  { node := fun _ => ⟨.zero 256, 0, 0, 0, none, none, none⟩, dirent := ⟨.zero 128, 0⟩ }

end JamesM
