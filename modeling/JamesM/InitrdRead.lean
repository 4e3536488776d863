/-
  JamesM.InitrdRead — `vfs_read` on the ramdisk, for every offset and size.

  Nothing is assumed of the image that `init_initrd` read.  A node and its data are
  found by two searches, `initrd_finddir` over the nodes and `initrd_read` over the
  queue; both stop at the first file with the name, so they agree.

  `initrd_read` cuts the size at the end of the file by a sum of two 32-bit values.
  When that sum wraps, nothing is cut and the copy runs past the data.

  Main result: `vfs_read_slice`.
-/
import JamesM.Initrd
import JamesM.TarProgress

namespace JamesM

open JamesM.ByteMem JamesM.Word32

/-! ## §1. The ramdisk of any image. -/

/-- The node of the record `tf`, which is the `i`-th one, and the name of both. -/
structure NodeOf (i : Nat) (tf : TarFile) (name : List UInt8) (nd : VfsNode) : Prop where
  record : IsStr tf.tf_filename.bytes name
  name : IsStr nd.name.bytes name
  length : nd.length = tf.tf_datasiz
  datasiz : tf.tf_datasiz < 4294967296
  inode : nd.inode = i
  read : nd.read = some .initrd_read

/-- What `init_initrd` leaves, whatever the image: one node for each record. -/
structure Loaded (s : Initrd) : Prop where
  count : s.nroot_nodes = s.tar_files.length
  nodes : ∀ i tf, s.tar_files[i]? = some tf → ∃ name nd, s.root_nodes[i]? = some nd ∧ NodeOf i tf name nd

theorem exists_isStr (l : List UInt8) : ∃ name, IsStr (l ++ [0]) name ∧ name.length ≤ l.length := by
  induction l with
  | nil => exact ⟨[], ⟨by simp, [], rfl⟩, Nat.le_refl _⟩
  | cons b l ih =>
      by_cases hb : b = 0
      · subst hb
        exact ⟨[], ⟨by simp, l ++ [0], rfl⟩, Nat.zero_le _⟩
      · obtain ⟨name, hname, hle⟩ := ih
        exact ⟨b :: name, hname.cons hb, Nat.succ_le_succ hle⟩

/-- What the parser puts in its queue. -/
def Parsed (tf : TarFile) : Prop :=
  (∃ name, IsStr tf.tf_filename.bytes name ∧ name.length ≤ 100) ∧ tf.tf_datasiz < 4294967296

theorem tar_parse_loop_parsed {mem : Mem} : ∀ (fuel i p : Nat) (q : List TarFile) (n : Nat)
    (tfs : List TarFile), tar_parse_loop mem fuel i p q = .ok (n, tfs) → i = q.length →
      (∀ tf ∈ q, Parsed tf) → n = tfs.length ∧ ∀ tf ∈ tfs, Parsed tf := by
  intro fuel
  induction fuel with
  | zero => intro i p q n tfs h; exact absurd h (by simp [tar_parse_loop])
  | succ fuel ih =>
      intro i p q n tfs h hi hq
      by_cases hstop : mem p = 0
      · rw [tar_parse_loop, if_pos hstop] at h
        obtain ⟨rfl, rfl⟩ := Prod.mk.inj (Except.ok.inj h)
        exact ⟨hi, hq⟩
      · obtain ⟨d, hbytes, hloop⟩ := tar_parse_loop_next hstop
        rw [hloop] at h
        refine ih _ _ _ n tfs h (by simp [hi]) fun tf htf => ?_
        rcases List.mem_append.mp htf with htf | htf
        · exact hq tf htf
        · rw [List.mem_singleton.mp htf]
          obtain ⟨name, hname, hle⟩ := exists_isStr (mem_bytes mem p 100)
          rw [length_mem_bytes] at hle
          exact ⟨⟨name, by rw [hbytes]; exact hname, hle⟩, getsize_lt _ _⟩

theorem init_files_loaded (g : Garbage) : ∀ (tfs : List TarFile) (i : Nat) (nodes : List VfsNode),
    (∀ tf ∈ tfs, Parsed tf) → init_files g i tfs = .ok nodes →
      ∀ k tf, tfs[k]? = some tf → ∃ name nd, nodes[k]? = some nd ∧ NodeOf (i + k) tf name nd := by
  intro tfs
  induction tfs with
  | nil => intro i nodes _ _ k tf h; exact absurd h (by simp)
  | cons t tfs ih =>
      intro i nodes hall h k tf hk
      rw [init_files, bind_ok_iff] at h
      obtain ⟨nd, hnd, h⟩ := h
      rw [bind_ok_iff] at h
      obtain ⟨rest, hrest, h⟩ := h
      have h := Except.ok.inj h
      subst h
      cases k with
      | zero =>
          have ht : t = tf := Option.some.inj hk
          subst ht
          obtain ⟨⟨name, hname, hle⟩, hsiz⟩ := hall t List.mem_cons_self
          obtain ⟨d, hd, hstr⟩ := memcpy_str (g.node (.root_nodes i)).name hname (by omega)
          rw [init_file, strlen_eq hname, ok_bind, hd, ok_bind] at hnd
          have hnd := Except.ok.inj hnd
          subst hnd
          exact ⟨name, _, rfl, hname, hstr, rfl, hsiz, rfl, rfl⟩
      | succ k =>
          obtain ⟨name, nd', h1, h2⟩ := ih (i + 1) rest (fun tf htf => hall tf (List.mem_cons_of_mem _ htf))
            hrest k tf hk
          refine ⟨name, nd', h1, ?_⟩
          rw [show i + (k + 1) = i + 1 + k by omega]
          exact h2

/-- **Mounting any image.** -/
theorem init_initrd_loaded {mem : Mem} {addr fuel : Nat} {g : Garbage} {m : Monitor} {root : NodePtr}
    {s : Initrd} (h : init_initrd fuel mem addr g m = .ok (root, s)) : Loaded s := by
  unfold init_initrd at h
  rw [bind_ok_iff] at h
  obtain ⟨rootNode, -, h⟩ := h
  rw [bind_ok_iff] at h
  obtain ⟨devNode, -, h⟩ := h
  rw [bind_ok_iff] at h
  obtain ⟨⟨x, tfs⟩, hparse, h⟩ := h
  rw [bind_ok_iff] at h
  obtain ⟨nodes, hnodes, h⟩ := h
  obtain ⟨-, hs⟩ := Prod.mk.inj (Except.ok.inj h)
  obtain ⟨hcount, hall⟩ := tar_parse_loop_parsed fuel 0 addr [] x tfs hparse rfl (by simp)
  subst hs
  refine ⟨hcount, fun i tf hi => ?_⟩
  obtain ⟨name, nd, h1, h2⟩ := init_files_loaded g tfs 0 nodes hall hnodes i tf hi
  rw [Nat.zero_add] at h2
  exact ⟨name, nd, h1, h2⟩

/-- Listing changes `dirent` and the screen only. -/
theorem Loaded.with_dirent {s : Initrd} (ld : Loaded s) (d : Dirent) (m : Monitor) :
    Loaded { s with dirent := d, monitor := m } :=
  ⟨ld.count, ld.nodes⟩

theorem Loaded.deref {s : Initrd} (ld : Loaded s) {i : Nat} {tf : TarFile} (h : s.tar_files[i]? = some tf) :
    ∃ name nd, s.deref (.root_nodes i) = .ok nd ∧ NodeOf i tf name nd := by
  obtain ⟨name, nd, h1, h2⟩ := ld.nodes i tf h
  exact ⟨name, nd, by simp only [Initrd.deref, h1], h2⟩

/-! ## §2. The node that was looked up. -/

/-- A string that compares equal to one is that string. -/
theorem strcmp_zero {s1 s2 name : List UInt8} (h2 : IsStr s2 name) (h : strcmp s1 s2 = .ok 0) :
    IsStr s1 name := by
  induction name generalizing s1 s2 with
  | nil =>
      obtain ⟨t2, rfl⟩ := h2.nil
      cases s1 with
      | nil => exact absurd h (by simp [strcmp])
      | cons a s1 =>
          rw [strcmp] at h
          by_cases ha : a = 0
          · exact ⟨by simp, s1, by rw [ha]; rfl⟩
          · rw [if_neg ha] at h
            have h := Except.ok.inj h
            have h0 : (0 : UInt8).toNat = 0 := rfl
            exact absurd (UInt8.toNat_inj.mp (show a.toNat = (0 : UInt8).toNat by omega)) ha
  | cons b name ih =>
      obtain ⟨hb, t2, rfl, h2'⟩ := h2.tail
      cases s1 with
      | nil => exact absurd h (by simp [strcmp])
      | cons a s1 =>
          rw [strcmp] at h
          by_cases hab : a = b
          · subst hab
            rw [if_pos rfl, if_neg hb] at h
            exact (ih h2' h).cons hb
          · rw [if_neg hab] at h
            have h := Except.ok.inj h
            exact absurd (UInt8.toNat_inj.mp (show a.toNat = b.toNat by omega)) hab

/-- `initrd_finddir` returns the first file with the name. -/
theorem Loaded.finddir_from {s : Initrd} (ld : Loaded s) {str : List UInt8} {k : Nat} : ∀ n i,
    i + n = s.tar_files.length → initrd_finddir_from s str n i = .ok (some (.root_nodes k)) →
      ∃ tf nd name, s.tar_files[k]? = some tf ∧ s.deref (.root_nodes k) = .ok nd ∧ NodeOf k tf name nd
        ∧ IsStr str name
        ∧ ∀ j f, i ≤ j → j < k → s.tar_files[j]? = some f → ∃ m, IsStr f.tf_filename.bytes m ∧ m ≠ name := by
  intro n
  induction n with
  | zero => intro i _ h; exact absurd h (by simp [initrd_finddir_from])
  | succ n ih =>
      intro i hi h
      have hget : s.tar_files[i]? = some (s.tar_files[i]) := List.getElem?_eq_getElem (by omega)
      obtain ⟨name, nd, hnd, hof⟩ := ld.deref hget
      rw [initrd_finddir_from, hnd, ok_bind, bind_ok_iff] at h
      obtain ⟨r, hr, h⟩ := h
      by_cases hzero : r = 0
      · subst hzero
        rw [if_pos rfl] at h
        have hik : i = k := by
          have h := Option.some.inj (Except.ok.inj h)
          exact NodePtr.root_nodes.inj h
        subst hik
        exact ⟨_, nd, name, hget, hnd, hof, strcmp_zero hof.name hr, fun j f h1 h2 _ => by omega⟩
      · rw [if_neg hzero] at h
        obtain ⟨tf, nd', name', h1, h2, h3, hstr, hbefore⟩ := ih (i + 1) (by omega) h
        refine ⟨tf, nd', name', h1, h2, h3, hstr, fun j f hij hjk hf => ?_⟩
        by_cases hji : j = i
        · subst hji
          have hff : s.tar_files[j] = f := Option.some.inj (hget.symm.trans hf)
          obtain ⟨r', hr', hiff⟩ := strcmp_spec hstr hof.name
          rw [hr] at hr'
          have hrr := Except.ok.inj hr'
          refine ⟨name, hff ▸ hof.record, fun heq => hzero ?_⟩
          rw [hrr]
          exact hiff.mpr heq.symm
        · exact hbefore j f (by omega) hjk hf

theorem Loaded.vfs_finddir {s : Initrd} (ld : Loaded s) {dir : NodePtr} {str : List UInt8} {k : Nat}
    (h : vfs_finddir s dir str = .ok (some (.root_nodes k))) :
    ∃ tf nd name, s.tar_files[k]? = some tf ∧ s.deref (.root_nodes k) = .ok nd ∧ NodeOf k tf name nd
      ∧ ∀ j f, j < k → s.tar_files[j]? = some f → ∃ m, IsStr f.tf_filename.bytes m ∧ m ≠ name := by
  unfold JamesM.vfs_finddir at h
  rw [bind_ok_iff] at h
  obtain ⟨dn, -, h⟩ := h
  -- the callback is `initrd_finddir`, or nothing is found
  have h : initrd_finddir s dir str = .ok (some (.root_nodes k)) := by
    split at h
    · split at h
      · exact h
      · exact absurd h (by simp)
    · exact absurd h (by simp)
  -- the special case of the root does not return a file
  have h : initrd_finddir_from s str s.nroot_nodes 0 = .ok (some (.root_nodes k)) := by
    unfold initrd_finddir at h
    dsimp only at h
    split at h
    · rw [bind_ok_iff] at h
      obtain ⟨r, -, h⟩ := h
      rw [ok_bind] at h
      split at h
      · exact absurd h (by simp)
      · exact h
    · exact h
  rw [ld.count] at h
  obtain ⟨tf, nd, name, h1, h2, h3, -, hbefore⟩ := ld.finddir_from _ 0 (by omega) h
  exact ⟨tf, nd, name, h1, h2, h3, fun j f hj hf => hbefore j f (Nat.zero_le _) hj hf⟩

/-! ## §3. Reading. -/

/-- How many bytes a read of `size` bytes at `offset` should give, of a file of `length` bytes. -/
def read_length (length offset size : Nat) : Nat :=
  if offset > length then 0 else min size (length - offset)

/-- The read returns the right number, stores exactly these bytes of the record `tf`, leaves the rest of
    the buffer as it was, and depends on no other byte of memory. -/
def ReadsSlice {cap : Nat} (mem : Mem) (s : Initrd) (node : NodePtr) (tf : TarFile) (offset size : Nat)
    (buf : CharArray cap) : Prop :=
  ∃ buf', vfs_read mem s node offset size buf = .ok (read_length tf.tf_datasiz offset size, buf')
    ∧ buf'.bytes = mem_bytes mem (add32 tf.tf_data offset) (read_length tf.tf_datasiz offset size)
        ++ buf.bytes.drop (read_length tf.tf_datasiz offset size)
    ∧ (tf.tf_data + tf.tf_datasiz ≤ 4294967296 →
        mem_bytes mem (add32 tf.tf_data offset) (read_length tf.tf_datasiz offset size)
          = ((mem_bytes mem tf.tf_data tf.tf_datasiz).drop offset).take size)
    ∧ ∀ mem' : Mem, (∀ i, i < read_length tf.tf_datasiz offset size →
          mem' (add32 tf.tf_data offset + i) = mem (add32 tf.tf_data offset + i)) →
        vfs_read mem' s node offset size buf = vfs_read mem s node offset size buf

theorem mem_bytes_congr {mem mem' : Mem} {p n : Nat} (h : ∀ i, i < n → mem' (p + i) = mem (p + i)) :
    mem_bytes mem' p n = mem_bytes mem p n := by
  unfold mem_bytes
  exact List.map_congr_left fun i hi => h i (List.mem_range.mp hi)

/-- A slice of a range. -/
theorem mem_bytes_slice (mem : Mem) (p len offset size : Nat) (h : offset ≤ len) :
    ((mem_bytes mem p len).drop offset).take size = mem_bytes mem (p + offset) (min size (len - offset)) := by
  have hcut : mem_bytes mem p len = mem_bytes mem p offset ++ mem_bytes mem (p + offset) (len - offset) := by
    rw [← mem_bytes_add, Nat.add_sub_cancel' h]
  rw [hcut, List.drop_left' (length_mem_bytes _ _ _)]
  by_cases hs : size ≤ len - offset
  · obtain ⟨r, hr⟩ := Nat.exists_eq_add_of_le hs
    rw [Nat.min_eq_left hs, hr, mem_bytes_add, List.take_left' (length_mem_bytes _ _ _)]
  · rw [Nat.min_eq_right (by omega), List.take_of_length_le (by rw [length_mem_bytes]; omega)]

/-- The size that `initrd_read` copies, from an offset inside the file. -/
def cut_size (length offset size : Nat) : Nat :=
  if add32 offset size > length then sub32 length offset else size

/-- What the code does once both searches have found the file. -/
theorem vfs_read_found {s : Initrd} {k : Nat} {tf : TarFile} {nd : VfsNode}
    {name : List UInt8} (htf : s.tar_files[k]? = some tf) (hnd : s.deref (.root_nodes k) = .ok nd)
    (hof : NodeOf k tf name nd)
    (hbefore : ∀ j f, j < k → s.tar_files[j]? = some f → ∃ m, IsStr f.tf_filename.bytes m ∧ m ≠ name)
    (mem : Mem) (offset size : Nat) {cap : Nat} (buf : CharArray cap) :
    vfs_read mem s (.root_nodes k) offset size buf
      = if offset > tf.tf_datasiz then .ok (0, buf)
        else buf.memcpy (mem_bytes mem (add32 tf.tf_data offset) (cut_size tf.tf_datasiz offset size))
            (cut_size tf.tf_datasiz offset size) >>= fun buffer =>
          .ok (cut_size tf.tf_datasiz offset size, buffer) := by
  unfold vfs_read
  rw [hnd, ok_bind]
  simp only [hof.read]
  unfold initrd_read
  rw [hnd, ok_bind]
  cases hq : s.tar_files with
  | nil =>
      rw [hq] at htf
      exact absurd htf (by simp)
  | cons first rest =>
      rw [hq] at htf hbefore
      have hsearch := initrd_search_first hof.name rest first k tf htf hof.record hbefore
      dsimp only
      rw [hsearch, ok_bind]
      rfl

/-- The read of a file that was found. -/
theorem readsSlice_iff {s : Initrd} {k : Nat} {tf : TarFile} {nd : VfsNode} {name : List UInt8}
    (htf : s.tar_files[k]? = some tf) (hnd : s.deref (.root_nodes k) = .ok nd) (hof : NodeOf k tf name nd)
    (hbefore : ∀ j f, j < k → s.tar_files[j]? = some f → ∃ m, IsStr f.tf_filename.bytes m ∧ m ≠ name)
    (mem : Mem) {offset size cap : Nat} (buf : CharArray cap)
    (hs : size < 4294967296) (hcap : read_length tf.tf_datasiz offset size ≤ cap) :
    ReadsSlice mem s (.root_nodes k) tf offset size buf
      ↔ (offset ≤ tf.tf_datasiz → offset + size < 4294967296) := by
  have hread := fun mem => vfs_read_found htf hnd hof hbefore mem offset size buf
  have hlen := hof.datasiz
  unfold ReadsSlice
  generalize hn : read_length tf.tf_datasiz offset size = n at hcap ⊢
  unfold read_length at hn
  by_cases hoff : offset > tf.tf_datasiz
  · rw [if_pos hoff] at hn
    subst hn
    have hzero : ∀ mem, vfs_read mem s (.root_nodes k) offset size buf = .ok (0, buf) :=
      fun mem => by rw [hread, if_pos hoff]
    refine ⟨fun _ h => absurd h (by omega), fun _ => ⟨buf, hzero mem, rfl, fun _ => ?_,
      fun mem' _ => by rw [hzero, hzero]⟩⟩
    rw [List.drop_of_length_le (by rw [length_mem_bytes]; omega), List.take_nil]
    rfl
  · rw [if_neg hoff] at hn
    constructor
    · rintro ⟨buf', hret, -, -, -⟩ _
      by_contra hwrap
      -- the sum wraps below the offset, so nothing is cut
      have hsum : cut_size tf.tf_datasiz offset size = size := by
        unfold cut_size add32
        exact if_neg (by omega)
      rw [hread, if_neg hoff, hsum, bind_ok_iff] at hret
      obtain ⟨b, -, hb⟩ := hret
      have := (Prod.mk.inj (Except.ok.inj hb)).1
      omega
    · intro hwrap
      have hwrap := hwrap (by omega)
      have hsize : cut_size tf.tf_datasiz offset size = n := by
        unfold cut_size
        rw [add32_of_lt hwrap, sub32_of_le hlen (by omega), ← hn]
        split <;> omega
      have hexact : ∀ mem, vfs_read mem s (.root_nodes k) offset size buf
          = .ok (n, ⟨mem_bytes mem (add32 tf.tf_data offset) n ++ buf.bytes.drop n, by
              simp only [List.length_append, length_mem_bytes, List.length_drop, buf.length_eq]
              omega⟩) := by
        intro mem
        rw [hread, if_neg hoff, hsize]
        unfold CharArray.memcpy
        rw [dif_pos ⟨hcap, by rw [length_mem_bytes]⟩, ok_bind]
        simp only [List.take_of_length_le (Nat.le_of_eq (length_mem_bytes mem (add32 tf.tf_data offset) n))]
      refine ⟨_, hexact mem, rfl, fun hfit => ?_, fun mem' hsame => ?_⟩
      · rw [mem_bytes_slice _ _ _ _ _ (by omega), hn]
        by_cases hn0 : n = 0
        · rw [hn0]
          rfl
        · rw [add32_of_lt (by omega)]
      · rw [hexact, hexact]
        simp only [mem_bytes_congr hsame]

/-- **Reading.**  For every image, every node that `vfs_finddir` found, every 32-bit offset and size and
    every buffer that has room for what is to be read, whatever `dirent` holds and the screen shows: the
    read gives exactly the slice, if and only if the offset lies beyond the end of the file or the sum of
    offset and size stays below 2^32. -/
theorem vfs_read_slice {mem : Mem} {addr fuel : Nat} {g : Garbage} {m₀ : Monitor} {root : NodePtr} {s : Initrd}
    (hinit : init_initrd fuel mem addr g m₀ = .ok (root, s)) (d : Dirent) (m : Monitor) {dir : NodePtr}
    {str : List UInt8} {k : Nat}
    (hfind : vfs_finddir { s with dirent := d, monitor := m } dir str = .ok (some (.root_nodes k))) :
    ∃ nd tf, Initrd.deref { s with dirent := d, monitor := m } (.root_nodes k) = .ok nd
      ∧ s.tar_files[k]? = some tf ∧ nd.length = tf.tf_datasiz
      ∧ ∀ (offset size cap : Nat) (buf : CharArray cap), offset < 4294967296 → size < 4294967296 →
        read_length nd.length offset size ≤ cap →
        (ReadsSlice mem { s with dirent := d, monitor := m } (.root_nodes k) tf offset size buf
          ↔ (offset ≤ nd.length → offset + size < 4294967296)) := by
  have ld := (init_initrd_loaded hinit).with_dirent d m
  obtain ⟨tf, nd, name, htf, hnd, hof, hbefore⟩ := ld.vfs_finddir hfind
  refine ⟨nd, tf, hnd, htf, hof.length, fun offset size cap buf _ hs hcap => ?_⟩
  rw [hof.length] at hcap ⊢
  exact readsSlice_iff htf hnd hof hbefore mem buf hs hcap

/-- The file of two bytes, mounted and looked up. -/
theorem hiImage_found :
    ∃ s, init_initrd 2 hiImage 0x1000 zeroGarbage (Monitor.fresh (fun _ => 0) 0 0) = .ok (.initrd_root, s)
      ∧ vfs_finddir s .initrd_root [0x61, 0] = .ok (some (.root_nodes 0))
      ∧ ∀ nd, s.deref (.root_nodes 0) = .ok nd → nd.length = 2 := by
  obtain ⟨s, hinit, mt, -⟩ := init_initrd_mounted zeroGarbage (Monitor.fresh (fun _ => 0) 0 0)
    (show [hiFile].length < 2 by decide) hiImage_tarAt (by decide)
  have hstr : IsStr [0x61, 0] hiFile.name := ⟨by decide, [], rfl⟩
  refine ⟨s, hinit, (mt.vfs_finddir_spec hstr).2 0 hiFile (by decide)
    ⟨rfl, rfl, fun j _ hj => absurd hj (Nat.not_lt_zero j)⟩, fun nd hnd => ?_⟩
  obtain ⟨nd', hnd', hfile⟩ := mt.deref_file (i := 0) (e := hiFile) rfl
  rw [hnd] at hnd'
  rw [Except.ok.inj hnd', hfile.length]
  rfl

/-- The second byte of that file, with a size that reaches beyond the end. -/
theorem vfs_read_slice_hi :
    ∃ s tf, init_initrd 2 hiImage 0x1000 zeroGarbage (Monitor.fresh (fun _ => 0) 0 0) = .ok (.initrd_root, s)
      ∧ s.tar_files[0]? = some tf ∧ ReadsSlice hiImage s (.root_nodes 0) tf 1 1000 (.zero 1) := by
  obtain ⟨s, hinit, hfind, hlen⟩ := hiImage_found
  obtain ⟨nd, tf, hnd, htf, -, hall⟩ := vfs_read_slice hinit s.dirent s.monitor hfind
  refine ⟨s, tf, hinit, htf, (hall 1 1000 1 (.zero 1) (by decide) (by decide) ?_).mpr fun _ => by decide⟩
  rw [hlen nd hnd]
  decide

/-- **Past the end.**  From offset 1 of the file of two bytes, one byte is left.  With size `0xFFFFFFFF`
    the sum wraps to zero, and the call does not return 1: it copies `0xFFFFFFFF` bytes, if the buffer
    takes them. -/
theorem vfs_read_runs_past_the_file :
    ∃ s tf, init_initrd 2 hiImage 0x1000 zeroGarbage (Monitor.fresh (fun _ => 0) 0 0) = .ok (.initrd_root, s)
      ∧ vfs_finddir s .initrd_root [0x61, 0] = .ok (some (.root_nodes 0))
      ∧ s.tar_files[0]? = some tf ∧ tf.tf_datasiz = 2 ∧ read_length 2 1 0xFFFFFFFF = 1
      ∧ ∀ (cap : Nat) (buf : CharArray cap), 1 ≤ cap →
        ¬ ReadsSlice hiImage s (.root_nodes 0) tf 1 0xFFFFFFFF buf
          ∧ ∀ n buf', vfs_read hiImage s (.root_nodes 0) 1 0xFFFFFFFF buf = .ok (n, buf') → n = 0xFFFFFFFF := by
  obtain ⟨s, hinit, hfind, hlen⟩ := hiImage_found
  obtain ⟨tf, nd, name, htf, hnd, hof, hbefore⟩ := (init_initrd_loaded hinit).vfs_finddir hfind
  have htwo : tf.tf_datasiz = 2 := by rw [← hof.length, hlen nd hnd]
  refine ⟨s, tf, hinit, hfind, htf, htwo, by decide, fun cap buf hcap => ⟨fun h => ?_, fun n buf' h => ?_⟩⟩
  · have hcut := (readsSlice_iff htf hnd hof hbefore hiImage buf (by decide)
      (by rw [htwo]; exact hcap)).mp h
    rw [htwo] at hcut
    exact absurd (hcut (by decide)) (by decide)
  · have hcut : cut_size 2 1 0xFFFFFFFF = 0xFFFFFFFF := by decide
    rw [vfs_read_found htf hnd hof hbefore, htwo, if_neg (by decide), hcut, bind_ok_iff] at h
    obtain ⟨b, -, hb⟩ := h
    exact (Prod.mk.inj (Except.ok.inj hb)).1.symm

end JamesM
