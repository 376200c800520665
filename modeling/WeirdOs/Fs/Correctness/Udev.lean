import WeirdOs.Fs.Udev
import Mathlib.Data.List.Forall2

/-!
# `Fs.Correctness.Udev` — the three registries of a device agree

A file of a `udev` has a number from the counter, an inode in the cache, and a dirent in the root directory.
`FilesOk` and `CacheOk` say what all three hold, for the files made so far in order. Every call keeps them, so
they hold after every run, whatever the names and however many the calls.

What a user of the device sees is `Registries`: for that the names have to be distinct, and the counter must
not have come around. It is 32 bits wide and gives the root directory and `tty0` the first two numbers, so
the calls have to be fewer than `2^32 - 1`. Terminals have distinct names if their numbers are distinct: a
result of its own (`ttyName_inj`).
-/

namespace WeirdOs

open Lib

variable {fs : Fs} {udev : Udev} {files : List Nat} {names : List (List UInt8)} {name : List UInt8}
  {make : Nat → Nat → Inode} {s t : UdevState} {op : UdevOp} {ops : List UdevOp} {tty0 : Nat}

/-! ## What is to be seen -/

/-- **The registries agree** on the files, whose names and inodes are given in order. -/
structure Registries (fs : Fs) (udev : Udev) (names : List (List UInt8)) (files : List Nat) : Prop where
  /-- Numbers are given out once. -/
  ids : ((udev.rootInode :: files).map fun i => (fs.inodes i).id).Nodup
  /-- Under its number, every inode is found. -/
  given : ∀ i ∈ udev.rootInode :: files, udev.getInode (fs.inodes i).id = some i
  /-- Under other numbers, none is. -/
  other : ∀ id, id ∉ (udev.rootInode :: files).map (fun i => (fs.inodes i).id) → udev.getInode id = none
  /-- Under its name, the dirent of every inode is found. -/
  lookup : List.Forall₂ (fun name i => ∃ d, fs.getChild udev.rootDirent name = some d ∧
    (fs.dirents d).inodeId = (fs.inodes i).id ∧ (fs.dirents d).inode = some i) names files

/-! ## The invariant -/

/-- What a dirent says of its inode, under which name. -/
def Dirent.entry (d : Dirent) : List UInt8 × Nat × Option Nat := (d.ident, d.inodeId, d.inode)

/-- **The counter and the root directory** are those of the files. -/
structure FilesOk (fs : Fs) (udev : Udev) (names : List (List UInt8)) (files : List Nat) : Prop where
  length : names.length = files.length
  counter : udev.inodeCounter = word (files.length + 1)
  ids : (udev.rootInode :: files).map (fun i => (fs.inodes i).id) = (List.range (files.length + 1)).map word
  made : ∀ i ∈ udev.rootInode :: files, i < fs.nextInode
  root : udev.rootDirent < fs.nextDirent
  below : ∀ d ∈ (fs.dirents udev.rootDirent).children, d < fs.nextDirent
  children : (fs.dirents udev.rootDirent).children.map (fun d => (fs.dirents d).entry) =
    (names.zip files).map fun f => (f.1, (fs.inodes f.2).id, some f.2)

/-- **The cache** holds these inodes under their numbers. -/
def CacheOk (fs : Fs) (udev : Udev) (inodes : List Nat) : Prop :=
  ∃ entries, HashTable.Represents hash udev.inodeCache entries ∧
    entries.Perm (inodes.map fun i => ((fs.inodes i).id, i))

/-! ## One more file -/

theorem addFile_fs : (addFile fs udev name make).1 =
    (fs.makeDirent name (some (some udev.rootDirent)) fun dir => make dir udev.inodeCounter).1.addChild
      udev.rootDirent fs.nextDirent := rfl

@[simp] theorem addFile_rootDirent : (addFile fs udev name make).2.1.rootDirent = udev.rootDirent := rfl

@[simp] theorem addFile_rootInode : (addFile fs udev name make).2.1.rootInode = udev.rootInode := rfl

@[simp] theorem addFile_returned : (addFile fs udev name make).2.2 = fs.nextInode := rfl

@[simp] theorem addFile_nextInode : (addFile fs udev name make).1.nextInode = fs.nextInode + 1 := rfl

@[simp] theorem addFile_nextDirent : (addFile fs udev name make).1.nextDirent = fs.nextDirent + 1 := rfl

theorem addFile_inode {i : Nat} (hi : i < fs.nextInode) :
    (addFile fs udev name make).1.inodes i = fs.inodes i := by
  rw [addFile_fs, Fs.addChild_inodes, Fs.makeDirent_inode_of_ne fs (Nat.ne_of_lt hi)]

theorem addFile_inode_self :
    (addFile fs udev name make).1.inodes fs.nextInode = make fs.nextDirent udev.inodeCounter := by
  rw [addFile_fs, Fs.addChild_inodes, Fs.makeDirent_inode]

theorem addChild_entry {d c e : Nat} : ((fs.addChild d c).dirents e).entry = (fs.dirents e).entry :=
  Fs.modifyDirent_field fs Dirent.entry fun _ => rfl

theorem addFile_entry {d : Nat} (hd : d < fs.nextDirent) :
    ((addFile fs udev name make).1.dirents d).entry = (fs.dirents d).entry := by
  rw [addFile_fs, addChild_entry, Fs.makeDirent_of_ne fs (Nat.ne_of_lt hd)]

theorem addFile_entry_self :
    ((addFile fs udev name make).1.dirents fs.nextDirent).entry =
      (name, (make fs.nextDirent udev.inodeCounter).id, some fs.nextInode) := by
  rw [addFile_fs, addChild_entry, Fs.makeDirent_self]
  rfl

theorem addFile_children (hroot : udev.rootDirent < fs.nextDirent) :
    ((addFile fs udev name make).1.dirents udev.rootDirent).children =
      (fs.dirents udev.rootDirent).children ++ [fs.nextDirent] := by
  rw [addFile_fs, Fs.addChild_children, if_pos rfl, Fs.makeDirent_of_ne fs (Nat.ne_of_lt hroot)]

/-- What is said of the inodes there are stays true. -/
theorem addFile_map {β : Type} {l : List Nat} (hmade : ∀ i ∈ l, i < fs.nextInode)
    (f : Inode → Nat → β) :
    l.map (fun i => f ((addFile fs udev name make).1.inodes i) i) = l.map fun i => f (fs.inodes i) i :=
  List.map_congr_left fun i hi => by rw [addFile_inode (hmade i hi)]

/-- **A file keeps the counter and the root directory in order.** -/
theorem FilesOk.addFile (h : FilesOk fs udev names files) (hid : ∀ dir id, (make dir id).id = id) :
    FilesOk (addFile fs udev name make).1 (addFile fs udev name make).2.1 (names ++ [name])
      (files ++ [(addFile fs udev name make).2.2]) := by
  have hnew : ((WeirdOs.addFile fs udev name make).1.inodes fs.nextInode).id = word (files.length + 1) := by
    rw [addFile_inode_self, hid, h.counter]
  rw [addFile_returned]
  refine ⟨?_, ?_, ?_, ?_, ?_, ?_, ?_⟩
  · simp [h.length]
  · rw [List.length_append, List.length_singleton]
    apply (congrArg (add32 · 1) h.counter).trans
    unfold add32 word
    omega
  · rw [addFile_rootInode, ← List.cons_append, List.map_append, List.map_singleton, hnew,
      addFile_map h.made fun ino _ => ino.id, h.ids, List.length_append, List.length_singleton,
      List.range_succ (n := files.length + 1), List.map_append, List.map_singleton]
  · rw [addFile_rootInode, addFile_nextInode, ← List.cons_append]
    intro i hi
    rcases List.mem_append.mp hi with hi | hi
    · exact Nat.lt_succ_of_lt (h.made i hi)
    · rw [List.mem_singleton.mp hi]
      exact Nat.lt_succ_self _
  · rw [addFile_rootDirent, addFile_nextDirent]
    exact Nat.lt_succ_of_lt h.root
  · rw [addFile_rootDirent, addFile_nextDirent, addFile_children h.root]
    intro d hd
    rcases List.mem_append.mp hd with hd | hd
    · exact Nat.lt_succ_of_lt (h.below d hd)
    · rw [List.mem_singleton.mp hd]
      exact Nat.lt_succ_self _
  · have hold : (fs.dirents udev.rootDirent).children.map
        (fun d => ((WeirdOs.addFile fs udev name make).1.dirents d).entry) =
        (names.zip files).map fun f =>
          (f.1, ((WeirdOs.addFile fs udev name make).1.inodes f.2).id, some f.2) := by
      rw [List.map_congr_left fun d hd => addFile_entry (h.below d hd), h.children]
      apply List.map_congr_left
      intro f hf
      rw [addFile_inode (h.made _ (List.mem_cons_of_mem _ (List.of_mem_zip hf).2))]
    rw [addFile_rootDirent, addFile_children h.root, List.map_append, hold, List.zip_append h.length,
      List.map_append, List.map_singleton, addFile_entry_self, List.zip_cons_cons, List.zip_nil_left,
      List.map_singleton,
      addFile_inode_self]

/-- **A file keeps the cache in order.** -/
theorem CacheOk.addFile {inodes : List Nat} (h : CacheOk fs udev inodes)
    (hmade : ∀ i ∈ inodes, i < fs.nextInode) :
    CacheOk (addFile fs udev name make).1 (addFile fs udev name make).2.1
      (inodes ++ [(addFile fs udev name make).2.2]) := by
  obtain ⟨entries, hentries, hperm⟩ := h
  refine ⟨entries ++ [((make fs.nextDirent udev.inodeCounter).id, fs.nextInode)], ?_, ?_⟩
  · rw [addFile_eq]
    exact hentries.set
  · rw [List.map_append, addFile_map hmade fun ino i => (ino.id, i), addFile_returned, List.map_singleton,
      addFile_inode_self]
    exact hperm.append_right _

/-! ## Runs -/

/-- **The constructor** makes a root directory and `tty0`. -/
theorem newUdev_ok (fs : Fs) : ∃ fs' udev tty0, newUdev fs = .ok (fs', udev) ∧
    FilesOk fs' udev [ttyName 0] [tty0] ∧ CacheOk fs' udev [udev.rootInode, tty0] := by
  let fs₁ := (fs.makeDirent [] none fun dir => directoryLike dir 0 S_IRWXA).1
  let udev₁ : Udev := ⟨fs.nextDirent, fs.nextInode, .empty, 1⟩
  let made := addFile fs₁ udev₁ (ttyName 0) fun dir id => fifo dir id S_IRWXA
  have hrootDirent : fs₁.dirents fs.nextDirent = ⟨[], 0, some fs.nextInode, none, []⟩ :=
    Fs.makeDirent_self fs
  have hrootInode : (fs₁.inodes fs.nextInode).id = 0 := congrArg Inode.id (Fs.makeDirent_inode fs)
  have hrun : newUdev fs = .ok (made.1,
      { made.2.1 with inodeCache := made.2.1.inodeCache.set (made.1.inodes fs.nextInode).id fs.nextInode }) :=
    rfl
  have hok : FilesOk fs₁ udev₁ [] [] := by
    refine ⟨rfl, rfl, ?_, ?_, Nat.lt_succ_self _, ?_, ?_⟩
    · simp [udev₁, hrootInode, word]
    · intro i hi
      rw [List.mem_singleton.mp hi]
      exact Nat.lt_succ_self _
    · simp [udev₁, hrootDirent]
    · simp [udev₁, hrootDirent]
  have hfiles : FilesOk made.1 made.2.1 [ttyName 0] [made.2.2] := hok.addFile fun _ _ => rfl
  have hnone : CacheOk fs₁ udev₁ [] := ⟨[], HashTable.represents_empty, .nil⟩
  obtain ⟨entries, hentries, hperm⟩ : CacheOk made.1 made.2.1 [made.2.2] :=
    hnone.addFile fun _ hi => absurd hi List.not_mem_nil
  refine ⟨_, _, made.2.2, hrun, ⟨hfiles.length, hfiles.counter, hfiles.ids, hfiles.made, hfiles.root,
    hfiles.below, hfiles.children⟩, entries ++ [((made.1.inodes fs.nextInode).id, fs.nextInode)],
    hentries.set, ?_⟩
  exact (hperm.append_right _).trans (List.perm_append_singleton _ _)

/-- A call makes a file of its name, numbered by the counter. -/
theorem udevStep_eq (hnum : ∀ num, op = .createTty num → 0 ≤ num ∧ num < 1000000) :
    ∃ make : Nat → Nat → Inode, (∀ dir id, (make dir id).id = id) ∧
      s.step op = .ok ⟨(addFile s.fs s.udev op.name make).1, (addFile s.fs s.udev op.name make).2.1,
        s.returned ++ [(addFile s.fs s.udev op.name make).2.2]⟩ := by
  cases op with
  | createTty num =>
      obtain ⟨h0, h⟩ := hnum num rfl
      refine ⟨fun dir id => fifo dir id S_IRWXA, fun _ _ => rfl, ?_⟩
      simp only [UdevState.step, createTty_eq _ _ h0 h, ok_bind, pure_eq_ok]
      rfl
  | makeFile name mode => exact ⟨fun dir id => ⟨id, mode, 0, 0, 0, dir, .other⟩, fun _ _ => rfl, rfl⟩

/-- Different terminals have different names. -/
theorem ttyName_inj {n m : Int} (hn0 : 0 ≤ n) (hn : n < 4294967296) (hm0 : 0 ≤ m) (hm : m < 4294967296)
    (h : ttyName n = ttyName m) : n = m := by
  have hdigits := congrArg decimal (List.append_cancel_left h)
  rw [decimal_itoa hn0 hn, decimal_itoa hm0 hm] at hdigits
  omega

/-- **The state is in order**, with these names. -/
def UdevOk (s : UdevState) (tty0 : Nat) (names : List (List UInt8)) : Prop :=
  FilesOk s.fs s.udev names (tty0 :: s.returned) ∧
    CacheOk s.fs s.udev (s.udev.rootInode :: tty0 :: s.returned)

/-- **A call keeps the state in order.** -/
theorem UdevOk.step (h : UdevOk s tty0 names)
    (hnum : ∀ num, op = .createTty num → 0 ≤ num ∧ num < 1000000) :
    ∃ t, s.step op = .ok t ∧ UdevOk t tty0 (names ++ [op.name]) := by
  obtain ⟨hfiles, hcached⟩ := h
  obtain ⟨make, hid, hstep⟩ := udevStep_eq hnum
  exact ⟨_, hstep, hfiles.addFile hid, hcached.addFile hfiles.made⟩

/-- **A run keeps it in order.** -/
theorem UdevOk.run (h : UdevOk s tty0 names)
    (hnum : ∀ num, .createTty num ∈ ops → 0 ≤ num ∧ num < 1000000) :
    ∃ t, Lib.run UdevState.step s ops = .ok t ∧ UdevOk t tty0 (names ++ ops.map UdevOp.name) := by
  induction ops generalizing s names with
  | nil => exact ⟨s, rfl, by simpa using h⟩
  | cons op ops ih =>
      obtain ⟨u, hstep, hu⟩ := h.step fun num hop => hnum num (hop ▸ List.mem_cons_self)
      obtain ⟨t, hrun, ht⟩ := ih hu fun num hmem => hnum num (List.mem_cons_of_mem _ hmem)
      rw [List.append_assoc] at ht
      exact ⟨t, run_cons.mpr ⟨u, hstep, hrun⟩, ht⟩

/-- A device that is constructed and called is in order. -/
theorem udevState_run (fs : Fs) (hnum : ∀ num, .createTty num ∈ ops → 0 ≤ num ∧ num < 1000000) :
    ∃ s tty0, UdevState.run fs ops = .ok s ∧ UdevOk s tty0 (ttyName 0 :: ops.map UdevOp.name) := by
  obtain ⟨fs', udev, tty0, hnew, hok⟩ := newUdev_ok fs
  have hstart : UdevOk ⟨fs', udev, []⟩ tty0 [ttyName 0] := hok
  obtain ⟨t, hrun, ht⟩ := hstart.run hnum
  refine ⟨t, tty0, ?_, ht⟩
  unfold UdevState.run
  rw [hnew]
  exact hrun

/-! ## The registries -/

/-- With distinct names, and the counter not yet come around, the registries agree. -/
theorem FilesOk.registries (h : FilesOk fs udev names files)
    (hcached : CacheOk fs udev (udev.rootInode :: files)) (hnames : names.Nodup)
    (hlen : files.length < 4294967296) : Registries fs udev names files := by
  obtain ⟨entries, hentries, hperm⟩ := hcached
  have hids : ((udev.rootInode :: files).map fun i => (fs.inodes i).id).Nodup := by
    have hword : (List.range (files.length + 1)).map word = (List.range (files.length + 1)).map id :=
      List.map_congr_left fun k hk => word_of_lt (by have := List.mem_range.mp hk; omega)
    rw [h.ids, hword, List.map_id]
    exact List.nodup_range
  have hkeys : (entries.map Prod.fst).Perm ((udev.rootInode :: files).map fun i => (fs.inodes i).id) := by
    have hmap := hperm.map Prod.fst
    rwa [List.map_map] at hmap
  have hidents : (fs.dirents udev.rootDirent).children.map (fun d => (fs.dirents d).ident) = names := by
    have hmap := congrArg (List.map Prod.fst) h.children
    rw [List.map_map, List.map_map] at hmap
    exact hmap.trans (List.map_fst_zip (Nat.le_of_eq h.length))
  refine ⟨hids, ?_, ?_, ?_⟩
  · intro i hi
    refine hentries.get_of_mem (hkeys.nodup_iff.mpr hids) (hperm.mem_iff.mpr ?_)
    exact List.mem_map.mpr ⟨i, hi, rfl⟩
  · intro id hid
    exact hentries.get_of_not_mem fun hmem => hid (hkeys.mem_iff.mp hmem)
  · refine List.forall₂_iff_zip.mpr ⟨h.length, fun {name i} hmem => ?_⟩
    have hentry := List.mem_map_of_mem (f := fun f => (f.1, (fs.inodes f.2).id, some f.2)) hmem
    rw [← h.children] at hentry
    obtain ⟨d, hd, hentry⟩ := List.mem_map.mp hentry
    obtain ⟨hident, hnumber⟩ := Prod.mk.inj hentry
    obtain ⟨hid, hinode⟩ := Prod.mk.inj hnumber
    refine ⟨d, ?_, hid, hinode⟩
    rw [Fs.getChild_eq, NameGraph.child_eq_some]
    · exact ⟨hd, hident⟩
    · rw [← hidents] at hnames
      exact List.pairwise_map.mp hnames

/-- **The registries of a device agree** after every run of `create_tty` and `make_file` with distinct names,
    none of them `tty0`, that are fewer than `2^32 - 1`. -/
theorem udev_registries (fs : Fs) (ops : List UdevOp)
    (hnum : ∀ num, .createTty num ∈ ops → 0 ≤ num ∧ num < 1000000)
    (hnames : (ttyName 0 :: ops.map UdevOp.name).Nodup) (hlen : ops.length < 4294967295) :
    ∃ s tty0, UdevState.run fs ops = .ok s ∧
      Registries s.fs s.udev (ttyName 0 :: ops.map UdevOp.name) (tty0 :: s.returned) := by
  obtain ⟨s, tty0, hrun, hfiles, hcached⟩ := udevState_run fs hnum
  refine ⟨s, tty0, hrun, hfiles.registries hcached hnames ?_⟩
  rw [← hfiles.length, List.length_cons, List.length_map]
  omega

/-- A second terminal and a file `vga`. -/
theorem udev_registries_vga :
    ∃ s tty0, UdevState.run .empty [.createTty 1, .makeFile [118, 103, 97] 0o20777] = .ok s ∧
      Registries s.fs s.udev [ttyName 0, ttyName 1, [118, 103, 97]] (tty0 :: s.returned) :=
  udev_registries .empty [.createTty 1, .makeFile [118, 103, 97] 0o20777] (by simp) (by decide) (by decide)

/-! ## When the counter has come around -/

/-- The number `k`, written with eight letters for its hexadecimal digits. -/
def letterName (k : Nat) : List UInt8 := (List.range 8).map fun i => UInt8.ofNat (97 + k / 16 ^ i % 16)

theorem letterName_digit {k l i : Nat} (h : letterName k = letterName l) (hi : i < 8) :
    k / 16 ^ i % 16 = l / 16 ^ i % 16 := by
  have hbyte := congrArg UInt8.toNat (List.map_inj_left.mp h i (List.mem_range.mpr hi))
  rw [UInt8.toNat_ofNat', UInt8.toNat_ofNat'] at hbyte
  omega

/-- Numbers of `n` digits are the same if their digits are. -/
theorem eq_of_digits {n k l : Nat} (hk : k < 16 ^ n) (hl : l < 16 ^ n)
    (h : ∀ i, i < n → k / 16 ^ i % 16 = l / 16 ^ i % 16) : k = l := by
  induction n generalizing k l with
  | zero => exact (Nat.lt_one_iff.mp hk).trans (Nat.lt_one_iff.mp hl).symm
  | succ n ih =>
      have hlast : k / 1 % 16 = l / 1 % 16 := h 0 (Nat.succ_pos n)
      have hrest : k / 16 = l / 16 := by
        refine ih (Nat.div_lt_of_lt_mul (Nat.pow_succ' ▸ hk)) (Nat.div_lt_of_lt_mul (Nat.pow_succ' ▸ hl))
          ?_
        intro i hi
        rw [Nat.div_div_eq_div_mul, Nat.div_div_eq_div_mul, ← Nat.pow_succ']
        exact h (i + 1) (Nat.succ_lt_succ hi)
      omega

theorem letterName_inj {k l : Nat} (hk : k < 4294967296) (hl : l < 4294967296)
    (h : letterName k = letterName l) : k = l :=
  eq_of_digits (n := 8) hk hl fun _ hi => letterName_digit h hi

/-- So many files, with these names. -/
def letterFiles (n : Nat) : List UdevOp := (List.range n).map fun k => .makeFile (letterName k) 0o20777

@[simp] theorem letterFiles_length (n : Nat) : (letterFiles n).length = n := by simp [letterFiles]

theorem letterFiles_nodup {n : Nat} (hn : n ≤ 4294967296) :
    (ttyName 0 :: (letterFiles n).map UdevOp.name).Nodup := by
  have hnames : (letterFiles n).map UdevOp.name = (List.range n).map letterName := List.map_map
  rw [hnames, List.nodup_cons]
  constructor
  · intro hmem
    obtain ⟨k, _, hk⟩ := List.mem_map.mp hmem
    have hlength := congrArg List.length hk
    simp [letterName, ttyName, itoa] at hlength
  · apply List.nodup_range.map_on
    intro k hk l hl h
    exact letterName_inj (Nat.lt_of_lt_of_le (List.mem_range.mp hk) hn)
      (Nat.lt_of_lt_of_le (List.mem_range.mp hl) hn) h

/-- The files and the root directory are numbered in order, with 32 bits. -/
theorem FilesOk.id_eq {k : Nat} (h : FilesOk fs udev names files) (hk : k ≤ files.length) :
    ∃ i, (udev.rootInode :: files)[k]? = some i ∧ (fs.inodes i).id = word k := by
  have hget := congrArg (·[k]?) h.ids
  rw [List.getElem?_map, List.getElem?_map, List.getElem?_range (by omega)] at hget
  exact Option.map_eq_some_iff.mp hget

/-- **With `2^32 - 1` files** the last one has the number of the root directory. -/
theorem udev_counter_wraps :
    (∀ num, .createTty num ∈ letterFiles 4294967295 → 0 ≤ num ∧ num < 1000000) ∧
    (ttyName 0 :: (letterFiles 4294967295).map UdevOp.name).Nodup ∧
    (letterFiles 4294967295).length < 4294967296 ∧
    ∃ s, UdevState.run .empty (letterFiles 4294967295) = .ok s ∧ ∀ tty0, ¬ Registries s.fs s.udev
      (ttyName 0 :: (letterFiles 4294967295).map UdevOp.name) (tty0 :: s.returned) := by
  have hlength := letterFiles_length 4294967295
  have hnodup := letterFiles_nodup (n := 4294967295) (by omega)
  have hnum : ∀ num, .createTty num ∈ letterFiles 4294967295 → 0 ≤ num ∧ num < 1000000 := by
    intro num hmem
    obtain ⟨k, _, hk⟩ := List.mem_map.mp hmem
    cases hk
  generalize letterFiles 4294967295 = ops at hlength hnodup hnum ⊢
  refine ⟨hnum, hnodup, by omega, ?_⟩
  obtain ⟨s, tty0, hrun, hfiles, _⟩ := udevState_run .empty hnum
  have hcount : s.returned.length + 1 = 4294967296 := by
    have hcount := hfiles.length
    rw [List.length_cons, List.length_cons, List.length_map] at hcount
    omega
  refine ⟨s, hrun, ?_⟩
  intro tty0' hregistries
  -- the root directory and the last file
  obtain ⟨r, hr, hrid⟩ := hfiles.id_eq (Nat.zero_le _)
  obtain ⟨i, hi, hiid⟩ := hfiles.id_eq (Nat.le_refl _)
  obtain rfl := Option.some.inj hr
  rw [List.length_cons, hcount] at hi hiid
  have hmem : i ∈ s.returned := List.mem_of_getElem? (i := 4294967294) hi
  have hwrap : word 4294967296 = word 0 := by decide
  refine (List.nodup_cons.mp hregistries.ids).1 (List.mem_map.mpr ⟨i, List.mem_cons_of_mem _ hmem, ?_⟩)
  exact hiid.trans (hwrap.trans hrid.symm)

end WeirdOs
