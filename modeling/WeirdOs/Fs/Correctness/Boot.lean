import WeirdOs.Fs.Correctness.Image
import WeirdOs.Fs.Correctness.Runs
import WeirdOs.Fs.Correctness.Udev

/-!
# `Fs.Correctness.Boot` — the paths there are after boot

`__kernel_main__` constructs the ram disk and a `udev`, mounts them at `"/"` and `"/dev"`, and makes the file
`vga`. The `udev` takes the place of the entry `dev` of the ram disk, which has to be there; what was below
that entry is out of reach from then on. Every other path leads where it led on the host, and below `"/dev"`
there are `tty0` and `vga` and nothing else (`boot_paths`).

The four steps are taken one at a time. Making the `udev` leaves the dirents and inodes there were alone
(`Extends`), mounting grafts, and a device file is looked up like any other child (`addFile_getChild`).
-/

namespace WeirdOs

open Lib

variable {image : InitrdImage} {fs fs' fs'' : Fs} {L : HostDir} {udev : Udev} {name key : List UInt8}
variable {make : Nat → Nat → Inode} {root d e u : Nat} {names : List (List UInt8)}

/-- The name `dev`. -/
def devName : List UInt8 := [100, 101, 118]

/-- The name `vga`. -/
def vgaName : List UInt8 := [118, 103, 97]

/-! ## What is there stays -/

/-- The dirents and inodes made so far are the same in both stores. -/
structure Extends (fs fs' : Fs) : Prop where
  nextDirent : fs.nextDirent ≤ fs'.nextDirent
  nextInode : fs.nextInode ≤ fs'.nextInode
  dirents : ∀ d < fs.nextDirent, fs'.dirents d = fs.dirents d
  inodes : ∀ i < fs.nextInode, fs'.inodes i = fs.inodes i

theorem Extends.trans (h : Extends fs fs') (h' : Extends fs' fs'') : Extends fs fs'' where
  nextDirent := Nat.le_trans h.nextDirent h'.nextDirent
  nextInode := Nat.le_trans h.nextInode h'.nextInode
  dirents d hd := (h'.dirents d (Nat.lt_of_lt_of_le hd h.nextDirent)).trans (h.dirents d hd)
  inodes i hi := (h'.inodes i (Nat.lt_of_lt_of_le hi h.nextInode)).trans (h.inodes i hi)

theorem extends_makeDirent (fs : Fs) (ident : List UInt8) (parent : Option (Option Nat))
    (make : Nat → Inode) : Extends fs (fs.makeDirent ident parent make).1 where
  nextDirent := Nat.le_succ _
  nextInode := Nat.le_succ _
  dirents _ hd := Fs.makeDirent_of_ne fs (Nat.ne_of_lt hd)
  inodes _ hi := Fs.makeDirent_inode_of_ne fs (Nat.ne_of_lt hi)

/-- What is below a root that was made earlier stays below it. -/
theorem Rooted.extends {F : Forest Nat} (h : Rooted image fs root F)
    (hmade : root + 1 + F.size ≤ fs.nextDirent) (hext : Extends fs fs') : Rooted image fs' root F where
  children := by rw [hext.dirents root (by omega), h.children]
  parentless := by
    rw [hext.dirents root (by omega)]
    exact h.parentless
  made := h.made.imp fun q x i cs _ hlt hmade => by
    obtain ⟨ino, hino, hdirent, hinode⟩ := hmade
    refine ⟨ino, Nat.lt_of_lt_of_le hino hext.nextInode, ?_, ?_⟩
    · rw [hext.dirents x (by omega), hdirent]
    · rw [hext.inodes ino hino, hinode]

/-! ## Device files -/

theorem addFile_dirent (hd : d < fs.nextDirent) (hne : d ≠ udev.rootDirent) :
    (addFile fs udev name make).1.dirents d = fs.dirents d := by
  rw [addFile_fs, Fs.addChild, Fs.modifyDirent_of_ne _ hne, Fs.makeDirent_of_ne fs (Nat.ne_of_lt hd)]

/-- The root directory gets one more child. -/
theorem addFile_root (hroot : udev.rootDirent < fs.nextDirent) :
    (addFile fs udev name make).1.dirents udev.rootDirent =
      { fs.dirents udev.rootDirent with
        children := (fs.dirents udev.rootDirent).children ++ [fs.nextDirent] } := by
  rw [addFile_fs, Fs.addChild, Fs.modifyDirent_self, Fs.makeDirent_of_ne fs (Nat.ne_of_lt hroot)]

/-- The dirent of a new file. -/
theorem addFile_dirent_self (hroot : udev.rootDirent < fs.nextDirent) :
    (addFile fs udev name make).1.dirents fs.nextDirent =
      ⟨name, (make fs.nextDirent udev.inodeCounter).id, some fs.nextInode, some (some udev.rootDirent), []⟩ := by
  rw [addFile_fs, Fs.addChild, Fs.modifyDirent_of_ne _ (Nat.ne_of_gt hroot), Fs.makeDirent_self]

theorem addFile_inodeOf (hd : d < fs.nextDirent) :
    ((addFile fs udev name make).1.dirents d).inode = (fs.dirents d).inode :=
  congrArg (fun entry => entry.2.2) (show ((addFile fs udev name make).1.dirents d).entry = _ from addFile_entry hd)

/-- Names of dirents that were made are the same. -/
theorem addFile_ident (hd : d < fs.nextDirent) :
    ((addFile fs udev name make).1.dirents d).ident = (fs.dirents d).ident :=
  congrArg Prod.fst (show ((addFile fs udev name make).1.dirents d).entry = _ from addFile_entry hd)

/-- **Elsewhere the same children are found.** -/
theorem addFile_getChild (hne : e ≠ udev.rootDirent) (he : e < fs.nextDirent)
    (hmade : ∀ c ∈ (fs.dirents e).children, c < fs.nextDirent) :
    (addFile fs udev name make).1.getChild e key = fs.getChild e key := by
  unfold Fs.getChild
  rw [addFile_dirent he hne]
  apply List.find?_congr
  intro c hc
  rw [addFile_ident (hmade c hc)]

/-- In the root directory the new file is found after the others. -/
theorem addFile_getChild_root (hroot : udev.rootDirent < fs.nextDirent)
    (hmade : ∀ c ∈ (fs.dirents udev.rootDirent).children, c < fs.nextDirent) :
    (addFile fs udev name make).1.getChild udev.rootDirent key =
      (fs.getChild udev.rootDirent key).or (if key = name then some fs.nextDirent else none) := by
  unfold Fs.getChild
  rw [addFile_children hroot, List.find?_append, List.find?_cons, List.find?_nil, addFile_dirent_self hroot]
  have hold : (fs.dirents udev.rootDirent).children.find?
      (fun c => strcmp key ((addFile fs udev name make).1.dirents c).ident) =
      (fs.dirents udev.rootDirent).children.find? (fun c => strcmp key (fs.dirents c).ident) := by
    apply List.find?_congr
    intro c hc
    rw [addFile_ident (hmade c hc)]
  rw [hold]
  by_cases hkey : key = name
  · rw [if_pos hkey, strcmp_iff.mpr hkey]
  · rw [if_neg hkey, Bool.eq_false_iff.mpr (mt strcmp_iff.mp hkey)]

/-- There is nothing below a new file. -/
theorem addFile_getChild_self (hroot : udev.rootDirent < fs.nextDirent) :
    (addFile fs udev name make).1.getChild fs.nextDirent key = none := by
  unfold Fs.getChild
  rw [addFile_dirent_self hroot]
  rfl

/-- The last dirents that were made are those of a new `udev`: its root directory, and `tty0` in it. -/
structure HasUdev (fs : Fs) (udev : Udev) (u i : Nat) : Prop where
  rootDirent : udev.rootDirent = u
  nextDirent : fs.nextDirent = u + 2
  nextInode : fs.nextInode = i + 2
  root : fs.dirents u = ⟨[], 0, some i, none, [u + 1]⟩
  tty : fs.dirents (u + 1) = ⟨ttyName 0, 1, some (i + 1), some (some u), []⟩
  rootKind : (fs.inodes i).kind = .directoryLike
  ttyKind : (fs.inodes (i + 1)).kind = .fifo

/-- **The constructor `udev::udev`.** -/
theorem newUdev_makes (fs : Fs) : ∃ fs' udev, newUdev fs = .ok (fs', udev) ∧ Extends fs fs' ∧
    HasUdev fs' udev fs.nextDirent fs.nextInode := by
  let fs₁ := (fs.makeDirent [] none fun dir => directoryLike dir 0 S_IRWXA).1
  let udev₁ : Udev := ⟨fs.nextDirent, fs.nextInode, .empty, 1⟩
  let make : Nat → Nat → Inode := fun dir id => fifo dir id S_IRWXA
  let fs₂ := (addFile fs₁ udev₁ (ttyName 0) make).1
  have hroot₁ : fs₁.dirents fs.nextDirent = ⟨[], 0, some fs.nextInode, none, []⟩ := Fs.makeDirent_self fs
  have hext₁ : Extends fs fs₁ := extends_makeDirent fs _ _ _
  have hlt : udev₁.rootDirent < fs₁.nextDirent := Nat.lt_succ_self _
  refine ⟨fs₂, _, rfl, ⟨Nat.le_add_right _ 2, Nat.le_add_right _ 2, ?_, ?_⟩, rfl, rfl, rfl, ?_, ?_, ?_, ?_⟩
  · intro d hd
    rw [addFile_dirent (Nat.lt_succ_of_lt hd) (Nat.ne_of_lt hd), hext₁.dirents d hd]
  · intro i hi
    rw [addFile_inode (Nat.lt_succ_of_lt hi), hext₁.inodes i hi]
  · show (addFile fs₁ udev₁ (ttyName 0) make).1.dirents udev₁.rootDirent = _
    rw [addFile_root hlt, hroot₁]
    rfl
  · show (addFile fs₁ udev₁ (ttyName 0) make).1.dirents fs₁.nextDirent = _
    rw [addFile_dirent_self hlt]
    rfl
  · have hinode : fs₂.inodes fs.nextInode = fs₁.inodes fs.nextInode := addFile_inode (Nat.lt_succ_self _)
    rw [hinode]
    exact congrArg Inode.kind (Fs.makeDirent_inode fs)
  · show ((addFile fs₁ udev₁ (ttyName 0) make).1.inodes fs₁.nextInode).kind = _
    rw [addFile_inode_self]
    rfl

/-- A new `udev` is in no child list. -/
theorem HasUdev.notMem_children {i : Nat} (h : HasUdev fs' udev fs.nextDirent i) (hext : Extends fs fs')
    (hstore : StoreOk fs) (hstore' : StoreOk fs') (d : Nat) : fs.nextDirent ∉ (fs'.dirents d).children := by
  intro hd
  rcases Nat.lt_or_ge d fs.nextDirent with hlt | hge
  · rw [hext.dirents d hlt] at hd
    exact Nat.lt_irrefl _ (hstore.cells d _ hd).1
  obtain ⟨hmade, hpar | ⟨-, hasc⟩⟩ := hstore'.cells d _ hd
  · rw [h.root] at hpar
    cases hpar
  -- what ascends to it is `tty0`, or was not made
  cases hasc with
  | here =>
      rw [h.root, List.mem_singleton] at hd
      omega
  | @up _ p _ hp hasc =>
      rcases Nat.eq_or_lt_of_le hge with rfl | hgt
      · rw [h.root] at hp
        cases hp
      · rcases Nat.eq_or_lt_of_le hgt with rfl | hfar
        · rw [h.tty] at hd
          exact List.not_mem_nil hd
        · have hfresh := hstore'.fresh d (by rw [h.nextDirent]; omega)
          rw [hp] at hfresh
          cases hfresh

/-- Mounting another device at `"/"` changes the root of that only. -/
theorem mountRoot_dirent (h : d ≠ root) :
    ((fs.setIdent root name).clearParent root).dirents d = fs.dirents d := by
  rw [Fs.clearParent, Fs.modifyDirent_of_ne _ h, Fs.setIdent, Fs.modifyDirent_of_ne _ h]

theorem HasUdev.mountRoot {i : Nat} (h : HasUdev fs udev u i) (hroot : root < u) :
    HasUdev ((fs.setIdent root name).clearParent root) udev u i where
  rootDirent := h.rootDirent
  nextDirent := h.nextDirent
  nextInode := h.nextInode
  root := (mountRoot_dirent (by omega)).trans h.root
  tty := (mountRoot_dirent (by omega)).trans h.tty
  rootKind := h.rootKind
  ttyKind := h.ttyKind

/-! ## Mounting at `"/dev"` -/

/-- The tree of a ram disk is well-formed: parents and containers agree. -/
theorem Rooted.mountedTree {F : Forest Nat} (h : Rooted image fs root F) (htree : DirentTree fs root) :
    MountedTree fs root where
  toDirentTree := htree
  parents d p hd hp := by
    obtain ⟨ks, ht⟩ := hd
    rcases ht.last with ⟨-, rfl⟩ | ⟨u, ks', hu, hmem, -⟩
    · exact absurd hp (h.parentless p)
    · have hcell := (h.cell (h.inForest ⟨ks', hu⟩) hmem).2
      rw [hp] at hcell
      obtain rfl : p = u := Option.some.inj (Option.some.inj hcell)
      exact ⟨⟨ks', hu⟩, hmem⟩

/-- What mounting the device with root `u` in the place of the child `dev` of the root leaves. -/
structure MountsDev (fs fs' : Fs) (root u : Nat) : Prop where
  dev : fs'.getChild root devName = some u
  others : ∀ key, key ≠ devName → fs'.getChild root key = fs.getChild root key
  elsewhere : ∀ e, e ≠ root → ∀ key, fs'.getChild e key = fs.getChild e key
  children : ∀ e, ∀ c ∈ (fs'.dirents e).children, c = u ∨ c ∈ (fs.dirents e).children
  inode : ∀ e, (fs'.dirents e).inode = (fs.dirents e).inode
  inodes : fs'.inodes = fs.inodes
  nextDirent : fs'.nextDirent = fs.nextDirent
  nextInode : fs'.nextInode = fs.nextInode

theorem mountDevice_dev (device : FsDevice) (h : MountedTree fs root)
    (hchild : fs.getChild root devName = some d) (hpar : (fs.dirents d).parent = some (some root))
    (hdev : Unmounted fs root device.rootDirent) :
    ∃ fs', mountDevice fs ⟨some root⟩ (slash :: devName) device = .ok (fs', ⟨some root⟩) ∧
      MountsDev fs fs' root device.rootDirent := by
  have hres : resolvePath fs ⟨some root⟩ (slash :: devName) = .ok (some d) := by
    rw [resolvePath_slash, List.splitOn_eq_singleton (by decide), walkPath, if_pos (by decide), hchild]
    rfl
  obtain ⟨fs', i, hmount, hi, hgraph⟩ := mountDevice_graft h hres hpar hdev
  rw [List.tail_cons] at hgraph
  rw [Fs.getChild_eq] at hchild
  have hname : fs.graph.name d = devName := (NameGraph.child_mem hchild).2
  have hdistinct := h.tree.distinct root (.refl root)
  refine ⟨fs', hmount, ?_, ?_, ?_, ?_, ?_, ?_, ?_, ?_⟩
  · rw [Fs.getChild_eq, hgraph, ← hname]
    exact NameGraph.graft_child_self hi (hdev.2 root) hdistinct
  · intro key hkey
    rw [Fs.getChild_eq, Fs.getChild_eq, hgraph]
    exact NameGraph.graft_child_other hi (hdev.2 root) (hname ▸ hkey.symm) hkey.symm
  · intro e he key
    rw [Fs.getChild_eq, Fs.getChild_eq, hgraph]
    exact NameGraph.graft_child_of_ne he (hdev.2 e)
  all_goals
    rcases mountDevice_cases hmount rfl with ⟨hpath, -⟩ | ⟨-, -, _, _, p, j, -, -, -, -, rfl⟩
    · exact absurd hpath (by decide)
  · intro e c hc
    rw [Fs.setChild_children, Fs.setIdent_children, Fs.setIdent_children] at hc
    split at hc
    · exact (List.mem_or_eq_of_mem_set hc).symm
    · exact .inr hc
  · intro e
    rw [Fs.setChild_inode, Fs.setIdent_inode, Fs.setIdent_inode]
  · rfl
  · rfl
  · rfl

/-! ## The run -/

/-- What `__kernel_main__` leaves: `old` is the ram disk mounted at `"/"`; the root directory has `u` for
    its child `dev`, and the files `t` and `v` are in `u`. -/
structure Booted (old fs : Fs) (root u t v : Nat) : Prop where
  dev : fs.getChild root devName = some u
  others : ∀ key, key ≠ devName → fs.getChild root key = old.getChild root key
  below : ∀ e, old.graph.Reaches root e → e ≠ root → ∀ key, fs.getChild e key = old.getChild e key
  files : ∀ key, fs.getChild u key = if key = ttyName 0 then some t else if key = vgaName then some v else none
  ttyLeaf : ∀ key, fs.getChild t key = none
  vgaLeaf : ∀ key, fs.getChild v key = none
  inode : ∀ e, old.graph.Reaches root e → (fs.dirents e).inode = (old.dirents e).inode
  inodes : ∀ i < old.nextInode, fs.inodes i = old.inodes i
  uKind : ∃ ino, (fs.dirents u).inode = some ino ∧ (fs.inodes ino).kind = .directoryLike
  tKind : ∃ ino, (fs.dirents t).inode = some ino ∧ (fs.inodes ino).kind = .fifo
  vKind : ∃ ino, (fs.dirents v).inode = some ino ∧ (fs.inodes ino).kind = .other

/-- **The last two steps**: a `udev` that is not mounted is mounted at `"/dev"`, and gets the file `vga`. -/
theorem booted_of_mountsDev {old mounted : Fs} {F : Forest Nat} {i : Nat} (hu : HasUdev old udev u i)
    (hrooted : Rooted image old root F) (hroom : root + 1 + F.size ≤ u)
    (hmount : MountsDev old mounted root u)
    (hcells : ∀ e, ∀ c ∈ (old.dirents e).children, c < old.nextDirent) :
    Booted old (makeFile mounted udev vgaName 0o20777).1 root u (u + 1) (u + 2) := by
  obtain rfl := hu.rootDirent
  have hnext : mounted.nextDirent = udev.rootDirent + 2 := hmount.nextDirent.trans hu.nextDirent
  have hinodes : mounted.nextInode = i + 2 := hmount.nextInode.trans hu.nextInode
  have hlt : udev.rootDirent < mounted.nextDirent := by omega
  have hchildren : ∀ e, ∀ c ∈ (mounted.dirents e).children, c < mounted.nextDirent := by
    intro e c hc
    rcases hmount.children e c hc with rfl | hold
    · exact hlt
    · rw [hmount.nextDirent]
      exact hcells e c hold
  -- a lookup that does not begin in the `udev` is as it was before the file was made
  have hfile : ∀ e, e ≠ udev.rootDirent → e < mounted.nextDirent → ∀ key,
      (makeFile mounted udev vgaName 0o20777).1.getChild e key = mounted.getChild e key :=
    fun e he hlt key => addFile_getChild he hlt (hchildren e)
  have hforest : ∀ e, old.graph.Reaches root e → e < udev.rootDirent := by
    intro e he
    rcases hrooted.inForest he with rfl | hin
    · omega
    · omega
  have hkind : ∀ d, d < mounted.nextDirent → ∀ ino, (old.dirents d).inode = some ino →
      ino < mounted.nextInode → ((makeFile mounted udev vgaName 0o20777).1.dirents d).inode = some ino ∧
        (makeFile mounted udev vgaName 0o20777).1.inodes ino = old.inodes ino := by
    intro d hd ino hino hltInode
    refine ⟨(addFile_inodeOf hd).trans ((hmount.inode d).trans hino), ?_⟩
    exact (addFile_inode hltInode).trans (by rw [hmount.inodes])
  refine ⟨?_, ?_, ?_, ?_, ?_, ?_, ?_, ?_, ?_, ?_, ?_⟩
  · rw [hfile root (by omega) (by omega), hmount.dev]
  · intro key hkey
    rw [hfile root (by omega) (by omega), hmount.others key hkey]
  · intro e he hne key
    have hlt := hforest e he
    rw [hfile e (by omega) (by omega), hmount.elsewhere e hne]
  · intro key
    have hold : mounted.getChild udev.rootDirent key =
        if key = ttyName 0 then some (udev.rootDirent + 1) else none := by
      rw [hmount.elsewhere _ (by omega), Fs.getChild, hu.root, List.find?_cons, List.find?_nil, hu.tty]
      by_cases hkey : key = ttyName 0
      · rw [if_pos hkey, strcmp_iff.mpr hkey]
      · rw [if_neg hkey, Bool.eq_false_iff.mpr (mt strcmp_iff.mp hkey)]
    refine (addFile_getChild_root hlt (hchildren _)).trans ?_
    rw [hold, hnext]
    by_cases hkey : key = ttyName 0
    · rw [if_pos hkey, if_pos hkey]
      rfl
    · rw [if_neg hkey, if_neg hkey]
      rfl
  · intro key
    rw [hfile _ (by omega) (by omega), hmount.elsewhere _ (by omega), Fs.getChild, hu.tty]
    rfl
  · intro key
    rw [← hnext]
    exact addFile_getChild_self hlt
  · intro e he
    have hlt := hforest e he
    exact (addFile_inodeOf (by omega)).trans (hmount.inode e)
  · intro ino hino
    rw [hu.nextInode, ← hinodes] at hino
    exact (addFile_inode hino).trans (by rw [hmount.inodes])
  · obtain ⟨hinode, hsame⟩ := hkind udev.rootDirent hlt i (by rw [hu.root]) (by omega)
    exact ⟨i, hinode, hsame ▸ hu.rootKind⟩
  · obtain ⟨hinode, hsame⟩ := hkind (udev.rootDirent + 1) (by omega) (i + 1) (by rw [hu.tty]) (by omega)
    exact ⟨i + 1, hinode, hsame ▸ hu.ttyKind⟩
  · rw [← hnext]
    exact ⟨mounted.nextInode, by rw [show (makeFile mounted udev vgaName 0o20777).1.dirents
      mounted.nextDirent = _ from addFile_dirent_self hlt], congrArg Inode.kind addFile_inode_self⟩

/-- **Boot succeeds** on a ram disk with an entry `dev`. -/
theorem boot_booted {disk : Fs} {entry : HostEntry} (hinitrd : initrd image .empty = .ok (disk, 0))
    (hload : Loaded image .empty disk L) (hok : L.Ok) (hentry : entry ∈ L.toList)
    (hname : entry.name = devName) :
    ∃ files old u, FsState.run .empty (bootOps image) = .ok files ∧ files.vfs = ⟨some 0⟩ ∧
      Rooted image old 0 (L.toForest 1 .nil) ∧ Booted old files.fs 0 u (u + 1) (u + 2) := by
  obtain ⟨made, udev, hnew, hext, hu⟩ := newUdev_makes disk
  have hsize : disk.nextDirent = 0 + 1 + (L.toForest 1 .nil).size := by
    have hnext : disk.nextDirent = 0 + (0 + (L.toForest 1 .nil).size + 1) := hload.cached.nextDirent
    omega
  let old := (made.setIdent 0 [slash]).clearParent 0
  have hrooted : Rooted image old 0 (L.toForest 1 .nil) :=
    (hload.cached.rooted.extends (Nat.le_of_eq hsize.symm) hext).mount
  have hu₀ : HasUdev old udev disk.nextDirent disk.nextInode := hu.mountRoot (by omega)
  -- the first three steps
  have h₁ : FsState.empty.step (.newInitrd image) = .ok ⟨disk, ⟨none⟩, [.initrd 0]⟩ := by
    rw [FsState.step, show FsState.empty.fs = Fs.empty from rfl, hinitrd]
    rfl
  have h₂ : FsState.step ⟨disk, ⟨none⟩, [.initrd 0]⟩ .newUdev =
      .ok ⟨made, ⟨none⟩, [.initrd 0, .udev udev]⟩ := by
    rw [FsState.step, hnew]
    rfl
  have h₃ : FsState.step ⟨made, ⟨none⟩, [.initrd 0, .udev udev]⟩ (.mountDevice [47] 0) =
      .ok ⟨old, ⟨some 0⟩, [.initrd 0, .udev udev]⟩ := rfl
  have hok₁ := stateOk_empty.step (fun _ _ h => by cases h) h₁
  have hok₂ := hok₁.step (fun _ _ h => by cases h) h₂
  have hcells : ∀ d, (old.dirents d).children = (made.dirents d).children := fun d => by
    rw [Fs.clearParent_children, Fs.setIdent_children]
  -- the `udev` is not mounted yet, and the ram disk has something to mount it on
  have hmirrors := hrooted.mirrors hload.encoded hok
  have htree : MountedTree old 0 := hrooted.mountedTree (hrooted.direntTree hok hmirrors)
  have hunmounted : Unmounted old 0 udev.rootDirent := by
    rw [hu.rootDirent]
    refine ⟨by omega, fun d => ?_⟩
    rw [hcells]
    exact hu.notMem_children hext hok₁.store hok₂.store d
  obtain ⟨d, htrail, -⟩ := trail_of_entry (.here hentry) hmirrors
  have hdescend := htree.tree.descend_iff.mpr htrail
  rw [NameGraph.descend, hname] at hdescend
  obtain ⟨c, hchild, hc⟩ := Option.bind_eq_some_iff.mp hdescend
  obtain rfl := Option.some.inj hc
  have hpar := (hrooted.cell (.inl rfl) (NameGraph.child_mem hchild).1).2
  obtain ⟨mounted, hmount, hmounts⟩ := mountDevice_dev (.udev udev) htree (by rw [Fs.getChild_eq]; exact hchild)
    hpar hunmounted
  have h₄ : FsState.step ⟨old, ⟨some 0⟩, [.initrd 0, .udev udev]⟩ (.mountDevice [47, 100, 101, 118] 1) =
      .ok ⟨mounted, ⟨some 0⟩, [.initrd 0, .udev udev]⟩ := by
    show (mountDevice old ⟨some 0⟩ (slash :: devName) (.udev udev) >>= _) = _
    rw [hmount]
    rfl
  have h₅ : FsState.step ⟨mounted, ⟨some 0⟩, [.initrd 0, .udev udev]⟩ (.makeFile 1 [118, 103, 97] 0o20777) =
      .ok ⟨(makeFile mounted udev vgaName 0o20777).1, ⟨some 0⟩,
        [.initrd 0, .udev (makeFile mounted udev vgaName 0o20777).2.1]⟩ := rfl
  let files : FsState := ⟨(makeFile mounted udev vgaName 0o20777).1, ⟨some 0⟩,
    [.initrd 0, .udev (makeFile mounted udev vgaName 0o20777).2.1]⟩
  refine ⟨files, old, disk.nextDirent, ?_, rfl, hrooted, ?_⟩
  · exact run_cons.mpr ⟨_, h₁, run_cons.mpr ⟨_, h₂, run_cons.mpr ⟨_, h₃, run_cons.mpr ⟨_, h₄,
      run_cons.mpr ⟨_, h₅, rfl⟩⟩⟩⟩⟩
  · refine booted_of_mountsDev hu₀ hrooted (Nat.le_of_eq hsize.symm) (hu.rootDirent ▸ hmounts) ?_
    intro e c hc
    rw [hcells] at hc
    exact (hok₂.store.cells e c hc).1

/-! ## Paths -/

section Booted

variable {old : Fs} {t v : Nat} {rest : List (List UInt8)}

/-- **Outside `"/dev"`** walks go as on the ram disk. -/
theorem Booted.walk_other (h : Booted old fs root u t v) (htree : old.graph.IsTree root) (hkey : key ≠ devName) :
    walkPath fs (key :: rest) root = walkPath old (key :: rest) root := by
  rw [walkPath, walkPath, h.others key hkey]
  cases hchild : old.getChild root key with
  | none => rfl
  | some c =>
      rw [Fs.getChild_eq] at hchild
      have hc := (NameGraph.child_mem hchild).1
      have hbelow : walkPath fs rest c = walkPath old rest c := by
        apply walkPath_congr
        intro e name he
        exact h.below e (((NameGraph.Reaches.refl root).child hc).trans he) (htree.ne_root hc he) name
      simp only [hbelow]

/-- **Inside** they go on from the root of the `udev`. -/
theorem Booted.walk_dev (h : Booted old fs root u t v) :
    walkPath fs (devName :: rest) root = walkPath fs rest u := by
  rw [walkPath, if_pos (by decide), h.dev]

/-- Where nothing is below, a walk finds nothing. -/
theorem walkPath_leaf (hleaf : ∀ key, fs.getChild e key = none) :
    walkPath fs names e = .ok (some d) ↔ names = [] ∧ d = e := by
  cases names with
  | nil =>
      rw [walkPath, and_iff_right rfl, Except.ok.injEq, Option.some.injEq, eq_comm]
  | cons name names =>
      rw [walkPath, hleaf]
      refine iff_of_false ?_ (by rintro ⟨h, -⟩; cases h)
      split <;> intro h <;> cases h

/-- **In the `udev`** there are its root and the two files. -/
theorem Booted.walk_udev (h : Booted old fs root u t v) : walkPath fs rest u = .ok (some d) ↔
    rest = [] ∧ d = u ∨ rest = [ttyName 0] ∧ d = t ∨ rest = [vgaName] ∧ d = v := by
  have hne : vgaName ≠ ttyName 0 := by decide
  cases rest with
  | nil =>
      simp [walkPath, eq_comm]
  | cons name names =>
      rw [walkPath, h.files]
      by_cases htty : name = ttyName 0
      · rw [if_pos htty, if_pos (by rw [htty]; decide)]
        dsimp only
        rw [walkPath_leaf h.ttyLeaf]
        simp [htty, hne.symm]
      · by_cases hvga : name = vgaName
        · rw [if_neg htty, if_pos hvga, if_pos (by rw [hvga]; decide)]
          dsimp only
          rw [walkPath_leaf h.vgaLeaf]
          simp [hvga, hne]
        · rw [if_neg htty, if_neg hvga]
          simp only [List.cons.injEq, htty, hvga, false_and, or_false, reduceCtorEq]
          refine iff_of_false ?_ id
          split <;> intro h <;> cases h

end Booted

/-- What there is to find. -/
inductive BootNode where
  /-- An entry of the host's directory. -/
  | host (e : HostEntry)
  /-- The root directory of the `udev`. -/
  | dev
  /-- The terminal `tty0`. -/
  | tty0
  /-- The console `vga`. -/
  | vga

/-- Where it is: entries are where they were on the host, unless that is in `"/dev"`. -/
inductive BootAt (L : HostDir) : List (List UInt8) → BootNode → Prop where
  | host {names : List (List UInt8)} {e : HostEntry} : L.EntryAt names e → names.head? ≠ some devName →
    BootAt L names (.host e)
  | dev : BootAt L [devName] .dev
  | tty0 : BootAt L [devName, ttyName 0] .tty0
  | vga : BootAt L [devName, vgaName] .vga

/-- The inode is one for that: a host's file is read from it, the others are of their class. -/
def BootNode.Shown (ino : Inode) : BootNode → Prop
  | .host e => Shows ino e.stat e.content
  | .dev    => ino.kind = .directoryLike
  | .tty0   => ino.kind = .fifo
  | .vga    => ino.kind = .other

/-- The names on the way are usable. -/
theorem BootAt.usable {node : BootNode} (h : BootAt L names node) (hok : L.Ok) :
    names ≠ [] ∧ ∀ name ∈ names, name.length ≤ 254 ∧ slash ∉ name := by
  cases h with
  | host he _ =>
      obtain ⟨hnil, hnames, -⟩ := hok.entryAt he
      refine ⟨hnil, fun name hname => ⟨?_, (hnames name hname).2.2⟩⟩
      have := (hnames name hname).2.1
      omega
  | dev => exact ⟨by simp, by decide⟩
  | tty0 => exact ⟨by simp, by decide⟩
  | vga => exact ⟨by simp, by decide⟩

/-- Its path has the names for its components. -/
theorem BootAt.components {node : BootNode} (h : BootAt L names node) (hok : L.Ok) :
    components (absolutePath names) = names := by
  obtain ⟨hnil, hnames⟩ := h.usable hok
  exact List.splitOn_intercalate slash (fun name hname => (hnames name hname).2) hnil

section Loaded

variable {old : Fs}

/-- An inode of the ram disk has been made. -/
theorem Rooted.inode_lt {F : Forest Nat} {ino : Nat} (h : Rooted image fs root F) (hd : InForest root F d)
    (hne : d ≠ root) (hino : (fs.dirents d).inode = some ino) : ino < fs.nextInode := by
  obtain ⟨hle, hlt⟩ := hd.resolve_left hne
  obtain ⟨q, a, cs, ⟨ino', hlt', hmade, -⟩, -⟩ := h.made.node_at hle hlt
  rw [hmade] at hino
  obtain rfl := Option.some.inj hino
  exact hlt'

/-- **Entries outside `"/dev"`** are found, with the inodes that were made for them. -/
theorem Booted.entry {disk : Fs} {t v : Nat} {en : HostEntry} (h : Booted old fs root u t v)
    (hrooted : Rooted image old root (L.toForest 1 .nil)) (hload : Loaded image .empty disk L) (hok : L.Ok)
    (he : L.EntryAt names en) (hout : names.head? ≠ some devName) :
    ∃ d ino rd, resolvePath fs ⟨some root⟩ (absolutePath names) = .ok (some d) ∧
      (fs.dirents d).inode = some ino ∧ fs.inodes ino = cacheInode image d rd ∧
      WrittenFor image rd en := by
  have htree := hrooted.direntTree hok (hrooted.mirrors hload.encoded hok)
  obtain ⟨d, htrail, ⟨-, ino, rd, hinode, hmade, hwritten⟩, -⟩ :=
    HostDir.Placed.trail he (fun _ _ hd => hd.1) (hrooted.placed hload.encoded hok)
  have hat : BootAt L names (.host en) := .host he hout
  obtain ⟨hnil, hnames⟩ := hat.usable hok
  have hne : d ≠ root := by
    rintro rfl
    exact hnil (htree.tree.trail_root htrail)
  have hreach : old.graph.Reaches root d := ⟨names, htrail⟩
  have hlt := hrooted.inode_lt (hrooted.inForest hreach) hne hinode
  refine ⟨d, ino, rd, ?_, (h.inode d hreach).trans hinode, (h.inodes ino hlt).trans hmade, hwritten⟩
  have hwalk : walkPath old names root = .ok (some d) :=
    walkPath_eq_some.mpr ⟨fun name hname => Nat.lt_succ_of_le (hnames name hname).1,
      htree.tree.descend_iff.mpr htrail⟩
  rw [absolutePath, resolvePath_slash, show ([slash].intercalate names).splitOn slash = names from
    hat.components hok]
  cases names with
  | nil => exact absurd rfl hnil
  | cons key rest => rw [h.walk_other htree.tree (by simpa using hout), hwalk]

/-- **What resolves after boot**: the path of an entry outside `"/dev"`, or one of the three others. -/
theorem Booted.resolves_iff {disk : Fs} {t v : Nat} {path : List UInt8} (h : Booted old fs root u t v)
    (hrooted : Rooted image old root (L.toForest 1 .nil)) (hload : Loaded image .empty disk L) (hok : L.Ok)
    (hhead : path.head? = some slash) (hfit : ∀ name ∈ components path, name.length ≤ 254) :
    (∃ d, resolvePath fs ⟨some root⟩ path = .ok (some d)) ↔ ∃ node, BootAt L (components path) node := by
  have hmirrors := hrooted.mirrors hload.encoded hok
  have htree := hrooted.direntTree hok hmirrors
  rw [resolvePath_eq, if_pos hhead]
  obtain ⟨key, rest, hnames⟩ := List.exists_cons_of_ne_nil (List.splitOn_ne_nil slash path.tail)
  change components path = key :: rest at hnames
  rw [hnames] at hfit ⊢
  by_cases hkey : key = devName
  · rw [hkey, h.walk_dev]
    simp only [h.walk_udev]
    constructor
    · rintro ⟨d, ⟨rfl, -⟩ | ⟨rfl, -⟩ | ⟨rfl, -⟩⟩
      · exact ⟨_, .dev⟩
      · exact ⟨_, .tty0⟩
      · exact ⟨_, .vga⟩
    · rintro ⟨node, hat⟩
      cases hat with
      | host _ hout => exact absurd rfl hout
      | dev => exact ⟨_, .inl ⟨rfl, rfl⟩⟩
      | tty0 => exact ⟨_, .inr (.inl ⟨rfl, rfl⟩)⟩
      | vga => exact ⟨_, .inr (.inr ⟨rfl, rfl⟩)⟩
  · rw [h.walk_other htree.tree hkey]
    have hold : ∀ d, walkPath old (key :: rest) root = .ok (some d) ↔
        old.graph.Trail root (key :: rest) d := by
      intro d
      rw [walkPath_eq_some, htree.tree.descend_iff, and_iff_right]
      exact fun name hname => Nat.lt_succ_of_le (hfit name hname)
    simp only [hold]
    constructor
    · rintro ⟨d, htrail⟩
      obtain ⟨e, he, -⟩ := entry_of_trail htrail (List.cons_ne_nil _ _) hmirrors
      exact ⟨_, .host he (by simpa using hkey)⟩
    · rintro ⟨node, hat⟩
      cases hat with
      | host he _ =>
          obtain ⟨d, htrail, -⟩ := trail_of_entry he hmirrors
          exact ⟨d, htrail⟩
      | dev => exact absurd rfl hkey
      | tty0 => exact absurd rfl hkey
      | vga => exact absurd rfl hkey

end Loaded

/-- **The paths there are after boot.** For a tree of regular files and directories with names of 1 to 135
    bytes, of at most 255 entries with the root and less than `2^31` bytes, that has an entry `dev`, `makefs`
    builds an image, and every kernel that finds it in memory comes up. Then an absolute path whose components
    have at most 254 bytes resolves if and only if it is the path of an entry of the host that is not in
    `"/dev"`, or `"/dev"`, `"/dev/tty0"` or `"/dev/vga"`; and it leads to an inode that shows what is there: the
    bytes of the host's file, a directory, a fifo, the console. -/
theorem boot_paths (stat : Stat) {entry : HostEntry} (hok : L.Ok) (hcount : L.count + 1 ≤ 255)
    (hbytes : L.bytes < 2147483648) (hentry : entry ∈ L.toList) (hname : entry.name = devName) :
    ∃ file, makefs stat L = .ok file ∧ ∀ image : InitrdImage, image.Holds file →
      ∃ files, FsState.run .empty (bootOps image) = .ok files ∧
        (∀ path, path.head? = some slash → (∀ name ∈ components path, name.length ≤ 254) →
          ((∃ d, resolvePath files.fs files.vfs path = .ok (some d)) ↔
            ∃ node, BootAt L (components path) node)) ∧
        ∀ names node, BootAt L names node → ∃ d ino,
          resolvePath files.fs files.vfs (absolutePath names) = .ok (some d) ∧
          (files.fs.dirents d).inode = some ino ∧ node.Shown (files.fs.inodes ino) := by
  obtain ⟨file, hmakefs, -, hread⟩ := makefs_loaded stat hok hcount hbytes
  refine ⟨file, hmakefs, ?_⟩
  intro image hholds
  obtain ⟨disk, hinitrd, hload⟩ := hread image hholds .empty
  obtain ⟨files, old, u, hrun, hvfs, hrooted, hbooted⟩ := boot_booted hinitrd hload hok hentry hname
  refine ⟨files, hrun, ?_, ?_⟩
  · intro path hhead hfit
    rw [hvfs]
    exact hbooted.resolves_iff hrooted hload hok hhead hfit
  · intro names node hat
    rw [hvfs]
    -- in `"/dev"` the walk goes on in the `udev`
    have hdev : ∀ rest d, components (absolutePath (devName :: rest)) = devName :: rest →
        (rest = [] ∧ d = u ∨ rest = [ttyName 0] ∧ d = u + 1 ∨ rest = [vgaName] ∧ d = u + 2) →
        resolvePath files.fs ⟨some 0⟩ (absolutePath (devName :: rest)) = .ok (some d) := by
      intro rest d hcomponents hd
      rw [resolvePath_eq, if_pos (by rfl), hcomponents, hbooted.walk_dev, hbooted.walk_udev]
      exact hd
    cases hat with
    | host he hout =>
        obtain ⟨d, ino, rd, hres, hinode, hmade, hwritten⟩ := hbooted.entry hrooted hload hok he hout
        exact ⟨d, ino, hres, hinode, hmade ▸ hwritten.shows⟩
    | dev =>
        obtain ⟨ino, hinode, hkind⟩ := hbooted.uKind
        exact ⟨u, ino, hdev [] u (BootAt.dev.components hok) (.inl ⟨rfl, rfl⟩), hinode, hkind⟩
    | tty0 =>
        obtain ⟨ino, hinode, hkind⟩ := hbooted.tKind
        exact ⟨u + 1, ino, hdev _ _ (BootAt.tty0.components hok) (.inr (.inl ⟨rfl, rfl⟩)), hinode, hkind⟩
    | vga =>
        obtain ⟨ino, hinode, hkind⟩ := hbooted.vKind
        exact ⟨u + 2, ino, hdev _ _ (BootAt.vga.components hok) (.inr (.inr ⟨rfl, rfl⟩)), hinode, hkind⟩

/-- The listing of a directory with a directory `dev`, which holds a file, and a file `hi`. -/
def bootDir : HostDir :=
  .entry devName ⟨0o40755, 0, 0, 4096⟩ [] smallSubdir (.entry [104, 105] ⟨0o100644, 0, 0, 3⟩ [97, 98, 99] .nil .nil)

/-- Of that directory `"/hi"` is found, and `"/dev/f"` is not. -/
theorem boot_paths_hi : ∃ file, makefs ⟨0o40755, 0, 0, 4096⟩ bootDir = .ok file ∧
    ∀ image : InitrdImage, image.Holds file → ∃ files d ino,
      FsState.run .empty (bootOps image) = .ok files ∧
      resolvePath files.fs files.vfs [47, 104, 105] = .ok (some d) ∧
      (files.fs.dirents d).inode = some ino ∧ (files.fs.inodes ino).read 2 0 = some (2, [97, 98]) ∧
      ¬ ∃ d', resolvePath files.fs files.vfs [47, 100, 101, 118, 47, 102] = .ok (some d') := by
  have hok : bootDir.Ok := by
    simp [bootDir, smallSubdir, HostDir.Ok, HostDir.toList, slash, devName]
  have hdev : (⟨devName, ⟨0o40755, 0, 0, 4096⟩, [], smallSubdir⟩ : HostEntry) ∈ bootDir.toList :=
    List.mem_cons_self
  obtain ⟨file, hmakefs, hboot⟩ := boot_paths ⟨0o40755, 0, 0, 4096⟩ hok (by decide) (by decide) hdev rfl
  refine ⟨file, hmakefs, ?_⟩
  intro image hholds
  obtain ⟨files, hrun, hpaths, hnodes⟩ := hboot image hholds
  have hhi : (⟨[104, 105], ⟨0o100644, 0, 0, 3⟩, [97, 98, 99], .nil⟩ : HostEntry) ∈ bootDir.toList :=
    List.mem_cons_of_mem _ List.mem_cons_self
  obtain ⟨d, ino, hres, hinode, hshows⟩ := hnodes [[104, 105]] _ (.host (.here hhi) (by decide))
  have hcomponents : components [47, 100, 101, 118, 47, 102] = [devName, [102]] := by
    simp [components, List.splitOn_cons_eq_if_modifyHead, slash, devName]
  refine ⟨files, d, ino, hrun, hres, hinode, hshows 2, ?_⟩
  rw [hpaths _ rfl (by rw [hcomponents]; decide), hcomponents]
  rintro ⟨node, hat⟩
  cases hat with
  | host _ hout => exact hout rfl

end WeirdOs
