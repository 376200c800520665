import WeirdOs.Fs.Vfs

/-!
# `Fs.Udev` — the device file system (`kernel/fs/udev.cpp`, `kernel/fs/udev.h`)

A flat directory of device files. `create_tty` and `make_file` are the same but for where the name and
the inode come from (`addFile`). A file is known in three places: its number comes from a counter, its
inode is cached under that number, and its dirent is a child of the root directory.
-/

namespace WeirdOs

/-- `S_IRWXO | S_IRWXG | S_IRWXU`. -/
def S_IRWXA : Nat := 0o777

/-- The common part of `create_tty` and `make_file`: a dirent of that name in the root directory, with
    the inode that `make` builds for it and a number from `get_inode_id`. The inode is returned. -/
def addFile (fs : Fs) (udev : Udev) (name : List UInt8) (make : Nat → Nat → Inode) : Fs × Udev × Nat :=
  let inode := fs.nextInode
  let (fs, dir) := fs.makeDirent name (some (some udev.rootDirent)) fun dir => make dir udev.inodeCounter
  (fs.addChild udev.rootDirent dir,
    { udev with
      inodeCounter := add32 udev.inodeCounter 1
      inodeCache := udev.inodeCache.set (fs.inodes inode).id inode },
    inode)

/-- The name of a terminal. -/
def ttyName (num : Int) : List UInt8 := [116, 116, 121] ++ itoa num 10

/-- `udev::create_tty`. The name is written into a block of 10 bytes, NUL included. -/
def createTty (fs : Fs) (udev : Udev) (num : Int) : Exec (Fs × Udev × Nat) :=
  if (ttyName num).length < 10 then .ok (addFile fs udev (ttyName num) fun dir id => fifo dir id S_IRWXA)
  else .error (.bounds "name")

/-- `udev::make_file<T>`, for a class `T` whose constructor sets the mode. -/
def makeFile (fs : Fs) (udev : Udev) (name : List UInt8) (mode : Nat) : Fs × Udev × Nat :=
  addFile fs udev name fun dir id => ⟨id, mode, 0, 0, 0, dir, .other⟩

/-- The constructor `udev::udev`: a root directory without a name, and `tty0` in it. The inode of the root
    directory goes into the cache last. -/
def newUdev (fs : Fs) : Exec (Fs × Udev) := do
  let rootInode := fs.nextInode
  let (fs, rootDirent) := fs.makeDirent [] none fun dir => directoryLike dir 0 S_IRWXA
  let (fs, udev, _) ← createTty fs ⟨rootDirent, rootInode, .empty, 1⟩ 0
  return (fs, { udev with inodeCache := udev.inodeCache.set (fs.inodes rootInode).id rootInode })

/-- `udev::get_inode`. -/
def Udev.getInode (udev : Udev) (inode : Nat) : Option Nat := udev.inodeCache.get inode

theorem addFile_eq (fs : Fs) (udev : Udev) (name : List UInt8) (make : Nat → Nat → Inode) :
    addFile fs udev name make =
      ((fs.makeDirent name (some (some udev.rootDirent)) fun dir => make dir udev.inodeCounter).1.addChild
          udev.rootDirent fs.nextDirent,
        { udev with
          inodeCounter := add32 udev.inodeCounter 1
          inodeCache := udev.inodeCache.set (make fs.nextDirent udev.inodeCounter).id fs.nextInode },
        fs.nextInode) := by
  have hid : ((fs.makeDirent name (some (some udev.rootDirent)) fun dir =>
      make dir udev.inodeCounter).1.inodes fs.nextInode).id = (make fs.nextDirent udev.inodeCounter).id := by
    rw [Fs.makeDirent_inode]
  rw [← hid]
  rfl

/-- A number of at most six digits leaves room for the NUL. -/
theorem createTty_eq (fs : Fs) (udev : Udev) {num : Int} (h0 : 0 ≤ num) (h : num < 1000000) :
    createTty fs udev num = .ok (addFile fs udev (ttyName num) fun dir id => fifo dir id S_IRWXA) := by
  have hlength := itoa_length h0 h
  apply if_pos
  unfold ttyName
  rw [List.length_append]
  exact Nat.lt_of_le_of_lt (Nat.add_le_add_left hlength _) (by decide)

/-! ## A device in use -/

/-- The calls that make files. -/
inductive UdevOp where
  | createTty (num : Int)
  | makeFile (name : List UInt8) (mode : Nat)

/-- The name of the file. -/
def UdevOp.name : UdevOp → List UInt8
  | .createTty num   => ttyName num
  | .makeFile name _ => name

/-- The store, a device, and the inodes that its calls have returned. -/
structure UdevState where
  fs : Fs
  udev : Udev
  returned : List Nat

/-- One call. -/
def UdevState.step (s : UdevState) : UdevOp → Exec UdevState
  | .createTty num      => do
    let (fs, udev, inode) ← WeirdOs.createTty s.fs s.udev num
    return ⟨fs, udev, s.returned ++ [inode]⟩
  | .makeFile name mode => do
    let (fs, udev, inode) := WeirdOs.makeFile s.fs s.udev name mode
    return ⟨fs, udev, s.returned ++ [inode]⟩

/-- A device is constructed, and then called. -/
def UdevState.run (fs : Fs) (ops : List UdevOp) : Exec UdevState := do
  let (fs, udev) ← newUdev fs
  Lib.run UdevState.step ⟨fs, udev, []⟩ ops

end WeirdOs
