import WeirdOs.Fs.Initrd
import WeirdOs.Fs.Udev

/-!
# `Fs.Run` — setting up and using the file system (`kernel/fs/fs.cpp`)

The operations that make and change dirents, one after the other: constructing devices, adding device
files, mounting. `init_fs` is a run of four of them.
-/

namespace WeirdOs

open Lib

/-- What is done to the file system. Devices are known by the order in which they were constructed. -/
inductive FsOp where
  /-- `make_rc<initrd>`, with the image at `initrd_location`. -/
  | newInitrd (image : InitrdImage)
  /-- `make_rc<udev>`. -/
  | newUdev
  /-- `create_tty(num)` of a device. -/
  | createTty (dev : Nat) (num : Int)
  /-- `make_file(name)` of a device. -/
  | makeFile (dev : Nat) (name : List UInt8) (mode : Nat)
  /-- `mount_device(path, device)`. -/
  | mountDevice (path : List UInt8) (dev : Nat)

/-- The dirents and inodes, the virtual file system, the devices. -/
structure FsState where
  fs : Fs
  vfs : Vfs
  devices : List FsDevice

/-- After the constructor `vfs::vfs`. -/
def FsState.empty : FsState := ⟨Fs.empty, ⟨none⟩, []⟩

/-- The device number `dev`, which has to be there. -/
def FsState.device (s : FsState) (dev : Nat) : Exec FsDevice :=
  match s.devices[dev]? with
  | some device => .ok device
  | none        => .error (.misuse "device")

/-- The `udev` number `dev`. -/
def FsState.udev (s : FsState) (dev : Nat) : Exec Udev :=
  match s.devices[dev]? with
  | some (.udev udev) => .ok udev
  | _                 => .error (.misuse "udev")

/-- One operation. -/
def FsState.step (s : FsState) : FsOp → Exec FsState
  | .newInitrd image => do
    let (fs, rootDirent) ← initrd image s.fs
    return { s with fs, devices := s.devices ++ [.initrd rootDirent] }
  | .newUdev => do
    let (fs, udev) ← WeirdOs.newUdev s.fs
    return { s with fs, devices := s.devices ++ [.udev udev] }
  | .createTty dev num => do
    let udev ← s.udev dev
    let (fs, udev, _) ← WeirdOs.createTty s.fs udev num
    return { s with fs, devices := s.devices.set dev (.udev udev) }
  | .makeFile dev name mode => do
    let udev ← s.udev dev
    let (fs, udev, _) := WeirdOs.makeFile s.fs udev name mode
    return { s with fs, devices := s.devices.set dev (.udev udev) }
  | .mountDevice path dev => do
    let device ← s.device dev
    let (fs, vfs) ← WeirdOs.mountDevice s.fs s.vfs path device
    return { s with fs, vfs }

/-- A run: the operations in order, the first fault ends it. -/
def FsState.run : FsState → List FsOp → Exec FsState := Lib.run FsState.step

/-- The operations of `init_fs`: `initrd_dev` is device 0 and `virt_udev` device 1; they are mounted at
    `"/"` and at `"/dev"`. -/
def initFsOps (image : InitrdImage) : List FsOp :=
  [.newInitrd image, .newUdev, .mountDevice [47] 0, .mountDevice [47, 100, 101, 118] 1]

/-- `init_fs`. -/
def initFs (image : InitrdImage) : Exec FsState := FsState.run .empty (initFsOps image)

/-- The operations of `__kernel_main__` up to `init_vga`. -/
def bootOps (image : InitrdImage) : List FsOp := initFsOps image ++ [.makeFile 1 [118, 103, 97] 0o20777]

end WeirdOs
