import WeirdOs.Fs.Dirent
import WeirdOs.Util.Hashmap

/-!
# `Fs.Vfs` — the virtual file system (`kernel/fs/vfs.cpp`)

Path resolution and mounting. A path is the text before its NUL. `resolve_path` walks over the
characters and collects one component at a time in a buffer of 255 bytes; writing past its end is the
fault `bounds "buf"`.
-/

namespace WeirdOs

/-- The character `'/'`. -/
def slash : UInt8 := 47

/-- `class udev`. -/
structure Udev where
  rootDirent : Nat
  rootInode : Nat
  inodeCache : Hashmap Nat
  inodeCounter : Nat

/-- `class fs_device`: the devices that can be mounted. Of `class initrd` only the root directory is
    used after construction. -/
inductive FsDevice where
  | initrd (rootDirent : Nat)
  | udev (udev : Udev)

/-- The root directory of a device. -/
def FsDevice.rootDirent : FsDevice → Nat
  | .initrd rootDirent => rootDirent
  | .udev u            => u.rootDirent

/-- `class vfs`: its root directory, null until a device is mounted at `"/"`. -/
structure Vfs where
  rootDirent : Option Nat
deriving DecidableEq, Repr

/-- The body of `initrd::mount` and of `udev::mount`: rename the root directory and return it. -/
def mountRoot (fs : Fs) (rootDirent : Nat) (name : List UInt8) : Fs × Nat :=
  (fs.setIdent rootDirent name, rootDirent)

/-- `device->mount(name)`. -/
def FsDevice.mount (fs : Fs) (device : FsDevice) (name : List UInt8) : Fs × Nat :=
  match device with
  | .initrd rootDirent => mountRoot fs rootDirent name
  | .udev u            => mountRoot fs u.rootDirent name

theorem FsDevice.mount_eq (fs : Fs) (device : FsDevice) (name : List UInt8) :
    device.mount fs name = mountRoot fs device.rootDirent name := by
  cases device <;> rfl

/-- Whether `buf[i]` may be written: `char buf[0xff]`. -/
def checkBuf (i : Nat) : Exec Unit :=
  if i < 0xff then .ok () else .error (.bounds "buf")

/-- The loop of `resolve_path` over the rest of the path; `buf` holds the characters of the component
    so far. Where the path ends, the code after the loop. -/
def resolveLoop (fs : Fs) : List UInt8 → List UInt8 → Option Nat → Exec (Option Nat)
  | [], buf, current => do
    checkBuf buf.length
    let cur ← deref "current" current
    return fs.getChild cur buf
  | c :: path, buf, current =>
    if c = slash then do
      checkBuf buf.length
      let cur ← deref "current" current
      match fs.getChild cur buf with
      | some next => resolveLoop fs path [] (some next)
      | none => return none
    else do
      checkBuf buf.length
      resolveLoop fs path (buf ++ [c]) current

/-- `vfs::resolve_path`. -/
def resolvePath (fs : Fs) (vfs : Vfs) (path : List UInt8) : Exec (Option Nat) := do
  assert (path.head? = some slash) "path[0] == '/' && \"Path names must be relative to root dir\""
  resolveLoop fs path.tail [] vfs.rootDirent

/-- `vfs::mount_device`. The root of the device is renamed before the path is resolved; away from `"/"`
    it takes the place of the first child of the parent that is called like the dirent found. -/
def mountDevice (fs : Fs) (vfs : Vfs) (path : List UInt8) (device : FsDevice) : Exec (Fs × Vfs) := do
  let (fs, mountDirent) := device.mount fs path
  if path.head? = some slash ∧ strlen path = 1 then
    return (fs.clearParent mountDirent, { vfs with rootDirent := some mountDirent })
  else
    let direntOpt ← resolvePath fs vfs path
    assert direntOpt.isSome "dirent_opt.has_value() && \"Bad mount\""
    let dirent ← value direntOpt
    -- `++path`: all components of the path become one name
    let fs := fs.setIdent mountDirent path.tail
    assert (fs.dirents dirent).parent.isSome "dirent->parent.has_value() && \"VFS issue\""
    let parentHandle ← value (fs.dirents dirent).parent
    let parent ← deref "parent" parentHandle
    let iter ← value (fs.getChildIter parent (fs.dirents dirent).ident)
    return (fs.setChild parent iter mountDirent, vfs)

end WeirdOs
