import WeirdOs.Fs.Initrd

/-!
# `Fs.Makefs` — building the ram disk image (`scripts/makefs.c`)

The program that turns a directory of the host into an image. What it learns from the host is a listing:
the entries in the order in which `readdir` returns them, each with what `fstat` and `read` say about it.
It numbers the entries as it meets them and writes one dirent and one inode for each; the contents of the
files go one after the other into a buffer that grows by `realloc`, which is taken to succeed.
-/

namespace WeirdOs

open Lib

/-! ## The host -/

/-- `struct stat`, as far as it is read. -/
structure Stat where
  mode : Nat
  uid : Nat
  gid : Nat
  size : Nat
deriving DecidableEq, Repr

/-- A directory of the host, in the order of `readdir`. -/
inductive HostDir where
  /-- No more entries. -/
  | nil
  /-- The entry `"."`, or `".."`. -/
  | dots (dotdot : Bool) (rest : HostDir)
  /-- An entry: its name, what `fstat` says, the bytes that `read` returns from it, and the listing that
      `opendir` starts. -/
  | entry (name : List UInt8) (stat : Stat) (content : List UInt8) (entries rest : HostDir)

/-- `S_ISDIR` of the host's headers. -/
def hostIsDir (mode : Nat) : Bool := mode &&& 0o170000 == 0o40000

/-! ## The program -/

/-- The global variables: `out`, `out_data` with its capacity and fill, and `id`. -/
structure Makefs where
  out : InitrdHeader
  outData : Mem
  outDataCap : Nat
  outDataOffset : Nat
  id : Nat

namespace Makefs

/-- The variables after the allocations of `main`: the header is zero. -/
def init : Makefs where
  out := ⟨0, fun _ => ⟨[], 0, 0, 0, 0⟩, fun _ => ⟨0, 0, 0, 0, 0, 0⟩⟩
  outData _ := 0
  outDataCap := 0xff
  outDataOffset := 0
  id := 0

/-- Change `out->dirents[i]`. -/
def modifyDirent (m : Makefs) (i : Nat) (f : InitrdDirent → InitrdDirent) : Makefs :=
  { m with out := { m.out with dirents := fun j => if j = i then f (m.out.dirents i) else m.out.dirents j } }

/-- Change `out->inodes[i]`. -/
def modifyInode (m : Makefs) (i : Nat) (f : InitrdInode → InitrdInode) : Makefs :=
  { m with out := { m.out with inodes := fun j => if j = i then f (m.out.inodes i) else m.out.inodes j } }

variable (m : Makefs) {i j : Nat} {f : InitrdDirent → InitrdDirent} {g : InitrdInode → InitrdInode}

@[simp] theorem modifyDirent_dirents : (m.modifyDirent i f).out.dirents j =
    if j = i then f (m.out.dirents i) else m.out.dirents j := rfl

@[simp] theorem modifyDirent_inodes : (m.modifyDirent i f).out.inodes = m.out.inodes := rfl

@[simp] theorem modifyInode_dirents : (m.modifyInode i g).out.dirents = m.out.dirents := rfl

@[simp] theorem modifyInode_inodes : (m.modifyInode i g).out.inodes j =
    if j = i then g (m.out.inodes i) else m.out.inodes j := rfl

@[simp] theorem modifyDirent_offset : (m.modifyDirent i f).outDataOffset = m.outDataOffset := rfl

@[simp] theorem modifyInode_offset : (m.modifyInode i g).outDataOffset = m.outDataOffset := rfl

@[simp] theorem modifyDirent_outData : (m.modifyDirent i f).outData = m.outData := rfl

@[simp] theorem modifyInode_outData : (m.modifyInode i g).outData = m.outData := rfl

end Makefs

/-- `convert_dirent`. `id` is a `uint8_t`; there is room for 255 dirents, and for names of up to 135
    bytes. -/
def convertDirent (m : Makefs) (stat : Stat) (name : List UInt8) : Exec (Makefs × Nat) :=
  let curId := m.id
  let m := { m with id := (m.id + 1) % 256 }
  if ¬ curId < 0xff then .error (.bounds "out->dirents")
  else if ¬ name.length + 1 ≤ 0x88 then .error (.bounds "name")
  else
    let m := m.modifyDirent curId fun d => { d with name, inodeId := curId }
    let m := m.modifyInode curId fun _ =>
      { id := curId, mode := word stat.mode, uid := 0xabcdef1, gid := word stat.gid
        size := if hostIsDir stat.mode then 0 else word stat.size, data := 12341234 }
    .ok (m, curId)

/-- `load_data(fd, size)`, for an `fd` that `content` is read from: where the bytes went. `size_t` is 64
    bits wide on the host, the capacity and the offset are 32. -/
def loadData (m : Makefs) (content : List UInt8) (size : Nat) : Exec (Makefs × Nat) :=
  let m := if m.outDataOffset + size > m.outDataCap then
      { m with outDataCap := word (m.outDataOffset + size + 0xff) } else m
  if size = 0 then .ok (m, m.outDataOffset)
  else if ¬ m.outDataOffset + size ≤ m.outDataCap then .error (.bounds "out_data")
  else .ok ({ m with
      outData := writeBytes m.outData m.outDataOffset (content.take size)
      outDataOffset := word (m.outDataOffset + size) }, m.outDataOffset)

/-- The loop of `traverse_dir`, up to the test for a directory. -/
def startEntry (m : Makefs) (stat : Stat) (name : List UInt8) (parent last : Nat) :
    Exec (Makefs × Nat) := do
  let (m, my) ← convertDirent m stat name
  return (m.modifyDirent my fun d => { d with parent := parent, sibling := last }, my)

/-- The rest for a directory whose last entry is `child`. -/
def finishDir (m : Makefs) (my child : Nat) : Makefs :=
  (m.modifyDirent my fun d => { d with firstChild := child }).modifyInode my fun i => { i with data := 0 }

/-- The rest for any other file. -/
def finishFile (m : Makefs) (my : Nat) (content : List UInt8) (size : Nat) : Exec Makefs := do
  let (m, data) ← loadData (m.modifyDirent my fun d => { d with firstChild := 0 }) content size
  return m.modifyInode my fun i => { i with data := data }

/-- The loop of `traverse_dir` over the rest of the listing: `parent` is the dirent of the directory,
    `last` the one met before. -/
def traverseDir (m : Makefs) (parent last : Nat) : HostDir → Exec (Makefs × Nat)
  | .nil => .ok (m, last)
  | .dots _ rest => traverseDir m parent last rest
  | .entry name stat content entries rest =>
    if name = [46] ∨ name = [46, 46] then traverseDir m parent last rest
    else do
      let (m, my) ← startEntry m stat name parent last
      let m ← (if hostIsDir stat.mode then do
          let (m, child) ← traverseDir m my 0 entries
          return finishDir m my child
        else finishFile m my content stat.size)
      traverseDir m parent my rest

/-- The output file: the header, and the first `out_data_offset` bytes of `out_data`. -/
structure ImageFile where
  header : InitrdHeader
  data : List UInt8

/-- `main`, for an input directory with this `fstat` result and this listing. -/
def makefs (stat : Stat) (listing : HostDir) : Exec ImageFile := do
  let (m, dirId) ← convertDirent Makefs.init stat [47]
  assert (dirId = 0) "dir_id == 0 && \"Root dir must be zero\""
  let (m, firstChild) ← traverseDir m dirId 0 listing
  -- the mode of the root is replaced by one without the directory bit
  let m := m.modifyDirent dirId fun d => { d with firstChild, sibling := 0 }
  let m := m.modifyInode dirId fun i => { i with uid := 0, gid := 0, mode := 0o777, data := 0 }
  return { header := { m.out with numDirent := m.id }
           data := (List.range m.outDataOffset).map m.outData }

/-- The image in memory holds the file: its header, and its data right after the header. -/
def InitrdImage.Holds (image : InitrdImage) (file : ImageFile) : Prop :=
  image.header = file.header ∧ ∀ i, i < file.data.length → some (image.fileData i) = file.data[i]?

end WeirdOs
