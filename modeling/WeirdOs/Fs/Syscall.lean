import WeirdOs.Fs.Vfs

/-!
# `Fs.Syscall` — opening and closing files (`kernel/fs/fs.cpp`, `kernel/fs/fs.h`)

A process has a table of 512 files. `syscall_open_at` puts a file into a given place of it, `syscall_open`
into the place that `last_desc` says, which it counts up; `syscall_close` does nothing. The number of a
place is not checked: one that is not in the table is the fault `bounds "fdtable.data"`.
-/

namespace WeirdOs

open Lib

/-- `FD_MAX`. -/
def FD_MAX : Nat := 512

/-- `O_WRONLY`. -/
def O_WRONLY : Int := 0x10

/-- `struct file`. -/
structure File where
  references : Int
  inode : Option Nat
  oflag : Int
  offset : Nat
deriving DecidableEq, Repr

/-- `struct fdtable`: the files, or null pointers, and `last_desc`. -/
structure Fdtable where
  data : Nat → Option File
  lastDesc : Nat

/-- The table of a new process, filled with zeros. -/
def Fdtable.empty : Fdtable := ⟨fun _ => none, 0⟩

/-- The place in the table that `fildes` is the number of. -/
def checkFildes (fildes : Int) : Exec Nat :=
  if 0 ≤ fildes ∧ fildes < FD_MAX then .ok fildes.toNat else .error (.bounds "fdtable.data")

/-- `syscall_open_at` behind `new file`, which takes the memory for the file. The kernel that has a heap has
    both (`Kernel.syscallOpenAt`). -/
def syscallOpenAt (fs : Fs) (vfs : Vfs) (t : Fdtable) (fildes : Int) (path : List UInt8) (oflag : Int) :
    Exec (Fdtable × Int) := do
  let place ← checkFildes fildes
  let dirOpt ← resolvePath fs vfs path
  assert dirOpt.isSome "dir_opt.has_value() && \"bad open syscall\""
  let dir ← value dirOpt
  let f : File := { references := 1, inode := (fs.dirents dir).inode, oflag, offset := 0 }
  return ({ t with data := Function.update t.data place (some f) }, fildes)

/-- `syscall_open`. -/
def syscallOpen (fs : Fs) (vfs : Vfs) (t : Fdtable) (path : List UInt8) (oflag : Int) :
    Exec (Fdtable × Int) :=
  syscallOpenAt fs vfs { t with lastDesc := add32 t.lastDesc 1 } (toInt32 t.lastDesc) path oflag

/-- `syscall_close`. -/
def syscallClose (t : Fdtable) (_fildes : Int) : Fdtable × Int := (t, 0)

theorem checkFildes_eq_ok {fildes : Int} {place : Nat} :
    checkFildes fildes = .ok place ↔ fildes = place ∧ place < FD_MAX := by
  unfold checkFildes
  by_cases h : 0 ≤ fildes ∧ fildes < FD_MAX
  · rw [if_pos h, Except.ok.injEq]
    omega
  · rw [if_neg h]
    apply iff_of_false (fun h' => by cases h')
    omega

/-- **What `syscall_open_at` does**, when it returns. -/
theorem syscallOpenAt_eq_ok {fs : Fs} {vfs : Vfs} {t t' : Fdtable} {fildes fd : Int} {path : List UInt8}
    {oflag : Int} : syscallOpenAt fs vfs t fildes path oflag = .ok (t', fd) ↔
      ∃ (place dir : Nat), fildes = (place : Int) ∧ place < FD_MAX ∧
        resolvePath fs vfs path = .ok (some dir) ∧
        t' = { t with data := Function.update t.data place (some ⟨1, (fs.dirents dir).inode, oflag, 0⟩) } ∧
        fd = fildes := by
  constructor
  · intro h
    obtain ⟨place, hplace, h⟩ := bind_eq_ok.mp h
    obtain ⟨dirOpt, hresolve, h⟩ := bind_eq_ok.mp h
    obtain ⟨_, hassert, h⟩ := bind_eq_ok.mp h
    obtain ⟨dir, hdir, h⟩ := bind_eq_ok.mp h
    obtain ⟨hfildes, hlt⟩ := checkFildes_eq_ok.mp hplace
    obtain rfl := value_eq_ok.mp hdir
    obtain ⟨rfl, rfl⟩ := Prod.mk.inj (Except.ok.inj h)
    exact ⟨place, dir, hfildes, hlt, hresolve, rfl, rfl⟩
  · rintro ⟨place, dir, rfl, hlt, hresolve, rfl, rfl⟩
    unfold syscallOpenAt
    rw [checkFildes_eq_ok.mpr ⟨rfl, hlt⟩, ok_bind, hresolve]
    rfl

/-! ## Calls -/

/-- Opening and closing. -/
inductive FdOp where
  | openAt (fildes : Int) (path : List UInt8) (oflag : Int)
  | open (path : List UInt8) (oflag : Int)
  | close (fildes : Int)

/-- The path it opens can be resolved. -/
def FdOp.Resolves (fs : Fs) (vfs : Vfs) : FdOp → Prop
  | .openAt _ path _ => ∃ dir, resolvePath fs vfs path = .ok (some dir)
  | .open path _     => ∃ dir, resolvePath fs vfs path = .ok (some dir)
  | .close _         => True

/-- The table of a process. `inUse` is not a variable of the source: these descriptors have been opened, and
    not closed since. -/
structure FdState where
  table : Fdtable
  inUse : Int → Bool

/-- A new process. -/
def FdState.new : FdState := ⟨.empty, fun _ => false⟩

/-- One call. -/
def FdState.step (fs : Fs) (vfs : Vfs) (s : FdState) : FdOp → Exec FdState
  | .openAt fildes path oflag => do
    let (table, fd) ← syscallOpenAt fs vfs s.table fildes path oflag
    return ⟨table, Function.update s.inUse fd true⟩
  | .open path oflag          => do
    let (table, fd) ← syscallOpen fs vfs s.table path oflag
    return ⟨table, Function.update s.inUse fd true⟩
  | .close fildes             => do
    let (table, _) := syscallClose s.table fildes
    return ⟨table, Function.update s.inUse fildes false⟩

/-- The path of the console, `"/dev/vga"`. -/
def consolePath : List UInt8 := [47, 100, 101, 118, 47, 118, 103, 97]

/-- The call by which the kernel opens it. -/
def openConsole : FdOp := .openAt 0 consolePath O_WRONLY

/-- The calls of a process, after the console has been opened. -/
def FdState.run (fs : Fs) (vfs : Vfs) (ops : List FdOp) : Exec FdState :=
  Lib.run (FdState.step fs vfs) .new (openConsole :: ops)

end WeirdOs
