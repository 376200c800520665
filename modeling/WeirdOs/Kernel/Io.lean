import WeirdOs.Drivers.Correctness.Vga
import WeirdOs.Fs.Correctness.Resolve
import WeirdOs.Kernel.Correctness.Interrupt

/-!
# `Kernel.Io` — the kernel as a program sees it

The reference for system calls. To a program the kernel is a terminal without end, a queue of bytes for every
fifo, files that do not change, a table of what is open, and the memory that is mapped for programs. It does
not see the cells of the screen, the heap and the fifos in it, the shifts in them, nor the stub by which it
enters the kernel.

`Io.step` says what an operation does, `Io.Allows` what may be asked for: buffers in the memory for programs,
fifos that have room, ranges inside files, paths that lead somewhere, and no more files than there is room for
on the heap. A program is any sequence of `GuestOp`; what it computes, reads and stores may depend on all its
registers.
-/

namespace WeirdOs

open Lib

/-! ## What users do not change -/

/-- The files and their root, where the fifos and the files of the ram disk are, and the memory for programs,
    which is none of the kernel's. A read of a fifo shifts bytes from behind its end, which is on the heap too. -/
structure IoSetup where
  files : FsState
  root : Nat
  /-- The buffer of each fifo, on the heap. -/
  buffer : Nat → Nat
  /-- The data of each file. -/
  dataAt : Nat → Nat
  user : Nat → Prop
  mounted : files.vfs = ⟨some root⟩
  fifos : ∀ i, (files.fs.inodes i).kind = .fifo →
    KHEAP_START ≤ buffer i ∧ buffer i + 2 * fifoSize ≤ KHEAP_START + KHEAP_SIZE
  apart : ∀ i j, (files.fs.inodes i).kind = .fifo → (files.fs.inodes j).kind = .fifo → i ≠ j →
    buffer i + 260 ≤ buffer j ∨ buffer j + 260 ≤ buffer i
  outside : ∀ a, user a → ¬ KernelMemory a

/-- The class of an inode. -/
def IoSetup.kind (s : IoSetup) (i : Nat) : InodeKind := (s.files.fs.inodes i).kind

/-- A range of the memory for programs. -/
structure IoSetup.UserRange (s : IoSetup) (a n : Nat) : Prop where
  fits : a + n ≤ 4294967296
  user : ∀ x, a ≤ x → x < a + n → s.user x

/-- That many bytes of a file, from an offset on, are in the memory of the kernel. -/
def IoSetup.OnDisk (s : IoSetup) (i offset n : Nat) : Prop :=
  ∀ j < min (s.files.fs.inodes i).size n, KernelMemory (add32 (add32 (s.dataAt i) offset) j)

/-- What has to be mapped: the memory of the kernel, and that for programs, which run with its rights. -/
def IoSetup.Mapped (s : IoSetup) (mapped : Access → Nat → Bool) : Prop :=
  ∀ write a, KernelMemory a ∨ s.user a → mapped ⟨false, write⟩ a = true

/-! ## The reference -/

/-- What programs and the kernel do. -/
inductive IoOp where
  /-- A byte of memory is written. -/
  | store (a : Nat) (v : UInt8)
  /-- `syscall_handler`. -/
  | syscall (r : Regs)
  /-- `syscall_open_at`, in the kernel. -/
  | openAt (fildes : Int) (path : List UInt8) (oflag : Int)
  /-- `printk`. -/
  | printk (text : List UInt8)

/-- What there is to see. -/
structure Io where
  terminal : Terminal UInt8
  /-- What has been written to a fifo and not been read. -/
  queue : Nat → List UInt8
  /-- The inode behind a descriptor. -/
  file : Nat → Option Nat
  /-- The next descriptor. -/
  next : Nat
  mem : Mem
  /-- The number of files that there is room for. -/
  room : Nat

/-- Before anything is done. -/
def Io.start (mem : Mem) (room : Nat) : Io := ⟨.start, fun _ => [], fun _ => none, 0, mem, room⟩

/-- Bytes are sent to a terminal. -/
def typed (t : Terminal UInt8) (text : List UInt8) : Terminal UInt8 :=
  text.foldl (fun t c => t.write 80 (vgaInput c)) t

/-- The message about a number that is no system call. -/
def invalidMessage (n : Nat) : List UInt8 := Kernel.invalidSyscall.take 16 ++ itoa (toInt32 n) 10

namespace Io

variable (s : IoSetup) (io : Io)

/-- A path is opened, as descriptor `place`. -/
def opened (place : Nat) (path : List UInt8) : Io :=
  match s.files.fs.graph.descend s.root (components path) with
  | some dir => { io with
      file := Function.update io.file place (s.files.fs.dirents dir).inode, room := io.room - 1 }
  | none     => io

/-- A path that can be opened. -/
def CanOpen (path : List UInt8) : Prop :=
  0 < io.room ∧ path.head? = some slash ∧ (∀ name ∈ components path, name.length ≤ 254) ∧
    ∃ dir, s.files.fs.graph.descend s.root (components path) = some dir

/-- The inode behind the descriptor in a register. -/
def inode (fildes : UInt32) : Option Nat := if fildes.toNat < FD_MAX then io.file fildes.toNat else none

/-- `n` bytes are read into memory. -/
def readInto (i buf n offset : Nat) : Io :=
  match s.kind i with
  | .rdfs data     =>
    let content := (List.range (s.files.fs.inodes i).size).map data
    { io with mem := writeBytes io.mem buf ((content.drop offset).take n) }
  | .fifo          =>
    if n ≤ (io.queue i).length then
      { io with
        mem := writeBytes io.mem buf ((io.queue i).take n)
        queue := Function.update io.queue i ((io.queue i).drop n) }
    else io
  | .directoryLike => io
  | .other         => io

/-- `n` bytes of memory are written. -/
def writeFrom (i buf n : Nat) : Io :=
  match s.kind i with
  | .fifo          => { io with queue := Function.update io.queue i (io.queue i ++ bytesAt io.mem buf n) }
  | .other         => { io with terminal := typed io.terminal (bytesAt io.mem buf n) }
  | .rdfs _        => io
  | .directoryLike => io

/-- Text is printed, without its NULs. -/
def print (text : List UInt8) : Io := { io with terminal := typed io.terminal (text.filter (· ≠ 0)) }

/-- What is done. -/
def step : IoOp → Io
  | .store a v        => { io with mem := store8 io.mem a v }
  | .openAt fd path _ => io.opened s fd.toNat path
  | .printk text      => io.print text
  | .syscall r        =>
    match r.eax.toNat with
    | 0 =>
      match textAt io.mem r.ebx.toNat with
      | .ok path => { io.opened s io.next path with next := io.next + 1 }
      | .error _ => io
    | 1 => io
    | 2 =>
      match io.inode r.ebx with
      | some i => io.readInto s i r.ecx.toNat r.edx.toNat r.esi.toNat
      | none   => io
    | 3 =>
      match io.inode r.ebx with
      | some i => io.writeFrom s i r.ecx.toNat r.edx.toNat
      | none   => io
    | n => io.print (invalidMessage n)

/-- What may be read, and where to. -/
def AllowsRead (i buf n offset : Nat) : Prop :=
  match s.kind i with
  | .rdfs _        =>
    (offset = 0 ∨ offset + n ≤ (s.files.fs.inodes i).size) ∧ s.OnDisk i offset n ∧ s.UserRange buf n
  | .fifo          => n ≤ (io.queue i).length → s.UserRange buf n
  | .directoryLike => True
  | .other         => True

/-- What may be written, and where from. -/
def AllowsWrite (i buf n : Nat) : Prop :=
  match s.kind i with
  | .fifo          => (io.queue i).length + n ≤ fifoSize ∧ s.UserRange buf n
  | .other         => s.UserRange buf n
  | .rdfs _        => True
  | .directoryLike => True

/-- What may be asked for. -/
def Allows : IoOp → Prop
  | .store a _        => s.UserRange a 1
  | .openAt fd path _ => 0 ≤ fd ∧ fd < FD_MAX ∧ io.CanOpen s path
  | .printk _         => True
  | .syscall r        =>
    match r.eax.toNat with
    | 0 => io.next < FD_MAX ∧ ∃ len, s.UserRange r.ebx.toNat (len + 1) ∧ io.mem (r.ebx.toNat + len) = 0 ∧
        io.CanOpen s ((bytesAt io.mem r.ebx.toNat len).takeWhile (· ≠ 0))
    | 2 => ∃ i, io.inode r.ebx = some i ∧ io.AllowsRead s i r.ecx.toNat r.edx.toNat r.esi.toNat
    | 3 => ∃ i, io.inode r.ebx = some i ∧ io.AllowsWrite s i r.ecx.toNat r.edx.toNat
    | _ => True

end Io

/-! ## The code -/

/-- The kernel as `__kernel_main__` sets it up, with that image for the ram disk. `objects` is how the heap is used
    for the objects that are made on the way. -/
def Kernel.boot (image : InitrdImage) (before : Kernel) (objects : List HeapOp) : Exec Kernel := do
  let k ← before.start
  Lib.run Kernel.step k ((bootOps image).map .files ++ objects.map .heap)

/-- The same operations, done by the kernel. -/
def Kernel.ioStep (k : Kernel) : IoOp → Exec Kernel
  | .store a v            => k.step (.memory (store8 k.mem a v) k.fifos)
  | .syscall r            => k.step (.syscall r)
  | .openAt fd path oflag => k.step (.openAt fd path oflag)
  | .printk text          => k.step (.printk text)

/-- What a program does. -/
inductive GuestOp where
  /-- Registers and the stack are changed. -/
  | compute (f : Cpu → Cpu)
  /-- A byte of memory is read. -/
  | load (address : Cpu → Nat) (use : Cpu → UInt8 → Cpu)
  /-- A byte of memory is written. -/
  | store (address : Cpu → Nat) (value : Cpu → UInt8)
  /-- `int $0x80`, and what the handler leaves in the registers that it may use. -/
  | int80 (left : Scratch)
  /-- The kernel goes on before, between or after programs. -/
  | kernel (op : IoOp)

/-- A program on the processor. What it loads and stores has to be mapped. -/
def Machine.guestStep (l : Linked) (m : Machine) : GuestOp → Exec Machine
  | .compute f           => .ok { m with cpu := f m.cpu }
  | .load address use    => do
    m.kernel.access false (address m.cpu) 1
    return { m with cpu := use m.cpu (m.kernel.mem (address m.cpu)) }
  | .store address value => do
    m.kernel.access true (address m.cpu) 1
    let kernel ← m.kernel.ioStep (.store (address m.cpu) (value m.cpu))
    return { m with kernel }
  | .int80 left          => m.int80 l left
  | .kernel op           => do
    let kernel ← m.kernel.ioStep op
    return { m with kernel }

/-- A program as it sees itself: its registers, and the reference. -/
structure Guest where
  cpu : Cpu
  io : Io

namespace Guest

variable (s : IoSetup) (g : Guest)

/-- A program on the reference. A system call is one step, which leaves the registers alone. -/
def step : GuestOp → Guest
  | .compute f           => { g with cpu := f g.cpu }
  | .load address use    => { g with cpu := use g.cpu (g.io.mem (address g.cpu)) }
  | .store address value => { g with io := g.io.step s (.store (address g.cpu) (value g.cpu)) }
  | .int80 _             => { g with io := g.io.step s (.syscall g.cpu.regs) }
  | .kernel op           => { g with io := g.io.step s op }

/-- What it may do. -/
def Allows : GuestOp → Prop
  | .compute _       => True
  | .load address _  => s.UserRange (address g.cpu) 1
  | .store address v => g.io.Allows s (.store (address g.cpu) (v g.cpu))
  | .int80 _         => g.io.Allows s (.syscall g.cpu.regs)
  | .kernel op       => g.io.Allows s op

end Guest

end WeirdOs
