import WeirdOs.Clib.Stdio
import WeirdOs.Drivers.Vga
import WeirdOs.Fs.Fifo
import WeirdOs.Fs.Run
import WeirdOs.Fs.Syscall
import WeirdOs.Heap.Run
import WeirdOs.Paging.Mmu

/-!
# `Kernel.Syscall` — system calls (`kernel/syscall.cpp`, `kernel/fs/fs.cpp`)

The kernel as its callers meet it: the file system, the table of the process, the screen, the heap, and memory.
`syscall_handler` takes the number of a call and its arguments from registers.

Memory holds the buffers of the callers, the cells of the screen, and the heap with the fifos in it. `mapped`
says which of it can be accessed, the pages of the kernel among it: other accesses are page faults, which end
the kernel. So do accesses to a fifo outside of its own buffer. The globals of the kernel and what is in its
other objects are kept apart from memory: a buffer that is written to is not in the pages of the kernel.
-/

namespace WeirdOs

open Lib

/-- `KHEAP_START`. -/
def KHEAP_START : Nat := 0xd0000000

/-- `KHEAP_SIZE`. -/
def KHEAP_SIZE : Nat := 0x400000

/-- The 4 MB pages of the kernel and of its heap. -/
def KernelMemory (a : Nat) : Prop :=
  0xc0000000 ≤ a ∧ a < 0xc0400000 ∨ KHEAP_START ≤ a ∧ a < KHEAP_START + KHEAP_SIZE

/-- The kernel can access its pages. -/
def KernelMapped (mapped : Access → Nat → Bool) : Prop :=
  ∀ write a, KernelMemory a → mapped ⟨false, write⟩ a = true

/-- The state of the kernel. A fifo is known by the reference of its inode; where its memory is and how it
    was left is up to the heap. -/
structure Kernel where
  files : FsState
  fifos : Nat → Fifo
  fdtable : Fdtable
  screen : Screen
  /-- The global `kheap`. -/
  kheap : Option Heap
  /-- `_internal_placement_address`. -/
  placementAddress : Nat
  /-- What was requested from the heap and not freed, as in `HeapState`. -/
  live : Nat → Option Nat
  /-- The address of the data of an inode of the ram disk. -/
  dataAt : Nat → Nat
  /-- The accesses that the page tables allow. -/
  mapped : Access → Nat → Bool

/-- The registers of the caller. -/
structure Regs where
  eax : UInt32
  ebx : UInt32
  ecx : UInt32
  edx : UInt32
  esi : UInt32
  edi : UInt32
  ebp : UInt32
deriving DecidableEq, Repr

/-- Bytes that are copied to memory one after the other. -/
def copyOut (m : Mem) (dest : Nat) : List UInt8 → Mem
  | []            => m
  | byte :: bytes => copyOut (store8 m dest byte) (add32 dest 1) bytes

/-- What `new file` takes from the heap: the file, and the counter that the constructor of its `rc` makes. -/
def HeapState.newFile (s : HeapState) : Exec HeapState := do
  let (_, s) ← s.new 20
  let (_, s) ← s.new 8
  return s

namespace Kernel

/-- Memory. -/
def mem (k : Kernel) : Mem := k.screen.mem

/-- Memory with other contents. -/
def setMem (k : Kernel) (m : Mem) : Kernel := { k with screen := { k.screen with mem := m } }

/-- The heap, in the memory of the kernel. -/
def heap (k : Kernel) : HeapState := ⟨⟨k.mem, k.kheap, k.placementAddress⟩, k.live⟩

/-- The heap after an operation on it. -/
def setHeap (k : Kernel) (h : HeapState) : Kernel :=
  { k.setMem h.heap.mem with
    kheap := h.heap.kheap, placementAddress := h.heap.placementAddress, live := h.live }

/-- The kernel may access `n` bytes from `a` on. -/
def canAccess (k : Kernel) (write : Bool) (a n : Nat) : Bool :=
  (List.range n).all fun i => k.mapped ⟨false, write⟩ (add32 a i)

/-- It accesses them. -/
def access (k : Kernel) (write : Bool) (a n : Nat) : Exec Unit :=
  if k.canAccess write a n then .ok () else .error memoryFault

/-! ## The methods of inodes -/

/-- What `fifo::read` accesses: the buffer of the caller, and its own. The shift writes as many bytes as are
    stored, and reads as many from behind those that are taken, past the end of the buffer too. -/
def fifoReadAccess (k : Kernel) (f : Fifo) (buf nbyte : Nat) : Exec Unit :=
  if f.bufferIndex < nbyte then .ok ()
  else do
    k.access true buf nbyte
    if f.bufferIndex ≤ fifoSize then k.access false (add32 f.buffer nbyte) f.bufferIndex
    else .error (.bounds "buffer")

/-- What `fifo::write` accesses. -/
def fifoWriteAccess (k : Kernel) (f : Fifo) (buf n : Nat) : Exec Unit := do
  k.access false buf n
  if n = 0 ∨ f.bufferIndex + n ≤ fifoSize then .ok () else .error (.bounds "buffer")

/-- `inode->read(buf, nbyte, offset)`. The class that `make_file` is used with is `vga_dev`. -/
def inodeRead (k : Kernel) (inode buf nbyte offset : Nat) : Exec (Kernel × Nat) :=
  match (k.files.fs.inodes inode).kind with
  | .rdfs data     => do
    let (actual, bytes) := rdfsRead (k.files.fs.inodes inode).size data nbyte offset
    k.access false (add32 (k.dataAt inode) offset) actual
    k.access true buf actual
    return (k.setMem (copyOut k.mem buf bytes), actual)
  | .directoryLike => .ok (k, 0)
  | .fifo          => do
    k.fifoReadAccess (k.fifos inode) buf nbyte
    let (m, fifo, count) := (k.fifos inode).read k.mem buf nbyte
    return ({ k with fifos := Function.update k.fifos inode fifo }.setMem m, count)
  | .other         => .ok (k, 0)

/-- `inode->write(buf, n, offset)`; no class looks at the offset. -/
def inodeWrite (k : Kernel) (inode buf n : Nat) : Exec (Kernel × Nat) :=
  match (k.files.fs.inodes inode).kind with
  | .rdfs _        => .ok (k, 0)
  | .directoryLike => .ok (k, 0)
  | .fifo          => do
    k.fifoWriteAccess (k.fifos inode) buf n
    let (m, fifo, count) := (k.fifos inode).write k.mem buf n
    return ({ k with fifos := Function.update k.fifos inode fifo }.setMem m, count)
  | .other         => do
    k.access false buf n
    let screen ← k.screen.write buf n
    return ({ k with screen }, n)

/-! ## System calls -/

/-- `fdtable.data[fildes]->m_inode`, dereferenced. -/
def fileInode (k : Kernel) (fildes : Int) : Exec Nat := do
  let place ← checkFildes fildes
  match k.fdtable.data place with
  | none   => .error (.null "fdtable.data[fildes]")
  | some f => deref "m_inode" f.inode

/-- `syscall_read`. It returns 0, whatever was read. -/
def syscallRead (k : Kernel) (fildes : Int) (buf nbyte offset : Nat) : Exec (Kernel × Int) := do
  let inode ← k.fileInode fildes
  let (k, _) ← k.inodeRead inode buf nbyte offset
  return (k, 0)

/-- `syscall_write`. -/
def syscallWrite (k : Kernel) (fildes : Int) (buf n _offset : Nat) : Exec (Kernel × Int) := do
  let inode ← k.fileInode fildes
  let (k, _) ← k.inodeWrite inode buf n
  return (k, 0)

/-- `new file`. -/
def newFile (k : Kernel) : Exec Kernel := do
  let heap ← k.heap.newFile
  return k.setHeap heap

/-- The text at an address, which is read up to its NUL. -/
def text (k : Kernel) (a : Nat) : Exec (List UInt8) := do
  let text ← textAt k.mem a
  k.access false a (text.length + 1)
  return text

/-- `syscall_open_at`, with a path of the kernel's own. -/
def syscallOpenAt (k : Kernel) (fildes : Int) (path : List UInt8) (oflag : Int) : Exec (Kernel × Int) := do
  let k ← k.newFile
  let (fdtable, fd) ← WeirdOs.syscallOpenAt k.files.fs k.files.vfs k.fdtable fildes path oflag
  return ({ k with fdtable }, fd)

/-- `syscall_open`, with a path of the caller. It is not looked at before the file is there. -/
def syscallOpen (k : Kernel) (path : Nat) (oflag : Int) : Exec (Kernel × Int) := do
  let k ← k.newFile
  let path ← k.text path
  let (fdtable, fd) ← WeirdOs.syscallOpen k.files.fs k.files.vfs k.fdtable path oflag
  return ({ k with fdtable }, fd)

/-- `printf`. -/
def printf (k : Kernel) (format : List UInt8) (args : List VaArg) : Exec Kernel := do
  let screen ← vfprintf Screen.fputc k.screen format args
  return { k with screen }

/-- `"Invalid syscall %d"`. -/
def invalidSyscall : List UInt8 :=
  [73, 110, 118, 97, 108, 105, 100, 32, 115, 121, 115, 99, 97, 108, 108, 32, 37, 100]

/-- `syscall_handler`. What a call returns is dropped. -/
def syscallHandler (k : Kernel) (r : Regs) : Exec Kernel :=
  match r.eax.toNat with
  | 0 => do
    let (k, _) ← k.syscallOpen r.ebx.toNat (toInt32 r.ecx.toNat)
    return k
  | 1 => do
    let (fdtable, _) := syscallClose k.fdtable (toInt32 r.ebx.toNat)
    return { k with fdtable }
  | 2 => do
    let (k, _) ← k.syscallRead (toInt32 r.ebx.toNat) r.ecx.toNat r.edx.toNat r.esi.toNat
    return k
  | 3 => do
    let (k, _) ← k.syscallWrite (toInt32 r.ebx.toNat) r.ecx.toNat r.edx.toNat r.esi.toNat
    return k
  | n => k.printf invalidSyscall [.word n]

end Kernel

/-! ## Runs -/

/-- What happens to the kernel. -/
inductive KernelOp where
  /-- Devices are made, used and mounted. -/
  | files (op : FsOp)
  /-- The kernel opens a file. -/
  | openAt (fildes : Int) (path : List UInt8) (oflag : Int)
  /-- `printk`. -/
  | printk (text : List UInt8)
  /-- Memory is changed by others, and the fifos in it, of which there may be new ones. -/
  | memory (m : Mem) (fifos : Nat → Fifo)
  /-- The heap is used, for objects that are made or deleted. -/
  | heap (op : HeapOp)
  /-- The page tables are changed. -/
  | mapping (mapped : Access → Nat → Bool)
  /-- A system call. -/
  | syscall (r : Regs)

namespace Kernel

/-- One of them. -/
def step (k : Kernel) : KernelOp → Exec Kernel
  | .files op                 => do
    let files ← k.files.step op
    return { k with files }
  | .openAt fildes path oflag => do
    let (k, _) ← k.syscallOpenAt fildes path oflag
    return k
  | .printk text              => do
    let screen ← fputs Screen.fputc k.screen text
    return { k with screen }
  | .memory m fifos           => .ok ({ k with fifos }.setMem m)
  | .heap op                  => do
    let heap ← k.heap.step op
    return k.setHeap heap
  | .mapping mapped           => .ok { k with mapped }
  | .syscall r                => k.syscallHandler r

/-- Before anything is done, the screen is cleared and the heap is initialised. There are no files. -/
def start (before : Kernel) : Exec Kernel := do
  let screen ← before.screen.cleark
  let k := { before with files := .empty, fdtable := .empty, screen }
  return k.setHeap (.init k.heap.heap KHEAP_SIZE KHEAP_START)

/-- A byte that the heap keeps for itself. -/
def HeapOwn (k : Kernel) (x : Nat) : Prop := k.heap.Own KHEAP_START (KHEAP_START + KHEAP_SIZE) x

/-- A valid buffer: the kernel may access it, it is not the heap's, and none of it is the kernel's if it is for
    the kernel to write to. -/
structure Buffer (k : Kernel) (write : Bool) (a n : Nat) : Prop where
  fits : a + n ≤ 4294967296
  mapped : ∀ x, a ≤ x → x < a + n → k.mapped ⟨false, write⟩ x = true
  apart : ∀ x, a ≤ x → x < a + n → ¬ k.HeapOwn x
  outside : write = true → ∀ x, a ≤ x → x < a + n → ¬ KernelMemory x

/-- Pointers of a caller point to valid buffers, and text to one with a NUL in it. -/
def ValidArgs (k : Kernel) (r : Regs) : Prop :=
  match r.eax.toNat with
  | 0 => ∃ len, k.Buffer false r.ebx.toNat (len + 1) ∧ k.mem (r.ebx.toNat + len) = 0
  | 2 => k.Buffer true r.ecx.toNat r.edx.toNat
  | 3 => k.Buffer false r.ecx.toNat r.edx.toNat
  | _ => True

/-- The fifos are objects on the heap. -/
def FifosLive (k : Kernel) : Prop :=
  ∀ i, (k.files.fs.inodes i).kind = .fifo → ∃ p r, k.live p = some r ∧
    p ≤ (k.fifos i).buffer ∧ (k.fifos i).buffer + 260 ≤ p + r

/-- Nobody else writes to the heap's own bytes, the pages of the kernel stay mapped, and system calls are made with
    valid arguments. -/
def Valid (k : Kernel) : KernelOp → Prop
  | .memory m _     => ∀ x, k.HeapOwn x → m x = k.mem x
  | .mapping mapped => KernelMapped mapped
  | .syscall r      => k.ValidArgs r ∧ k.FifosLive
  | _               => True

/-- A state that the kernel reaches. -/
inductive Reachable : Kernel → Prop where
  | start {before k : Kernel} (hmapped : KernelMapped before.mapped) (h : before.start = .ok k) : Reachable k
  | step {k k' : Kernel} {op : KernelOp} (h : Reachable k) (valid : k.Valid op) (hstep : k.step op = .ok k') :
      Reachable k'

end Kernel

end WeirdOs
