import WeirdOs.Elf.Loader
import WeirdOs.Kernel.Interrupt
import WeirdOs.Paging.Mmu
import WeirdOs.Paging.TableHeap

/-!
# `Kernel.Exec` — the first program (`kernel/process.cpp`, the end of `__kernel_main__`)

`exec_process` reads a file into a buffer from `kmalloc`, has the loader copy its segments to where they run,
frees the buffer and jumps. The files, the heap, the page tables and the loader come together here. What the
kernel may access is what the MMU translates: a page that `allocate` has missed is a page fault when a segment
is copied there. The pages that `get_page` takes for tables are from the heap that has the buffer.

`process_t` is its `directory`, which is the kernel's own; its `allocator` maps pages there. Page tables and the
directory are typed, as in `Paging.Page`: the bytes that they have in memory are not followed.
-/

namespace WeirdOs

open Lib

/-- What `exec_process` works on. -/
structure ExecState where
  kernel : Kernel
  paging : Paging
  /-- `current()->directory`, to which `cr3` points. -/
  directory : Nat
  /-- The bit of `cr0`. -/
  wp : Bool

/-- The pages that were handed out for tables in between. -/
def Paging.taken (p p' : Paging) : List Nat :=
  (p.kheap.getD []).take ((p.kheap.getD []).length - (p'.kheap.getD []).length)

namespace ExecState

/-- The accesses that the page tables allow. -/
def translated (s : ExecState) (acc : Access) (a : Nat) : Bool :=
  (translate s.wp s.paging s.directory acc a).isSome

/-- The page tables are changed. -/
def setPaging (s : ExecState) (paging : Paging) : ExecState :=
  { s with paging, kernel := { s.kernel with mapped := { s with paging }.translated } }

/-- The heap after an operation on it. -/
def setHeap (s : ExecState) (h : HeapState) : ExecState := { s with kernel := s.kernel.setHeap h }

/-- `allocator->allocate`. The heap has to have the pages for new tables. -/
def allocate (s : ExecState) (virtAddr size isKernel isWritable : Nat) : Exec ExecState := do
  let paging ← WeirdOs.allocate s.paging s.directory virtAddr size isKernel isWritable
  let heap ← s.kernel.heap.takeTables (s.paging.taken paging)
  return (s.setHeap heap).setPaging paging

/-- `memcpy`. -/
def memcpy (s : ExecState) (dest src n : Nat) : Exec ExecState := do
  s.kernel.access false src n
  s.kernel.access true dest n
  return { s with kernel := s.kernel.setMem (WeirdOs.memcpy s.kernel.mem dest src n) }

/-! ## The loader -/

/-- `elf_loader::elf_loader`. The last field that is read ends at 48. -/
def elfLoader (s : ExecState) (addr : Nat) : Exec Unit := do
  s.kernel.access false addr 48
  WeirdOs.elfLoader s.kernel.mem addr

/-- The first `n` bytes of program header `i` are read. -/
def readHeader (s : ExecState) (addr i n : Nat) : Exec Unit :=
  s.kernel.access false (add32 (add32 addr (elfHeader s.kernel.mem addr).phoff) (32 * i)) n

/-- What the loop of `elf_loader::load` does with a segment. -/
def loadSegment (s : ExecState) (addr : Nat) (ph : ProgramHeader) : Exec ExecState := do
  let s ← s.allocate ph.vaddr ph.memsz 0 (ph.flags &&& pfW)
  s.memcpy ph.vaddr (add32 addr ph.offset) ph.filesz

/-- The loop of `elf_loader::load`. The type comes first in a program header, and the flags come last. -/
def loadLoop (addr : Nat) : Nat → Nat → ExecState → Exec ExecState
  | 0, _, _ => throw .fuel
  | fuel + 1, i, s =>
    if i < (elfHeader s.kernel.mem addr).phnum then do
      let ph := programHeader s.kernel.mem addr i
      s.readHeader addr i 4
      if ph.type ≠ ptLoad then loadLoop addr fuel (i + 1) s
      else do
        s.readHeader addr i 28
        let s ← s.loadSegment addr ph
        loadLoop addr fuel (i + 1) s
    else return s

/-- `elf_loader::load`. -/
def load (s : ExecState) (addr : Nat) : Exec (ElfLayout × ExecState) := do
  assert ((elfHeader s.kernel.mem addr).phnum > 0) "header()->phnum > 0 && \"Not an executable\""
  let s ← loadLoop addr loadFuel 0 s
  let s ← s.allocate 0 0x2000 0 1
  return (⟨(elfHeader s.kernel.mem addr).entry, 0x2000⟩, s)

/-! ## The program -/

end ExecState

/-- The registers and the stack after the jump: `mov layout.stack, %esp` and `call *layout.entry`, which pushes the
    address to come back to. -/
def Cpu.enter (c : Cpu) (layout : ElfLayout) (back : UInt32) : Cpu :=
  { Cpu.push { c with esp := UInt32.ofNat layout.stack, stack := [] } back with
    eip := UInt32.ofNat layout.entry }

/-- The jump. The word that is pushed has to be mapped. -/
def ExecState.enter (s : ExecState) (c : Cpu) (layout : ElfLayout) (back : UInt32) : Exec Machine := do
  s.kernel.access true (sub32 layout.stack 4) 4
  return ⟨c.enter layout back, s.kernel⟩

end WeirdOs
