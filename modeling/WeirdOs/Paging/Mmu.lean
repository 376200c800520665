import WeirdOs.Paging.Correctness.Directory
import WeirdOs.Paging.Correctness.Rights

/-!
# `Paging.Mmu` — memory as the processor shows it

What a program reads and writes goes through the page tables: the processor walks the directory that `cr3`
points to, checks the flags of both entries, and remembers what it found for as long as it likes. `page.cpp`
fills the tables and never tells the processor to forget anything.

`Mmu` is the tables with the memory behind them, and its steps are those of all three parties: the kernel
allocates pages, the kernel or a program stores a byte, the processor fills or drops an entry of its cache.

`Space` is what the kernel and its programs take memory for: a byte for every address, and the calls of
`allocate` that say who may touch it. It knows nothing of frames, tables or caches.
-/

namespace WeirdOs

open Lib

/-! ## The processor -/

/-- Who accesses memory, and whether it is to write. -/
structure Access where
  user : Bool
  write : Bool
deriving DecidableEq, Repr

/-- What the flags of an entry allow. `wp` is the bit of `cr0` that holds the kernel to read-only pages;
    `entry.asm` leaves it as the boot loader does. -/
def Access.allowed (wp : Bool) (acc : Access) (rw user : Bool) : Bool :=
  (!acc.user || user) && (!acc.write || rw || !acc.user && !wp)

/-- Where the kernel has a physical address of its heap. Page tables are there, and `Paging.pages` has their
    entries at these addresses. -/
def heapVirt (x : Nat) : Nat := x - 0x400000 + 0xd0000000

/-- The last step of the walk: the address in the frame of an entry that allows the access. -/
def Page.translate (wp : Bool) (page : Page) (acc : Access) (a : Nat) : Option Nat :=
  if page.present ≠ 0 && acc.allowed wp (page.rw ≠ 0) (page.user ≠ 0) then
    some (page.frame * 0x1000 + a % 0x1000)
  else none

/-- The walk of the MMU: the physical address, or nothing for a page fault. -/
def translate (wp : Bool) (s : Paging) (dir : Nat) (acc : Access) (a : Nat) : Option Nat :=
  let e := (s.dirs dir).tablesPhysical (a / 0x400000)
  if acc.allowed wp (e &&& 0x2 ≠ 0) (e &&& 0x4 ≠ 0) then
    match mmuEntry (s.dirs dir) a with
    | some x => (s.pages (heapVirt x)).translate wp acc a
    | none =>
        -- not present, or a page of 4 MB
        if e &&& 0x1 ≠ 0 ∧ e &&& 0x80 ≠ 0 then some ((e &&& 0xffc00000) + a % 0x400000) else none
  else none

/-- The page tables and the memory behind them. -/
structure Mmu where
  paging : Paging
  physical : Mem
  /-- The directory that `cr3` points to. -/
  directory : Nat
  wp : Bool
  /-- The translations that the processor remembers. -/
  tlb : Access → Nat → Option Nat

/-- What can happen to memory. -/
inductive MemoryEvent where
  /-- The kernel calls `allocate` of the allocator for the directory. -/
  | allocate (c : AllocateCall)
  /-- The kernel or a program stores a byte. -/
  | store (user : Bool) (a : UInt32) (v : UInt8)
  /-- The processor walks the tables and remembers the result. -/
  | fill (acc : Access) (a : UInt32)
  /-- The processor forgets it. -/
  | evict (acc : Access) (a : UInt32)

/-- The calls of `allocate` among what happens. -/
def MemoryEvent.calls : MemoryEvent → List AllocateCall
  | .allocate c => [c]
  | .store _ _ _ => []
  | .fill _ _ => []
  | .evict _ _ => []

/-- A page fault, which the kernel does not recover from. -/
def memoryFault : Fault := .bounds "page"

namespace Mmu

/-- The translation that the tables give. -/
def walk (m : Mmu) (acc : Access) (a : Nat) : Option Nat := translate m.wp m.paging m.directory acc a

/-- The translation that an access uses. -/
def lookup (m : Mmu) (acc : Access) (a : Nat) : Option Nat := (m.tlb acc a).or (m.walk acc a)

/-- Reading a byte. -/
def load (m : Mmu) (user : Bool) (a : Nat) : Exec UInt8 :=
  match m.lookup ⟨user, false⟩ a with
  | some x => return m.physical x
  | none => throw memoryFault

def step (m : Mmu) : MemoryEvent → Exec Mmu
  | .allocate c => do
    let paging ← c.run m.directory m.paging
    return { m with paging }
  | .store user a v =>
    match m.lookup ⟨user, true⟩ a.toNat with
    | some x => return { m with physical := Function.update m.physical x v }
    | none => throw memoryFault
  | .fill acc a =>
    return { m with tlb := Function.update m.tlb acc (Function.update (m.tlb acc) a.toNat (m.walk acc a.toNat)) }
  | .evict acc a =>
    return { m with tlb := Function.update m.tlb acc (Function.update (m.tlb acc) a.toNat none) }

/-- Memory once `initialise_paging` has loaded the kernel directory. -/
def boot (s : Paging) (physical : Mem) (wp : Bool) : Mmu :=
  ⟨s, physical, s.kernelDirectory, wp, fun _ _ => none⟩

end Mmu

/-! ## The address space -/

/-- The call that the page of an address is from: the first one that maps it. -/
def grantedBy (calls : List AllocateCall) (a : Nat) : Option AllocateCall :=
  calls.find? fun c => a / 0x1000 * 0x1000 ∈ c.pages

/-- The call was made for such an access. -/
def AllocateCall.permits (wp : Bool) (c : AllocateCall) (acc : Access) : Bool :=
  acc.allowed wp (c.isWritable ≠ 0) (c.isKernel = 0)

/-- Memory as the kernel and its programs take it: the calls of `allocate`, and what was stored. -/
structure Space where
  calls : List AllocateCall
  bytes : Nat → Option UInt8

namespace Space

/-- Some call was made for the access. -/
def permits (wp : Bool) (d : Space) (acc : Access) (a : Nat) : Bool :=
  (grantedBy d.calls a).any fun c => c.permits wp acc

/-- Reading a byte; `init` is what memory holds at first. -/
def load (wp : Bool) (init : Mem) (d : Space) (user : Bool) (a : Nat) : Exec UInt8 :=
  if d.permits wp ⟨user, false⟩ a then return (d.bytes a).getD (init a) else throw memoryFault

def step (wp : Bool) (d : Space) : MemoryEvent → Exec Space
  | .allocate c => return { d with calls := d.calls ++ [c] }
  | .store user a v =>
    if d.permits wp ⟨user, true⟩ a.toNat then
      return { d with bytes := Function.update d.bytes a.toNat (some v) }
    else throw memoryFault
  | .fill _ _ => return d
  | .evict _ _ => return d

/-- Nothing is allocated, and nothing stored. -/
def empty : Space := ⟨[], fun _ => none⟩

end Space

end WeirdOs
