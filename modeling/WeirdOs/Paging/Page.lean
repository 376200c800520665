import WeirdOs.Machine
import WeirdOs.Lib.Bitmap

/-!
# `Paging.Page` — frames, page tables and page directories of `page.cpp`

The memory `page.cpp` works on is typed here: the words of the frame bitmap, a `Page` for every address
a page table entry can have, a `PageDirectory` for every address a directory can have. A page table is
the 1024 entries at `table`, `table + 4`, …; pointers are addresses and null is 0.

`kmalloc_ap` is a parameter of the state. Before `init_kernal_heap` it bumps the placement address;
afterwards it hands out the addresses of `kheap` one after the other, and stops at the assertion of the
heap when there is none left. Its second result is the physical address, which it gets from `get_phys`.

The bits of an entry that nothing here reads (`accessed`, `dirty`, `unused`) are left out.
-/

namespace WeirdOs

open Lib

/-! ## Data -/

/-- `struct page`: one page table entry. -/
structure Page where
  present : Nat
  rw : Nat
  user : Nat
  frame : Nat
deriving DecidableEq, Repr

/-- What `memset(_, 0, _)` makes of an entry. -/
def Page.zero : Page := ⟨0, 0, 0, 0⟩

/-- `struct page_directory`. -/
structure PageDirectory where
  tablesPhysical : Nat → Nat
  tables : Nat → Nat
  physicalAddr : Nat

/-- What `memset(_, 0, _)` makes of a directory. -/
def PageDirectory.zero : PageDirectory := ⟨fun _ => 0, fun _ => 0, 0⟩

/-- The globals of `page.cpp` and the memory they lead to. -/
structure Paging where
  frames : Nat → Nat
  nframes : Nat
  pages : Nat → Page
  dirs : Nat → PageDirectory
  kernelDirectory : Nat
  /-- The addresses `kmalloc_ap` will return, once there is a heap. -/
  kheap : Option (List Nat)
  /-- `_internal_placement_address`. -/
  placementAddress : Nat

/-- `KERNEL_PAGE_NUMBER`: the slot of `0xc0000000`. -/
def kernelPageNumber : Nat := 768

/-- `KHEAP_PAGE_NUMBER`: the slot of `0xd0000000`. -/
def kheapPageNumber : Nat := 832

/-! ## Frames -/

/-- `INDEX_FROM_BIT`. -/
def indexFromBit (a : Nat) : Nat := a / (8 * 4)

/-- `OFFSET_FROM_BIT`. -/
def offsetFromBit (a : Nat) : Nat := a % (8 * 4)

/-- `set_frame`, on the words of the bitmap. -/
def setFrame (frames : Nat → Nat) (frameAddr : Nat) : Nat → Nat :=
  let frame := frameAddr / 0x1000
  let idx := indexFromBit frame
  let off := offsetFromBit frame
  Function.update frames idx (frames idx ||| 0x1 <<< off)

/-- `clear_frame`, on the words of the bitmap. -/
def clearFrame (frames : Nat → Nat) (frameAddr : Nat) : Nat → Nat :=
  let frame := frameAddr / 0x1000
  let idx := indexFromBit frame
  let off := offsetFromBit frame
  Function.update frames idx (frames idx &&& (0xffffffff ^^^ 0x1 <<< off))

/-- `first_frame`: the first clear bit, or 0 when there is none. -/
def firstFrame (frames : Nat → Nat) (nframes : Nat) : Nat :=
  ((List.range (indexFromBit nframes)).findSome? fun i =>
    if frames i ≠ 0xffffffff then
      ((List.range 32).find? fun j => frames i &&& (0x1 <<< j) = 0).map fun j => i * 32 + j
    else none).getD 0

/-- `alloc_frame`. -/
def allocFrame (s : Paging) (page isKernel isWriteable : Nat) : Exec Paging :=
  if (s.pages page).frame ≠ 0 then return s
  else do
    let idx := firstFrame s.frames s.nframes
    -- a full bitmap gives 0, which this lets through
    assert (idx ≠ 0xffffffff) "idx != (uint32_t)-1 && \"No free frames!\""
    return { s with
      frames := setFrame s.frames (word (idx * 0x1000))
      pages := Function.update s.pages page
        { present := 1
          rw := if isWriteable ≠ 0 then 1 else 0
          user := if isKernel ≠ 0 then 0 else 1
          frame := idx % 1048576 } }

/-- `free_frame`. It hands the number of the frame to `clear_frame`, and leaves the entry present. -/
def freeFrame (s : Paging) (page : Nat) : Paging :=
  let frame := (s.pages page).frame
  if frame = 0 then s
  else { s with
    frames := clearFrame s.frames frame
    pages := Function.update s.pages page { s.pages page with frame := 0x0 } }

/-! ## Directories and tables -/

/-- `get_phys`: only 4 MB pages are supported. -/
def getPhys (s : Paging) (address dir : Nat) : Exec Nat := do
  let tableIdx := address / 0x1000 / 0x400
  let entry := (s.dirs dir).tablesPhysical tableIdx
  if entry &&& 0x80 ≠ 0 then return add32 (entry &&& 0xfffff000) (address % 0x400000)
  throw (.assertion "false && \"todo: 4kb page phys addres\"")

/-- `kmalloc_ap`: an address, and the physical address written through the second argument. -/
def kmallocAp (s : Paging) (sz : Nat) : Exec (Nat × Nat × Paging) :=
  match s.kheap with
  | none =>
    let placement :=
      if s.placementAddress &&& 0xfffff000 ≠ 0 then add32 (s.placementAddress &&& 0xfffff000) 0x1000
      else s.placementAddress
    return (placement, sub32 placement 0xc0000000, { s with placementAddress := add32 placement sz })
  | some [] => throw (.assertion "best->size + distance >= size && \"Out of heap space for aligned malloc\"")
  | some (addr :: rest) => do
    let phys ← getPhys s addr s.kernelDirectory
    return (addr, phys, { s with kheap := some rest })

/-- What `fork_page` fills a new directory with: the 4 MB pages of the kernel and of its heap. -/
def forkedDirectory (phys : Nat) : PageDirectory where
  tablesPhysical := Function.update (Function.update (fun _ => 0) kernelPageNumber 0x83) kheapPageNumber
    0x400083
  tables := fun _ => 0
  physicalAddr := phys

/-- `fork_page`. -/
def forkPage (s : Paging) : Exec (Nat × Paging) := do
  let (dir, phys, s) ← kmallocAp s 8196
  return (dir, { s with dirs := Function.update s.dirs dir (forkedDirectory phys) })

/-- `initialise_paging`, up to the kernel process. `frames` is what memory holds where the bitmap is
    put; only its first 512 bytes are zeroed. `heap` are the pages the heap will hand out. -/
def initialisePaging (frames : Nat → Nat) (pages : Nat → Page) (heap : List Nat) : Exec Paging := do
  let nframes := 0x4000000 / 0x1000
  let s : Paging :=
    { frames := fun i => if i < indexFromBit nframes / 4 then 0 else frames i
      nframes := nframes
      pages := pages
      dirs := fun _ => PageDirectory.zero
      kernelDirectory := 0
      kheap := none
      placementAddress := add32 0xc0200000 (indexFromBit nframes) }
  let (dir, s) ← forkPage s
  return { s with
    kernelDirectory := dir
    frames := fun i => if i < indexFromBit 0x800 then 0xffffffff else s.frames i
    kheap := some heap }

/-- What `get_page` does with a new table: zero it, and enter it in both arrays of the directory, as
    present, writable and accessible from user mode. -/
def addTable (s : Paging) (dir tableIdx table addr : Nat) : Paging :=
  let d := s.dirs dir
  { s with
    pages := fun p => if table ≤ p ∧ p < table + 0x1000 then Page.zero else s.pages p
    dirs := Function.update s.dirs dir
      { d with
        tables := Function.update d.tables tableIdx table
        tablesPhysical := Function.update d.tablesPhysical tableIdx (addr ||| 0x7) } }

/-- `get_page`: the address of the entry that describes the page of `address`; `none` is the null
    pointer, for a table that does not exist and is not to be made. -/
def getPage (s : Paging) (address : Nat) (make : Bool) (dir : Nat) : Exec (Option Nat × Paging) := do
  let address := address / 0x1000
  let tableIdx := address / 1024
  let table := (s.dirs dir).tables tableIdx
  if table ≠ 0 then return (some (table + 4 * (address % 1024)), s)
  if make then
    let (table, addr, s) ← kmallocAp s 0x1000
    assert (addr &&& 0xfff = 0) "!(addr & 0xfff) && \"invalid page aligned malloc\""
    return (some (table + 4 * (address % 1024)), addTable s dir tableIdx table addr)
  return (none, s)

/-- A page to be mapped, and how. -/
structure PageRequest where
  address : Nat
  isKernel : Nat
  isWritable : Nat
deriving DecidableEq, Repr

/-- `alloc_frame(get_page(address, 1, directory), is_kernel, is_writable)`. -/
def mapPage (dir : Nat) (s : Paging) (r : PageRequest) : Exec Paging := do
  let (page, s) ← getPage s r.address true dir
  match page with
  | none => throw (.null "page")
  | some page => allocFrame s page r.isKernel r.isWritable

/-- The loop of `page_allocator::allocate`. It advances by a page; there are `2^20` of them. -/
def allocateLoop (dir isKernel isWritable stop : Nat) : Nat → Nat → Paging → Exec Paging
  | 0, _, _ => throw .fuel
  | fuel + 1, i, s =>
    if i < stop then do
      let s ← mapPage dir s ⟨i, isKernel, isWritable⟩
      allocateLoop dir isKernel isWritable stop fuel (add32 i 0x1000) s
    else return s

/-- `page_allocator::allocate` of the allocator for `directory`. -/
def allocate (s : Paging) (directory virtAddr size isKernel isWritable : Nat) : Exec Paging :=
  let virtAddr := virtAddr &&& 0xfffff000
  let size := if size &&& 0xfff ≠ 0 then add32 (size &&& 0xfffff000) 0x1000 else size
  allocateLoop directory isKernel isWritable (add32 virtAddr size) 1048577 virtAddr s

end WeirdOs
