import WeirdOs.Clib.String
import WeirdOs.Lib.Stateful

/-!
# `Heap.Kmalloc` — the kernel heap of `kmalloc.cpp`

The heap is a doubly linked list of blocks laid out in the memory it manages: each block starts with a
16-byte header (`magic`, `size`, `next`, `previous`), followed by `size` bytes of payload. All
bookkeeping is in those headers, so every function below works on memory itself.

Loops of the source that have no bound of their own take `walkFuel` steps at most: they follow links
through 32-bit addresses, and a walk that makes more steps than there are addresses never ends.
`heap_info` only prints, and is left out of `getSuitableBlock`.

An allocation that fails spins in an assertion, and what it spins *on* is the heap of everybody else. The
path of `kmalloc` is therefore written over `EStateM` (`Stateful`), which hands back a memory in either
case. Its callers do not go on after a failure: for them each function is taken with the memory of a
failure dropped.
-/

namespace WeirdOs

open Lib

/-- `MAGIC`: marks a block header; the last bit is set when the block is used. -/
def magicNumber : Nat := 0x5d6d9cd6

/-- `MIN_BLOCK_SIZE`. -/
def minBlockSize : Nat := 4

/-- `sizeof(struct block_header)`. -/
def headerSize : Nat := 16

/-- More steps than there are addresses. -/
def walkFuel : Nat := 4294967296

/-! ## Headers in memory -/

/-- `struct block_header`. -/
structure BlockHeader where
  magic : Nat
  size : Nat
  next : Nat
  previous : Nat
deriving DecidableEq, Repr

/-- The header at address `b`. -/
def header (m : Mem) (b : Nat) : BlockHeader :=
  ⟨load32 m b, load32 m (b + 4), load32 m (b + 8), load32 m (b + 12)⟩

def setMagic (m : Mem) (b v : Nat) : Mem := store32 m b v
def setSize (m : Mem) (b v : Nat) : Mem := store32 m (b + 4) v
def setNext (m : Mem) (b v : Nat) : Mem := store32 m (b + 8) v
def setPrevious (m : Mem) (b v : Nat) : Mem := store32 m (b + 12) v

/-- `is_used`. -/
def isUsed (magic : Nat) : Bool := magic &&& 0x1 ≠ 0

/-- `is_valid`. -/
def isValid (magic : Nat) : Bool := magic &&& 0xfffffffe = magicNumber

/-- `struct heap`. -/
structure Heap where
  firstBlock : Nat
  size : Nat
deriving DecidableEq, Repr

/-! ## Merging, creating, searching, splitting -/

/-- `merge_blocks`. -/
def mergeBlocks (m : Mem) (first second : Nat) : Exec Mem := do
  assert ((header m first).next = second) "first->next == second && \"Headers must be in adjacent\""
  let m := setNext m first (header m second).next
  -- read again: `first->next` is what followed `second`
  let m := if (header m first).next ≠ 0 then setPrevious m (header m first).next first else m
  return setSize m first
    (add32 (header m first).size (add32 (header m second).size headerSize))

/-- `create_heap`: one free block covers the whole region. -/
def createHeap (m : Mem) (size start : Nat) : Heap × Mem :=
  let m := setMagic m start (magicNumber &&& 0xfffffffe)
  let m := setSize m start size
  let m := setSize m start (sub32 size headerSize)
  let m := setNext m start 0
  let m := setPrevious m start 0
  (⟨start, size⟩, m)

/-- `get_memory_address`. -/
def getMemoryAddress (block : Nat) : Nat := add32 block headerSize

/-- `get_distance_to_next_page`. -/
def getDistanceToNextPage (addr : Nat) : Nat := sub32 0x1000 (addr &&& 0xfff)

/-- `get_next_page`. -/
def getNextPage (addr : Nat) : Nat := add32 (addr &&& 0xfffff000) 0x1000

/-- The first loop of `get_suitable_block`: skip used blocks. -/
def firstUnused (m : Mem) : Nat → Nat → Exec Nat
  | 0, _ => throw .fuel
  | fuel + 1, best =>
    if isUsed (header m best).magic then do
      assert ((header m best).next ≠ 0) "best->next && \"No unused blocks\""
      firstUnused m fuel (header m best).next
    else pure best

/-- The second loop of `get_suitable_block`: the smallest unused block that is large enough. -/
def bestFit (m : Mem) (requiredSize : Nat) : Nat → Nat → Nat → Exec Nat
  | 0, _, _ => throw .fuel
  | fuel + 1, best, current =>
    if current = 0 then pure best
    else
      let better := !isUsed (header m current).magic &&
        decide ((header m current).size ≥ requiredSize ∧
          ((header m current).size < (header m best).size ∨ (header m best).size < requiredSize))
      bestFit m requiredSize fuel (if better then current else best) (header m current).next

/-- `create_new_block_header`: split `block` after `size` bytes; the rest becomes a free block. -/
def createNewBlockHeader (m : Mem) (block size : Nat) : Mem :=
  let newBlock := add32 (add32 block size) headerSize
  let m := if (header m block).next ≠ 0 then setPrevious m (header m block).next newBlock else m
  let m := setNext m newBlock (header m block).next
  let m := setPrevious m newBlock block
  let m := setSize m newBlock (sub32 (sub32 (header m block).size size) headerSize)
  let m := setMagic m newBlock (magicNumber &&& 0xfffffffe)
  let m := setNext m block newBlock
  let m := setSize m block size
  setMagic m block ((header m block).magic ||| 0x1)

/-! ## `free` -/

/-- The "merge forwards" loop of `free`. -/
def mergeForwards : Nat → Mem → Nat → Exec Mem
  | 0, _, _ => throw .fuel
  | fuel + 1, m, hdr => do
    let nextHeader := (header m hdr).next
    -- the end of the heap
    if nextHeader = 0 then return m
    assert (isValid (header m nextHeader).magic)
      "is_valid(next_header->magic) && \"Heap block is invalid!\""
    if isUsed (header m nextHeader).magic then return m
    let m ← mergeBlocks m hdr nextHeader
    mergeForwards fuel m hdr

/-- The "merge backward" loop of `free`. -/
def mergeBackward : Nat → Mem → Nat → Exec Mem
  | 0, _, _ => throw .fuel
  | fuel + 1, m, current => do
    let previousHeader := (header m current).previous
    -- the start of the heap, or block zero, which has the same address
    if previousHeader = 0 then return m
    assert (isValid (header m previousHeader).magic)
      "is_valid(previous_header->magic) && \"Heap block is invalid!\""
    if isUsed (header m previousHeader).magic then return m
    let m ← mergeBlocks m previousHeader current
    mergeBackward fuel m previousHeader

/-- `free`. -/
def free (m : Mem) (mem : Nat) : Exec Mem := do
  let hdr := sub32 mem headerSize
  assert (isValid (header m hdr).magic) "is_valid(header->magic) && \"Heap block is invalid!\""
  -- freeing a free block does nothing
  if !isUsed (header m hdr).magic then return m
  let m := setMagic m hdr ((header m hdr).magic &&& 0xfffffffe)
  let m ← mergeForwards walkFuel m hdr
  mergeBackward walkFuel m hdr

/-! ## The kernel heap -/

/-- The memory together with the globals of `kmalloc.cpp`: `kheap`, null until
    `init_kernal_heap`, and `_internal_placement_address`. -/
structure KernelHeap where
  mem : Mem
  kheap : Option Heap
  placementAddress : Nat

/-- `init_kernal_heap`. -/
def initKernalHeap (k : KernelHeap) (size start : Nat) : KernelHeap :=
  let (heap, m) := createHeap k.mem size start
  { k with mem := m, kheap := some heap }

/-! ## The path of `kmalloc` -/

/-- Kernel code on a state that is kept when the code stops. -/
abbrev StateExec (σ : Type) := EStateM Fault σ

namespace Stateful

variable {σ α : Type}

/-- The `assert` macro. -/
def assert (cond : Bool) (text : String) : StateExec σ Unit :=
  if cond then pure () else throw (.assertion text)

/-- `make_aligned_block`: move the header up so that the payload starts on a page, and give the bytes
    skipped to the previous block. -/
def makeAlignedBlock (block : Nat) : StateExec Mem Nat := do
  let memAddress := getMemoryAddress block
  let distance := getDistanceToNextPage memAddress
  let nearest := getNextPage memAddress
  let headerPos := sub32 nearest headerSize
  modify fun m => setSize m block (sub32 (header m block).size distance)
  if (header (← get) block).previous = 0 then throw (.null "block->previous")
  modify fun m => setNext m (header m block).previous headerPos
  modify fun m => setSize m (header m block).previous
    (add32 (header m (header m block).previous).size distance)
  modify fun m => memcpy m headerPos block headerSize
  return headerPos

/-- `get_suitable_block`. Its loops only read. -/
def getSuitableBlock (size : Nat) (pageAlign : Bool) (heap : Heap) : StateExec Mem Nat := do
  let current := heap.firstBlock
  let best ← reading fun m => firstUnused m walkFuel heap.firstBlock
  -- the distance is that of the first block, not of the one to be chosen
  let requiredSize :=
    if pageAlign then add32 size (getMemoryAddress current &&& 0xfff) else size
  let best ← reading fun m => bestFit m requiredSize walkFuel best current
  if pageAlign then
    let distance := getMemoryAddress best &&& 0xfff
    assert (add32 (header (← get) best).size distance ≥ size)
      "best->size + distance >= size && \"Out of heap space for aligned malloc\""
    makeAlignedBlock best
  else
    assert ((header (← get) best).size ≥ size) "best->size >= size && \"Out of heap space\""
    return best

/-- `alloc_internal`. -/
def allocInternal (size : Nat) (pageAlign : Bool) (heap : Heap) : StateExec Mem Nat := do
  let block ← getSuitableBlock size pageAlign heap
  if sub32 (header (← get) block).size size > headerSize + minBlockSize then
    modify fun m => createNewBlockHeader m block size
  modify fun m => setMagic m block (magicNumber ||| 0x1)
  return getMemoryAddress block

/-- Code on the memory, as code on the kernel heap. -/
def onMemory (x : StateExec Mem α) : StateExec KernelHeap α := fun k =>
  match x k.mem with
  | .ok a m    => .ok a { k with mem := m }
  | .error e m => .error e { k with mem := m }

/-- `kmalloc_internal`. `phys` is what a non-null `phys` argument is filled with once there is a heap,
    `get_phys(_, kernel_directory)`; the second component of the result is the value written there. -/
def kmallocInternal (sz align : Nat) (phys : Option (Nat → Exec Nat)) :
    StateExec KernelHeap (Nat × Option Nat) := do
  match (← get).kheap with
  | some heap =>
    let addr ← onMemory (allocInternal sz (align ≠ 0) heap)
    match phys with
    | some getPhys =>
      let p ← reading fun _ => getPhys addr
      return (addr, some p)
    | none => return (addr, none)
  | none =>
    if align = 1 ∧ (← get).placementAddress &&& 0xfffff000 ≠ 0 then
      modify fun k => { k with placementAddress := add32 (k.placementAddress &&& 0xfffff000) 0x1000 }
    let tmp := (← get).placementAddress
    modify fun k => { k with placementAddress := add32 k.placementAddress sz }
    return (tmp, if phys.isSome then some (sub32 tmp 0xc0000000) else none)

/-- `kmalloc`. -/
def kmalloc (sz : Nat) : StateExec KernelHeap Nat := do
  let (addr, _) ← kmallocInternal sz 0 none
  return addr

/-- `kmalloc_a`. -/
def kmallocA (sz : Nat) : StateExec KernelHeap Nat := do
  let (addr, _) ← kmallocInternal sz 1 none
  return addr

end Stateful

/-! ### Without the memory of a failure -/

/-- `make_aligned_block`. -/
def makeAlignedBlock (m : Mem) (block : Nat) : Exec (Nat × Mem) :=
  returned (Stateful.makeAlignedBlock block m)

/-- `get_suitable_block`. -/
def getSuitableBlock (m : Mem) (size : Nat) (pageAlign : Bool) (heap : Heap) : Exec (Nat × Mem) :=
  returned (Stateful.getSuitableBlock size pageAlign heap m)

/-- `alloc_internal`. -/
def allocInternal (m : Mem) (size : Nat) (pageAlign : Bool) (heap : Heap) : Exec (Nat × Mem) :=
  returned (Stateful.allocInternal size pageAlign heap m)

/-- `kmalloc`. -/
def kmalloc (k : KernelHeap) (sz : Nat) : Exec (Nat × KernelHeap) :=
  returned (Stateful.kmalloc sz k)

/-- `kmalloc_a`. -/
def kmallocA (k : KernelHeap) (sz : Nat) : Exec (Nat × KernelHeap) :=
  returned (Stateful.kmallocA sz k)

/-! ## `krealloc` -/

/-- `krealloc`. -/
def krealloc (k : KernelHeap) (ptr sz : Nat) : Exec (Nat × KernelHeap) := do
  let m := k.mem
  let hdr := sub32 ptr headerSize
  assert (isValid (header m hdr).magic) "is_valid(header->magic) && \"Heap block is invalid!\""
  if (header m hdr).size ≥ sz then return (ptr, k)
  let next := (header m hdr).next
  let mergeSize := add32 (add32 (header m next).size (header m hdr).size) headerSize
  -- the end of the heap, a used neighbour, or too little space in both blocks: start from scratch
  if next = 0 ∨ isUsed (header m next).magic ∨ mergeSize < sz then
    let (newPtr, k) ← kmalloc k sz
    let m := memcpy k.mem newPtr ptr (header k.mem hdr).size
    let m ← free m ptr
    return (newPtr, { k with mem := m })
  assert (mergeSize ≥ sz) "merge_size >= sz && \"Realloc error\""
  let m ← mergeBlocks m hdr next
  let m := if sub32 mergeSize sz > minBlockSize + headerSize then createNewBlockHeader m hdr sz else m
  return (ptr, { k with mem := m })

end WeirdOs
