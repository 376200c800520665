import WeirdOs.Clib.String
import WeirdOs.Paging.Page

/-!
# `Elf.Loader` — `elf_loader` of `elf.h`

The loader works on two things at once: the page tables of a directory, and memory as the running
program sees it (`mem`, by virtual address). The image lies in that memory, so every header is read when
the source reads it: a segment copied over the image changes what the next iteration finds.

`copied` records the copies made, as destination and length; `memcpy` writes the bytes `dest + i` for
`i < n`, reduced to 32 bits.

Fields of the two headers that `elf_loader` never reads are left out.
-/

namespace WeirdOs

open Lib

/-! ## Headers -/

/-- `elf_header_t`. -/
structure ElfHeader where
  magic : Nat
  version : Nat
  entry : Nat
  phoff : Nat
  ehsize : Nat
  phentsize : Nat
  phnum : Nat
  shentsize : Nat
deriving DecidableEq, Repr

/-- `program_t`. -/
structure ProgramHeader where
  type : Nat
  offset : Nat
  vaddr : Nat
  filesz : Nat
  memsz : Nat
  flags : Nat
deriving DecidableEq, Repr

/-- `PT_LOAD`. -/
def ptLoad : Nat := 1

/-- `PF_W`. -/
def pfW : Nat := 0x2

/-- `elf_loader::header`, for an image at `addr`. -/
def elfHeader (m : Mem) (addr : Nat) : ElfHeader where
  magic := load32 m addr
  version := load32 m (addr + 20)
  entry := load32 m (addr + 24)
  phoff := load32 m (addr + 28)
  ehsize := load16 m (addr + 40)
  phentsize := load16 m (addr + 42)
  phnum := load16 m (addr + 44)
  shentsize := load16 m (addr + 46)

/-- `elf_loader::program_header`. -/
def programHeader (m : Mem) (addr i : Nat) : ProgramHeader :=
  let ph := add32 (add32 addr (elfHeader m addr).phoff) (32 * i)
  { type := load32 m ph
    offset := load32 m (ph + 4)
    vaddr := load32 m (ph + 8)
    filesz := load32 m (ph + 16)
    memsz := load32 m (ph + 20)
    flags := load32 m (ph + 24) }

/-- The constructor `elf_loader::elf_loader`: only its assertions matter. -/
def elfLoader (m : Mem) (addr : Nat) : Exec Unit := do
  let hdr := elfHeader m addr
  assert (hdr.magic = 0x464c457f) "hdr->magic == 0x464c457f && \"Elf read error\""
  assert (hdr.version = 1) "hdr->version == 1"
  assert (hdr.ehsize = 52) "hdr->ehsize == sizeof(elf_header_t)"
  assert (hdr.phentsize = 32) "hdr->phentsize == sizeof(program_t)"
  assert (hdr.shentsize = 40) "hdr->shentsize == sizeof(section_header_t)"

/-! ## Loading -/

/-- `elf_layout_t`. -/
structure ElfLayout where
  entry : Nat
  stack : Nat
deriving DecidableEq, Repr

/-- The page tables, the memory of the program, and the copies made so far. -/
structure LoadState where
  paging : Paging
  mem : Mem
  copied : List (Nat × Nat)

/-- The loop of `elf_loader::load`. There are at most `2^16 - 1` program headers. -/
def loadLoop (addr dir : Nat) : Nat → Nat → LoadState → Exec LoadState
  | 0, _, _ => throw .fuel
  | fuel + 1, i, s =>
    if i < (elfHeader s.mem addr).phnum then
      let ph := programHeader s.mem addr i
      if ph.type ≠ ptLoad then loadLoop addr dir fuel (i + 1) s
      else do
        let paging ← allocate s.paging dir ph.vaddr ph.memsz 0 (ph.flags &&& pfW)
        loadLoop addr dir fuel (i + 1)
          { paging := paging
            mem := memcpy s.mem ph.vaddr (add32 addr ph.offset) ph.filesz
            copied := s.copied ++ [(ph.vaddr, ph.filesz)] }
    else return s

/-- More steps than there are program headers. -/
def loadFuel : Nat := 65537

/-- `elf_loader::load`, with the allocator of the directory `dir`. -/
def load (s : LoadState) (addr dir : Nat) : Exec (ElfLayout × LoadState) := do
  assert ((elfHeader s.mem addr).phnum > 0) "header()->phnum > 0 && \"Not an executable\""
  let s ← loadLoop addr dir loadFuel 0 s
  let paging ← allocate s.paging dir 0 0x2000 0 1
  let s := { s with paging := paging }
  return (⟨(elfHeader s.mem addr).entry, 0x2000⟩, s)

/-- What `exec_process` does with an image it has read to `addr`: construct a loader and load. -/
def loadImage (s : LoadState) (addr dir : Nat) : Exec (ElfLayout × LoadState) := do
  elfLoader s.mem addr
  load s addr dir

end WeirdOs
