import WeirdOs.Machine

/-!
# `Kernel.Gdt` — the segments of the processor (`kernel/arch/x86/gdt.cpp`)

The kernel runs in flat segments: code and data for itself and for programs, each of them all of memory.
The sixth entry of the table describes the task state segment, which tells the processor the stack to
change to when a program enters the kernel.

An entry is 8 bytes, with the parts of the base and of the limit where the processor expects them. How the
processor reads them is `decode`. Where the linker puts `gdt` and `tss_entry` is part of the state.

`gdt_flush` and `tss_flush`, which load the registers of the processor from these tables, are left out.
-/

namespace WeirdOs

open Lib

/-! ## Data -/

/-- `struct gdt_entry_t`, in the order of its bytes. -/
structure GdtEntry where
  limitLow : UInt16
  baseLow : UInt16
  baseMiddle : UInt8
  access : UInt8
  granularity : UInt8
  baseHigh : UInt8
deriving DecidableEq, Repr

/-- `struct tss_entry_t`. -/
structure TssEntry where
  prevTss : UInt32
  esp0 : UInt32
  ss0 : UInt32
  esp1 : UInt32
  ss1 : UInt32
  esp2 : UInt32
  ss2 : UInt32
  cr3 : UInt32
  eip : UInt32
  eflags : UInt32
  eax : UInt32
  ecx : UInt32
  edx : UInt32
  ebx : UInt32
  esp : UInt32
  ebp : UInt32
  esi : UInt32
  edi : UInt32
  es : UInt32
  cs : UInt32
  ss : UInt32
  ds : UInt32
  fs : UInt32
  gs : UInt32
  ldt : UInt32
  trap : UInt32
  iomapBase : UInt32
deriving DecidableEq, Repr

/-- What `memset(_, 0, _)` makes of it. -/
def TssEntry.zero : TssEntry :=
  ⟨0, 0, 0, 0, 0, 0, 0, 0, 0, 0, 0, 0, 0, 0, 0, 0, 0, 0, 0, 0, 0, 0, 0, 0, 0, 0, 0⟩

/-- `sizeof(gdt_entry_t)`. -/
def sizeofGdtEntry : Nat := 8

/-- `sizeof(tss_entry_t)`: 27 words. -/
def sizeofTssEntry : Nat := 108

/-- `struct gdt_ptr`. -/
structure GdtPtr where
  limit : UInt16
  base : UInt32
deriving DecidableEq, Repr

/-- The globals of `gdt.cpp`, with the addresses of `gdt` and `tss_entry`. -/
structure Gdt where
  gdt : Vector GdtEntry 6
  gp : GdtPtr
  tssEntry : TssEntry
  gdtAddr : UInt32
  tssAddr : UInt32
deriving DecidableEq, Repr

/-! ## The functions -/

namespace Gdt

/-- `gdt_set_gate`. -/
def gdtSetGate (s : Gdt) (num : Int) (base limit access : UInt32) (gran : UInt8) : Exec Gdt :=
  if h : 0 ≤ num ∧ num < 6 then
    let e := s.gdt[num.toNat]
    -- set base
    let e := { e with
      baseLow := (base &&& 0xFFFF).toUInt16
      baseMiddle := ((base >>> 16) &&& 0xFF).toUInt8
      baseHigh := ((base >>> 24) &&& 0xFF).toUInt8 }
    -- set limits
    let e := { e with
      limitLow := (limit &&& 0xFFFF).toUInt16
      granularity := ((limit >>> 16) &&& 0x0F).toUInt8 }
    -- set access flags
    let e := { e with
      granularity := e.granularity ||| (gran &&& 0xF0)
      access := access.toUInt8 }
    .ok { s with gdt := s.gdt.set num.toNat e }
  else .error (.bounds "gdt")

/-- `write_tss`. -/
def writeTss (s : Gdt) (num : Int) (ss0 : UInt16) (esp0 : UInt32) : Exec Gdt := do
  let base := s.tssAddr
  let limit := base + UInt32.ofNat sizeofTssEntry
  let s ← s.gdtSetGate num base limit 0xE9 0x00
  return { s with
    tssEntry := { TssEntry.zero with
      ss0 := ss0.toUInt32
      esp0
      cs := 0x0b
      ss := 0x13
      ds := 0x13
      es := 0x13
      fs := 0x13
      gs := 0x13
      iomapBase := UInt32.ofNat sizeofTssEntry } }

/-- The bits of the access byte. -/
def RW : UInt32 := 0x2

@[inherit_doc RW] def EXECUTABLE : UInt32 := 0x8

@[inherit_doc RW] def NOT_SYS : UInt32 := 0x10

@[inherit_doc RW] def PRVL_0 : UInt32 := 0x0

@[inherit_doc RW] def PRVL_3 : UInt32 := 0x60

@[inherit_doc RW] def PRESENT : UInt32 := 0x80

/-- `gdt_install`, before the tables are loaded. -/
def gdtInstall (s : Gdt) : Exec Gdt := do
  let s := { s with gp := ⟨UInt16.ofNat (sizeofGdtEntry * 6 - 1), s.gdtAddr⟩ }
  -- NULL descriptor
  let s ← s.gdtSetGate 0 0 0 0 0
  -- Kernel Code segment (0x8)
  let s ← s.gdtSetGate 1 0 0xFFFFFFFF (PRESENT ||| PRVL_0 ||| NOT_SYS ||| RW ||| EXECUTABLE) 0xCF
  -- Kernel Data segment (0x10)
  let s ← s.gdtSetGate 2 0 0xFFFFFFFF (PRESENT ||| PRVL_0 ||| NOT_SYS ||| RW) 0xCF
  -- User Code segment (0x18)
  let s ← s.gdtSetGate 3 0 0xFFFFFFFF (PRESENT ||| PRVL_3 ||| NOT_SYS ||| RW ||| EXECUTABLE) 0xCF
  -- User Data segment (0x20)
  let s ← s.gdtSetGate 4 0 0xFFFFFFFF (PRESENT ||| PRVL_3 ||| NOT_SYS ||| RW) 0xCF
  s.writeTss 5 0x10 0x0

end Gdt

/-! ## What the processor makes of an entry -/

/-- The 8 bytes of an entry as one number, the first byte the least significant. -/
def GdtEntry.bits (e : GdtEntry) : Nat :=
  e.limitLow.toNat + e.baseLow.toNat * 0x10000 + e.baseMiddle.toNat * 0x100000000 +
    e.access.toNat * 0x10000000000 + e.granularity.toNat * 0x1000000000000 +
    e.baseHigh.toNat * 0x100000000000000

/-- A segment: where it starts, the last offset inside it, the access byte, and whether its limit counts
    bytes or pages. -/
structure Segment where
  base : Nat
  limit : Nat
  access : Nat
  pages : Bool
deriving DecidableEq, Repr

/-- The layout of a descriptor: base in the bits 16 to 39 and 56 to 63, limit in the bits 0 to 15 and 48 to
    51, access byte in the bits 40 to 47. With bit 55 set, the limit is in units of 4 KB. -/
def decode (d : Nat) : Segment :=
  let limit := d % 0x10000 + d / 0x1000000000000 % 0x10 * 0x10000
  let pages := decide (d / 0x80000000000000 % 2 = 1)
  { base := d / 0x10000 % 0x1000000 + d / 0x100000000000000 % 0x100 * 0x1000000
    limit := if pages then limit * 0x1000 + 0xfff else limit
    access := d / 0x10000000000 % 0x100
    pages }

/-- The segment of an entry of the table. -/
def Gdt.segment (s : Gdt) (i : Fin 6) : Segment := decode s.gdt[i].bits

/-- Is the address inside the segment? -/
def Segment.Covers (g : Segment) (a : Nat) : Prop := ∃ off ≤ g.limit, a = add32 g.base off

end WeirdOs
