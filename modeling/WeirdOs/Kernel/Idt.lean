import WeirdOs.Machine
import Mathlib.Data.Fin.Basic

/-!
# `Kernel.Idt` — the interrupt descriptor table (`kernel/arch/x86/idt.cpp`)

256 gates, one for each vector: the stubs of the exceptions, of the 16 interrupt lines, and of system calls.
All other vectors get a gate that is not present.

A gate is 8 bytes, with the two halves of the address of the stub at its ends. How the processor reads it is
`decodeGate`. Where the linker puts `idt` and the stubs is a parameter, and `lidt` loads the register that
tells the processor where the table is.
-/

namespace WeirdOs

open Lib

/-! ## Data -/

/-- `struct idt_entry`, in the order of its bytes. -/
structure IdtEntry where
  offset1 : UInt16
  selector : UInt16
  zero : UInt8
  typeAttr : UInt8
  offset2 : UInt16
deriving DecidableEq, Repr

/-- `sizeof(struct idt_entry)`. -/
def sizeofIdtEntry : Nat := 8

/-- `struct idt_desc`. -/
structure IdtDesc where
  size : UInt16
  address : UInt32
deriving DecidableEq, Repr

/-- The globals of `idt.cpp` with the address of `idt`, and the register that `lidt` loads. -/
structure Idt where
  idt : Vector IdtEntry 256
  idtDescriptor : IdtDesc
  idtAddr : UInt32
  idtr : IdtDesc
deriving DecidableEq, Repr

/-- Where the stubs are. -/
structure Stubs where
  isr : Fin 32 → UInt32
  isr80 : UInt32
  irq : Fin 16 → UInt32

/-! ## The functions -/

/-- The bits of the type of a gate. -/
def ENABLED : UInt8 := 0x80

@[inherit_doc ENABLED] def INT_GATE : UInt8 := 0xe

@[inherit_doc ENABLED] def TRAP_GATE : UInt8 := 0xf

/-- `init_idt_entry`: all of the entry is written. -/
def initIdtEntry (offset : UInt32) (selector : UInt16) (type : UInt8) : IdtEntry where
  offset1 := (offset &&& 0xffff).toUInt16
  offset2 := ((offset >>> 16) &&& 0xffff).toUInt16
  selector
  typeAttr := type
  zero := 0x0

namespace Idt

/-- `idt[index] = e`. -/
def setEntry (s : Idt) (index : Fin 256) (e : IdtEntry) : Idt := { s with idt := s.idt.set index e }

/-- `idt_set_gate`. -/
def idtSetGate (s : Idt) (offset : UInt32) (selector : UInt16) (type index : UInt8) : Idt :=
  s.setEntry index.toFin (initIdtEntry offset selector type)

/-- `asm_idt_load`. -/
def asmIdtLoad (s : Idt) : Idt := { s with idtr := s.idtDescriptor }

/-- `init_idt`. -/
def initIdt (s : Idt) (l : Stubs) : Idt :=
  -- the loop stops one short of the last entry
  let s := (List.finRange 0xff).foldl
    (fun s i => s.setEntry (i.castLE (by decide)) (initIdtEntry 0 0x08 INT_GATE)) s
  let s := { s with idtDescriptor := ⟨UInt16.ofNat (sizeofIdtEntry * 256 - 1), s.idtAddr⟩ }
  -- isr0 to isr31
  let s := (List.finRange 32).foldl
    (fun s i => s.setEntry (i.castLE (by decide)) (initIdtEntry (l.isr i) 0x08 (ENABLED ||| TRAP_GATE))) s
  -- the system call
  let s := s.setEntry 0x80 (initIdtEntry l.isr80 0x08 (ENABLED ||| INT_GATE))
  s.asmIdtLoad

/-- The gates that `irq_install` sets: `irq0` to `irq15`. -/
def irqGates (s : Idt) (l : Stubs) : Idt :=
  (List.finRange 16).foldl (fun s i => s.idtSetGate (l.irq i) 0x08 0x8e (UInt8.ofNat (32 + i))) s

end Idt

/-! ## What the processor makes of an entry -/

/-- The 8 bytes of an entry as one number, the first byte the least significant. -/
def IdtEntry.bits (e : IdtEntry) : Nat :=
  e.offset1.toNat + e.selector.toNat * 0x10000 + e.zero.toNat * 0x100000000 +
    e.typeAttr.toNat * 0x10000000000 + e.offset2.toNat * 0x1000000000000

/-- A gate: where it leads, its type (with the bit for system segments), the privilege that `int` needs, and
    whether it is there. -/
structure Gate where
  offset : Nat
  selector : Nat
  type : Nat
  dpl : Nat
  present : Bool
deriving DecidableEq, Repr

/-- The layout of a gate: the offset in the bits 0 to 15 and 48 to 63, the selector in the bits 16 to 31, the
    type in the bits 40 to 44, the privilege in the bits 45 and 46, the present bit 47. -/
def decodeGate (d : Nat) : Gate where
  offset := d % 0x10000 + d / 0x1000000000000 % 0x10000 * 0x10000
  selector := d / 0x10000 % 0x10000
  type := d / 0x10000000000 % 0x20
  dpl := d / 0x200000000000 % 4
  present := decide (d / 0x800000000000 % 2 = 1)

/-- The gate that the processor finds for a vector, where the register names the table and the table is long
    enough. -/
def Idt.gate (s : Idt) (v : Fin 256) : Option Gate :=
  if s.idtr.address = s.idtAddr ∧ sizeofIdtEntry * v + 7 ≤ s.idtr.size.toNat then
    some (decodeGate s.idt[v].bits)
  else none

end WeirdOs
