import WeirdOs.Machine
import Mathlib.Logic.Function.Basic

/-!
# `Kernel.Pic` — the two interrupt controllers (`kernel/arch/x86/irq.cpp`)

Sixteen lines lead to the processor through two 8259 controllers: the eight of the master, and the eight of
the slave, which hangs on line 2 of the master. A controller latches requests (`irr`), hands the most urgent
one to the processor when that asks for it, and keeps it in service (`isr`) until it is told that it has been
handled. As long as a line is in service, this line and those behind it have to wait.

`irq_remap` sets both up by the four initialisation words that the 8259 takes one after the other, the first
at its command port and the others at its data port. Of the commands for later, the kernel uses one, the end
of interrupt; the others have no model.
-/

namespace WeirdOs

open Lib

/-! ## One controller -/

/-- What a write to the data port means. -/
inductive PicPhase where
  | icw2
  | icw3
  | icw4
  /-- The controller is set up, and the byte is the mask. -/
  | ready
deriving DecidableEq, Repr

/-- A controller. -/
structure Pic where
  phase : PicPhase
  /-- Whether ICW4 is to follow. -/
  icw4Needed : Bool
  /-- Whether it is the only controller. -/
  single : Bool
  /-- The vector of line 0. -/
  base : UInt8
  /-- ICW3: for the master, the lines with a slave as bits; for a slave, its line as a number. -/
  cascade : UInt8
  /-- Whether a request is no longer in service as soon as the processor has it. -/
  autoEoi : Bool
  imr : Fin 8 → Bool
  irr : Fin 8 → Bool
  isr : Fin 8 → Bool

namespace Pic

/-- The lines in the order of their priority. -/
def lines : List (Fin 8) := List.finRange 8

/-- The most urgent line in service. -/
def inService (p : Pic) : Option (Fin 8) := lines.find? p.isr

/-- End of interrupt: the most urgent line is no longer in service. -/
def endOfInterrupt (p : Pic) : Pic :=
  match p.inService with
  | none   => p
  | some j => { p with isr := Function.update p.isr j false }

/-- A byte for the command port: ICW1, or the end of interrupt. -/
def command (p : Pic) (byte : UInt8) : Exec Pic :=
  if byte.toNat.testBit 4 then
    .ok { p with
      phase := .icw2
      icw4Needed := byte.toNat.testBit 0
      single := byte.toNat.testBit 1
      autoEoi := false
      imr := fun _ => false
      irr := fun _ => false
      isr := fun _ => false }
  else if byte = 0x20 then .ok p.endOfInterrupt
  else .error (.misuse "8259 command")

/-- A byte for the data port. -/
def data (p : Pic) (byte : UInt8) : Pic :=
  match p.phase with
  | .icw2  =>
    { p with
      base := byte &&& 0xf8
      phase := if p.single then (if p.icw4Needed then .icw4 else .ready) else .icw3 }
  | .icw3  => { p with cascade := byte, phase := if p.icw4Needed then .icw4 else .ready }
  | .icw4  => { p with autoEoi := byte.toNat.testBit 1, phase := .ready }
  | .ready => { p with imr := fun j => byte.toNat.testBit j }

/-- A line asks for service. -/
def latch (p : Pic) (j : Fin 8) : Pic := { p with irr := Function.update p.irr j true }

/-- The request that the controller has for the processor: the most urgent one that is not masked, if it is
    more urgent than all that is in service. `slave` are the lines on which a slave has a request. -/
def request (p : Pic) (slave : Fin 8 → Bool) : Option (Fin 8) :=
  if p.phase = .ready then
    lines.find? fun j => (p.irr j || slave j) && !p.imr j && lines.all fun i => !(p.isr i && i ≤ j)
  else none

/-- The processor takes the request of a line. -/
def take (p : Pic) (j : Fin 8) : Pic :=
  { p with irr := Function.update p.irr j false, isr := Function.update p.isr j !p.autoEoi }

end Pic

/-! ## The two of them -/

/-- Master and slave. -/
structure Pics where
  master : Pic
  slave : Pic

namespace Pics

/-- `outb`, at the ports of the controllers. -/
def outb (p : Pics) (port : UInt16) (byte : UInt8) : Exec Pics :=
  if port = 0x20 then do
    let master ← p.master.command byte
    return { p with master }
  else if port = 0x21 then .ok { p with master := p.master.data byte }
  else if port = 0xA0 then do
    let slave ← p.slave.command byte
    return { p with slave }
  else if port = 0xA1 then .ok { p with slave := p.slave.data byte }
  else .error (.misuse "outb")

/-- `irq_remap`. -/
def irqRemap (p : Pics) : Exec Pics := do
  let p ← p.outb 0x20 0x11
  let p ← p.outb 0xA0 0x11
  let p ← p.outb 0x21 0x20
  let p ← p.outb 0xA1 0x28
  let p ← p.outb 0x21 0x04
  let p ← p.outb 0xA1 0x02
  let p ← p.outb 0x21 0x01
  let p ← p.outb 0xA1 0x01
  let p ← p.outb 0x21 0x0
  p.outb 0xA1 0x0

/-- The line of the master that the slave hangs on. -/
def slaveLine : Fin 8 := 2

/-- A device asks for service on one of the 16 lines: those from 8 on are the lines of the slave. -/
def raise (p : Pics) (line : Fin 16) : Pics :=
  if h : line < 8 then { p with master := p.master.latch ⟨line, h⟩ }
  else { p with slave := p.slave.latch ⟨line - 8, by omega⟩ }

/-- What the slave asks of the master. -/
def slaveRequest (p : Pics) (j : Fin 8) : Bool :=
  decide (j = slaveLine) && (p.slave.request fun _ => false).isSome

/-- The processor takes an interrupt, and gets its vector. On a line with a slave, the slave that has this
    number answers, with vector 7 of its own when it has no request. -/
def acknowledge (p : Pics) : Option (UInt8 × Pics) :=
  match p.master.request p.slaveRequest with
  | none   => none
  | some j =>
    let master := p.master.take j
    if p.master.cascade.toNat.testBit j && decide (p.slave.cascade.toNat % 8 = j) then
      match p.slave.request fun _ => false with
      | none   => some (p.slave.base + 7, { p with master })
      | some i => some (p.slave.base + UInt8.ofNat i, { master, slave := p.slave.take i })
    else some (p.master.base + UInt8.ofNat j, { p with master })

end Pics

end WeirdOs
