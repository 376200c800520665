import WeirdOs.Kernel.Irq

/-!
# `Kernel.Timer` — the timer and `sleep` (`kernel/arch/x86/timer.cpp`)

The timer is channel 0 of the 8253. It counts from its reload value down to 0, raises line 0 and starts again.
`install_timer` sets the value; the routine of the line counts the ticks, with 32 bits.

`sleep` compares the ticks gone by with what was asked for and stops the processor until the next interrupt, of
whatever line, before it compares again. Interrupts come in between any two of its steps, between the comparison
and `hlt` too.
-/

namespace WeirdOs

open Lib

/-! ## The timer -/

/-- How the next byte for the data port of channel 0 is taken. -/
inductive PitPhase where
  | low
  | high
deriving DecidableEq, Repr

/-- Channel 0 of the 8253. -/
structure Pit where
  mode : Nat
  phase : PitPhase
  /-- The low byte that waits for the high one. -/
  latch : UInt8
  reload : Nat
deriving DecidableEq, Repr

/-- `outb`, at the ports of the timer. Of the commands, the kernel uses the one for channel 0 that says that
    the low byte comes first and the high byte next. -/
def Pit.outb (p : Pit) (port : UInt16) (byte : UInt8) : Exec Pit :=
  if port = 0x43 then
    if byte &&& 0xf1 = 0x30 then .ok { p with mode := (byte >>> 1 &&& 0x7).toNat, phase := .low }
    else .error (.misuse "8253 command")
  else if port = 0x40 then
    match p.phase with
    | .low  => .ok { p with latch := byte, phase := .high }
    | .high => .ok { p with reload := p.latch.toNat + 256 * byte.toNat, phase := .low }
  else .error (.misuse "outb")

/-- `timer_set_phase`. -/
def timerSetPhase (p : Pit) (hz : Int) : Exec Pit :=
  if hz = 0 then .error (.misuse "division by zero")
  else do
    let divisor := (1193180 : Int).tdiv hz
    let p ← p.outb 0x43 0x36
    let p ← p.outb 0x40 (UInt8.ofInt (divisor % 256))
    p.outb 0x40 (UInt8.ofInt (divisor / 256))

/-- The globals of the drivers: `timer_ticks`, and those of the others. -/
structure Ticking (σ : Type) where
  timerTicks : UInt32
  others : σ

variable {σ : Type}

theorem timerLine_lt : 0 < 16 := by decide

/-- The line of the timer. -/
def timerLine : Fin 16 := ⟨0, timerLine_lt⟩

/-- `timer_handler`. -/
def timerHandler (d : Ticking σ) : Ticking σ := { d with timerTicks := d.timerTicks + 1 }

/-- `install_timer`. -/
def installTimer (p : Pit) (c : Computer (Ticking σ)) : Exec (Pit × Computer (Ticking σ)) := do
  let p ← timerSetPhase p 1000
  return (p, c.installIrqRoutine timerLine timerHandler)

/-! ## Sleeping -/

/-- Where `sleep` is. -/
inductive SleepPc where
  /-- Before `timer_ticks - timer_start < ms`. -/
  | check
  /-- Before `hlt`. -/
  | hlt
  /-- The processor is stopped. -/
  | halted
  | done
deriving DecidableEq, Repr

/-- The machine with a program that is in `sleep`. -/
structure Sleeper (σ : Type) where
  computer : Computer (Ticking σ)
  pc : SleepPc
  timerStart : UInt32
  ms : UInt32

/-- What can happen: to the machine, or a step of `sleep`. -/
inductive SleepEvent where
  | machine (e : ComputerEvent)
  | sleep

namespace Sleeper

/-- The call of `sleep`, with `timer_start` read. -/
def start (c : Computer (Ticking σ)) (ms : UInt32) : Sleeper σ := ⟨c, .check, c.drivers.timerTicks, ms⟩

/-- The next step of `sleep`; the registers that it uses are left out. -/
def sleep (s : Sleeper σ) : Exec (Sleeper σ) :=
  if s.computer.handler.isSome then .error (.misuse "program")
  else
    match s.pc with
    | .check  =>
      .ok { s with pc := if s.computer.drivers.timerTicks - s.timerStart < s.ms then .hlt else .done }
    | .hlt    => .ok { s with pc := .halted }
    | .halted => .error (.misuse "halted")
    | .done   => .error (.misuse "sleep")

/-- One event. The program is in `sleep` and does nothing else; an interrupt sets a stopped processor going,
    behind `hlt`. -/
def step (l : IrqLinked) (s : Sleeper σ) : SleepEvent → Exec (Sleeper σ)
  | .machine (.program _) => .error (.misuse "program")
  | .machine .accept      => do
    let computer ← s.computer.accept l
    return { s with computer, pc := if s.pc = .halted then .check else s.pc }
  | .machine e            => do
    let computer ← s.computer.step l e
    return { s with computer }
  | .sleep                => s.sleep

end Sleeper

end WeirdOs
