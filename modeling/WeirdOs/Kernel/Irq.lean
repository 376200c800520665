import WeirdOs.Kernel.Idt
import WeirdOs.Kernel.Interrupt
import WeirdOs.Kernel.Pic
import WeirdOs.Lib.Arbiter

/-!
# `Kernel.Irq` — hardware interrupts (`kernel/arch/x86/irq.cpp`, `kernel/arch/x86/irq.s`)

A device raises a line at any time. When the flag IF is set, the processor takes the most urgent request
between two instructions, pushes three words, and goes where the gate of its vector leads: to a stub, which
saves all registers and calls `irq_handler`. That calls the routine of the line, tells the controllers that it
is done, and the stub restores everything.

The state follows what runs at the moment: the program, or `irq_handler` at one of its statements. Devices
can raise lines in between any two of them. The program is anything that changes the registers and the stack
above `esp`, be it a process or the rest of the kernel.

A routine changes the state of the drivers, `ρ`; none of the routines looks at its argument.
-/

namespace WeirdOs

open Lib

/-! ## The stubs -/

/-- The instructions of the stubs: those of `isr80`, and `cli`. `mov eax, handler` names the handler of the
    stub. -/
inductive TrapInstr where
  | cli
  | instr (i : Instr)
deriving DecidableEq, Repr

/-- An instruction of a stub other than the call. -/
def Cpu.exec (handler : UInt32) (c : Cpu) : TrapInstr → Exec Cpu
  | .cli                  => .ok { c with eflags := c.eflags &&& ~~~0x200 }
  | .instr (.pushImm n)   => .ok (c.push n)
  | .instr .pusha         => .ok c.pusha
  | .instr (.pushSeg s)   => .ok (c.push (c.seg s).toUInt32)
  | .instr (.movAx n)     => .ok { c with eax := (c.eax &&& 0xffff0000) ||| n.toUInt32 }
  | .instr (.movSegAx s)  => .ok { c with seg := Function.update c.seg s c.eax.toUInt16 }
  | .instr .movEaxEsp     => .ok { c with eax := c.esp }
  | .instr .cld           => .ok { c with eflags := c.eflags &&& ~~~0x400 }
  | .instr .pushEax       => .ok (c.push c.eax)
  | .instr .movEaxHandler => .ok { c with eax := handler }
  | .instr .callEax       => .error (.misuse "call eax")
  | .instr .popEax        => do
    let (eax, c) ← c.pop
    return { c with eax }
  | .instr (.popSeg s)    => do
    let (w, c) ← c.pop
    return { c with seg := Function.update c.seg s w.toUInt16 }
  | .instr .popa          => c.popa
  | .instr (.addEsp n)    => .ok { c with esp := c.esp + n, stack := c.stack.drop (n / 4).toNat }
  | .instr .iret          => do
    let (eip, c) ← c.pop
    let (cs, c) ← c.pop
    let (eflags, c) ← c.pop
    return { c with eip, cs := cs.toUInt16, eflags }

/-- `irq_common_stub`. -/
def irqCommonStub : List TrapInstr := [
  .instr .pusha,
  .instr (.pushSeg .ds),
  .instr (.pushSeg .es),
  .instr (.pushSeg .fs),
  .instr (.pushSeg .gs),
  .instr (.movAx 0x10),
  .instr (.movSegAx .ds),
  .instr (.movSegAx .es),
  .instr (.movSegAx .fs),
  .instr (.movSegAx .gs),
  .instr .movEaxEsp,
  .instr .pushEax,
  .instr .movEaxHandler,
  .instr .callEax,
  .instr .popEax,
  .instr (.popSeg .gs),
  .instr (.popSeg .fs),
  .instr (.popSeg .es),
  .instr (.popSeg .ds),
  .instr .popa,
  .instr (.addEsp 8),
  .instr .iret]

/-- `irq0` to `irq15`, up to the end of `irq_common_stub`. -/
def irqStub (n : Fin 16) : List TrapInstr :=
  [.cli, .instr (.pushImm 0), .instr (.pushImm (UInt32.ofNat (n + 32)))] ++ irqCommonStub

/-- The part of a stub before the call of the handler. -/
def beforeCall (code : List TrapInstr) : List TrapInstr := code.takeWhile (· ≠ .instr .callEax)

/-- The part after it. -/
def afterCall (code : List TrapInstr) : List TrapInstr := (code.dropWhile (· ≠ .instr .callEax)).tail

/-- What the processor does to take an interrupt through a gate: an interrupt gate (type 14) clears IF as well
    as TF, NT, RF and VM. -/
def Cpu.trap (c : Cpu) (gate : Gate) : Cpu :=
  { ((c.push c.eflags).push c.cs.toUInt32).push c.eip with
    eflags := c.eflags &&& ~~~(if gate.type = 14 then 0x34300 else 0x34100)
    cs := UInt16.ofNat gate.selector
    eip := UInt32.ofNat gate.offset }

/-! ## The machine -/

/-- The addresses of the code: no two stubs of lines are at one place. -/
structure IrqLinked extends Stubs where
  irqHandler : UInt32
  /-- Where `irq_handler` returns to. -/
  afterCall : UInt32
  irq_injective : Function.Injective irq

/-- The line whose stub is at an address. -/
def IrqLinked.line? (l : IrqLinked) (eip : UInt32) : Option (Fin 16) :=
  (List.finRange 16).find? fun n => l.irq n = eip

/-- The next statement of `irq_handler`. -/
inductive IrqPc where
  /-- `handler = irq_routines[r->int_no - 32]; if (handler) handler(r);`. -/
  | routine
  /-- `if (r->int_no >= 40) outb(0xA0, 0x20);`. -/
  | slaveEoi
  /-- `outb(0x20, 0x20);`. -/
  | masterEoi
  /-- Back to the stub. -/
  | leave
deriving DecidableEq, Repr

/-- Processor, controllers and tables, and what runs: the program, or `irq_handler` with its `r->int_no`. -/
structure Computer (ρ : Type) where
  cpu : Cpu
  pics : Pics
  idt : Idt
  /-- `irq_routines`. -/
  irqRoutines : Fin 16 → Option (ρ → ρ)
  drivers : ρ
  handler : Option (IrqPc × UInt32)
  /-- The lines whose place in `irq_routines` was looked up, in order. -/
  served : List (Fin 16)

/-- What can happen. -/
inductive ComputerEvent where
  /-- A device raises a line. -/
  | raise (line : Fin 16)
  /-- The program goes on. -/
  | program (f : Cpu → Cpu)
  /-- The processor takes an interrupt. -/
  | accept
  /-- The next statement of `irq_handler`. -/
  | handler
  /-- The stub goes on, with what `irq_handler` has left in the registers that it may use. -/
  | leave (left : Scratch)

namespace Computer

variable {ρ : Type}

/-- `install_irq_routine`. -/
def installIrqRoutine (c : Computer ρ) (port : Fin 16) (handler : ρ → ρ) : Computer ρ :=
  { c with irqRoutines := Function.update c.irqRoutines port (some handler) }

/-- `irq_install`. -/
def irqInstall (c : Computer ρ) (l : Stubs) : Exec (Computer ρ) := do
  let pics ← c.pics.irqRemap
  return { c with pics, idt := c.idt.irqGates l }

/-- The machine after `init_idt` and `irq_install`, whatever it was before. -/
def boot (l : Stubs) (cpu : Cpu) (pics : Pics) (idt : Idt) (irqRoutines : Fin 16 → Option (ρ → ρ))
    (drivers : ρ) : Exec (Computer ρ) :=
  irqInstall { cpu, pics, idt := idt.initIdt l, irqRoutines, drivers, handler := none, served := [] } l

/-- IF. -/
def interruptsEnabled (c : Computer ρ) : Bool := c.cpu.eflags &&& 0x200 ≠ 0

/-- The processor takes an interrupt, and the stub runs up to the call of `irq_handler`. -/
def accept (l : IrqLinked) (c : Computer ρ) : Exec (Computer ρ) :=
  if c.interruptsEnabled then
    match c.pics.acknowledge with
    | none           => .error (.misuse "no interrupt")
    | some (v, pics) =>
      match c.idt.gate v.toFin with
      | none      => .error (.misuse "no gate")
      | some gate =>
        if gate.present then do
          let cpu := c.cpu.trap gate
          match l.line? cpu.eip with
          | none   => .error (.misuse "not a stub of a line")
          | some n =>
            let cpu ← (beforeCall (irqStub n)).foldlM (Cpu.exec l.irqHandler) cpu
            let cpu := cpu.push l.afterCall
            -- the argument of irq_handler is above the return address
            let r ← cpu.word (cpu.esp + 4)
            let intNo ← cpu.word (r + 48)
            return { c with cpu, pics, handler := some (.routine, intNo) }
        else .error (.misuse "gate not present")
  else .error (.misuse "interrupts are disabled")

/-- The next statement of `irq_handler`. -/
def irqHandler (c : Computer ρ) : Exec (Computer ρ) :=
  match c.handler with
  | none                     => .error (.misuse "irq_handler")
  | some (.routine, intNo)   =>
    if h : (intNo - 32).toNat < 16 then
      let line : Fin 16 := ⟨(intNo - 32).toNat, h⟩
      let drivers :=
        match c.irqRoutines line with
        | none         => c.drivers
        | some handler => handler c.drivers
      .ok { c with drivers, handler := some (.slaveEoi, intNo), served := c.served ++ [line] }
    else .error (.bounds "irq_routines")
  | some (.slaveEoi, intNo)  => do
    let pics ← (if 40 ≤ intNo then c.pics.outb 0xA0 0x20 else .ok c.pics)
    return { c with pics, handler := some (.masterEoi, intNo) }
  | some (.masterEoi, intNo) => do
    let pics ← c.pics.outb 0x20 0x20
    return { c with pics, handler := some (.leave, intNo) }
  | some (.leave, _)         => .error (.misuse "irq_handler")

/-- `irq_handler` returns, and the stub runs to its end. -/
def leave (l : IrqLinked) (left : Scratch) (c : Computer ρ) : Exec (Computer ρ) :=
  match c.handler with
  | some (.leave, _) => do
    let (_, cpu) ← c.cpu.pop
    let cpu := { cpu with
      eax := left.eax, ecx := left.ecx, edx := left.edx, eflags := left.eflags,
      stack := left.argument :: cpu.stack.tail }
    let cpu ← (WeirdOs.afterCall irqCommonStub).foldlM (Cpu.exec l.irqHandler) cpu
    return { c with cpu, handler := none }
  | _                => .error (.misuse "ret")

/-- One event. Line 2 is where the slave is; no device is there. -/
def step (l : IrqLinked) (c : Computer ρ) : ComputerEvent → Exec (Computer ρ)
  | .raise line => if line.val = 2 then .error (.misuse "line 2") else .ok { c with pics := c.pics.raise line }
  | .program f  =>
    match c.handler with
    | none   => .ok { c with cpu := f c.cpu }
    | some _ => .error (.misuse "program")
  | .accept     => c.accept l
  | .handler    => c.irqHandler
  | .leave left => c.leave l left

end Computer

/-- A line waits. -/
def Pics.pending (p : Pics) (line : Fin 16) : Bool :=
  if h : line.val < 8 then p.master.irr ⟨line, h⟩ else p.slave.irr (Fin.subNat 8 line (Nat.le_of_not_lt h))

/-- The line that has been taken and whose routine has yet to be called. -/
def Computer.current {ρ : Type} (c : Computer ρ) : List (Fin 16) :=
  match c.handler with
  | some (.routine, intNo) => if h : (intNo - 32).toNat < 16 then [⟨(intNo - 32).toNat, h⟩] else []
  | _                      => []

/-! ## The reference -/

/-- The lines in the order in which they are taken: those of the slave come at the place of line 2. -/
def lineOrder : List (Fin 16) :=
  (List.finRange 16).filter (·.val < 2) ++ (List.finRange 16).filter (8 ≤ ·.val) ++
    (List.finRange 16).filter fun line => 2 < line.val ∧ line.val < 8

/-- What an event is to the reference. -/
def ComputerEvent.arbiterOp : ComputerEvent → Option (ArbiterOp (Fin 16))
  | .raise line => some (.raise line)
  | .program _  => none
  | .accept     => some .take
  | .handler    => none
  | .leave _    => some .finish

/-- What the program does in an event. -/
def ComputerEvent.programStep : ComputerEvent → Option (Cpu → Cpu)
  | .program f => some f
  | _          => none

end WeirdOs
