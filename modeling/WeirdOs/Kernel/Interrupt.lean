import WeirdOs.Kernel.Syscall

/-!
# `Kernel.Interrupt` — the way into the kernel (`kernel/arch/x86/isr.s`, `clib/syscall.cpp`)

A program calls the kernel by `int $0x80`. Programs are entered by a `call` from the kernel, so they run with
its rights, and the processor pushes three words on the stack in use: the flags, `cs` and `eip`. `isr80`
pushes the rest of `struct regs`, hands its address to `syscall_handler`, and pops everything again.

The stack is the words from `esp` on. All that is pushed here goes below the `esp` of the program, where no
buffer of it is, so that the stack is kept apart from `Kernel.mem`.
-/

namespace WeirdOs

open Lib

/-! ## The processor -/

/-- The segment registers that are saved. -/
inductive Seg where
  | ds
  | es
  | fs
  | gs
deriving DecidableEq, Repr

/-- The registers, and the stack from `esp` on. -/
structure Cpu where
  eax : UInt32
  ebx : UInt32
  ecx : UInt32
  edx : UInt32
  esi : UInt32
  edi : UInt32
  ebp : UInt32
  esp : UInt32
  seg : Seg → UInt16
  cs : UInt16
  eip : UInt32
  eflags : UInt32
  stack : List UInt32
deriving Inhabited

namespace Cpu

/-- `push`. -/
def push (c : Cpu) (w : UInt32) : Cpu := { c with esp := c.esp - 4, stack := w :: c.stack }

/-- `pop`. -/
def pop (c : Cpu) : Exec (UInt32 × Cpu) :=
  match c.stack with
  | []         => .error (.bounds "stack")
  | w :: stack => .ok (w, { c with esp := c.esp + 4, stack })

/-- `pusha`. What it stores of `esp` is the value from before. -/
def pusha (c : Cpu) : Cpu :=
  ((((((((c.push c.eax).push c.ecx).push c.edx).push c.ebx).push c.esp).push c.ebp).push c.esi).push c.edi)

/-- `popa`. It does not load `esp`. -/
def popa (c : Cpu) : Exec Cpu := do
  let (edi, c) ← c.pop
  let (esi, c) ← c.pop
  let (ebp, c) ← c.pop
  let (_, c) ← c.pop
  let (ebx, c) ← c.pop
  let (edx, c) ← c.pop
  let (ecx, c) ← c.pop
  let (eax, c) ← c.pop
  return { c with edi, esi, ebp, ebx, edx, ecx, eax }

/-- The word at an address of the stack. -/
def word (c : Cpu) (a : UInt32) : Exec UInt32 :=
  match c.stack[((a - c.esp) / 4).toNat]? with
  | none   => .error (.bounds "stack")
  | some w => .ok w

/-- What the handler reads of the `struct regs` at an address. -/
def structRegs (c : Cpu) (r : UInt32) : Exec Regs := do
  let eax ← c.word (r + 44)
  let ebx ← c.word (r + 32)
  let ecx ← c.word (r + 40)
  let edx ← c.word (r + 36)
  let esi ← c.word (r + 20)
  let edi ← c.word (r + 16)
  let ebp ← c.word (r + 24)
  return { eax, ebx, ecx, edx, esi, edi, ebp }

end Cpu

/-! ## The methods of inodes that are called -/

/-- A call of `read` or `write` of an inode: the arguments, and what it returned, if it did. -/
structure InodeCall where
  inode : Nat
  buf : Nat
  n : Nat
  offset : Nat
  result : Option Nat
deriving DecidableEq, Repr

/-- The calls that a system call makes: one, if the descriptor leads to an inode. -/
def Kernel.inodeCalls (k : Kernel) (r : Regs) : List InodeCall :=
  match r.eax.toNat, k.fileInode (toInt32 r.ebx.toNat) with
  | 2, .ok inode =>
    let res := k.inodeRead inode r.ecx.toNat r.edx.toNat r.esi.toNat
    [⟨inode, r.ecx.toNat, r.edx.toNat, r.esi.toNat, res.toOption.map (·.2)⟩]
  | 3, .ok inode =>
    let res := k.inodeWrite inode r.ecx.toNat r.edx.toNat
    [⟨inode, r.ecx.toNat, r.edx.toNat, r.esi.toNat, res.toOption.map (·.2)⟩]
  | _, _         => []

/-! ## Instructions -/

/-- The instructions of `isr80`. -/
inductive Instr where
  /-- `push n`. -/
  | pushImm (n : UInt32)
  | pusha
  | pushSeg (s : Seg)
  /-- `mov ax, n`. -/
  | movAx (n : UInt16)
  /-- `mov s, ax`. -/
  | movSegAx (s : Seg)
  /-- `mov eax, esp`. -/
  | movEaxEsp
  | cld
  | pushEax
  /-- `mov eax, syscall_handler`. -/
  | movEaxHandler
  | callEax
  | popEax
  | popSeg (s : Seg)
  | popa
  /-- `add esp, n`. -/
  | addEsp (n : UInt32)
  | iret
deriving DecidableEq, Repr

/-- Where the code is: `isr80`, `syscall_handler`, and what follows the call of it. -/
structure Linked where
  isr80 : UInt32
  syscallHandler : UInt32
  afterCall : UInt32

/-- What the compiled handler leaves in the registers it may use, and in the place of its argument. -/
structure Scratch where
  eax : UInt32
  ecx : UInt32
  edx : UInt32
  eflags : UInt32
  argument : UInt32

/-- The processor and the kernel. -/
structure Machine where
  cpu : Cpu
  kernel : Kernel

namespace Machine

variable (l : Linked) (left : Scratch)

/-- What `syscall_handler` reads when it is called. -/
def handlerRegs (m : Machine) : Exec Regs :=
  if m.cpu.eax = l.syscallHandler then do
    let cpu := m.cpu.push l.afterCall
    -- the argument is above the return address
    let r ← cpu.word (cpu.esp + 4)
    cpu.structRegs r
  else .error (.misuse "call eax")

/-- `call eax`: `syscall_handler` runs, and returns. -/
def callEax (m : Machine) : Exec Machine := do
  let regs ← m.handlerRegs l
  let kernel ← m.kernel.syscallHandler regs
  let (_, cpu) ← (m.cpu.push l.afterCall).pop
  return {
    cpu := { cpu with
      eax := left.eax, ecx := left.ecx, edx := left.edx, eflags := left.eflags,
      stack := left.argument :: cpu.stack.tail }
    kernel }

/-- The calls of methods that an instruction makes, whether they return or not. -/
def inodeCalls (m : Machine) : Instr → List InodeCall
  | .callEax =>
    match m.handlerRegs l with
    | .ok regs => m.kernel.inodeCalls regs
    | .error _ => []
  | _        => []

/-- One instruction. The flags that `add` sets are not followed: `iret` comes next. -/
def exec (m : Machine) : Instr → Exec Machine
  | .pushImm n     => .ok { m with cpu := m.cpu.push n }
  | .pusha         => .ok { m with cpu := m.cpu.pusha }
  | .pushSeg s     => .ok { m with cpu := m.cpu.push (m.cpu.seg s).toUInt32 }
  | .movAx n       => .ok { m with cpu := { m.cpu with eax := (m.cpu.eax &&& 0xffff0000) ||| n.toUInt32 } }
  | .movSegAx s    =>
    .ok { m with cpu := { m.cpu with seg := Function.update m.cpu.seg s m.cpu.eax.toUInt16 } }
  | .movEaxEsp     => .ok { m with cpu := { m.cpu with eax := m.cpu.esp } }
  | .cld           => .ok { m with cpu := { m.cpu with eflags := m.cpu.eflags &&& ~~~0x400 } }
  | .pushEax       => .ok { m with cpu := m.cpu.push m.cpu.eax }
  | .movEaxHandler => .ok { m with cpu := { m.cpu with eax := l.syscallHandler } }
  | .callEax       => m.callEax l left
  | .popEax        => do
    let (eax, cpu) ← m.cpu.pop
    return { m with cpu := { cpu with eax } }
  | .popSeg s      => do
    let (w, cpu) ← m.cpu.pop
    return { m with cpu := { cpu with seg := Function.update cpu.seg s w.toUInt16 } }
  | .popa          => do
    let cpu ← m.cpu.popa
    return { m with cpu }
  | .addEsp n      =>
    .ok { m with cpu := { m.cpu with esp := m.cpu.esp + n, stack := m.cpu.stack.drop (n / 4).toNat } }
  | .iret          => do
    let (eip, cpu) ← m.cpu.pop
    let (cs, cpu) ← cpu.pop
    let (eflags, cpu) ← cpu.pop
    return { m with cpu := { cpu with eip, cs := cs.toUInt16, eflags } }

end Machine

/-- `isr80`. -/
def isr80 : List Instr := [
  .pushImm 0,
  .pushImm 0x80,
  .pusha,
  .pushSeg .ds,
  .pushSeg .es,
  .pushSeg .fs,
  .pushSeg .gs,
  .movAx 0x10,
  .movSegAx .ds,
  .movSegAx .es,
  .movSegAx .fs,
  .movSegAx .gs,
  .movEaxEsp,
  .cld,
  .pushEax,
  .movEaxHandler,
  .callEax,
  .popEax,
  .popSeg .gs,
  .popSeg .fs,
  .popSeg .es,
  .popSeg .ds,
  .popa,
  .addEsp 8,
  .iret]

/-- The interrupt gate of `isr80`: code segment 8, and the flags TF, IF, NT, RF and VM are cleared. -/
def Cpu.interrupt (l : Linked) (c : Cpu) : Cpu :=
  { ((c.push c.eflags).push c.cs.toUInt32).push c.eip with
    eflags := c.eflags &&& ~~~0x34300, cs := 0x08, eip := l.isr80 }

namespace Machine

variable (l : Linked) (left : Scratch)

/-- `int $0x80`, where `eip` is the address of the instruction after it. -/
def int80 (m : Machine) : Exec Machine :=
  Lib.run (exec l left) { m with cpu := m.cpu.interrupt l } isr80

/-- The calls of methods that it makes. -/
def int80Calls (m : Machine) : List InodeCall :=
  Lib.trace (inodeCalls l) (exec l left) { m with cpu := m.cpu.interrupt l } isr80

/-! ## The library of a program -/

/-- The four registers that `syscall` sets, for three arguments. -/
def arguments (m : Machine) (num arg₀ arg₁ arg₂ : UInt32) : Machine :=
  { m with cpu := { m.cpu with eax := num, ebx := arg₀, ecx := arg₁, edx := arg₂ } }

/-- `syscall`. The result is in `eax`. -/
def syscall (m : Machine) (num arg₀ arg₁ arg₂ : UInt32) : Exec (Machine × Int) := do
  let m ← int80 l left (m.arguments num arg₀ arg₁ arg₂)
  return (m, toInt32 m.cpu.eax.toNat)

/-- `write`. -/
def write (m : Machine) (fildes : Int) (buf size : UInt32) : Exec (Machine × Int) :=
  m.syscall l left 3 (UInt32.ofInt fildes) buf size

/-- The calls of methods that `write` makes. -/
def writeCalls (m : Machine) (fildes : Int) (buf size : UInt32) : List InodeCall :=
  int80Calls l left (m.arguments 3 (UInt32.ofInt fildes) buf size)

/-- `read`. -/
def read (m : Machine) (fildes : Int) (buf size : UInt32) : Exec (Machine × Int) :=
  m.syscall l left 2 (UInt32.ofInt fildes) buf size

/-- The calls of methods that `read` makes. -/
def readCalls (m : Machine) (fildes : Int) (buf size : UInt32) : List InodeCall :=
  int80Calls l left (m.arguments 2 (UInt32.ofInt fildes) buf size)

end Machine

end WeirdOs
