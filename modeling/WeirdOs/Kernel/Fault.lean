import WeirdOs.Drivers.Vga
import WeirdOs.Clib.Stdio
import WeirdOs.Kernel.Irq

/-!
# `Kernel.Fault` — exceptions (`kernel/arch/x86/isr.s`, `kernel/arch/x86/idt.cpp`)

The processor takes an exception through the gate of its number, and for some of them pushes an error code
below the three words of every interrupt. The stub pushes a zero in its place where it expects none, the
number, and all registers, and calls `cpu_fault_handler`. That prints what has happened and halts.

Which exceptions have an error code is up to the processor; which are expected to have one is `hasErrorCode`.
-/

namespace WeirdOs

open Lib

/-! ## The stubs -/

/-- The bytes of a text. -/
def ascii (text : String) : List UInt8 := text.toList.map fun c => UInt8.ofNat c.toNat

/-- `printk`. -/
def Screen.printk (s : Screen) (text : String) : Exec Screen := fputs Screen.fputc s (ascii text)

/-- `printf`. -/
def Screen.printf (s : Screen) (format : String) (args : List VaArg) : Exec Screen :=
  vfprintf Screen.fputc s (ascii format) args

end WeirdOs
