import WeirdOs.Clib.String
import WeirdOs.Lib.Terminal

/-!
# `Drivers.Vga` — text on the screen (`kernel/drivers/vga/vga.cpp`)

The screen is 24 rows of 80 cells of two bytes, a character and its attribute, in memory from
`VIDEO_BUFFER` on. Three things say where the next character goes, and are kept in step: the line and
column numbers, the pointer `vbuf`, and the cursor in the registers of the display controller.

Every write of the driver is meant for the screen; one that is not is the fault `bounds "VIDEO_BUFFER"`.
-/

namespace WeirdOs

open Lib

/-- `VIDEO_BUFFER`. -/
def VIDEO_BUFFER : Nat := 0xc00b8000

/-- `SCREEN_WIDTH`. -/
def SCREEN_WIDTH : Nat := 80

/-- `SCREEN_HEIGHT`. -/
def SCREEN_HEIGHT : Nat := 24

/-- The bytes of the screen. -/
def screenSize : Nat := 3840

/-- `REG_SCREEN_CTRL`, the port that selects a register of the display controller. -/
def REG_SCREEN_CTRL : Nat := 0x3d4

/-- `REG_SCREEN_DATA`, the port that writes it. -/
def REG_SCREEN_DATA : Nat := 0x3d5

/-- Memory, the variables of the driver, and the registers of the display controller. -/
structure Screen where
  mem : Mem
  lineNumber : Nat
  columnNumber : Nat
  vbuf : Nat
  /-- The register selected last. -/
  selected : UInt8
  registers : UInt8 → UInt8

/-- Whether `n` bytes from an address on are on the screen. -/
def checkScreen (a n : Nat) : Exec Unit :=
  if VIDEO_BUFFER ≤ a ∧ a + n ≤ VIDEO_BUFFER + screenSize then .ok () else .error (.bounds "VIDEO_BUFFER")

namespace Screen

/-- `outb`, on the ports of the display controller. -/
def outb (s : Screen) (port : Nat) (val : UInt8) : Screen :=
  if port = REG_SCREEN_CTRL then { s with selected := val }
  else if port = REG_SCREEN_DATA then { s with registers := Function.update s.registers s.selected val }
  else s

/-- `set_cursor`. -/
def setCursor (s : Screen) (offset : Nat) : Screen :=
  let s := s.outb REG_SCREEN_CTRL 14
  let s := s.outb REG_SCREEN_DATA (UInt8.ofNat (offset / 256))
  let s := s.outb REG_SCREEN_CTRL 15
  s.outb REG_SCREEN_DATA (UInt8.ofNat offset)

/-- Where the display controller has the cursor: registers 14 and 15. -/
def cursor (s : Screen) : Nat := (s.registers 14).toNat * 256 + (s.registers 15).toNat

/-- `place_cursor`. The parameter of `set_cursor` is a `uint16_t`. -/
def placeCursor (s : Screen) : Screen :=
  let s := s.setCursor (add32 (SCREEN_WIDTH * s.lineNumber) s.columnNumber % 65536)
  { s with vbuf := add32 (add32 VIDEO_BUFFER (s.lineNumber * SCREEN_WIDTH * 2)) (s.columnNumber * 2) }

/-- Write one byte. -/
def store (s : Screen) (a : Nat) (val : UInt8) : Exec Screen := do
  checkScreen a 1
  return { s with mem := store8 s.mem a val }

/-- The address `&vb[i * SCREEN_WIDTH]`. -/
def rowAddr (i : Nat) : Nat := add32 VIDEO_BUFFER (2 * (i * SCREEN_WIDTH))

/-- The first loop of `scroll_lines(l)`, after `n` iterations: row `l + n` goes to the row above. -/
def scrollCopy (s : Screen) (l : Nat) : Nat → Exec Screen
  | 0     => .ok s
  | n + 1 => do
    let s ← s.scrollCopy l n
    let dest := sub32 (rowAddr (l + n)) (2 * SCREEN_WIDTH)
    checkScreen dest (SCREEN_WIDTH * 2)
    return { s with mem := memcpy s.mem dest (rowAddr (l + n)) (SCREEN_WIDTH * 2) }

/-- The second loop of `scroll_lines`, after `n` iterations from row `i` on. -/
def scrollClear (s : Screen) (i : Nat) : Nat → Exec Screen
  | 0     => .ok s
  | n + 1 => do
    let s ← s.scrollClear i n
    checkScreen (rowAddr (i + n)) (SCREEN_WIDTH * 2)
    return { s with mem := memset s.mem (rowAddr (i + n)) 0 (SCREEN_WIDTH * 2) }

/-- `scroll_lines`. -/
def scrollLines (s : Screen) (l : Nat) : Exec Screen := do
  let s ← s.scrollCopy l (SCREEN_HEIGHT - l)
  s.scrollClear (SCREEN_HEIGHT - l) l

/-- `next_line`. -/
def nextLine (s : Screen) : Exec Screen := do
  let s := { s with lineNumber := add32 s.lineNumber 1 }
  let s ← (if SCREEN_HEIGHT ≤ s.lineNumber then do
      let s ← s.scrollLines 1
      return { s with lineNumber := SCREEN_HEIGHT - 1 }
    else return s)
  return { s with columnNumber := 0 }.placeCursor

/-- The loop of `cleark`, after `n` iterations. -/
def clearkLoop (s : Screen) : Nat → Exec Screen
  | 0     => .ok s
  | n + 1 => do
    let s ← s.clearkLoop n
    s.store (add32 s.vbuf n) 0

/-- `cleark`. -/
def cleark (s : Screen) : Exec Screen := do
  let s ← { s with vbuf := VIDEO_BUFFER }.clearkLoop (SCREEN_WIDTH * SCREEN_HEIGHT * 2)
  return { s with lineNumber := 0, columnNumber := 0 }.placeCursor

/-- `kputc`. -/
def kputc (s : Screen) (c : UInt8) : Exec Screen := do
  let s ← s.store s.vbuf c
  let s ← s.store (add32 s.vbuf 1) 0x0f
  return { s with vbuf := add32 s.vbuf 2, columnNumber := add32 s.columnNumber 1 }.placeCursor

/-- `kputchar`. -/
def kputchar (s : Screen) (c : UInt8) : Exec Screen :=
  if c = 10 then s.nextLine
  else if c = 13 then .ok { s with columnNumber := 0 }.placeCursor
  else do
    let s ← (if SCREEN_WIDTH ≤ s.columnNumber then s.nextLine else return s)
    s.kputc c

/-- Bytes passed to `kputchar` one after the other. -/
def kputchars : Screen → List UInt8 → Exec Screen := Lib.run kputchar

/-- `io_flush_handler`, on what is in `out_buffer`: it is printed up to the first NUL, then cleared. -/
def ioFlushHandler (s : Screen) (outBuffer : List UInt8) : Exec Screen :=
  s.kputchars (outBuffer.takeWhile (· ≠ 0))

/-- `fputc` on `stdout`: the character is put into `out_buffer`, which is empty, and flushed at once. -/
def fputc (s : Screen) (c : UInt8) : Exec Screen := s.ioFlushHandler [c]

/-- `vga_dev::write`, after `n` iterations of its loop. -/
def write (s : Screen) (buf : Nat) : Nat → Exec Screen
  | 0     => .ok s
  | n + 1 => do
    let s ← s.write buf n
    s.kputchar (s.mem (add32 buf n))

end Screen

end WeirdOs
