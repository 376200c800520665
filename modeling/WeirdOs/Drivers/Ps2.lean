import WeirdOs.Machine
import Mathlib.Logic.Function.Basic

/-!
# `Drivers.Ps2` — the keyboard driver and `getc` (`kernel/drivers/ps2/ps2.cpp`, `kernel/clib/stdio.cpp`)

The interrupt handler and `getc` share `key_buffer` and one pointer into it, `stdin->_IO_read_ptr`. The
handler moves the pointer up and stores there, `getc` takes from there and moves it down. A zero byte
stands for "nothing there": `getc` waits as long as the pointer is at one, and the first byte of the
buffer stays zero for that.

The handler runs with interrupts disabled, so it is one step. `getc` can be interrupted between any two
of its statements; each of them is a step, and where it is in between is part of the state (`GetcPc`). The
comparison of its loop and the `hlt` behind it are two: a key pressed between them has been served when the
processor stops, and does not set it going again.
-/

namespace WeirdOs

/-- `char kbdus[2][128]`: the rows for `shift_down` 0 and 1. The entries after those written are 0. -/
def kbdusRows : List (List UInt8) :=
  [[0, 27, 49, 50, 51, 52, 53, 54, 55, 56, 57, 48, 45, 61, 8, 9, 113, 119, 101, 114, 116, 121, 117, 105,
    111, 112, 91, 93, 10, 0, 97, 115, 100, 102, 103, 104, 106, 107, 108, 59, 39, 96, 0, 92, 122, 120, 99,
    118, 98, 110, 109, 44, 46, 47, 0, 42, 0, 32, 0, 0, 0, 0, 0, 0, 0, 0, 0, 0, 0, 0, 0, 0, 0, 0, 45, 0,
    0, 0, 43],
   [0, 27, 33, 64, 35, 36, 37, 94, 38, 40, 41, 41, 95, 43, 8, 9, 81, 87, 69, 82, 84, 89, 85, 73, 79, 80,
    123, 125, 10, 0, 65, 83, 68, 70, 71, 72, 74, 75, 76, 58, 34, 126, 0, 124, 90, 88, 67, 86, 66, 78, 77,
    60, 62, 63, 0, 42, 0, 32, 0, 0, 0, 0, 0, 0, 0, 0, 0, 0, 0, 0, 0, 0, 0, 0, 45, 0, 0, 0, 43]]

/-- `kbdus[shift_down][scancode]`. -/
def kbdus (shiftDown : Nat) (scancode : UInt8) : UInt8 :=
  (kbdusRows.getD shiftDown []).getD scancode.toNat 0

/-- Where a reader is in `getc`. -/
inductive GetcPc where
  /-- Not in a call. -/
  | idle
  /-- At `while (!*f->_IO_read_ptr)`. -/
  | test
  /-- At `hlt`. -/
  | hlt
  /-- Stopped by `hlt`. -/
  | halted
  /-- At `char tmp = *f->_IO_read_ptr`. -/
  | load
  /-- At `*f->_IO_read_ptr = 0`. -/
  | clear (tmp : UInt8)
  /-- At `f->_IO_read_ptr--; return tmp`. -/
  | retreat (tmp : UInt8)
deriving DecidableEq, Repr

/-- `getc` has cleared the byte that it returns. -/
def GetcPc.cleared : GetcPc → Bool
  | .retreat _ => true
  | _          => false

/-- `getc` has found a byte that is not zero. -/
def GetcPc.found : GetcPc → Bool
  | .load | .clear _ | .retreat _ => true
  | _                             => false

/-- Where an interrupt, of whatever line, leaves `getc`: it sets a stopped processor going, behind `hlt`. -/
def GetcPc.wake : GetcPc → GetcPc
  | .halted => .test
  | pc      => pc

/-- The keyboard buffer with its two users. -/
structure Keyboard where
  /-- `key_buffer`. -/
  keyBuffer : Nat → UInt8
  /-- `stdin->_IO_read_ptr`, from the start of `key_buffer`. -/
  readPtr : Nat
  shiftDown : Nat
  pc : GetcPc
  /-- What the calls of `getc` have returned. -/
  returned : List UInt8

/-- The size of `key_buffer`. -/
def keyBufferSize : Nat := 100

/-- `install_keyboard`: a buffer of zeros, and the pointer at its start. -/
def installKeyboard : Keyboard where
  keyBuffer _ := 0
  readPtr := 0
  shiftDown := 0
  pc := .idle
  returned := []

/-- Whether the pointer may be used. -/
def checkReadPtr (readPtr : Nat) : Exec Unit :=
  if readPtr < keyBufferSize then .ok () else .error (.bounds "key_buffer")

namespace Keyboard

/-- `*++stdin->_IO_read_ptr = c`. -/
def push (k : Keyboard) (c : UInt8) : Exec Keyboard := do
  let readPtr := k.readPtr + 1
  checkReadPtr readPtr
  return { k with readPtr, keyBuffer := Function.update k.keyBuffer readPtr c }

/-- `keyboard_handler`, for the scancode it reads from the port. -/
def keyboardHandler (k : Keyboard) (scancode : UInt8) : Exec Keyboard :=
  -- the top bit says that a key has been released
  if scancode &&& 0x80 ≠ 0 then
    if scancode &&& 0x7f = 42 then .ok { k with shiftDown := 0 } else .ok k
  else if scancode = 42 then .ok { k with shiftDown := 1 }
  else k.push (kbdus k.shiftDown scancode)

/-- The next statement of `getc(stdin)`, or a new call of it. Nothing happens while the processor is
    stopped. -/
def getc (k : Keyboard) : Exec Keyboard :=
  match k.pc with
  | .idle        => .ok { k with pc := .test }
  | .test        => do
    checkReadPtr k.readPtr
    return { k with pc := if k.keyBuffer k.readPtr = 0 then .hlt else .load }
  | .hlt         => .ok { k with pc := .halted }
  | .halted      => .ok k
  | .load        => do
    checkReadPtr k.readPtr
    return { k with pc := .clear (k.keyBuffer k.readPtr) }
  | .clear tmp   => do
    checkReadPtr k.readPtr
    return { k with pc := .retreat tmp, keyBuffer := Function.update k.keyBuffer k.readPtr 0 }
  | .retreat tmp =>
    if k.readPtr = 0 then .error (.bounds "key_buffer")
    else .ok { k with pc := .idle, readPtr := k.readPtr - 1, returned := k.returned ++ [tmp] }

/-- A call of `getc` has found nothing, and waits for an interrupt. -/
def Waits (k : Keyboard) : Prop := k.pc = .hlt ∨ k.pc = .halted

end Keyboard

/-! ## What is typed -/

/-- What has been typed, whatever the driver does with it. -/
structure Typed where
  shift : Nat
  /-- The characters of the pressed keys that have one, in order. -/
  chars : List UInt8
  /-- The number of pressed keys, not counting shift. -/
  keys : Nat
deriving DecidableEq, Repr

/-- Nothing. -/
def Typed.start : Typed := ⟨0, [], 0⟩

/-- The scancode of a pressed key that is not shift. -/
def isKeyPress (scancode : UInt8) : Bool := scancode &&& 0x80 = 0 ∧ scancode ≠ 42

/-- A key goes down or up. -/
def Typed.key (t : Typed) (scancode : UInt8) : Typed :=
  if isKeyPress scancode then
    let c := kbdus t.shift scancode
    { t with chars := if c = 0 then t.chars else t.chars ++ [c], keys := t.keys + 1 }
  else if scancode = 42 then { t with shift := 1 }
  else if scancode &&& 0x7f = 42 then { t with shift := 0 }
  else t

/-! ## Runs -/

/-- What happens, one after the other. -/
inductive KbdEvent where
  /-- An interrupt of the keyboard. -/
  | interrupt (scancode : UInt8)
  /-- An interrupt of another line. -/
  | otherInterrupt
  /-- The reader goes on, or calls `getc`. -/
  | reader
deriving DecidableEq, Repr

/-- The driver, and what has been typed. -/
structure KbdState where
  kbd : Keyboard
  typed : Typed

/-- One event. -/
def KbdState.step (s : KbdState) : KbdEvent → Exec KbdState
  | .interrupt scancode => do
    let kbd ← s.kbd.keyboardHandler scancode
    return ⟨{ kbd with pc := kbd.pc.wake }, s.typed.key scancode⟩
  | .otherInterrupt => .ok { s with kbd := { s.kbd with pc := s.kbd.pc.wake } }
  | .reader => do
    let kbd ← s.kbd.getc
    return { s with kbd }

/-- After `install_keyboard`. -/
def KbdState.installed : KbdState := ⟨installKeyboard, .start⟩

/-- A run from there. -/
def KbdState.run : List KbdEvent → Exec KbdState := Lib.run KbdState.step .installed

/-- The number of keys that were pressed and whose byte `getc` has not taken. -/
def KbdState.pending (s : KbdState) : Nat := s.typed.keys - s.kbd.returned.length

/-- The characters that were typed and not yet returned. -/
def KbdState.unread (s : KbdState) : List UInt8 := s.typed.chars.drop s.kbd.returned.length

end WeirdOs
