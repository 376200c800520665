import WeirdOs.Clib.String
import WeirdOs.Lib.Queue

/-!
# `Fs.Fifo` — the byte queue behind a terminal (`kernel/fs/fifo.cpp`)

A `fifo` has 255 bytes of memory, `char buffer[0xff]`, and the number of bytes in use, `buffer_index`.
What is read is copied out of the front, and the rest is shifted down by a second `memcpy` that is as long
as all that was stored: it reads on behind the stored bytes, and behind the end of the buffer too.

The calls work on memory, so that their buffers are addresses. Which parts of `buffer` they touch is
stated next to them (`readAccess`, `writeAccess`).
-/

namespace WeirdOs

open Lib

/-- The size of `char buffer[0xff]`. -/
def fifoSize : Nat := 0xff

/-- `class fifo`: the address of `buffer`, and `buffer_index`. -/
structure Fifo where
  buffer : Nat
  bufferIndex : Nat
deriving DecidableEq, Repr

/-- The constructor `fifo::fifo`, for an object whose `buffer` is at that address. It leaves
    `buffer_index`, the word after the buffer and its padding byte, as it finds it. -/
def Fifo.new (m : Mem) (buffer : Nat) : Fifo := ⟨buffer, load32 m (buffer + 256)⟩

/-- `fifo::read`: what it leaves, and what it returns. -/
def Fifo.read (m : Mem) (f : Fifo) (buf nbyte : Nat) : Mem × Fifo × Nat :=
  if f.bufferIndex < nbyte then (m, f, 0)
  else
    let m := memcpy m buf f.buffer nbyte
    -- shift buffer left
    let m := memcpy m f.buffer (add32 f.buffer nbyte) f.bufferIndex
    (m, { f with bufferIndex := sub32 f.bufferIndex nbyte }, nbyte)

/-- `fifo::write`. -/
def Fifo.write (m : Mem) (f : Fifo) (buf n : Nat) : Mem × Fifo × Nat :=
  let m := memcpy m (add32 f.buffer f.bufferIndex) buf n
  (m, { f with bufferIndex := add32 f.bufferIndex n }, n)

/-- The parts of `buffer` that `read` copies from and to: where they start, and how long they are. -/
def Fifo.readAccess (f : Fifo) (nbyte : Nat) : List (Nat × Nat) :=
  if f.bufferIndex < nbyte then [] else [(0, nbyte), (nbyte, f.bufferIndex), (0, f.bufferIndex)]

/-- The part of `buffer` that `write` copies to. -/
def Fifo.writeAccess (f : Fifo) (n : Nat) : List (Nat × Nat) := [(f.bufferIndex, n)]

/-! ## Runs -/

/-- Memory with a fifo in it. -/
structure FifoState where
  mem : Mem
  fifo : Fifo

/-- What happens around a fifo. -/
inductive FifoOp where
  /-- `write(buf, n)`. -/
  | write (buf n : Nat)
  /-- `read(buf, nbyte)`. -/
  | read (buf nbyte : Nat)
  /-- Somebody else changes memory, which `buffer` is not part of. -/
  | elsewhere (mem : Mem)

/-- The state after an operation. -/
def FifoState.next (s : FifoState) : FifoOp → FifoState
  | .write buf n     => ⟨(s.fifo.write s.mem buf n).1, (s.fifo.write s.mem buf n).2.1⟩
  | .read buf nbyte  => ⟨(s.fifo.read s.mem buf nbyte).1, (s.fifo.read s.mem buf nbyte).2.1⟩
  | .elsewhere mem   =>
    { s with mem := fun x =>
        if s.fifo.buffer ≤ x ∧ x < s.fifo.buffer + fifoSize then s.mem x else mem x }

/-- The call, with what it took from or left in the buffer of its caller. -/
def FifoState.event (s : FifoState) : FifoOp → List (QueueEvent UInt8)
  | .write buf n    => [.put (bytesAt s.mem buf n) (s.fifo.write s.mem buf n).2.2]
  | .read buf nbyte =>
    let count := (s.fifo.read s.mem buf nbyte).2.2
    [.take nbyte count (bytesAt (s.next (.read buf nbyte)).mem buf count)]
  | .elsewhere _    => []

/-- No operation fails. -/
def FifoState.step (s : FifoState) (op : FifoOp) : Exec FifoState := .ok (s.next op)

/-- A run. -/
def FifoState.run : FifoState → List FifoOp → Exec FifoState := Lib.run FifoState.step

/-- The calls of a run. -/
def FifoState.events : FifoState → List FifoOp → List (QueueEvent UInt8)
  | _, []        => []
  | s, op :: ops => s.event op ++ FifoState.events (s.next op) ops

/-- The bytes that are stored: the first `buffer_index` of the buffer. -/
def FifoState.contents (s : FifoState) : List UInt8 := bytesAt s.mem s.fifo.buffer s.fifo.bufferIndex

end WeirdOs
