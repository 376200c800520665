import WeirdOs.Heap.Kmalloc
import Mathlib.Logic.Function.Basic

/-!
# `Heap.Run` — a program using the kernel heap

The operations a client of the heap performs, and what a run of them does. Besides the heap itself, a
run keeps what the client knows: which pointers are live, and how many bytes were last requested for
each. An operation on a pointer that is not live is a `misuse`, and so is a write past the bytes
requested; the client promises neither. Sizes are 32-bit values, any of them.

`HeapState.blocks` reads the bookkeeping back: the headers met by following `next` from the first block.
-/

namespace WeirdOs

open Lib

/-! ## Operations -/

/-- What a client does with the heap. -/
inductive HeapOp where
  /-- `kmalloc(n)`. -/
  | kmalloc (n : UInt32)
  /-- `free(p)`. -/
  | free (p : Nat)
  /-- `krealloc(p, n)`. -/
  | krealloc (p : Nat) (n : UInt32)
  /-- Store a byte into the payload at `p`. -/
  | write (p i : Nat) (v : UInt8)
deriving DecidableEq, Repr

/-- The pointer an operation is given. -/
def HeapOp.argument : HeapOp → Option Nat
  | .kmalloc _ => none
  | .free p => some p
  | .krealloc p _ => some p
  | .write p _ _ => some p

/-- The heap, and for every live pointer the number of bytes last requested for it. -/
structure HeapState where
  heap : KernelHeap
  live : Nat → Option Nat

/-- One operation. -/
def HeapState.step (s : HeapState) : HeapOp → Exec HeapState
  | .kmalloc n => do
    let (p, heap) ← WeirdOs.kmalloc s.heap n.toNat
    return ⟨heap, Function.update s.live p (some n.toNat)⟩
  | .free p =>
    match s.live p with
    | none => throw (.misuse "free")
    | some _ => do
      let m ← WeirdOs.free s.heap.mem p
      return ⟨{ s.heap with mem := m }, Function.update s.live p none⟩
  | .krealloc p n =>
    match s.live p with
    | none => throw (.misuse "krealloc")
    | some _ => do
      let (q, heap) ← WeirdOs.krealloc s.heap p n.toNat
      return ⟨heap, Function.update (Function.update s.live p none) q (some n.toNat)⟩
  | .write p i v =>
    match s.live p with
    | none => throw (.misuse "write")
    | some r =>
      if i < r then return { s with heap := { s.heap with mem := store8 s.heap.mem (p + i) v } }
      else throw (.misuse "write")

/-- A run: the operations in order, the first fault ends it. -/
def HeapState.run : HeapState → List HeapOp → Exec HeapState := Lib.run HeapState.step

/-- The state after `init_kernal_heap(size, start)`: no pointer is live. -/
def HeapState.init (k : KernelHeap) (size start : Nat) : HeapState :=
  ⟨initKernalHeap k size start, fun _ => none⟩

/-- The bytes of a region that the heap keeps for itself: those of no live payload. -/
def HeapState.Own (s : HeapState) (lo hi x : Nat) : Prop :=
  lo ≤ x ∧ x < hi ∧ ∀ p r, s.live p = some r → x < p ∨ p + r ≤ x

/-! ## The calls of code that keeps the pointer -/

/-- `kmalloc(n)`, and the pointer it returns. -/
def HeapState.malloc (s : HeapState) (n : Nat) : Exec (Nat × HeapState) := do
  let (p, heap) ← WeirdOs.kmalloc s.heap n
  return (p, ⟨heap, Function.update s.live p (some n)⟩)

/-- `krealloc(p, n)`, and the pointer it returns. -/
def HeapState.realloc (s : HeapState) (p n : Nat) : Exec (Nat × HeapState) := do
  let (q, heap) ← WeirdOs.krealloc s.heap p n
  return (q, ⟨heap, Function.update (Function.update s.live p none) q (some n)⟩)

/-- `free(p)`, whether `p` is live or not. -/
def HeapState.release (s : HeapState) (p : Nat) : Exec HeapState := do
  let m ← WeirdOs.free s.heap.mem p
  return ⟨{ s.heap with mem := m }, Function.update s.live p none⟩

/-- `operator new(sz)`, and the pointer it returns. -/
def HeapState.new (s : HeapState) (sz : Nat) : Exec (Nat × HeapState) := do
  assert s.heap.kheap.isSome "kheap && \"Kernel heap must be initialized before using the new operator\""
  let sz := if sz = 0 then 1 else sz
  let (ptr, s) ← s.malloc sz
  assert (ptr ≠ 0) "ptr && \"New error\""
  return (ptr, s)

/-! ## Reading the bookkeeping back -/

/-- The headers met from `b` on by following `next`, with their addresses; `none` when the walk does
    not end. -/
def walk (m : Mem) : Nat → Nat → Option (List (Nat × BlockHeader))
  | 0, _        => none
  | fuel + 1, b =>
    if (header m b).next = 0 then some [(b, header m b)]
    else (walk m fuel (header m b).next).map ((b, header m b) :: ·)

/-- The block list found in the memory, from the first block of `kheap` on. -/
def KernelHeap.blocks (k : KernelHeap) : Option (List (Nat × BlockHeader)) :=
  k.kheap.bind fun heap => walk k.mem walkFuel heap.firstBlock

/-- The block list of the heap: what the walk from its first block visits. -/
def HeapState.blocks (s : HeapState) : Option (List (Nat × BlockHeader)) :=
  s.heap.kheap.bind fun heap => walk s.heap.mem walkFuel heap.firstBlock

end WeirdOs
