import WeirdOs.Heap.Kmalloc

/-!
# `Util.Vector` — growing arrays on the kernel heap (`util/vector.h`)

A `vec` is a length, a capacity and a pointer from `kmalloc`; its elements lie in memory one after the
other, `sz = sizeof(T)` bytes each, and are those bytes here. The memory is that of the heap: a store
that goes past the block at `data` lands in whatever comes next.

`Stack` is what a `vec` is meant to be under `push_back` and `pop_back`.
-/

namespace WeirdOs

open Lib

variable {sz : Nat}

/-! ## Values in memory -/

/-- The value of the object of `sz` bytes at `a`. -/
def loadValue (sz : Nat) (m : Mem) (a : Nat) : Vector UInt8 sz := Vector.ofFn fun i => m (add32 a i)

/-! ## The operations -/

/-- `class vec<T>`. -/
structure Vec where
  length : Nat
  capacity : Nat
  data : Nat
deriving DecidableEq, Repr

namespace Vec

/-- `vec::vec(size_t cap)`. -/
def construct (sz : Nat) (k : KernelHeap) (cap : Nat) : Exec (Vec × KernelHeap) := do
  let (data, k) ← kmalloc k (word (cap * sz))
  return (⟨0, cap, data⟩, k)

/-- `vec::vec()`. -/
def constructDefault (sz : Nat) (k : KernelHeap) : Exec (Vec × KernelHeap) := construct sz k 8

/-- `&data[i]`. -/
def slot (v : Vec) (sz i : Nat) : Nat := add32 v.data (word (i * sz))

/-- The branch of `vec::push_back` that makes room. The bytes requested and the capacity recorded are
    computed apart. -/
def grow (v : Vec) (sz : Nat) (k : KernelHeap) : Exec (Vec × KernelHeap) := do
  let (data, k) ← krealloc k v.data (add32 v.length (word (8 * sz)))
  return ({ v with data := data, capacity := add32 v.length 8 }, k)

/-- `vec::push_back`. -/
def pushBack (v : Vec) (k : KernelHeap) (value : Vector UInt8 sz) : Exec (Vec × KernelHeap) := do
  let (v, k) ← if v.length ≥ v.capacity then v.grow sz k else pure (v, k)
  let m := storeBytes k.mem (v.slot sz v.length) value.toList
  return ({ v with length := add32 v.length 1 }, { k with mem := m })

/-- `vec::pop_back`. -/
def popBack (v : Vec) (sz : Nat) (k : KernelHeap) : Vector UInt8 sz × Vec :=
  let v := { v with length := sub32 v.length 1 }
  (loadValue sz k.mem (v.slot sz v.length), v)

/-- `vec::at`. -/
def elementAt (v : Vec) (sz : Nat) (k : KernelHeap) (index : Nat) : Vector UInt8 sz :=
  loadValue sz k.mem (v.slot sz index)

end Vec

/-! ## Iteration -/

/-- `struct vector_iterator<T>`. -/
structure VectorIterator where
  p : Nat
deriving DecidableEq, Repr

/-- `*it`. -/
def VectorIterator.value (it : VectorIterator) (sz : Nat) (k : KernelHeap) : Vector UInt8 sz :=
  loadValue sz k.mem it.p

/-- `++it`. -/
def VectorIterator.next (it : VectorIterator) (sz : Nat) : VectorIterator := ⟨add32 it.p sz⟩

namespace Vec

/-- `vec::begin`. -/
def beginIterator (v : Vec) (sz : Nat) : VectorIterator := ⟨v.slot sz 0⟩

/-- `vec::end`: the last element, not the place behind it. -/
def endIterator (v : Vec) (sz : Nat) : VectorIterator := ⟨v.slot sz (sub32 v.length 1)⟩

/-- The loop `for (; it != last; ++it)`: the values of `*it`. -/
def visit (sz : Nat) (k : KernelHeap) (last : VectorIterator) :
    Nat → VectorIterator → Exec (List (Vector UInt8 sz))
  | 0, _         => throw .fuel
  | fuel + 1, it =>
    if it.p ≠ last.p then do
      let rest ← visit sz k last fuel (it.next sz)
      return it.value sz k :: rest
    else return []

/-- What `for (auto &value : v)` goes through. -/
def rangeFor (v : Vec) (sz : Nat) (k : KernelHeap) (fuel : Nat) : Exec (List (Vector UInt8 sz)) :=
  visit sz k (v.endIterator sz) fuel (v.beginIterator sz)

end Vec

/-! ## Runs -/

/-- What is done with a `vec`. -/
inductive VecOp (sz : Nat) where
  | pushBack (value : Vector UInt8 sz)
  | popBack
deriving DecidableEq

/-- A `vec`, the heap it is on, and the values its pops have returned. -/
structure VecRun (sz : Nat) where
  vec : Vec
  heap : KernelHeap
  popped : List (Vector UInt8 sz)

/-- One operation. -/
def VecRun.step (s : VecRun sz) : VecOp sz → Exec (VecRun sz)
  | .pushBack value => do
    let (vec, heap) ← s.vec.pushBack s.heap value
    return { s with vec := vec, heap := heap }
  | .popBack =>
    let (value, vec) := s.vec.popBack sz s.heap
    return { s with vec := vec, popped := s.popped ++ [value] }

/-- The operations in order on a `vec` that was just constructed. -/
def VecRun.run (vec : Vec) (heap : KernelHeap) : List (VecOp sz) → Exec (VecRun sz) :=
  Lib.run VecRun.step ⟨vec, heap, []⟩

/-! ## The reference -/

/-- A stack, the last item on top, and what was taken from it. -/
structure Stack (β : Type) where
  items : List β
  popped : List β
deriving DecidableEq, Repr

/-- One operation. Nothing is taken from an empty stack. -/
def Stack.step (s : Stack (Vector UInt8 sz)) : VecOp sz → Exec (Stack (Vector UInt8 sz))
  | .pushBack value => return { s with items := s.items ++ [value] }
  | .popBack =>
    match s.items.getLast? with
    | none       => throw (.misuse "pop_back")
    | some value => return ⟨s.items.dropLast, s.popped ++ [value]⟩

/-- A run from an empty stack. -/
def Stack.run : List (VecOp sz) → Exec (Stack (Vector UInt8 sz)) := Lib.run Stack.step ⟨[], []⟩

end WeirdOs
