import WeirdOs.Heap.Run
import WeirdOs.Lib.Tally
import WeirdOs.Util.Hashmap

/-!
# `Util.String` — strings on the kernel heap (`util/string.h`)

A `string` is a pointer to a buffer from `kmalloc` and a length. Variables are known by number; the buffers
lie in the memory of the heap, and what is written there is written to memory, inside a buffer or not.
The copy constructors copy the pointer.

A `const char *` argument is a text that no allocation touches, given by its bytes (`CText`). A named result
`out` is constructed in the variable it is returned to; a temporary is a variable as well.
-/

namespace WeirdOs

open Lib

/-- A NUL-terminated text: the bytes before the NUL. -/
structure CText where
  bytes : List UInt8
  noNul : 0 ∉ bytes
  /-- With its NUL, it is not all of the address space. -/
  fits : bytes.length + 1 < 4294967296

/-- `class string`. -/
structure Str where
  data : Nat
  length : Nat
deriving DecidableEq, Repr

/-- The string variables, and the heap their buffers are on. -/
structure StringState where
  heap : HeapState
  /-- The variables that are constructed and not yet destroyed. -/
  live : Finset Nat
  str : Nat → Str
  /-- The buffers that came from the heap and those that went back to it, in order. -/
  allocated : List Nat
  freed : List Nat

namespace StringState

/-! ## Buffers -/

/-- `kmalloc`. -/
def malloc (s : StringState) (n : Nat) : Exec (Nat × StringState) := do
  let (p, heap) ← s.heap.malloc n
  return (p, { s with heap := heap, allocated := s.allocated ++ [p] })

/-- `krealloc`. With another pointer the old buffer is gone and there is a new one. -/
def realloc (s : StringState) (p n : Nat) : Exec (Nat × StringState) := do
  let (q, heap) ← s.heap.realloc p n
  if q = p then return (q, { s with heap := heap })
  return (q, { s with heap := heap, allocated := s.allocated ++ [q], freed := s.freed ++ [p] })

/-- `free`. -/
def free (s : StringState) (p : Nat) : Exec StringState := do
  let heap ← s.heap.release p
  return { s with heap := heap, freed := s.freed ++ [p] }

/-- Change the memory. -/
def modifyMem (s : StringState) (f : Mem → Mem) : StringState :=
  { s with heap := { s.heap with heap := { s.heap.heap with mem := f s.heap.heap.mem } } }

/-- The lifetime of the variable `a` begins. -/
def construct (s : StringState) (a : Nat) (v : Str) : StringState :=
  { s with live := insert a s.live, str := Function.update s.str a v }

/-- Give the live variable `a` another value. -/
def setStr (s : StringState) (a : Nat) (v : Str) : StringState :=
  { s with str := Function.update s.str a v }

/-! ## Constructors and destructor -/

/-- `string()`. -/
def default (s : StringState) (a : Nat) : Exec StringState := do
  let (data, s) ← s.malloc 5
  return s.construct a ⟨data, 0⟩

/-- The two copy constructors, `string(string &)` and `string(const string &)`. -/
def copy (s : StringState) (a other : Nat) : StringState := s.construct a (s.str other)

/-- `string(const char *)`. -/
def ofCstr (s : StringState) (a : Nat) (cstr : CText) : Exec StringState := do
  let (data, s) ← s.malloc (add32 cstr.bytes.length 1)
  let s := s.construct a ⟨data, cstr.bytes.length⟩
  return s.modifyMem fun m => store8 (storeBytes m data cstr.bytes) (add32 data cstr.bytes.length) 0

/-- `string(size_t)`. -/
def ofLen (s : StringState) (a len : Nat) : Exec StringState := do
  let (data, s) ← s.malloc (add32 len 1)
  let s := s.construct a ⟨data, len⟩
  return s.modifyMem fun m => store8 (store8 m data 0) (add32 data len) 0

/-- `~string`. -/
def destroy (s : StringState) (a : Nat) : Exec StringState := do
  let s ← s.free (s.str a).data
  return { s with live := s.live.erase a }

/-! ## Assignment -/

/-- The two assignment operators. The source is read after the target has its new buffer. -/
def assign (s : StringState) (a other : Nat) : Exec StringState := do
  let s := s.setStr a ⟨(s.str a).data, (s.str other).length⟩
  let (data, s) ← s.malloc (add32 (s.str a).length 1)
  let s := s.setStr a ⟨data, (s.str a).length⟩
  let length := (s.str a).length
  return s.modifyMem fun m => store8 (memcpy m data (s.str other).data length) (add32 data length) 0

/-- `operator+=(const char *)`. -/
def plusAssignCstr (s : StringState) (a : Nat) (other : CText) : Exec StringState := do
  let length := (s.str a).length
  let olen := other.bytes.length
  let (data, s) ← s.realloc (s.str a).data (add32 (add32 length olen) 1)
  let s := s.setStr a ⟨data, add32 length olen⟩
  return s.modifyMem fun m =>
    store8 (storeBytes m (add32 data length) other.bytes) (add32 data (add32 length olen)) 0

/-- `operator+=(const string &)`. -/
def plusAssign (s : StringState) (a other : Nat) : Exec StringState := do
  let length := (s.str a).length
  let (data, s) ← s.realloc (s.str a).data (add32 (add32 length (s.str other).length) 1)
  let s := s.setStr a ⟨data, length⟩
  -- in `a += a` the source has the new buffer too
  let s := s.modifyMem fun m => memcpy m (add32 data length) (s.str other).data (s.str other).length
  let s := s.setStr a ⟨data, add32 length (s.str other).length⟩
  return s.modifyMem fun m => store8 m (add32 data (s.str a).length) 0

/-! ## Results -/

/-- `a` becomes `x.operator+(const char *)`. -/
def plusCstr (s : StringState) (a x : Nat) (other : CText) : Exec StringState := do
  let s ← s.ofLen a (add32 (s.str x).length other.bytes.length)
  let out := s.str a
  return s.modifyMem fun m =>
    let m := memcpy m out.data (s.str x).data (s.str x).length
    store8 (storeBytes m (add32 out.data (s.str x).length) other.bytes) (add32 out.data out.length) 0

/-- `a` becomes `x.operator+(const string &)`. -/
def plus (s : StringState) (a x y : Nat) : Exec StringState := do
  let s ← s.ofLen a (add32 (s.str x).length (s.str y).length)
  let out := s.str a
  return s.modifyMem fun m =>
    let m := memcpy m out.data (s.str x).data (s.str x).length
    let m := memcpy m (add32 out.data (s.str x).length) (s.str y).data (s.str y).length
    store8 m (add32 out.data out.length) 0

/-- `a` becomes `x.substr(start, len)`. -/
def substr (s : StringState) (a x start len : Nat) : Exec StringState := do
  let s ← s.ofLen a len
  let out := s.str a
  return s.modifyMem fun m =>
    store8 (memcpy m out.data (add32 (s.str x).data start) len) (add32 out.data len) 0

/-- `a` becomes `x.slice(start, end)`. -/
def slice (s : StringState) (a x start stop : Nat) : Exec StringState :=
  s.substr a x start (sub32 stop start)

/-! ## Reading -/

/-- `data[i]`. -/
def charAt (s : StringState) (a i : Nat) : UInt8 := s.heap.heap.mem (add32 (s.str a).data i)

/-- `operator==(const string &)`. -/
def eq (s : StringState) (a other : Nat) : Bool :=
  if (s.str a).data = (s.str other).data then true
  else if (s.str a).length ≠ (s.str other).length then false
  else (List.range (s.str a).length).all fun i => s.charAt a i = s.charAt other i

/-- `cstr`, as its callers read it. -/
def cstr (s : StringState) (a : Nat) : Exec (List UInt8) := textAt s.heap.heap.mem (s.str a).data

/-- `strlen` of the result of `cstr`. -/
def cstrLen (s : StringState) (a : Nat) : Exec Nat := do
  let str ← s.cstr a
  return strlen str

/-- `hash(const string &)`. -/
def hash (s : StringState) (a : Nat) : Exec UInt8 := do
  let str ← s.cstr a
  return hashText str

/-- The text of a variable: the bytes in its buffer, up to its length. -/
def text (s : StringState) (a : Nat) : List UInt8 :=
  bytesAt s.heap.heap.mem (s.str a).data (s.str a).length

end StringState

/-! ## Runs -/

/-- What is done with string variables. The first one named is the one that is constructed, assigned to or
    destroyed. -/
inductive StringOp where
  | default (a : Nat)
  | ofCstr (a : Nat) (cstr : CText)
  | ofLen (a : Nat) (len : UInt32)
  | copy (a other : Nat)
  | assign (a other : Nat)
  | plusCstr (a x : Nat) (other : CText)
  | plus (a x y : Nat)
  | plusAssignCstr (a : Nat) (other : CText)
  | plusAssign (a other : Nat)
  | substr (a x : Nat) (start len : UInt32)
  | slice (a x : Nat) (start stop : UInt32)
  | destroy (a : Nat)

namespace StringState

/-- A variable is constructed once. -/
def checkFree (s : StringState) (a : Nat) : Exec Unit :=
  if a ∉ s.live then .ok () else .error (.misuse "variable")

/-- Only a live variable is used. -/
def checkLive (s : StringState) (a : Nat) : Exec Unit :=
  if a ∈ s.live then .ok () else .error (.misuse "string")

/-- One operation. -/
def step (s : StringState) : StringOp → Exec StringState
  | .default a => do
    s.checkFree a
    s.default a
  | .ofCstr a cstr => do
    s.checkFree a
    s.ofCstr a cstr
  | .ofLen a len => do
    s.checkFree a
    s.ofLen a len.toNat
  | .copy a other => do
    s.checkFree a
    s.checkLive other
    return s.copy a other
  | .assign a other => do
    s.checkLive a
    s.checkLive other
    s.assign a other
  | .plusCstr a x other => do
    s.checkFree a
    s.checkLive x
    s.plusCstr a x other
  | .plus a x y => do
    s.checkFree a
    s.checkLive x
    s.checkLive y
    s.plus a x y
  | .plusAssignCstr a other => do
    s.checkLive a
    s.plusAssignCstr a other
  | .plusAssign a other => do
    s.checkLive a
    s.checkLive other
    s.plusAssign a other
  | .substr a x start len => do
    s.checkFree a
    s.checkLive x
    s.substr a x start.toNat len.toNat
  | .slice a x start stop => do
    s.checkFree a
    s.checkLive x
    s.slice a x start.toNat stop.toNat
  | .destroy a => do
    s.checkLive a
    s.destroy a

/-- No string yet, on a heap. -/
def start (heap : HeapState) : StringState := ⟨heap, ∅, fun _ => ⟨0, 0⟩, [], []⟩

/-- The operations in order, on a heap without strings. -/
def run (heap : HeapState) : List StringOp → Exec StringState := Lib.run StringState.step (start heap)

end StringState

end WeirdOs
