import WeirdOs.Machine
import WeirdOs.Lib.Tally

/-!
# `Util.Rc` — reference-counted handles (`util/rc.h`)

A handle `rc<T>` points to an object and to the counter that the object's first handle made for it. A
handle is 8 bytes of memory and known by its address, so that it can be assigned to and destroyed;
objects and counters come from `new` and are known by number. The type an object is seen at plays no
role, a cast keeps the object.

A counter comes from `new` in every constructor used here, so the tests `if (counter)` of the assignment
operators always succeed. `weak_count` belongs to weak handles, which `Util.Weak` adds.
-/

namespace WeirdOs

open Lib

/-- `class rc`: its two pointers. The object may be null, the counter is not. -/
structure Rc where
  ptr : Option Nat
  counter : Nat
deriving DecidableEq, Repr

/-- The handles in memory, the counters, and what has been deleted. -/
structure RcState where
  /-- The addresses of the handles that are constructed and not yet destroyed. -/
  live : Finset Nat
  /-- The handle at an address. -/
  rc : Nat → Rc
  /-- `count` of a counter. -/
  count : Nat → Nat
  /-- The counter that was made for an object, to state results with. -/
  counterOf : Nat → Nat
  nextObject : Nat
  nextCounter : Nat
  /-- The objects and counters passed to `delete`, in order. -/
  deletedObjects : List Nat
  deletedCounters : List Nat

/-- No handle, object or counter yet. -/
def RcState.empty : RcState where
  live := ∅
  rc _ := ⟨none, 0⟩
  count _ := 0
  counterOf _ := 0
  nextObject := 0
  nextCounter := 0
  deletedObjects := []
  deletedCounters := []

/-- Where a handle can be: its 8 bytes are inside the address space, and aligned to words. -/
def RcPlace (a : Nat) : Prop := a + 8 ≤ 4294967296 ∧ a % 4 = 0

instance (a : Nat) : Decidable (RcPlace a) := inferInstanceAs (Decidable (_ ∧ _))

namespace RcState

/-- `new rc_counter()`. -/
def newCounter (s : RcState) : RcState × Nat :=
  ({ s with count := Function.update s.count s.nextCounter 0, nextCounter := s.nextCounter + 1 },
    s.nextCounter)

/-- `counter->count++`. -/
def increment (s : RcState) (counter : Nat) : RcState :=
  { s with count := Function.update s.count counter (add32 (s.count counter) 1) }

/-- `counter->count--`. -/
def decrement (s : RcState) (counter : Nat) : RcState :=
  { s with count := Function.update s.count counter (sub32 (s.count counter) 1) }

/-- `delete ptr; delete counter`. -/
def delete (s : RcState) (ptr counter : Nat) : RcState :=
  { s with
      deletedObjects := s.deletedObjects ++ [ptr]
      deletedCounters := s.deletedCounters ++ [counter] }

/-- The lifetime of the handle at `a` begins. -/
def construct (s : RcState) (a : Nat) (h : Rc) : RcState :=
  { s with live := insert a s.live, rc := Function.update s.rc a h }

/-- The constructor `rc(T *ptr)`. -/
def ofPtr (s : RcState) (a ptr : Nat) : RcState :=
  let (s, counter) := s.newCounter
  let s := { s with counterOf := Function.update s.counterOf ptr counter }
  (s.construct a ⟨some ptr, counter⟩).increment counter

/-- `make_rc`: a handle on a new object. -/
def makeRc (s : RcState) (a : Nat) : RcState :=
  { s with nextObject := s.nextObject + 1 }.ofPtr a s.nextObject

/-- The constructor `rc()`. The new counter stays at 0. -/
def default (s : RcState) (a : Nat) : RcState :=
  let (s, counter) := s.newCounter
  s.construct a ⟨none, counter⟩

/-- The body of the copy constructors: a handle at `a` that is a copy of the one at `other`. -/
def copyFrom (s : RcState) (a other : Nat) : RcState :=
  (s.construct a (s.rc other)).increment (s.rc other).counter

/-- `rc(const rc<T> &other)`. -/
def copy (s : RcState) (a other : Nat) : RcState := s.copyFrom a other

/-- `template <class Y> rc(rc<Y> &other)`. -/
def convert (s : RcState) (a other : Nat) : RcState := s.copyFrom a other

/-- The body of the assignment operators: the handle at `a` is assigned the one at `r`. -/
def assignFrom (s : RcState) (a r : Nat) : RcState :=
  let s := s.decrement (s.rc a).counter
  let s := { s with rc := Function.update s.rc a (s.rc r) }
  s.increment (s.rc a).counter

/-- `operator=(const rc &r)`. -/
def assign (s : RcState) (a r : Nat) : RcState := s.assignFrom a r

/-- `template <class Y> operator=(const rc<Y> &r)`. -/
def assignConvert (s : RcState) (a r : Nat) : RcState := s.assignFrom a r

/-- What the destructor does with the counter and the object of a handle. -/
def release (s : RcState) (h : Rc) : RcState :=
  match h.ptr with
  | none     => s
  | some ptr =>
    let s := s.decrement h.counter
    if s.count h.counter = 0 then s.delete ptr h.counter else s

/-- `~rc()` of the handle at `a`. -/
def destroy (s : RcState) (a : Nat) : RcState :=
  let s := s.release (s.rc a)
  { s with live := s.live.erase a }

end RcState

/-! ## Runs -/

/-- What can be done with handles, by their addresses. -/
inductive RcOp where
  /-- `rc<T> a = make_rc<T>()`. -/
  | makeRc (a : Nat)
  /-- `rc<T> a`. -/
  | default (a : Nat)
  /-- `rc<T> a(other)`, both of one type. -/
  | copy (a other : Nat)
  /-- `rc<T> a(other)`, of two types. -/
  | convert (a other : Nat)
  /-- `a = r`, both of one type. -/
  | assign (a r : Nat)
  /-- `a = r`, of two types. -/
  | assignConvert (a r : Nat)
  /-- The end of the lifetime of `a`. -/
  | destroy (a : Nat)
deriving DecidableEq, Repr

/-- A handle is constructed where one fits and none is. -/
def RcState.checkFree (s : RcState) (a : Nat) : Exec Unit :=
  if RcPlace a ∧ a ∉ s.live then .ok () else .error (.misuse "place")

/-- Only a live handle is used. -/
def RcState.checkLive (s : RcState) (a : Nat) : Exec Unit :=
  if a ∈ s.live then .ok () else .error (.misuse "handle")

/-- One operation. -/
def RcState.step (s : RcState) : RcOp → Exec RcState
  | .makeRc a => do
    s.checkFree a
    return s.makeRc a
  | .default a => do
    s.checkFree a
    return s.default a
  | .copy a other => do
    s.checkFree a
    s.checkLive other
    return s.copy a other
  | .convert a other => do
    s.checkFree a
    s.checkLive other
    return s.convert a other
  | .assign a r => do
    s.checkLive a
    s.checkLive r
    return s.assign a r
  | .assignConvert a r => do
    s.checkLive a
    s.checkLive r
    return s.assignConvert a r
  | .destroy a => do
    s.checkLive a
    return s.destroy a

/-- A run from a state without handles. -/
def RcState.run : List RcOp → Exec RcState := Lib.run RcState.step .empty

/-- The number of live handles that point to an object. -/
def RcState.holders (s : RcState) (o : Nat) : Nat := tally s.live s.rc fun h => h.ptr = some o

end WeirdOs
