import WeirdOs.Util.Rc

/-!
# `Util.Weak` — weak handles (`util/rc.h`)

A `weak<T>` has the pointers of a handle and is counted in `weak_count` of the same counter. Like handles,
weak handles are 8 bytes of memory and known by their address; the counters and objects are those of
`Util.Rc`, which says what handles do to them. What is added here is `weak_count`, and that a counter can
be used after it was deleted: then the operation faults.
-/

namespace WeirdOs

open Lib

/-- `class weak`: its two pointers. -/
structure Weak where
  ptr : Option Nat
  counter : Nat
deriving DecidableEq, Repr

/-- The handle that `lock` constructs. -/
def Weak.toRc (h : Weak) : Rc := ⟨h.ptr, h.counter⟩

/-- The handles, the weak handles, and what has been deleted. -/
structure WeakState where
  rcs : RcState
  /-- The addresses of the weak handles that are constructed and not yet destroyed. -/
  live : Finset Nat
  weak : Nat → Weak
  /-- `weak_count` of a counter. -/
  weakCount : Nat → Nat
  /-- What destructors of weak handles passed to `delete`, in order. -/
  deletedObjects : List Nat
  deletedCounters : List Nat

namespace WeakState

/-- No handle, object or counter yet. -/
def empty : WeakState := ⟨.empty, ∅, fun _ => ⟨none, 0⟩, fun _ => 0, [], []⟩

/-- The objects and counters passed to `delete`, by either kind of handle. -/
def allDeletedObjects (s : WeakState) : List Nat := s.rcs.deletedObjects ++ s.deletedObjects

def allDeletedCounters (s : WeakState) : List Nat := s.rcs.deletedCounters ++ s.deletedCounters

/-- The counter is read or written. -/
def touch (s : WeakState) (counter : Nat) : Exec Unit :=
  if counter ∈ s.allDeletedCounters then .error (.bounds "rc_counter") else .ok ()

/-- `counter->weak_count++`. -/
def increment (s : WeakState) (counter : Nat) : WeakState :=
  { s with weakCount := Function.update s.weakCount counter (add32 (s.weakCount counter) 1) }

/-- `counter->weak_count--`. -/
def decrement (s : WeakState) (counter : Nat) : WeakState :=
  { s with weakCount := Function.update s.weakCount counter (sub32 (s.weakCount counter) 1) }

/-- `delete ptr; delete counter`. Deleting null does nothing. -/
def delete (s : WeakState) (h : Weak) : WeakState :=
  { s with
      deletedObjects := s.deletedObjects ++ h.ptr.toList
      deletedCounters := s.deletedCounters ++ [h.counter] }

/-- The lifetime of the weak handle at `w` begins. -/
def construct (s : WeakState) (w : Nat) (h : Weak) : WeakState :=
  { s with live := insert w s.live, weak := Function.update s.weak w h }

/-! ## Constructors -/

/-- `weak()`. The new counter does not count it. -/
def default (s : WeakState) (w : Nat) : WeakState :=
  let (rcs, counter) := s.rcs.newCounter
  let s := { s with rcs := rcs, weakCount := Function.update s.weakCount counter 0 }
  s.construct w ⟨none, counter⟩

/-- The body of the other constructors: a weak handle with the pointers `h`. -/
def copyFrom (s : WeakState) (w : Nat) (h : Weak) : Exec WeakState := do
  let s := s.construct w h
  s.touch h.counter
  return s.increment h.counter

/-- `template <class Y> weak(rc<Y> &other)`. -/
def ofRc (s : WeakState) (w other : Nat) : Exec WeakState :=
  s.copyFrom w ⟨(s.rcs.rc other).ptr, (s.rcs.rc other).counter⟩

/-- `weak(weak<T> &other)`. -/
def copy (s : WeakState) (w other : Nat) : Exec WeakState := s.copyFrom w (s.weak other)

/-- `template <class Y> weak(weak<Y> &other)`. -/
def convert (s : WeakState) (w other : Nat) : Exec WeakState := s.copyFrom w (s.weak other)

/-! ## Assignment -/

/-- The body of the assignment operators: the weak handle at `w` gets the pointers `h`. -/
def assignFrom (s : WeakState) (w : Nat) (h : Weak) : Exec WeakState := do
  s.touch (s.weak w).counter
  let s := s.decrement (s.weak w).counter
  let s := { s with weak := Function.update s.weak w h }
  s.touch h.counter
  return s.increment h.counter

/-- `operator=(const rc<T> &r)`. -/
def assignRc (s : WeakState) (w r : Nat) : Exec WeakState :=
  s.assignFrom w ⟨(s.rcs.rc r).ptr, (s.rcs.rc r).counter⟩

/-- `operator=(const weak<T> &r)`. -/
def assign (s : WeakState) (w r : Nat) : Exec WeakState := s.assignFrom w (s.weak r)

/-- `template <class Y> operator=(const rc<Y> &r)`. -/
def assignRcConvert (s : WeakState) (w r : Nat) : Exec WeakState :=
  s.assignFrom w ⟨(s.rcs.rc r).ptr, (s.rcs.rc r).counter⟩

/-- `template <class Y> operator=(const weak<Y> &r)`. -/
def assignConvert (s : WeakState) (w r : Nat) : Exec WeakState := s.assignFrom w (s.weak r)

/-! ## The rest -/

/-- `~weak` of the weak handle at `w`. -/
def destroy (s : WeakState) (w : Nat) : Exec WeakState := do
  let h := s.weak w
  s.touch h.counter
  let s := s.decrement h.counter
  let s := if s.weakCount h.counter = 0 ∧ s.rcs.count h.counter = 0 then s.delete h else s
  return { s with live := s.live.erase w }

/-- `expired`. -/
def expired (s : WeakState) (w : Nat) : Exec Bool := do
  s.touch (s.weak w).counter
  return s.rcs.count (s.weak w).counter = 0

/-- `rc<T> a = w.lock()`, by the constructor `rc(rc_counter *counter, T *ptr)`. -/
def lock (s : WeakState) (a w : Nat) : Exec WeakState := do
  let h := (s.weak w).toRc
  s.touch h.counter
  return { s with rcs := (s.rcs.construct a h).increment h.counter }

/-- The counters that an operation on handles reads or writes. -/
def touched (s : RcState) : RcOp → List Nat
  | .makeRc _ | .default _                    => []
  | .copy _ other | .convert _ other          => [(s.rc other).counter]
  | .assign a r | .assignConvert a r          => [(s.rc a).counter, (s.rc r).counter]
  | .destroy a                                => if (s.rc a).ptr.isSome then [(s.rc a).counter] else []

/-- An operation on handles. A counter that it makes starts with a `weak_count` of 0. -/
def rcStep (s : WeakState) (o : RcOp) : Exec WeakState := do
  let rcs ← s.rcs.step o
  (touched s.rcs o).forM s.touch
  return { s with rcs := rcs, weakCount := Function.update s.weakCount s.rcs.nextCounter 0 }

end WeakState

/-! ## Runs -/

/-- What can be done with handles and weak handles, by their addresses. A weak handle that is passed by value
    is copied and destroyed. -/
inductive WeakOp where
  /-- An operation on handles. -/
  | rc (o : RcOp)
  /-- `weak<T> w`. -/
  | default (w : Nat)
  /-- `weak<T> w(other)`, `other` a handle. -/
  | ofRc (w other : Nat)
  /-- `weak<T> w(other)`, both of one type. -/
  | copy (w other : Nat)
  /-- `weak<T> w(other)`, of two types. -/
  | convert (w other : Nat)
  /-- `w = r`, `r` a handle of the same type. -/
  | assignRc (w r : Nat)
  /-- `w = r`, both of one type. -/
  | assign (w r : Nat)
  /-- `w = r`, `r` a handle of another type. -/
  | assignRcConvert (w r : Nat)
  /-- `w = r`, of two types. -/
  | assignConvert (w r : Nat)
  /-- `rc<T> a = w.lock()`. -/
  | lock (a w : Nat)
  /-- `w.expired()`. -/
  | expired (w : Nat)
  /-- The end of the lifetime of `w`. -/
  | destroy (w : Nat)
deriving DecidableEq, Repr

namespace WeakState

/-- A weak handle is constructed where one fits and none is. -/
def checkFree (s : WeakState) (w : Nat) : Exec Unit :=
  if RcPlace w ∧ w ∉ s.live then .ok () else .error (.misuse "place")

/-- Only a live weak handle is used. -/
def checkLive (s : WeakState) (w : Nat) : Exec Unit :=
  if w ∈ s.live then .ok () else .error (.misuse "weak handle")

/-- One operation. -/
def step (s : WeakState) : WeakOp → Exec WeakState
  | .rc o => s.rcStep o
  | .default w => do
    s.checkFree w
    return s.default w
  | .ofRc w other => do
    s.checkFree w
    s.rcs.checkLive other
    s.ofRc w other
  | .copy w other => do
    s.checkFree w
    s.checkLive other
    s.copy w other
  | .convert w other => do
    s.checkFree w
    s.checkLive other
    s.convert w other
  | .assignRc w r => do
    s.checkLive w
    s.rcs.checkLive r
    s.assignRc w r
  | .assign w r => do
    s.checkLive w
    s.checkLive r
    s.assign w r
  | .assignRcConvert w r => do
    s.checkLive w
    s.rcs.checkLive r
    s.assignRcConvert w r
  | .assignConvert w r => do
    s.checkLive w
    s.checkLive r
    s.assignConvert w r
  | .lock a w => do
    s.rcs.checkFree a
    s.checkLive w
    s.lock a w
  | .expired w => do
    s.checkLive w
    let _ ← s.expired w
    return s
  | .destroy w => do
    s.checkLive w
    s.destroy w

/-- A run from a state without handles. -/
def run : List WeakOp → Exec WeakState := Lib.run WeakState.step .empty

/-- The number of live weak handles that share a counter. -/
def sharers (s : WeakState) (counter : Nat) : Nat := tally s.live s.weak fun h => h.counter = counter

end WeakState

end WeirdOs
