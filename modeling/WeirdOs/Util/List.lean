import WeirdOs.Machine
import Mathlib.Logic.Function.Basic

/-!
# `Util.List` — doubly linked lists (`util/list.h`)

The nodes of a list come from `new` and go with `delete`; in between they are known by their address. The
allocator is the environment: an operation that makes a node names the address it got, which is neither
null nor that of a node in use, but may well be one that was used before. Following a pointer to a place
without a node is a fault.

`Deque` is what a list is meant to be, a sequence that is added to and taken from at both ends.

Loops that follow `next` take `listFuel` steps at most, more than there are addresses. `end()` returns
before its own loop.
-/

namespace WeirdOs

open Lib

variable {α : Type}

/-- `struct list_node`. -/
structure ListNode (α : Type) where
  prev : Nat
  next : Nat
  value : α
deriving DecidableEq, Repr

/-- `class list`, with the memory its nodes are in. -/
structure ListState (α : Type) where
  /-- The node at an address, when there is one. -/
  nodes : Nat → Option (ListNode α)
  first : Nat
  /-- The addresses that came from `new` and those that went to `delete`, in order. -/
  allocated : List Nat
  deleted : List Nat

/-- More steps than there are addresses. -/
def listFuel : Nat := 4294967296

namespace ListState

/-- `list::list`. -/
def empty : ListState α := ⟨fun _ => none, 0, [], []⟩

/-! ## Nodes -/

/-- Follow a pointer to a node. -/
def deref (s : ListState α) (p : Nat) : Exec (ListNode α) :=
  match s.nodes p with
  | some node => return node
  | none      => throw (.bounds "list_node")

/-- Write a node through a pointer. -/
def store (s : ListState α) (p : Nat) (f : ListNode α → ListNode α) : Exec (ListState α) := do
  let node ← s.deref p
  return { s with nodes := Function.update s.nodes p (some (f node)) }

def setPrev (s : ListState α) (p v : Nat) : Exec (ListState α) :=
  s.store p fun node => { node with prev := v }

def setNext (s : ListState α) (p v : Nat) : Exec (ListState α) :=
  s.store p fun node => { node with next := v }

/-- `new list_node<T>()` at `p`, an address without a node, and `node->value = value`. -/
def new (s : ListState α) (p : Nat) (value : α) : Exec (ListState α) :=
  if 0 < p ∧ p < 4294967296 ∧ (s.nodes p).isNone then
    return { s with
      nodes := Function.update s.nodes p (some ⟨0, 0, value⟩)
      allocated := s.allocated ++ [p] }
  else throw (.misuse "new")

/-- `delete` of the node at `p`. -/
def delete (s : ListState α) (p : Nat) : Exec (ListState α) := do
  let _ ← s.deref p
  return { s with nodes := Function.update s.nodes p none, deleted := s.deleted ++ [p] }

/-! ## The operations -/

/-- The loop `while (last->next) last = last->next`. -/
def lastNode (s : ListState α) : Nat → Nat → Exec Nat
  | 0, _ => throw .fuel
  | fuel + 1, last => do
    let node ← s.deref last
    if node.next = 0 then return last
    s.lastNode fuel node.next

/-- `list::at`: the loop from `node` on, and the value it ends at. -/
def atFrom (s : ListState α) (node : Nat) : Nat → Exec α
  | 0     => return (← s.deref node).value
  | i + 1 => do s.atFrom (← s.deref node).next i

/-- `list::at`. -/
def elementAt (s : ListState α) (idx : Nat) : Exec α := s.atFrom s.first idx

/-- `list::push_front`, when `new` returns `p`. -/
def pushFront (s : ListState α) (p : Nat) (value : α) : Exec (ListState α) := do
  let s ← s.new p value
  if s.first = 0 then return { s with first := p }
  let s ← s.setPrev p 0
  let s ← s.setNext p s.first
  return { s with first := p }

/-- `list::push_back`, when `new` returns `p`. -/
def pushBack (s : ListState α) (p : Nat) (value : α) : Exec (ListState α) := do
  let s ← s.new p value
  if s.first = 0 then return { s with first := p }
  let last ← s.lastNode listFuel s.first
  let s ← s.setPrev p last
  let s ← s.setNext p 0
  s.setNext last p

/-- `list::pop_front`. -/
def popFront (s : ListState α) : Exec (α × ListState α) := do
  let old := s.first
  let s := { s with first := (← s.deref s.first).next }
  let s ← s.setNext old 0
  let s ← s.setPrev old 0
  let out := (← s.deref old).value
  return (out, ← s.delete old)

/-- `list::pop_back`. -/
def popBack (s : ListState α) : Exec (α × ListState α) := do
  let last ← s.lastNode listFuel s.first
  let out := (← s.deref last).value
  let prev := (← s.deref last).prev
  let s ← if prev ≠ 0 then s.setNext prev 0 else pure s
  return (out, ← s.delete last)

/-- A loop over the iterators from `begin()` to `end()`, which is null: the values it visits. -/
def visit (s : ListState α) : Nat → Nat → Exec (List α)
  | 0, _ => throw .fuel
  | fuel + 1, p =>
    if p = 0 then return []
    else do
      let node ← s.deref p
      return node.value :: (← s.visit fuel node.next)

/-- `for (auto &value : list)`. -/
def iterate (s : ListState α) : Exec (List α) := s.visit listFuel s.first

/-- The loop of `list::~list`. The assignment `next = node = node->next` moves `node` on before the `delete`.
    To `delete` null does nothing. -/
def destroyFrom : Nat → ListState α → Nat → Exec (ListState α)
  | 0, _, _ => throw .fuel
  | fuel + 1, s, node =>
    if node = 0 then return s
    else do
      let next := (← s.deref node).next
      let node := next
      let s ← if node ≠ 0 then s.delete node else pure s
      destroyFrom fuel s next

/-- `list::~list`. -/
def destroy (s : ListState α) : Exec (ListState α) := destroyFrom listFuel s s.first

end ListState

/-! ## Runs -/

/-- What is done with a list. A push names the address `new` returned. -/
inductive ListOp (α : Type) where
  | pushFront (p : Nat) (value : α)
  | pushBack (p : Nat) (value : α)
  | popFront
  | popBack
deriving DecidableEq, Repr

/-- A list, and the values its pops have returned. -/
structure ListRun (α : Type) where
  list : ListState α
  returned : List α

/-- One operation. -/
def ListRun.step (s : ListRun α) : ListOp α → Exec (ListRun α)
  | .pushFront p value => return { s with list := ← s.list.pushFront p value }
  | .pushBack p value => return { s with list := ← s.list.pushBack p value }
  | .popFront => do
    let (out, list) ← s.list.popFront
    return ⟨list, s.returned ++ [out]⟩
  | .popBack => do
    let (out, list) ← s.list.popBack
    return ⟨list, s.returned ++ [out]⟩

/-- A run from an empty list. -/
def ListRun.run : List (ListOp α) → Exec (ListRun α) := Lib.run ListRun.step ⟨.empty, []⟩

/-! ## The reference -/

/-- A sequence with two ends, and what was taken from it. -/
structure Deque (α : Type) where
  items : List α
  returned : List α
deriving DecidableEq, Repr

/-- One operation. Nothing is taken from an empty sequence. -/
def Deque.step (d : Deque α) : ListOp α → Exec (Deque α)
  | .pushFront _ value => return { d with items := value :: d.items }
  | .pushBack _ value => return { d with items := d.items ++ [value] }
  | .popFront =>
    match d.items with
    | []           => throw (.misuse "pop")
    | item :: rest => return ⟨rest, d.returned ++ [item]⟩
  | .popBack =>
    match d.items.getLast? with
    | none      => throw (.misuse "pop")
    | some item => return ⟨d.items.dropLast, d.returned ++ [item]⟩

/-- A run from an empty sequence. -/
def Deque.run : List (ListOp α) → Exec (Deque α) := Lib.run Deque.step ⟨[], []⟩

end WeirdOs
