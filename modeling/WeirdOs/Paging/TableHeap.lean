import WeirdOs.Heap.Run

/-!
# `Paging.TableHeap` — page tables come from the heap

`Paging.Page` takes the pages for tables from a list. Here they come from the heap: `kmalloc_ap` is called
when there is a new table, among whatever else is done with the heap. The source never gives a table back, and
only `get_page` and `alloc_frame` write to one.
-/

namespace WeirdOs

open Lib

/-! ## Tables -/

/-- The heap, and the pages taken for tables. -/
structure TableHeap where
  heap : HeapState
  tables : List Nat

/-- What the kernel does with its heap. -/
inductive TableOp where
  /-- An operation that has nothing to do with tables. -/
  | heap (o : HeapOp)
  /-- `kmalloc_ap(sizeof(page_table), &addr)`. -/
  | table
  /-- A byte of a table is written. -/
  | entry (t i : Nat) (v : UInt8)

namespace TableHeap

/-- After `init_kernal_heap(KHEAP_SIZE, (void *)KHEAP_START)`. -/
def init (k : KernelHeap) : TableHeap := ⟨.init k 0x400000 0xd0000000, []⟩

def step (s : TableHeap) : TableOp → Exec TableHeap
  | .heap o =>
    if o.argument.any fun p => p ∈ s.tables then .error (.misuse "page table")
    else do
      let heap ← s.heap.step o
      return { s with heap }
  | .table => do
    let (p, k) ← kmallocA s.heap.heap 0x1000
    return ⟨⟨k, Function.update s.heap.live p (some 0x1000)⟩, s.tables ++ [p]⟩
  | .entry t i v =>
    if t ∈ s.tables then do
      let heap ← s.heap.step (.write t i v)
      return { s with heap }
    else .error (.misuse "page table")

end TableHeap

/-- Pages for tables are taken from the heap one after the other, and have to be these. -/
def HeapState.takeTables (s : HeapState) (tables : List Nat) : Exec HeapState := do
  let t ← Lib.run TableHeap.step ⟨s, []⟩ (tables.map fun _ => .table)
  if t.tables = tables then return t.heap else .error (.misuse "kmalloc_ap")

/-- The byte that was written last to a place of a table. -/
def writtenLast (ops : List TableOp) (t i : Nat) : Option UInt8 :=
  ops.foldl (fun last o => match o with
    | .entry t' i' v => if t' = t ∧ i' = i then some v else last
    | _              => last) none

end WeirdOs
