import WeirdOs.Heap.Kmalloc

/-!
# `Heap.Correctness.Stateful` — allocation, and the memory it stops in

The functions into `Exec` are those of `Stateful` with the memory of a failure dropped. What they do is
unfolded here, part by part (`makeAlignedBlock_def` to `kmalloc_of_kheap`), so that the proofs about the
block list see functions of the memory. `kmalloc_error` is about what they drop: **a `kmalloc` that fails
has written nothing**.
-/

namespace WeirdOs

open Lib

variable {σ α : Type} {m : Mem} {k : KernelHeap} {heap : Heap}

/-! ## What returns -/

namespace Stateful

theorem returned_assert (cond : Bool) (text : String) (s : σ) :
    returned (assert cond text s) = WeirdOs.assert cond text >>= fun u => .ok (u, s) := by
  cases cond <;> rfl

theorem returned_onMemory (x : StateExec Mem α) :
    returned (onMemory x k) = returned (x k.mem) >>= fun r => .ok (r.1, { k with mem := r.2 }) := by
  unfold onMemory
  cases x k.mem <;> rfl

end Stateful

theorem makeAlignedBlock_def (m : Mem) (block : Nat) :
    makeAlignedBlock m block = do
      let distance := getDistanceToNextPage (getMemoryAddress block)
      let headerPos := sub32 (getNextPage (getMemoryAddress block)) headerSize
      let m := setSize m block (sub32 (header m block).size distance)
      if (header m block).previous = 0 then throw (.null "block->previous")
      let m := setNext m (header m block).previous headerPos
      let m := setSize m (header m block).previous (add32 (header m (header m block).previous).size distance)
      return (headerPos, memcpy m headerPos block headerSize) := by
  simp only [makeAlignedBlock, Stateful.makeAlignedBlock, modify_bind, get_bind]
  split <;> rfl

theorem getSuitableBlock_def (m : Mem) (size : Nat) (pageAlign : Bool) (heap : Heap) :
    getSuitableBlock m size pageAlign heap = do
      let best ← firstUnused m walkFuel heap.firstBlock
      let requiredSize :=
        if pageAlign then add32 size (getMemoryAddress heap.firstBlock &&& 0xfff) else size
      let best ← bestFit m requiredSize walkFuel best heap.firstBlock
      if pageAlign then
        let distance := getMemoryAddress best &&& 0xfff
        assert (add32 (header m best).size distance ≥ size)
          "best->size + distance >= size && \"Out of heap space for aligned malloc\""
        makeAlignedBlock m best
      else
        assert ((header m best).size ≥ size) "best->size >= size && \"Out of heap space\""
        return (best, m) := by
  simp only [getSuitableBlock, Stateful.getSuitableBlock]
  rw [returned_bind, returned_reading]
  cases firstUnused m walkFuel heap.firstBlock with
  | error e => rfl
  | ok best =>
      simp only [ok_bind]
      rw [returned_bind, returned_reading]
      cases bestFit m _ walkFuel best heap.firstBlock with
      | error e => rfl
      | ok best =>
          cases pageAlign with
          | true =>
              simp only [ok_bind, if_true, get_bind]
              rw [returned_bind, Stateful.returned_assert]
              cases assert _ _ <;> rfl
          | false =>
              simp only [ok_bind, Bool.false_eq_true, if_false, get_bind]
              rw [returned_bind, Stateful.returned_assert]
              cases assert _ _ <;> rfl

theorem allocInternal_def (m : Mem) (size : Nat) (pageAlign : Bool) (heap : Heap) :
    allocInternal m size pageAlign heap = do
      let (block, m) ← getSuitableBlock m size pageAlign heap
      let m :=
        if sub32 (header m block).size size > headerSize + minBlockSize then createNewBlockHeader m block size
        else m
      return (getMemoryAddress block, setMagic m block (magicNumber ||| 0x1)) := by
  simp only [allocInternal, Stateful.allocInternal]
  rw [returned_bind, ← getSuitableBlock]
  cases getSuitableBlock m size pageAlign heap with
  | error e => rfl
  | ok r =>
      simp only [ok_bind, get_bind]
      split <;> rfl

theorem Stateful.returned_kmallocInternal (hk : k.kheap = some heap) (sz align : Nat) :
    returned (kmallocInternal sz align none k) =
      WeirdOs.allocInternal k.mem sz (align ≠ 0) heap >>= fun r => .ok ((r.1, none), { k with mem := r.2 }) := by
  obtain ⟨mem, kheap, placement⟩ := k
  cases hk
  unfold kmallocInternal
  rw [get_bind, returned_bind, returned_onMemory, ← WeirdOs.allocInternal]
  cases WeirdOs.allocInternal mem sz (align ≠ 0) heap <;> rfl

/-- **`kmalloc`**, once there is a heap, is an unaligned `alloc_internal`. -/
theorem kmalloc_of_kheap (hk : k.kheap = some heap) (sz : Nat) :
    kmalloc k sz = do
      let (addr, m) ← allocInternal k.mem sz false heap
      return (addr, { k with mem := m }) := by
  unfold kmalloc Stateful.kmalloc
  rw [returned_bind, Stateful.returned_kmallocInternal hk, bind_assoc]
  rfl

/-- **`kmalloc_a`** is an aligned one. -/
theorem kmallocA_of_kheap (hk : k.kheap = some heap) (sz : Nat) :
    kmallocA k sz = do
      let (addr, m) ← allocInternal k.mem sz true heap
      return (addr, { k with mem := m }) := by
  unfold kmallocA Stateful.kmallocA
  rw [returned_bind, Stateful.returned_kmallocInternal hk, bind_assoc]
  rfl

namespace Stateful

/-! ## What stops -/

variable {e : Fault} {m' : Mem} {k' : KernelHeap} {n p : Nat}

theorem assert_error {cond : Bool} {text : String} {s s' : σ}
    (h : assert cond text s = .error e s') : s' = s := by
  cases cond with
  | false => cases h; rfl
  | true => cases h

/-- **An unaligned search that fails has written nothing.** -/
theorem getSuitableBlock_error (h : getSuitableBlock n false heap m = .error e m') : m' = m := by
  simp only [getSuitableBlock, Bool.false_eq_true, if_false] at h
  rcases bind_error h with h₁ | ⟨first, m₁, hfirst, h₁⟩
  · exact reading_error h₁
  obtain rfl := reading_ok hfirst
  rcases bind_error h₁ with h₂ | ⟨best, m₂, hbest, h₂⟩
  · exact reading_error h₂
  obtain rfl := reading_ok hbest
  rw [get_bind] at h₂
  rcases bind_error h₂ with h₃ | ⟨u, m₃, hassert, h₃⟩
  · exact assert_error h₃
  · cases h₃

theorem allocInternal_error (h : allocInternal n false heap m = .error e m') : m' = m := by
  unfold allocInternal at h
  rcases bind_error h with hsearch | ⟨a, m₁, -, h⟩
  · exact getSuitableBlock_error hsearch
  · -- nothing behind the search can fail
    rw [get_bind] at h
    split at h <;> cases h

theorem onMemory_error {x : StateExec Mem α} (hx : ∀ m', x k.mem = .error e m' → m' = k.mem)
    (h : onMemory x k = .error e k') : k' = k := by
  unfold onMemory at h
  split at h
  · cases h
  · rename_i hrun
    cases h
    rw [hx _ hrun]

/-- **A failed `kmalloc` leaves everything as it was.** -/
theorem kmalloc_error (h : kmalloc n k = .error e k') : k' = k := by
  unfold kmalloc at h
  rcases bind_error h with h | ⟨r, t, -, h⟩
  · unfold kmallocInternal at h
    rw [get_bind] at h
    cases hk : k.kheap with
    | none =>
        rw [hk] at h
        cases h
    | some heap =>
        rw [hk] at h
        rcases bind_error h with h | ⟨addr, t, -, h⟩
        · exact onMemory_error (fun _ hrun => allocInternal_error hrun) h
        · cases h
  · cases h

theorem kmalloc_eq_ok : kmalloc n k = .ok p k' ↔ WeirdOs.kmalloc k n = .ok (p, k') :=
  returned_eq_ok.symm

theorem kmalloc_eq_error : (∃ k', kmalloc n k = .error e k') ↔ WeirdOs.kmalloc k n = .error e :=
  returned_eq_error.symm

end Stateful

end WeirdOs
