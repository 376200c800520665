import WeirdOs.Heap.Correctness.Invariant
import Mathlib.Data.List.Chain

/-!
# `Heap.Correctness.WellFormed` — every reachable heap is well formed

What a walk along the links sees of a heap, and that it is as it should be (`WellFormed`): the blocks
visited tile the region, the links agree in both directions, the magic numbers are valid and no two
neighbours are free. `blocks_eq` computes the walk from the layout; the rest is read off the tiling.

A region that starts at the null address is the exception. Block zero has the address that marks "no
block", so `free` never merges with it (`null_region_not_wellFormed`).
-/

namespace WeirdOs

open Lib Lib.Piece

variable {m : Mem} {lo hi prev : Nat} {s : HeapState} {bs : List Block}

/-! ## What the walk visits -/

/-- The headers of the blocks `bs`, the first of which links back to `prev`. -/
def entries (prev : Nat) : List Block → List (Nat × BlockHeader)
  | []      => []
  | b :: bs => (b.addr, ⟨tag b.used, b.size, headKey Block.addr 0 bs, prev⟩) :: entries b.addr bs

/-- **The walk visits the blocks of the layout.** -/
theorem walk_eq {b : Block} :
    ∀ {fuel prev : Nat}, Tiles lo hi (b :: bs) → Linked (cell m) Block.addr prev 0 (b :: bs) →
      bs.length < fuel → walk m fuel b.addr = some (entries prev (b :: bs)) := by
  induction bs generalizing lo b with
  | nil =>
      intro fuel prev _ hl hfuel
      obtain ⟨fuel, rfl⟩ : ∃ f, fuel = f + 1 := ⟨fuel - 1, by omega⟩
      have hb : header m b.addr = _ := hl.1
      rw [walk, hb]
      rfl
  | cons c bs ih =>
      intro fuel prev ht hl hfuel
      obtain ⟨fuel, rfl⟩ : ∃ f, fuel = f + 1 := ⟨fuel - 1, by omega⟩
      have hb : header m b.addr = _ := hl.1
      -- a block that is not the first is past the header of one, so the walk goes on
      have hc : c.addr ≠ 0 := by
        have := ht.2.1
        rw [Block.stop_eq] at this
        omega
      rw [walk, hb]
      simp only [headKey_cons, hc, if_false]
      rw [ih ht.2 hl.2 (by simpa using hfuel)]
      rfl

/-- The block list of a state that satisfies the invariant. -/
theorem HeapInv.blocks_eq (h : HeapInv lo hi s bs) : s.blocks = some (entries 0 bs) := by
  obtain ⟨heap, hk, hfirst⟩ := h.kheap
  have hlen := h.layout.length_lt
  cases bs with
  | nil => exact absurd rfl h.layout.nonempty
  | cons b bs =>
      rw [HeapState.blocks, hk, Option.bind_some, hfirst, ← h.layout.tiles.1]
      exact walk_eq h.layout.tiles h.layout.linked (Nat.lt_of_succ_lt hlen)

/-! ## Well-formedness -/

/-- Block `x` is followed by block `y`: it ends where `y` starts, the links between them agree, and they
    are not both free. -/
structure Follows (x y : Nat × BlockHeader) : Prop where
  tile : x.1 + headerSize + x.2.size = y.1
  next : x.2.next = y.1
  previous : y.2.previous = x.1
  notBothFree : isUsed x.2.magic = true ∨ isUsed y.2.magic = true

/-- The blocks `l` make up the region `[lo, hi)`. -/
structure WellFormed (lo hi : Nat) (l : List (Nat × BlockHeader)) : Prop where
  first : ∃ x ∈ l.head?, x.1 = lo ∧ x.2.previous = 0
  chain : l.IsChain Follows
  last : ∃ x ∈ l.getLast?, x.1 + headerSize + x.2.size = hi ∧ x.2.next = 0
  magic : ∀ x ∈ l, isValid x.2.magic = true

theorem entries_chain (ht : Tiles lo hi bs) (hc : Coalesced bs) : (entries prev bs).IsChain Follows := by
  induction bs generalizing lo prev with
  | nil => exact .nil
  | cons b bs ih =>
      cases bs with
      | nil => exact .singleton _
      | cons c bs =>
          refine .cons_cons ⟨?_, rfl, rfl, ?_⟩ (ih ht.2 hc.tail)
          · exact ht.2.1.symm
          · have hbc := hc.1
            simp only [isFree_eq, Bool.not_eq_true', not_and, Bool.not_eq_false] at hbc
            simp only [isUsed_tag]
            cases hb : b.used with
            | true => exact Or.inl rfl
            | false => exact Or.inr (hbc hb)

theorem entries_last (ht : Tiles lo hi bs) (hne : bs ≠ []) :
    ∃ x ∈ (entries prev bs).getLast?, x.1 + headerSize + x.2.size = hi ∧ x.2.next = 0 := by
  induction bs generalizing lo prev with
  | nil => exact absurd rfl hne
  | cons b bs ih =>
      cases bs with
      | nil => exact ⟨_, rfl, ht.2, rfl⟩
      | cons c bs =>
          obtain ⟨x, hx, hrest⟩ : ∃ x ∈ (entries b.addr (c :: bs)).getLast?, _ := ih ht.2 (by simp)
          exact ⟨x, by rw [entries, entries, List.getLast?_cons_cons]; exact hx, hrest⟩

theorem entries_magic {x : Nat × BlockHeader} (hx : x ∈ entries prev bs) :
    isValid x.2.magic = true := by
  induction bs generalizing prev with
  | nil => exact absurd hx (by simp [entries])
  | cons b bs ih =>
      rcases List.mem_cons.mp hx with rfl | hx
      · exact isValid_tag _
      · exact ih hx

/-- A coalesced layout is well formed. -/
theorem entries_wellFormed (h : Layout m lo hi bs) (hc : Coalesced bs) :
    WellFormed lo hi (entries 0 bs) := by
  refine ⟨?_, entries_chain h.tiles hc, entries_last h.tiles h.nonempty, fun x hx => entries_magic hx⟩
  cases bs with
  | nil => exact absurd rfl h.nonempty
  | cons b bs => exact ⟨_, rfl, h.tiles.1, rfl⟩

/-- **Every reachable heap is well formed**, when its region does not start at the null address. -/
theorem reachable_wellFormed (k : KernelHeap) {size start : Nat} (hsize : 16 ≤ size)
    (hfits : start + size < 4294967296) (hstart : 0 < start) {ops : List HeapOp}
    (hrun : (HeapState.init k size start).run ops = .ok s) :
    ∃ l, s.blocks = some l ∧ WellFormed start (start + size) l := by
  obtain ⟨bs, h⟩ := HeapInv.run hsize hfits hrun
  exact ⟨_, h.blocks_eq, entries_wellFormed h.layout (h.coalesced hstart)⟩

/-- Two blocks of a region of 100 bytes at address 64, freed so that the first merges with nothing and the
    second with both of its neighbours. -/
theorem reachable_wellFormed_merge :
    ∃ s, (HeapState.init ⟨fun _ => 0, none, 0⟩ 100 64).run
        [.kmalloc 16, .kmalloc 16, .free 80, .free 112] = .ok s ∧
      ∃ l, s.blocks = some l ∧ WellFormed 64 164 l := by
  have hok : ((HeapState.init ⟨fun _ => 0, none, 0⟩ 100 64).run
      [.kmalloc 16, .kmalloc 16, .free 80, .free 112]).toOption.isSome = true := by
    decide +kernel
  obtain ⟨s, hs⟩ := Option.isSome_iff_exists.mp hok
  have hrun := toOption_eq_some.mp hs
  exact ⟨s, hrun, reachable_wellFormed _ (by decide) (by decide) (by decide) hrun⟩

/-- **A region that starts at the null address**: two allocations freed in the order they were made
    leave two free neighbours, because the back link to block zero reads as "no block". -/
theorem null_region_not_wellFormed :
    ∃ s l, (HeapState.init ⟨fun _ => 0, none, 0⟩ 100 0).run
        [.kmalloc 16, .kmalloc 16, .free 16, .free 48] = .ok s ∧
      s.blocks = some l ∧ ¬ WellFormed 0 100 l := by
  have hlist : ((HeapState.init ⟨fun _ => 0, none, 0⟩ 100 0).run
      [.kmalloc 16, .kmalloc 16, .free 16, .free 48]).toOption.bind HeapState.blocks =
        some [(0, ⟨tag false, 16, 32, 0⟩), (32, ⟨tag false, 52, 0, 0⟩)] := by decide +kernel
  obtain ⟨s, hs, hblocks⟩ := Option.bind_eq_some_iff.mp hlist
  refine ⟨s, _, toOption_eq_some.mp hs, hblocks, ?_⟩
  intro h
  have hfollows := (List.isChain_cons_cons.mp h.chain).1.notBothFree
  simp at hfollows

end WeirdOs
