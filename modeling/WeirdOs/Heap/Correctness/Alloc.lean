import WeirdOs.Heap.Correctness.Surgery

/-!
# `Heap.Correctness.Alloc` — `kmalloc` on the block list

The two search loops of `get_suitable_block` walk the links in memory; on a layout they compute a
function of the block list (`suitable`): skip to the first free block, then scan for the smallest free
block that is large enough. `allocInternal_eq` carries this through the split: an unaligned allocation
either hands out the payload of `suitable`, replacing that block by `place`, or stops at one of the two
assertions of the search with the memory as it was.

The second loop tests the *address* of the current block against null before anything else. On a region
that starts at address zero it therefore never runs; `suitable` says so.
-/

namespace WeirdOs

open Lib

/-! ## The search, on block lists -/

/-- One step of the second loop: keep `best`, or prefer the current block. -/
def fitter (n : Nat) (best c : Block) : Block :=
  if !c.used && decide (c.size ≥ n ∧ (c.size < best.size ∨ best.size < n)) then c else best

/-- The block both loops end up with. -/
def suitable (lo n : Nat) (bs : List Block) : Option Block :=
  (bs.find? fun b => !b.used).map fun b => if lo = 0 then b else bs.foldl (fitter n) b

/-- Scanning never leaves the free blocks of the list. -/
theorem foldl_fitter_mem {n : Nat} {bs zs : List Block} (hzs : zs ⊆ bs) :
    ∀ {best : Block}, best ∈ bs → best.used = false →
      zs.foldl (fitter n) best ∈ bs ∧ (zs.foldl (fitter n) best).used = false := by
  induction zs with
  | nil => intro best hmem hfree; exact ⟨hmem, hfree⟩
  | cons c zs ih =>
      intro best hmem hfree
      have hc : c ∈ bs := hzs List.mem_cons_self
      have hstep : fitter n best c ∈ bs ∧ (fitter n best c).used = false := by
        unfold fitter
        split
        · rename_i hbetter
          rw [Bool.and_eq_true] at hbetter
          exact ⟨hc, by simpa using hbetter.1⟩
        · exact ⟨hmem, hfree⟩
      exact ih (fun x hx => hzs (List.mem_cons_of_mem _ hx)) hstep.1 hstep.2

/-- The search hands out a free block of the list. -/
theorem suitable_mem {lo n : Nat} {bs : List Block} {b : Block} (h : suitable lo n bs = some b) :
    b ∈ bs ∧ b.used = false := by
  obtain ⟨f, hf, rfl⟩ := Option.map_eq_some_iff.mp h
  have hmem : f ∈ bs := List.mem_of_find?_eq_some hf
  have hfree : f.used = false := by simpa using List.find?_some hf
  split
  · exact ⟨hmem, hfree⟩
  · exact foldl_fitter_mem (fun _ hx => hx) hmem hfree

/-! ## The search, in memory -/

variable {m : Mem} {lo hi : Nat} {bs : List Block}

/-- The text of the first assertion of the search. -/
def noUnusedBlocks : String := "best->next && \"No unused blocks\""

/-- The text of its last one. -/
def outOfHeapSpace : String := "best->size >= size && \"Out of heap space\""

/-- **The first loop** stops at the first free block. -/
theorem firstUnused_eq {zs : List Block} {prev : Nat} :
    ∀ {fuel lo : Nat}, Tiles lo hi zs → Linked (cell m) Block.addr prev 0 zs → zs ≠ [] →
      zs.length ≤ fuel →
      firstUnused m fuel (headKey Block.addr 0 zs) =
        match zs.find? (fun b => !b.used) with
        | some b => .ok b.addr
        | none => .error (.assertion noUnusedBlocks) := by
  induction zs generalizing prev with
  | nil => intro fuel lo _ _ hne; exact absurd rfl hne
  | cons b zs ih =>
      intro fuel lo ht hl _ hfuel
      obtain ⟨hb, hrest⟩ := linked_cons.mp hl
      unfold cell at hb
      obtain ⟨fuel, rfl⟩ : ∃ f, fuel = f + 1 := ⟨fuel - 1, by simp at hfuel; omega⟩
      rw [headKey_cons, firstUnused, hb]
      cases hu : b.used with
      | false => simp [hu]
      | true =>
          -- the assertion fires at the last block, whose `next` is null
          simp only [isUsed_tag, if_true, List.find?_cons, hu, Bool.not_true]
          cases zs with
          | nil => simp [noUnusedBlocks]
          | cons c zs =>
              have hc : headKey Block.addr 0 (c :: zs) ≠ 0 := by
                have := ht.2.1
                rw [Block.stop_eq] at this
                rw [headKey_cons]
                omega
              rw [decide_eq_true hc, assert_true, ok_bind]
              exact ih ht.2 hrest (by simp) (by simpa using hfuel)

/-- **The second loop** folds `fitter` over the list. -/
theorem bestFit_eq {n : Nat} {zs : List Block} {prev : Nat} :
    ∀ {fuel lo : Nat} {best : Block}, Tiles lo hi zs → Linked (cell m) Block.addr prev 0 zs →
      (zs ≠ [] → 0 < lo) → zs.length < fuel → best ∈ bs → zs ⊆ bs →
      (∀ b ∈ bs, (header m b.addr).size = b.size) →
      bestFit m n fuel best.addr (headKey Block.addr 0 zs) = .ok (zs.foldl (fitter n) best).addr := by
  induction zs generalizing prev with
  | nil =>
      intro fuel lo best _ _ _ hfuel _ _ _
      obtain ⟨fuel, rfl⟩ : ∃ f, fuel = f + 1 := ⟨fuel - 1, by simp at hfuel; omega⟩
      simp [bestFit]
  | cons c zs ih =>
      intro fuel lo best ht hl hlo hfuel hbest hzs hsize
      obtain ⟨hc, hrest⟩ := linked_cons.mp hl
      unfold cell at hc
      obtain ⟨fuel, rfl⟩ : ∃ f, fuel = f + 1 := ⟨fuel - 1, by simp at hfuel; omega⟩
      have hc0 : c.addr ≠ 0 := by
        have := hlo (by simp)
        have := ht.1
        omega
      -- the loop compares with the header of `best`, which is in `bs` but not in `zs`
      rw [headKey_cons, bestFit, if_neg hc0, hc, hsize best hbest]
      simp only [isUsed_tag, List.foldl_cons]
      have hstep : (if (!c.used && decide (c.size ≥ n ∧ (c.size < best.size ∨ best.size < n))) = true
          then c.addr else best.addr) = (fitter n best c).addr := by
        unfold fitter
        split <;> rfl
      have hmem : fitter n best c ∈ bs := by
        unfold fitter
        split
        · exact hzs List.mem_cons_self
        · exact hbest
      rw [hstep]
      refine ih ht.2 hrest ?_ (by simpa using hfuel) hmem
        (fun x hx => hzs (List.mem_cons_of_mem _ hx)) hsize
      intro _
      rw [Block.stop_eq]
      omega

/-- **The two loops together.** -/
theorem search_eq (h : Layout m lo hi bs) {heap : Heap} (hheap : heap.firstBlock = lo) (n : Nat) :
    (firstUnused m walkFuel heap.firstBlock >>= fun best => bestFit m n walkFuel best heap.firstBlock) =
      match suitable lo n bs with
      | none => .error (.assertion noUnusedBlocks)
      | some b => .ok b.addr := by
  have hfirst : headKey Block.addr 0 bs = heap.firstBlock := by rw [h.tiles.headKey_eq h.nonempty, hheap]
  have hlen := h.length_lt
  have hsearch := firstUnused_eq h.tiles h.linked h.nonempty (Nat.le_of_lt hlen)
  rw [hfirst] at hsearch
  simp only [hsearch, suitable]
  cases hf : bs.find? (fun b => !b.used) with
  | none => rfl
  | some f =>
      have hmem : f ∈ bs := List.mem_of_find?_eq_some hf
      simp only [ok_bind, Option.map_some]
      by_cases h0 : lo = 0
      · -- the loop starts at null and ends at once
        rw [if_pos h0, hheap, h0]
        rfl
      · rw [if_neg h0, ← hfirst]
        exact bestFit_eq h.tiles h.linked (fun _ => by omega) hlen hmem (fun _ hx => hx)
          fun b hb => (h.mem_header hb).2

/-- **`get_suitable_block`**, unaligned. -/
theorem getSuitableBlock_eq (h : Layout m lo hi bs) {heap : Heap} (hheap : heap.firstBlock = lo)
    (n : Nat) :
    getSuitableBlock m n false heap =
      match suitable lo n bs with
      | none => .error (.assertion noUnusedBlocks)
      | some b => if n ≤ b.size then .ok (b.addr, m) else .error (.assertion outOfHeapSpace) := by
  rw [getSuitableBlock_def]
  simp only [Bool.false_eq_true, if_false]
  rw [← bind_assoc, search_eq h hheap]
  cases hs : suitable lo n bs with
  | none => rfl
  | some b =>
      simp only [ok_bind, (h.mem_header (suitable_mem hs).1).2]
      by_cases hn : n ≤ b.size
      · simp [hn]
      · simp [hn, outOfHeapSpace]

/-! ## Placing the request -/

/-- The blocks that replace a block of which `n` bytes are handed out: the rest is split off when it can
    hold a header and more than `MIN_BLOCK_SIZE` bytes. -/
def place (b : Block) (n : Nat) : List Block :=
  if b.size - n > headerSize + minBlockSize then
    [⟨b.addr, n, true⟩, ⟨b.addr + 16 + n, b.size - n - 16, false⟩]
  else [{ b with used := true }]

/-- The size of the block handed out. -/
def placedSize (b : Block) (n : Nat) : Nat :=
  if b.size - n > headerSize + minBlockSize then n else b.size

theorem place_eq (b : Block) (n : Nat) :
    ∃ rest, place b n = ⟨b.addr, placedSize b n, true⟩ :: rest ∧ (∀ c ∈ rest, c.used = false) ∧
      rest.length ≤ 1 := by
  unfold place placedSize
  split
  · exact ⟨_, rfl, by simp, by simp⟩
  · exact ⟨[], rfl, by simp, by simp⟩

theorem le_placedSize {b : Block} {n : Nat} (h : n ≤ b.size) : n ≤ placedSize b n := by
  unfold placedSize
  split <;> omega

/-- `place b n` fills the span of `b`. -/
theorem tiles_place {lo hi n : Nat} {xs ys : List Block} {b : Block} (hn : n ≤ b.size)
    (h : Tiles lo hi (xs ++ b :: ys)) : Tiles lo hi (xs ++ (place b n ++ ys)) := by
  obtain ⟨mid, hx, rfl, hy⟩ := tiles_append.mp h
  refine tiles_append.mpr ⟨b.addr, hx, ?_⟩
  unfold place headerSize minBlockSize
  split
  · refine ⟨rfl, rfl, ?_⟩
    rw [Block.stop_eq] at hy
    rw [Block.stop_eq, show b.addr + 16 + n + 16 + (b.size - n - 16) = b.addr + 16 + b.size from by omega]
    exact hy
  · exact ⟨rfl, hy⟩

/-- The headers of `place b n` lie inside the span of `b`, past its payload's first `n` bytes. -/
theorem inHeaders_place {b : Block} {n x : Nat} (hn : n ≤ b.size) (hx : InHeaders (place b n) x) :
    (b.addr ≤ x ∧ x < b.addr + 16) ∨ (b.addr + 16 + placedSize b n ≤ x ∧ x < b.stop) := by
  unfold place placedSize at *
  rw [Block.stop_eq]
  unfold headerSize minBlockSize at *
  split at hx
  · rename_i hsplit
    rw [if_pos hsplit]
    simp only [InHeaders, List.mem_cons, List.not_mem_nil, or_false, exists_eq_or_imp,
      exists_eq_left] at hx
    omega
  · rename_i hsplit
    rw [if_neg hsplit]
    simp only [InHeaders, List.mem_cons, List.not_mem_nil, or_false, exists_eq_left] at hx
    omega

/-- The memory after `alloc_internal` took `n` bytes from the block `b`. -/
def allocated (m : Mem) (b : Block) (n : Nat) : Mem :=
  setMagic
    (if sub32 (header m b.addr).size n > headerSize + minBlockSize then createNewBlockHeader m b.addr n
      else m) b.addr (tag true)

/-- **Splitting or taking whole**: `place` is what `alloc_internal` does to its block. -/
theorem allocated_spec {xs ys : List Block} {b : Block} (h : Layout m lo hi (xs ++ b :: ys)) {n : Nat}
    (hn : n ≤ b.size) :
    Layout (allocated m b n) lo hi (xs ++ (place b n ++ ys)) ∧
      ∀ x, ¬ InHeaders (xs ++ b :: ys) x → ¬ InHeaders (place b n) x → allocated m b n x = m x := by
  have hmem : b ∈ xs ++ b :: ys := by simp
  have hbound := h.bound hmem
  unfold allocated place
  rw [(h.mem_header hmem).2, sub32_of_le hn (by omega)]
  by_cases hs : b.size - n > headerSize + minBlockSize
  · rw [if_pos hs, if_pos hs]
    unfold headerSize minBlockSize at hs
    obtain ⟨hlay, hframe⟩ := createNewBlockHeader_spec h (n := n) (by omega)
    obtain ⟨hlay', hframe'⟩ := setMagic_spec hlay true
    refine ⟨hlay', ?_⟩
    intro x hx hx'
    have hx₁ : ¬ InHeaders (xs ++ ([⟨b.addr, n, true⟩, ⟨b.addr + 16 + n, b.size - n - 16, false⟩] ++ ys)) x :=
      fun h' => h'.of_replace.elim hx hx'
    simp only [inHeaders_cons] at hx'
    rw [hframe' x hx₁, hframe x hx (by omega)]
  · rw [if_neg hs, if_neg hs]
    obtain ⟨hlay, hframe⟩ := setMagic_spec h true
    exact ⟨hlay, fun x hx _ => hframe x hx⟩

/-- **`alloc_internal`**, unaligned: it hands out the payload of `suitable`, or stops at an assertion. -/
theorem allocInternal_eq (h : Layout m lo hi bs) {heap : Heap} (hheap : heap.firstBlock = lo) (n : Nat) :
    allocInternal m n false heap =
      match suitable lo n bs with
      | none => .error (.assertion noUnusedBlocks)
      | some b =>
        if n ≤ b.size then .ok (b.payload, allocated m b n)
        else .error (.assertion outOfHeapSpace) := by
  rw [allocInternal_def, getSuitableBlock_eq h hheap]
  cases hs : suitable lo n bs with
  | none => rfl
  | some b =>
      by_cases hn : n ≤ b.size
      · have hb := h.bound (suitable_mem hs).1
        simp only [hn, if_true, ok_bind, getMemoryAddress, Block.payload, headerSize, pure_eq_ok]
        rw [add32_of_lt (by omega)]
        rfl
      · simp [hn]

/-- **What an unaligned allocation that returns has done.** -/
theorem allocInternal_spec (h : Layout m lo hi bs) {heap : Heap} (hheap : heap.firstBlock = lo)
    {n p : Nat} {m' : Mem} (hrun : allocInternal m n false heap = .ok (p, m')) :
    ∃ xs b ys, bs = xs ++ b :: ys ∧ b.used = false ∧ n ≤ b.size ∧ p = b.payload ∧
      Layout m' lo hi (xs ++ (place b n ++ ys)) ∧
      ∀ x, ¬ InHeaders bs x → ¬ InHeaders (place b n) x → m' x = m x := by
  rw [allocInternal_eq h hheap] at hrun
  cases hs : suitable lo n bs with
  | none => rw [hs] at hrun; cases hrun
  | some b =>
      rw [hs] at hrun
      obtain ⟨hmem, hfree⟩ := suitable_mem hs
      by_cases hn : n ≤ b.size
      · simp only [hn, if_true, Except.ok.injEq, Prod.mk.injEq] at hrun
        obtain ⟨rfl, rfl⟩ := hrun
        obtain ⟨xs, ys, rfl⟩ := List.append_of_mem hmem
        obtain ⟨hlay, hframe⟩ := allocated_spec h hn
        exact ⟨xs, b, ys, rfl, hfree, hn, rfl, hlay, hframe⟩
      · simp [hn] at hrun

end WeirdOs
