import WeirdOs.Heap.Correctness.Aligned

/-!
# `Heap.Correctness.AlignedFit` — when `kmalloc_a` finds what there is

What is expected of a page-aligned allocation (`AlignedOutcome`) speaks of the free blocks that have room
behind their next page boundary. The search never asks for that room: it compares sizes with the request
plus the first block's page offset, and accepts by a sum where a difference belongs.
`kmallocA_outcome_iff` says for which heaps and requests the two come to the same (`AlignedFit`), in terms
of the block the search settles on.
-/

namespace WeirdOs

open Lib Lib.Piece

variable {m : Mem} {k : KernelHeap} {lo hi n p : Nat} {bs : List Block} {b c : Block}

/-! ## What is expected -/

/-- A free block with room for `n` bytes from the next page boundary on. -/
def Block.HasRoom (n : Nat) (c : Block) : Prop := c.used = false ∧ c.boundary + n ≤ c.stop

/-- The header and the `n` bytes at `p` lie inside one block that was free, and touch no other block. -/
def InsideFree (bs : List Block) (p n : Nat) : Prop :=
  ∃ c ∈ bs, c.used = false ∧ c.addr + 16 ≤ p ∧ p + n ≤ c.stop ∧
    ∀ d ∈ bs, d ≠ c → d.stop + 16 ≤ p ∨ p + n ≤ d.addr

/-- **A page-aligned allocation**: it returns when there is room and asserts otherwise, and what it returns
    is a page, large enough, and inside a block that was free. -/
structure AlignedOutcome (k : KernelHeap) (bs : List Block) (n : Nat) : Prop where
  returns : (∃ c ∈ bs, c.HasRoom n) → ∃ p k', kmallocA k n = .ok (p, k')
  asserts : (¬ ∃ c ∈ bs, c.HasRoom n) → ∃ text, kmallocA k n = .error (.assertion text)
  result : ∀ p k', kmallocA k n = .ok (p, k') →
    4096 ∣ p ∧ n ≤ (header k'.mem (sub32 p headerSize)).size ∧ InsideFree bs p n

/-- **The condition.** Where every block is used there is none. Otherwise let `b` be the block the search
    settles on. When its size plus its offset reaches the request, there must be a block before it, room in
    some free block, and a free block around the bytes from its next page boundary on; when it does not,
    there must be no room anywhere. -/
def AlignedFit (k : KernelHeap) (lo : Nat) (bs : List Block) (n : Nat) : Prop :=
  ∀ b, suitable lo (requiredSize lo n) bs = some b →
    if n ≤ b.size + b.offset then
      (header k.mem b.addr).previous ≠ 0 ∧ (∃ c ∈ bs, c.HasRoom n) ∧
        ∃ c ∈ bs, c.used = false ∧ c.addr + 16 ≤ b.boundary ∧ b.boundary + n ≤ c.stop
    else ¬ ∃ c ∈ bs, c.HasRoom n

/-! ## The size of the block handed out -/

theorem size_setMagic (m : Mem) (b v : Nat) : (header (setMagic m b v) b).size = (header m b).size :=
  load32_store32_of_disjoint (by omega)

/-- Whatever the header held: the block handed out has the size requested, or it was not split. -/
theorem size_allocated (m : Mem) (b : Block) (hn : n < 4294967296) :
    (header (allocated m b n) b.addr).size =
      if sub32 (header m b.addr).size n > headerSize + minBlockSize then n else (header m b.addr).size := by
  unfold allocated
  rw [size_setMagic]
  split
  · unfold createNewBlockHeader
    rw [size_setMagic, header_setSize hn]
  · rfl

/-- A request that leaves a page of addresses is not larger than its block, even when the block's size was
    overwritten by the copy of the header. -/
theorem le_size_allocated (m : Mem) (b : Block) (hn : n + 4096 ≤ 4294967296) :
    n ≤ (header (allocated m b n) b.addr).size := by
  rw [size_allocated m b (by omega)]
  have hsize : (header m b.addr).size < 4294967296 := load32_lt m _
  unfold headerSize minBlockSize sub32
  split
  · exact Nat.le_refl n
  · omega

/-! ## The three ways the call can end -/

theorem alignedOutcome_of_assertion {text : String} (hrun : kmallocA k n = .error (.assertion text)) :
    AlignedOutcome k bs n ↔ ¬ ∃ c ∈ bs, c.HasRoom n := by
  constructor
  · intro hout hroom
    obtain ⟨p, k', hok⟩ := hout.returns hroom
    rw [hrun] at hok
    cases hok
  · intro hno
    refine ⟨fun hroom => absurd hroom hno, fun _ => ⟨text, hrun⟩, ?_⟩
    intro p k' hok
    rw [hrun] at hok
    cases hok

/-- A null pointer followed is neither a result nor an assertion. -/
theorem not_alignedOutcome_of_null {what : String} (hrun : kmallocA k n = .error (.null what)) :
    ¬ AlignedOutcome k bs n := by
  intro hout
  by_cases hroom : ∃ c ∈ bs, c.HasRoom n
  · obtain ⟨p, k', hok⟩ := hout.returns hroom
    rw [hrun] at hok
    cases hok
  · obtain ⟨text, herr⟩ := hout.asserts hroom
    rw [hrun] at herr
    cases herr

theorem alignedOutcome_of_ok {k' : KernelHeap} (hrun : kmallocA k n = .ok (p, k')) :
    AlignedOutcome k bs n ↔ (∃ c ∈ bs, c.HasRoom n) ∧
      4096 ∣ p ∧ n ≤ (header k'.mem (sub32 p headerSize)).size ∧ InsideFree bs p n := by
  constructor
  · intro hout
    refine ⟨?_, hout.result p k' hrun⟩
    by_contra hroom
    obtain ⟨text, herr⟩ := hout.asserts hroom
    rw [hrun] at herr
    cases herr
  · rintro ⟨hroom, hres⟩
    refine ⟨fun _ => ⟨p, k', hrun⟩, fun hno => absurd hroom hno, ?_⟩
    intro p' k'' hok
    rw [hrun] at hok
    cases hok
    exact hres

/-! ## The exact condition -/

/-- Inside one block of a layout is apart from every other. -/
theorem insideFree_iff (h : Layout m lo hi bs) :
    InsideFree bs p n ↔ ∃ c ∈ bs, c.used = false ∧ c.addr + 16 ≤ p ∧ p + n ≤ c.stop := by
  constructor
  · rintro ⟨c, hc, hfree, h1, h2, -⟩
    exact ⟨c, hc, hfree, h1, h2⟩
  · rintro ⟨c, hc, hfree, h1, h2⟩
    refine ⟨c, hc, hfree, h1, h2, ?_⟩
    intro d hd hne
    have hapart := h.apart hd hc hne
    rw [Block.stop_eq] at *
    omega

/-- **What is returned**, when it lies inside some block: the next page boundary of the block chosen, and
    the block there is as large as requested. -/
theorem kmallocA_result (h : Layout m lo hi bs) (hc : c ∈ bs) (h2 : b.boundary + n ≤ c.stop) (m' : Mem) :
    add32 (b.addr + b.distance) 16 = b.boundary ∧
      n ≤ (header (allocated m' b.moved n) (sub32 b.boundary headerSize)).size := by
  have hbound := h.bound hc
  have hboundary := b.boundary_eq_addr
  have hpage := b.boundary_eq
  rw [Block.stop_eq] at h2
  rw [add32_of_lt (by omega), ← hboundary]
  refine ⟨rfl, ?_⟩
  have hhdr : sub32 b.boundary headerSize = b.moved.addr := by
    unfold headerSize
    rw [sub32_of_le (by omega) (by omega), hboundary, Nat.add_sub_cancel]
    rfl
  rw [hhdr]
  exact le_size_allocated _ _ (by omega)

/-- The boundary of a block in the last page wraps to zero, where nothing lies behind a header. -/
theorem boundary_of_inside (h : Layout m lo hi bs) (hb : b ∈ bs) {c : Block}
    (h1 : c.addr + 16 ≤ add32 (b.addr + b.distance) 16) :
    add32 (b.addr + b.distance) 16 = b.boundary := by
  have hbound := h.bound hb
  have hpage := b.boundary_eq
  have hlt : b.payload < 4294967296 := by rw [Block.payload_eq]; omega
  have hboundary := b.boundary_eq_addr
  unfold add32 at *
  omega

/-- **When `kmalloc_a` does what is expected of it.** -/
theorem kmallocA_outcome_iff (h : WellFormedHeap k lo hi bs) (hfirst : ∀ f ∈ bs.head?, f.used = true)
    (n : UInt32) : AlignedOutcome k bs n.toNat ↔ AlignedFit k lo bs n.toNat := by
  obtain ⟨heap, hk, hheap⟩ := h.kheap
  have hlay := h.layout
  unfold AlignedFit
  cases hs : suitable lo (requiredSize lo n.toNat) bs with
  | none =>
      -- no block is free: the search asserts, and there is no room
      rw [alignedOutcome_of_assertion (kmallocA_eq_of_none hk hheap hlay hs)]
      refine iff_of_true ?_ (by simp)
      rintro ⟨c, hc, hfree, -⟩
      rw [suitable_eq_none.mp hs c hc] at hfree
      cases hfree
  | some b =>
      obtain ⟨hmem, hfree⟩ := suitable_mem hs
      obtain ⟨xs, a, ys, hsplit, -⟩ := exists_before hfirst h.coalesced hmem hfree
      rw [hsplit] at hs hlay
      have hprev : (header k.mem b.addr).previous = a.addr :=
        congrArg BlockHeader.previous hlay.parts.2.2.1
      have hrun := kmallocA_eq hk hheap hlay hs
      rw [← hsplit] at hs hlay
      simp only [Option.some.injEq, forall_eq', hprev]
      by_cases haccept : n.toNat ≤ b.size + b.offset
      · rw [if_pos haccept] at hrun ⊢
        by_cases ha0 : a.addr = 0
        · rw [if_pos ha0] at hrun
          exact iff_of_false (not_alignedOutcome_of_null hrun) fun hf => hf.1 ha0
        · rw [if_neg ha0] at hrun
          rw [alignedOutcome_of_ok hrun, insideFree_iff hlay]
          constructor
          · rintro ⟨hroom, -, -, c, hc, hcfree, h1, h2⟩
            have hq := boundary_of_inside hlay hmem h1
            rw [hq] at h1 h2
            exact ⟨ha0, hroom, c, hc, hcfree, h1, h2⟩
          · rintro ⟨-, hroom, c, hc, hcfree, h1, h2⟩
            obtain ⟨hq, hsize⟩ := kmallocA_result hlay hc h2 (realigned k.mem a b)
            rw [hq]
            exact ⟨hroom, b.dvd_boundary, hsize, c, hc, hcfree, h1, h2⟩
      · rw [if_neg haccept] at hrun ⊢
        exact alignedOutcome_of_assertion hrun

/-- A hundred bytes on page one: the block chosen has the room itself. -/
theorem kmallocA_outcome_room :
    ∃ k, WellFormedHeap k 64 5064 [⟨64, 16, true⟩, ⟨96, 4952, false⟩] ∧
      AlignedOutcome k [⟨64, 16, true⟩, ⟨96, 4952, false⟩] (100 : UInt32).toNat := by
  obtain ⟨k, hwf, hhdr⟩ := exists_large_free
  refine ⟨k, hwf, (kmallocA_outcome_iff hwf (by simp) 100).mpr ?_⟩
  intro b hb
  obtain rfl : (⟨96, 4952, false⟩ : Block) = b := Option.some.inj hb
  rw [if_pos (by decide), hhdr]
  exact ⟨by decide, ⟨⟨96, 4952, false⟩, by simp, rfl, by decide⟩, ⟨96, 4952, false⟩, by simp, rfl, by decide,
    by decide⟩

/-- **An allocation outside the heap.** Eight bytes from a heap of a hundred: no block reaches the next
    page, but the free one is accepted because its size and its page offset together are large enough. -/
theorem kmallocA_outside :
    ∃ k bs, WellFormedHeap k 64 164 bs ∧ (∀ f ∈ bs.head?, f.used = true) ∧
      ¬ AlignedOutcome k bs (8 : UInt32).toNat := by
  have hrun : ((HeapState.init ⟨fun _ => 0, none, 0⟩ 100 64).run [.kmalloc 16]).toOption.map
        (fun s => (s.heap.kheap, s.heap.blocks, (kmallocA s.heap 8).toOption.map Prod.fst)) =
      some (some ⟨64, 100⟩, some (entries 0 [⟨64, 16, true⟩, ⟨96, 52, false⟩]), some 4096) := by
    decide +kernel
  obtain ⟨s, -, hs⟩ := Option.map_eq_some_iff.mp hrun
  simp only [Prod.mk.injEq] at hs
  obtain ⟨hk, hblocks, hcall⟩ := hs
  refine ⟨s.heap, [⟨64, 16, true⟩, ⟨96, 52, false⟩], wellFormedHeap_of_blocks hk rfl (by decide)
    ⟨rfl, rfl, rfl⟩ (by simp) ⟨by decide, trivial⟩ hblocks, by simp, ?_⟩
  intro hout
  have hnone : ¬ ∃ c ∈ ([⟨64, 16, true⟩, ⟨96, 52, false⟩] : List Block),
      c.HasRoom (8 : UInt32).toNat := by
    simp only [List.mem_cons, List.not_mem_nil, or_false, exists_eq_or_imp, exists_eq_left]
    rintro (⟨hfree, -⟩ | ⟨-, hroom⟩)
    · cases hfree
    · exact absurd hroom (by decide)
  obtain ⟨text, herr⟩ := hout.asserts hnone
  rw [show (8 : UInt32).toNat = 8 from rfl] at herr
  rw [herr] at hcall
  cases hcall

end WeirdOs
