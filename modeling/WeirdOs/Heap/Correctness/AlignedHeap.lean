import WeirdOs.Heap.Correctness.Aligned

/-!
# `Heap.Correctness.AlignedHeap` — the heap after `kmalloc_a`

When the chosen block has room up to the next page and beyond, the heap after the call is meant to be well
formed again. It is one relinking away from it: with the back link of the following block set to the moved
header, the memory is laid out as expected (`layout_realigned`). Whether that link is set is decided by
something else, the split of the block.

`kmallocA_wellFormed_iff` is the exact account: the block before is not at the null address, the copy of
the header leaves it intact, and the block is split or is the last one.
-/

namespace WeirdOs

open Lib Lib.Piece

variable {m : Mem} {k : KernelHeap} {lo hi n : Nat} {bs xs ys : List Block} {a b : Block}

/-! ## One relinking away -/

/-- A second store to a word replaces the first. -/
theorem setPrevious_setPrevious (m : Mem) (b v w : Nat) :
    setPrevious (setPrevious m b v) b w = setPrevious m b w := by
  funext x
  simp only [setPrevious, store32]
  split_ifs <;> rfl

/-- **With the back link repaired**, the memory after the move is laid out as expected. -/
theorem layout_realigned (h : Layout m lo hi (xs ++ a :: b :: ys)) (hroom : b.distance ≤ b.size)
    (hintact : header (realigned m a b) (b.addr + b.distance) = header (resized m a b) b.addr) :
    Layout (relinkHead (realigned m a b) (headKey Block.addr 0 ys) (b.addr + b.distance)) lo hi
      (xs ++ a.grown b :: b.moved :: ys) := by
  have hstop := h.stop_eq_addr
  have hbound := h.bound (b := b) (by simp)
  have hpos := b.distance_pos
  have hty : Tiles b.stop hi ys := (List.append_cons xs a (b :: ys) ▸ h).tiles_split.2
  rw [Block.stop_eq] at hty
  obtain ⟨hb, ha⟩ := header_resized h
  have hrelink : ∀ x, x < b.addr + 16 + b.size →
      relinkHead (realigned m a b) (headKey Block.addr 0 ys) (b.addr + b.distance) x = realigned m a b x :=
    fun x hx => relinkHead_out fun hx' => by have := hx'.span hty; omega
  have hgrown : header (relinkHead (realigned m a b) (headKey Block.addr 0 ys) (b.addr + b.distance)) a.addr =
      ⟨tag a.used, a.size + b.distance, b.addr + b.distance, lastKey Block.addr 0 xs⟩ := by
    rw [header_congr fun x h1 h2 => hrelink x (by omega),
      header_congr fun x h1 h2 => realigned_out h (by omega), ha]
  have hmoved : header (relinkHead (realigned m a b) (headKey Block.addr 0 ys) (b.addr + b.distance))
      (b.addr + b.distance) = ⟨tag b.used, b.size - b.distance, headKey Block.addr 0 ys, a.addr⟩ := by
    rw [header_congr fun x h1 h2 => hrelink x (by omega), hintact, hb, sub32_of_le hroom (by omega)]
  have hnext : b.addr + b.distance = (a.grown b).stop := by
    rw [Block.stop_eq]
    show _ = a.addr + 16 + (a.size + b.distance)
    omega
  have hspan : b.moved.stop = b.stop := by
    rw [Block.stop_eq, Block.stop_eq]
    show b.addr + b.distance + 16 + (b.size - b.distance) = _
    omega
  have h' : Layout m lo hi (xs ++ ([a, b] ++ ys)) := h
  show Layout _ lo hi (xs ++ ([a.grown b, b.moved] ++ ys))
  refine h'.replace ⟨rfl, (hstop.symm : b.addr = a.stop), rfl⟩ (by simp) ⟨rfl, hnext, hspan⟩ (by simp)
    ⟨hgrown, hmoved, trivial⟩ ?_
  -- outside of the two blocks the move writes nothing
  intro x hx
  apply relinkHead_congr
  rw [Block.stop_eq] at hx
  rw [realigned_out h (by omega), resized_out (by omega) (by omega)]

/-- Splitting writes the back link of the following block, so it does not matter what that was. -/
theorem createNewBlockHeader_relinkHead {key v e : Nat} (hnext : (header m e).next = key)
    (hnext' : (header (relinkHead m key v) e).next = key) :
    createNewBlockHeader (relinkHead m key v) e n = createNewBlockHeader m e n := by
  have hfirst : ∀ w, (if key ≠ 0 then setPrevious (relinkHead m key v) key w else relinkHead m key v) =
      if key ≠ 0 then setPrevious m key w else m := by
    intro w
    unfold relinkHead
    split
    · rw [setPrevious_setPrevious]
    · rfl
  unfold createNewBlockHeader
  simp only [hnext, hnext', hfirst]

/-- The relinking does not touch the moved header. -/
theorem header_relinked (h : Layout m lo hi (xs ++ a :: b :: ys)) (hroom : b.distance ≤ b.size) {m' : Mem} :
    header (relinkHead m' (headKey Block.addr 0 ys) (b.addr + b.distance)) (b.addr + b.distance) =
      header m' (b.addr + b.distance) := by
  have hty : Tiles b.stop hi ys := (List.append_cons xs a (b :: ys) ▸ h).tiles_split.2
  rw [Block.stop_eq] at hty
  exact header_congr fun x h1 h2 => relinkHead_out fun hx => by have := hx.span hty; omega

/-- What an intact header at the new place reads. -/
theorem header_moved (h : Layout m lo hi (xs ++ a :: b :: ys)) (hroom : b.distance ≤ b.size)
    (hintact : header (realigned m a b) (b.addr + b.distance) = header (resized m a b) b.addr) :
    header (realigned m a b) b.moved.addr =
      ⟨tag b.used, b.size - b.distance, headKey Block.addr 0 ys, a.addr⟩ := by
  have hbound := h.bound (b := b) (by simp)
  show header _ (b.addr + b.distance) = _
  rw [hintact, (header_resized h).1, sub32_of_le hroom (by omega)]

/-- The header to be moved is that of the block, with the new size. -/
theorem resized_header (h : Layout m lo hi (xs ++ a :: b :: ys)) (hroom : b.distance ≤ b.size) :
    header (resized m a b) b.addr = { header m b.addr with size := b.size - b.distance } := by
  have hbound := h.bound (b := b) (by simp)
  have hhdr : header m b.addr = ⟨tag b.used, b.size, headKey Block.addr 0 ys, a.addr⟩ := h.parts.2.2.1
  rw [(header_resized h).1, hhdr, sub32_of_le hroom (by omega)]

/-- **The header arrives intact** exactly when it repeats, with its new size, with the distance as period. -/
theorem intact_iff (h : Layout m lo hi (xs ++ a :: b :: ys)) (hroom : b.distance ≤ b.size) :
    header (realigned m a b) (b.addr + b.distance) = header (resized m a b) b.addr ↔
      BlockHeader.Repeats { header m b.addr with size := b.size - b.distance } b.distance := by
  rw [header_realigned_iff h, resized_header h hroom]

/-- A block that is not split is only marked. -/
theorem allocated_eq_of_whole {e : Block} (hsize : (header m e.addr).size = e.size) (hn : n ≤ e.size)
    (hfits : e.size < 4294967296) (hwhole : ¬ e.size - n > headerSize + minBlockSize) :
    allocated m e n = setMagic m e.addr (tag true) := by
  rw [allocated, hsize, sub32_of_le hn hfits, if_neg hwhole]

theorem allocated_whole (h : Layout m lo hi (xs ++ a :: b :: ys)) (hroom : b.distance + n ≤ b.size)
    (hintact : header (realigned m a b) (b.addr + b.distance) = header (resized m a b) b.addr)
    (hwhole : ¬ b.size - b.distance - n > headerSize + minBlockSize) :
    allocated (realigned m a b) b.moved n = setMagic (realigned m a b) (b.addr + b.distance) (tag true) := by
  have hbound := h.bound (b := b) (by simp)
  have hsize : b.moved.size = b.size - b.distance := rfl
  apply allocated_eq_of_whole _ (by omega) (by omega) hwhole
  rw [header_moved h (by omega) hintact]
  rfl

/-- The header behind the moved block is written neither by the move nor when the block is marked. -/
theorem header_behind {y : Block} (h : Layout m lo hi (xs ++ a :: b :: y :: ys)) (hroom : b.distance ≤ b.size)
    (v : Nat) : header (setMagic (realigned m a b) (b.addr + b.distance) v) y.addr = header m y.addr := by
  have hstop := h.stop_eq_addr
  have hystop := (List.append_cons xs a (b :: y :: ys) ▸ h).stop_eq_addr
  apply header_congr
  intro x h1 h2
  rw [setMagic_out (by omega), realigned_out h (by omega), resized_out (by omega) (by omega)]

/-- The allocation, with the back link repaired. -/
theorem allocated_relinked (h : Layout m lo hi (xs ++ a :: b :: ys)) (hroom : b.distance + n ≤ b.size)
    (hintact : header (realigned m a b) (b.addr + b.distance) = header (resized m a b) b.addr) :
    Layout (allocated (relinkHead (realigned m a b) (headKey Block.addr 0 ys) (b.addr + b.distance))
      b.moved n) lo hi (xs ++ a.grown b :: (place b.moved n ++ ys)) := by
  have hlay := layout_realigned h (by omega) hintact
  rw [List.append_cons] at hlay ⊢
  exact (allocated_spec hlay (show n ≤ b.size - b.distance from by omega)).1

/-- Where there is a link to repair, the split repairs it. -/
theorem allocated_relinked_eq (h : Layout m lo hi (xs ++ a :: b :: ys)) (hroom : b.distance + n ≤ b.size)
    (hintact : header (realigned m a b) (b.addr + b.distance) = header (resized m a b) b.addr)
    (hlink : b.size - b.distance - n > headerSize + minBlockSize ∨ ys = []) :
    allocated (relinkHead (realigned m a b) (headKey Block.addr 0 ys) (b.addr + b.distance)) b.moved n =
      allocated (realigned m a b) b.moved n := by
  have hbound := h.bound (b := b) (by simp)
  rcases hlink with hsplit | rfl
  · -- both memories are split, and the split writes the link in which they differ
    have hmoved := header_moved h (by omega) hintact
    have hmoved' : header (relinkHead (realigned m a b) (headKey Block.addr 0 ys) (b.addr + b.distance))
        b.moved.addr = ⟨tag b.used, b.size - b.distance, headKey Block.addr 0 ys, a.addr⟩ :=
      (header_relinked h (by omega)).trans hmoved
    have hlarge : sub32 (b.size - b.distance) n > headerSize + minBlockSize := by
      rw [sub32_of_le (by omega) (by omega)]
      exact hsplit
    unfold allocated
    rw [hmoved', hmoved, if_pos hlarge, if_pos hlarge,
      createNewBlockHeader_relinkHead (by rw [hmoved]) (by rw [hmoved'])]
  · rfl

/-- **A split repairs the back link**, and behind the last block there is none to repair. -/
theorem allocated_realigned (h : Layout m lo hi (xs ++ a :: b :: ys)) (hroom : b.distance + n ≤ b.size)
    (hintact : header (realigned m a b) (b.addr + b.distance) = header (resized m a b) b.addr)
    (hlink : b.size - b.distance - n > headerSize + minBlockSize ∨ ys = []) :
    Layout (allocated (realigned m a b) b.moved n) lo hi (xs ++ a.grown b :: (place b.moved n ++ ys)) := by
  rw [← allocated_relinked_eq h hroom hintact hlink]
  exact allocated_relinked h hroom hintact

/-- Memories that differ in one back link at most have the same blocks. -/
theorem Layout.blocks_eq_of_agree {m' : Mem} {bs' : List Block} {y : Block} (h : Layout m lo hi bs)
    (h' : Layout m' lo hi bs') (hy : y ∈ bs)
    (hagree : ∀ x, (x < y.addr + 12 ∨ y.addr + 16 ≤ x) → m x = m' x) : bs = bs' := by
  refine h.tiles.unique h'.tiles ?_ fun c hc => h'.mem_header hc
  intro c hc
  have hmem := h.mem_header hc
  have hapart : c = y ∨ c.addr + 16 + c.size ≤ y.addr ∨ y.addr + 16 + y.size ≤ c.addr :=
    h.tiles.apart hc hy
  -- the tag and the size of a header are in front of its links
  have hbytes : ∀ x, c.addr ≤ x → x < c.addr + 8 → (x < y.addr + 12 ∨ y.addr + 16 ≤ x) := by
    intro x h1 h2
    rcases hapart with rfl | hapart
    · omega
    · omega
  rw [← hmem.1, ← hmem.2]
  exact ⟨(load32_congr fun x h1 h2 => hagree x (hbytes x h1 (by omega))).symm,
    (load32_congr fun x h1 h2 => hagree x (hbytes x (by omega) (by omega))).symm⟩

/-- **Without a split the back link stays behind**: no block list fits the memory. -/
theorem allocated_realigned_stale {y : Block} {bs' : List Block}
    (h : Layout m lo hi (xs ++ a :: b :: y :: ys)) (hroom : b.distance + n ≤ b.size)
    (hintact : header (realigned m a b) (b.addr + b.distance) = header (resized m a b) b.addr)
    (hwhole : ¬ b.size - b.distance - n > headerSize + minBlockSize) :
    ¬ Layout (allocated (realigned m a b) b.moved n) lo hi bs' := by
  intro hbs'
  have hbound := h.bound (b := b) (by simp)
  have hpos := b.distance_pos
  have hyaddr : b.addr + 16 + b.size = y.addr :=
    (List.append_cons xs a (b :: y :: ys) ▸ h).stop_eq_addr
  have hplaced := allocated_relinked h hroom hintact
  -- what is there, and what there would be with the link repaired: they differ in that link only
  have hmoved := header_moved h (by omega) hintact
  have hy0 : y.addr ≠ 0 := by omega
  have hhere := allocated_whole h hroom hintact hwhole
  have hthere : allocated (relinkHead (realigned m a b) (headKey Block.addr 0 (y :: ys))
      (b.addr + b.distance)) b.moved n =
      setMagic (setPrevious (realigned m a b) y.addr (b.addr + b.distance)) (b.addr + b.distance)
        (tag true) := by
    have hsize : b.moved.size = b.size - b.distance := rfl
    rw [allocated_eq_of_whole _ (by omega) (by omega) hwhole, relinkHead, headKey_cons, if_pos hy0]
    · rfl
    · rw [show b.moved.addr = b.addr + b.distance from rfl, header_relinked h (by omega)]
      exact congrArg BlockHeader.size hmoved
  rw [hthere] at hplaced
  rw [hhere] at hbs'
  have hagree : ∀ x, (x < y.addr + 12 ∨ y.addr + 16 ≤ x) →
      setMagic (setPrevious (realigned m a b) y.addr (b.addr + b.distance)) (b.addr + b.distance)
        (tag true) x = setMagic (realigned m a b) (b.addr + b.distance) (tag true) x := by
    intro x hx
    have hlink : setPrevious (realigned m a b) y.addr (b.addr + b.distance) x = realigned m a b x :=
      store32_out (by omega)
    simp only [setMagic, store32, hlink]
  -- so the blocks are the expected ones
  have hsame : xs ++ a.grown b :: (place b.moved n ++ y :: ys) = bs' :=
    hplaced.blocks_eq_of_agree hbs' (y := y) (by simp) hagree
  subst hsame
  -- and the back link is that of the old header
  have hlast : place b.moved n = [{ b.moved with used := true }] := if_neg hwhole
  rw [hlast] at hbs'
  obtain ⟨-, -, hrest⟩ := hbs'.parts
  have hprev := congrArg BlockHeader.previous hrest.2.1
  have hold := congrArg BlockHeader.previous h.parts.2.2.2.1
  rw [header_behind h (by omega), hold] at hprev
  have heq : b.addr = b.addr + b.distance := hprev
  omega

/-! ## The heap after the call -/

/-- **A well-formed heap after `kmalloc_a(n)`** that has chosen `b`: the header has arrived at its new
    place as it was, but for its size; the heap is laid out as coalesced blocks; and `free` of any of them
    gives the coalesced list without it. -/
structure AlignedWellFormed (k : KernelHeap) (lo hi : Nat) (b : Block) (n : Nat) : Prop where
  moved : ∃ heap m', k.kheap = some heap ∧
    getSuitableBlock k.mem n true heap = .ok (b.addr + b.distance, m') ∧
    header m' (b.addr + b.distance) = { header k.mem b.addr with size := b.size - b.distance }
  after : ∃ p k' bs', kmallocA k n = .ok (p, k') ∧ WellFormedHeap k' lo hi bs' ∧
    ∀ c ∈ bs', ∃ m', free k'.mem c.payload = .ok m' ∧
      WellFormedHeap { k' with mem := m' } lo hi (coalesce (release c.payload bs'))

/-- Growing the block before and placing the request keeps the list coalesced. -/
theorem coalesced_aligned (hco : Coalesced (xs ++ a :: b :: ys)) (ha : a.used = true)
    (hb : b.used = false) : Coalesced (xs ++ a.grown b :: (place b.moved n ++ ys)) := by
  obtain ⟨hcx, hcab, hseam⟩ := coalesced_append.mp hco
  rw [List.append_cons]
  refine coalesced_place (coalesced_append.mpr ⟨hcx, trivial, ?_⟩) hb hcab.2
  intro c hc d hd
  obtain rfl : a.grown b = d := by simpa using hd
  simp [Block.grown, ha]

/-- The first block stays in use when the block before is grown. -/
theorem first_used_grown (hfirst : ∀ f ∈ (xs ++ a :: ys).head?, f.used = true) (ha : a.used = true)
    (zs : List Block) : ∀ f ∈ (xs ++ a.grown b :: zs).head?, f.used = true := by
  intro f hf
  cases xs with
  | nil =>
      obtain rfl : a.grown b = f := by simpa using hf
      exact ha
  | cons x xs => exact hfirst f hf

/-- A block that links on to nothing is the last one. -/
theorem Layout.last_of_next (h : Layout m lo hi (xs ++ b :: ys)) (hnext : (header m b.addr).next = 0) :
    ys = [] := by
  rw [h.parts.2.1] at hnext
  cases ys with
  | nil => rfl
  | cons y ys =>
      have hstop := h.stop_eq_addr
      have hy0 : y.addr = 0 := hnext
      omega

/-- **When the heap after `kmalloc_a` is well formed.** For a chosen block with room up to the next page
    and beyond, it is exactly when the block before it is not at the null address, its header repeats with
    the distance as period (which sixteen bytes of distance make sure of), and it is split or has no block
    behind it. -/
theorem kmallocA_wellFormed_iff (h : WellFormedHeap k lo hi bs) (hfirst : ∀ f ∈ bs.head?, f.used = true)
    {n : UInt32} (hsel : suitable lo (requiredSize lo n.toNat) bs = some b)
    (hroom : b.distance + n.toNat ≤ b.size) :
    AlignedWellFormed k lo hi b n.toNat ↔
      (header k.mem b.addr).previous ≠ 0 ∧
      BlockHeader.Repeats { header k.mem b.addr with size := b.size - b.distance } b.distance ∧
      (b.size - b.distance - n.toNat > headerSize + minBlockSize ∨ (header k.mem b.addr).next = 0) := by
  obtain ⟨heap, hk, hheap⟩ := h.kheap
  obtain ⟨hmem, hfree⟩ := suitable_mem hsel
  obtain ⟨xs, a, ys, rfl, hused⟩ := exists_before hfirst h.coalesced hmem hfree
  have hlay := h.layout
  have hlay' : Layout k.mem lo hi ((xs ++ [a]) ++ b :: ys) := List.append_cons xs a (b :: ys) ▸ hlay
  have hhdr : header k.mem b.addr = ⟨tag b.used, b.size, headKey Block.addr 0 ys, a.addr⟩ :=
    hlay.parts.2.2.1
  have hintact := intact_iff hlay (show b.distance ≤ b.size by omega)
  have hresized := resized_header hlay (show b.distance ≤ b.size by omega)
  have haccept : n.toNat ≤ b.size + b.offset := by omega
  have hget := getSuitableBlock_aligned_eq hlay hheap n.toNat
  have hrun := kmallocA_eq hk hheap hlay hsel
  simp only [hsel, haccept, if_true, makeAlignedBlock_eq hlay] at hget hrun
  rw [← hintact, show (header k.mem b.addr).previous = a.addr by rw [hhdr]]
  constructor
  · rintro ⟨⟨heap', m', hk', hget', hmoved⟩, p, k', bs', hrun', hwf, -⟩
    obtain rfl : heap = heap' := Option.some.inj (hk.symm.trans hk')
    have ha0 : a.addr ≠ 0 := by
      intro h0
      rw [hrun, if_pos h0] at hrun'
      cases hrun'
    rw [hget, if_neg ha0] at hget'
    cases hget'
    rw [← hresized] at hmoved
    refine ⟨ha0, hmoved, ?_⟩
    -- a whole block in front of another one leaves that one's link behind
    by_contra hstale
    rw [not_or] at hstale
    obtain ⟨hwhole, hnext⟩ := hstale
    cases ys with
    | nil => exact hnext (by rw [hhdr]; rfl)
    | cons y ys =>
        rw [hrun, if_neg ha0] at hrun'
        cases hrun'
        exact allocated_realigned_stale hlay hroom hmoved hwhole hwf.layout
  · rintro ⟨ha0, hmoved, hlink⟩
    rw [if_neg ha0] at hget hrun
    have hwf : WellFormedHeap { k with mem := allocated (realigned k.mem a b) b.moved n.toNat } lo hi
        (xs ++ a.grown b :: (place b.moved n.toNat ++ ys)) :=
      ⟨⟨heap, hk, hheap⟩, allocated_realigned hlay hroom hmoved (hlink.imp_right hlay'.last_of_next),
        coalesced_aligned h.coalesced hused hfree⟩
    -- the first block is still in use, so block zero, if there is one, stops every merge
    have hhead := hwf.layout.tiles.used_of_addr_eq_zero (first_used_grown hfirst hused _)
    exact ⟨⟨heap, _, hk, hget, hmoved.trans hresized⟩, _, _, _, hrun, hwf, fun c hc => hwf.free hhead hc⟩

/-- A hundred bytes on page one, from a free block that starts below it and is large enough to be split. -/
theorem kmallocA_wellFormed_split :
    ∃ k, WellFormedHeap k 64 5064 [⟨64, 16, true⟩, ⟨96, 4952, false⟩] ∧
      AlignedWellFormed k 64 5064 ⟨96, 4952, false⟩ (100 : UInt32).toNat := by
  obtain ⟨k, hwf, hhdr⟩ := exists_large_free
  refine ⟨k, hwf, (kmallocA_wellFormed_iff hwf (by simp) (by decide) (by decide)).mpr ?_⟩
  rw [hhdr]
  exact ⟨by decide, BlockHeader.repeats_of_le (by decide), Or.inl (by decide)⟩

/-- **A block that is not split leaves a back link behind.** Ten bytes on page one, from a free block that
    ends sixteen bytes behind the page with a used block after it: that block still links back to the old
    header. -/
theorem kmallocA_stale_link :
    ∃ k bs b, WellFormedHeap k 64 4144 bs ∧ (∀ f ∈ bs.head?, f.used = true) ∧
      suitable 64 (requiredSize 64 (10 : UInt32).toNat) bs = some b ∧
      b.distance + (10 : UInt32).toNat ≤ b.size ∧ ¬ AlignedWellFormed k 64 4144 b (10 : UInt32).toNat := by
  have hrun : ((HeapState.init ⟨fun _ => 0, none, 0⟩ 4080 64).run
      [.kmalloc 16, .kmalloc 4000, .kmalloc 16, .free 112]).toOption.map
        (fun s => (s.heap.kheap, s.heap.blocks)) =
      some (some ⟨64, 4080⟩,
        some (entries 0 [⟨64, 16, true⟩, ⟨96, 4000, false⟩, ⟨4112, 16, true⟩])) := by
    decide +kernel
  have hcall : ((HeapState.init ⟨fun _ => 0, none, 0⟩ 4080 64).run
      [.kmalloc 16, .kmalloc 4000, .kmalloc 16, .free 112]).toOption.bind
        (fun s => (kmallocA s.heap 10).toOption.bind fun r => r.2.blocks) =
      some [(64, ⟨tag true, 4000, 4080, 0⟩), (4080, ⟨tag true, 16, 4112, 64⟩),
        (4112, ⟨tag true, 16, 0, 96⟩)] := by
    decide +kernel
  obtain ⟨s, hrun', hs⟩ := Option.map_eq_some_iff.mp hrun
  rw [hrun', Option.bind_some] at hcall
  simp only [Prod.mk.injEq] at hs
  obtain ⟨hk, hblocks⟩ := hs
  have hwf : WellFormedHeap s.heap 64 4144 [⟨64, 16, true⟩, ⟨96, 4000, false⟩, ⟨4112, 16, true⟩] :=
    wellFormedHeap_of_blocks hk rfl (by decide) ⟨rfl, rfl, rfl, rfl⟩ (by simp)
      ⟨by decide, by decide, trivial⟩ hblocks
  refine ⟨s.heap, _, ⟨96, 4000, false⟩, hwf, by simp, by decide, by decide, ?_⟩
  rintro ⟨-, p, k', bs', hok, hwf, -⟩
  rw [show (10 : UInt32).toNat = 10 from rfl] at hok
  rw [hok] at hcall
  have hlist : k'.blocks = some _ := hcall
  have hchain := (entries_wellFormed hwf.layout hwf.coalesced).chain
  rw [← Option.some.inj (hlist.symm.trans hwf.blocks_eq)] at hchain
  have hlink := (List.isChain_cons_cons.mp (List.isChain_cons_cons.mp hchain).2).1.previous
  exact absurd hlink (by decide)

end WeirdOs
