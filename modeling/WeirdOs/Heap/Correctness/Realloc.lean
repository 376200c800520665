import WeirdOs.Heap.Correctness.Free

/-!
# `Heap.Correctness.Realloc` — `krealloc` on the block list

`krealloc` returns in one of three ways, the constructors of `Reallocated`: the block is large enough
and is *kept*; it has *grown* into the free block after it, which may be split again; or its bytes have
*moved* to a new block and the old one was freed. Each constructor carries the new block list and what
happened to the bytes.

The move is the delicate one: between the copy and the `free` the heap has both blocks, and `free` then
rewrites headers around the old one. Neither the allocation nor the frees touch a payload byte, so the
copy arrives intact.
-/

namespace WeirdOs

open Lib Lib.Piece

variable {k k' : KernelHeap} {heap : Heap} {lo hi n p q : Nat} {bs : List Block} {b : Block}

/-! ## `kmalloc` once there is a heap -/

/-- **`kmalloc`** on an initialised heap is an unaligned `alloc_internal`. -/
theorem kmalloc_eq_ok (hk : k.kheap = some heap) :
    kmalloc k n = .ok (p, k') ↔
      ∃ m', allocInternal k.mem n false heap = .ok (p, m') ∧ k' = { k with mem := m' } := by
  rw [kmalloc_of_kheap hk]
  cases allocInternal k.mem n false heap with
  | error e => simp
  | ok r =>
      simp only [ok_bind, pure_eq_ok, Except.ok.injEq, Prod.mk.injEq]
      constructor
      · rintro ⟨rfl, rfl⟩
        exact ⟨r.2, rfl, rfl⟩
      · rintro ⟨m', h, rfl⟩
        cases h
        exact ⟨rfl, rfl⟩

/-- `kmalloc` on the block list. -/
theorem kmalloc_spec (hk : k.kheap = some heap) (hheap : heap.firstBlock = lo)
    (h : Layout k.mem lo hi bs) (hrun : kmalloc k n = .ok (p, k')) :
    ∃ xs b ys, bs = xs ++ b :: ys ∧ b.used = false ∧ n ≤ b.size ∧ p = b.payload ∧
      k'.kheap = some heap ∧ Layout k'.mem lo hi (xs ++ (place b n ++ ys)) ∧
      ∀ x, ¬ InHeaders bs x → ¬ InHeaders (place b n) x → k'.mem x = k.mem x := by
  obtain ⟨m', ha, rfl⟩ := (kmalloc_eq_ok hk).mp hrun
  obtain ⟨xs, b, ys, hbs, hfree, hn, hp, hlay, hframe⟩ := allocInternal_spec h hheap ha
  exact ⟨xs, b, ys, hbs, hfree, hn, hp, hk, hlay, hframe⟩

/-! ## What `place` leaves behind -/

/-- Placing a request keeps the list coalesced: it puts a used block where a free one was, and the rest,
    if any, is where the free block ended. -/
theorem coalesced_place {xs ys : List Block} {c d : Block} (hxs : Coalesced xs) (hc : c.used = false)
    (hys : Coalesced (c :: ys)) : Coalesced (xs ++ (place d n ++ ys)) := by
  refine coalesced_append.mpr ⟨hxs, ?_, ?_⟩
  · unfold place
    split
    · apply Coalesced.cons_used rfl
      cases ys with
      | nil => trivial
      | cons y ys => exact ⟨fun hfree => hys.1 ⟨by simp [hc], hfree.2⟩, hys.2⟩
    · exact Coalesced.cons_used rfl hys.tail
  · intro a _ e he
    obtain ⟨rest, hplace, _⟩ := place_eq d n
    rw [hplace] at he
    obtain rfl : _ = e := by simpa using he
    simp

/-! ## The three outcomes -/

/-- **What `krealloc(b.payload, n)` has done** to the block list `bs` and the memory `m` when it
    returns. The last three indices are the pointer returned, the new memory and the new list. -/
inductive Reallocated (m : Mem) (bs : List Block) (b : Block) (n : Nat) :
    Nat → Mem → List Block → Prop where
  /-- The block was large enough. -/
  | kept (large : n ≤ b.size) : Reallocated m bs b n b.payload m bs
  /-- The block has taken in the free block `c` after it. -/
  | grown {m' : Mem} (xs : List Block) (c : Block) (ys : List Block) (split : bs = xs ++ b :: c :: ys)
      (free : c.used = false) (large : n ≤ (b.join c).size)
      (frame : ∀ x, ¬ InHeaders bs x → ¬ InHeaders (place (b.join c) n) x → m' x = m x) :
      Reallocated m bs b n b.payload m' (xs ++ (place (b.join c) n ++ ys))
  /-- The bytes were copied into the free block `c`, and the old block was freed. -/
  | moved {m' : Mem} (xs : List Block) (c : Block) (ys : List Block) {bs' : List Block}
      (split : bs = xs ++ c :: ys) (free : c.used = false) (small : b.size < n) (large : n ≤ c.size)
      (merges : Merges (release b.payload (xs ++ (place c n ++ ys))) bs')
      (frame : ∀ x, ¬ InHeaders bs x → ¬ InHeaders (place c n) x →
        (x < c.payload ∨ c.payload + b.size ≤ x) → m' x = m x)
      (copied : ∀ i < b.size, m' (c.payload + i) = m (b.payload + i)) :
      Reallocated m bs b n c.payload m' bs'

/-- **Splitting a used block** after `n` bytes, when the rest is large enough. -/
theorem split_spec {m : Mem} {xs ys : List Block} (h : Layout m lo hi (xs ++ b :: ys))
    (hused : b.used = true) (hn : n ≤ b.size) :
    ∃ m', (if sub32 b.size n > minBlockSize + headerSize then createNewBlockHeader m b.addr n else m) = m' ∧
      Layout m' lo hi (xs ++ (place b n ++ ys)) ∧
      ∀ x, ¬ InHeaders (xs ++ b :: ys) x → ¬ InHeaders (place b n) x → m' x = m x := by
  have hbound := h.bound (b := b) (by simp)
  refine ⟨_, rfl, ?_⟩
  rw [sub32_of_le hn (by omega), Nat.add_comm minBlockSize headerSize, place]
  by_cases hs : b.size - n > headerSize + minBlockSize
  · rw [if_pos hs, if_pos hs]
    unfold headerSize minBlockSize at hs
    obtain ⟨hlay, hframe⟩ := createNewBlockHeader_spec h (n := n) (by omega)
    refine ⟨hlay, fun x hx hx' => hframe x hx ?_⟩
    simp only [inHeaders_cons] at hx'
    omega
  · rw [if_neg hs, if_neg hs, ← hused]
    exact ⟨h, fun _ _ _ => rfl⟩

/-- A payload byte is in no header. -/
theorem Layout.not_inHeaders {m : Mem} (h : Layout m lo hi bs) (hb : b ∈ bs) {x : Nat}
    (h1 : b.payload ≤ x) (h2 : x < b.stop) : ¬ InHeaders bs x := by
  rintro ⟨c, hc, hx1, hx2⟩
  rw [Block.stop_eq] at h2
  rw [Block.payload_eq] at h1
  by_cases heq : b = c
  · subst heq
    omega
  · have := h.apart hb hc heq
    omega

/-- A payload byte of a used block is in no header of what replaces a free block. -/
theorem Layout.not_inHeaders_place {m : Mem} {c : Block} (h : Layout m lo hi bs) (hb : b ∈ bs)
    (hc : c ∈ bs) (hne : b ≠ c) {x : Nat} (hn : n ≤ c.size) (h1 : b.payload ≤ x) (h2 : x < b.stop) :
    ¬ InHeaders (place c n) x := by
  intro hx
  have hplaced := inHeaders_place hn hx
  have hapart := h.apart hb hc hne
  rw [Block.stop_eq] at h2 hplaced
  rw [Block.payload_eq] at h1
  omega

/-- A block that is not replaced stays in the list. -/
theorem mem_of_place {xs ys : List Block} {c : Block} (hb : b ∈ xs ++ c :: ys) (hne : b ≠ c) :
    b ∈ xs ++ (place c n ++ ys) := by
  rw [List.mem_append, List.mem_cons] at hb
  rw [List.mem_append, List.mem_append]
  exact hb.imp_right fun h => Or.inr (h.resolve_left hne)

/-- Bytes copied into a payload leave the blocks as they are. -/
theorem Layout.copied {m : Mem} {d : Block} {len : Nat} (h : Layout m lo hi bs) (hd : d ∈ bs) (src : Nat)
    (hlen : len ≤ d.size) : Layout (memcpy m d.payload src len) lo hi bs := by
  have hbound := h.bound hd
  have hstop := d.stop_eq
  have hpayload := d.payload_eq
  apply h.congr
  intro x hx
  refine memcpy_out (by omega) (Decidable.byContradiction ?_)
  intro hin
  exact h.not_inHeaders hd (by omega) (by omega) hx

/-- The moving path: allocate, copy, free. -/
theorem krealloc_move (hk : k.kheap = some heap) (hheap : heap.firstBlock = lo)
    (h : Layout k.mem lo hi bs) (hb : b ∈ bs) (hused : b.used = true) (hsmall : b.size < n)
    {k₁ : KernelHeap} (hrun : kmalloc k n = .ok (q, k₁)) :
    ∃ m' bs', free (memcpy k₁.mem q b.payload (header k₁.mem b.addr).size) b.payload = .ok m' ∧
      k₁.kheap = some heap ∧ Layout m' lo hi bs' ∧ Reallocated k.mem bs b n q m' bs' ∧
      (0 < lo → Coalesced bs → Coalesced bs') := by
  obtain ⟨xs, c, ys, rfl, hfree, hn, rfl, hk₁, hlay₁, hframe₁⟩ := kmalloc_spec hk hheap h hrun
  have hne : b ≠ c := Block.ne_of_used hused hfree
  obtain ⟨rest, hplace, _⟩ := place_eq c n
  have hb₁ := mem_of_place (n := n) hb hne
  -- the new block, and where the two blocks lie
  let d : Block := ⟨c.addr, placedSize c n, true⟩
  have hd : d ∈ xs ++ (place c n ++ ys) := by rw [hplace]; simp [d]
  have hdn : n ≤ d.size := le_placedSize hn
  have hdstop := Block.stop_eq d
  have hbstop := Block.stop_eq b
  have hbb := hlay₁.bound hb₁
  have hdb := hlay₁.bound hd
  have hdaddr : d.addr = c.addr := rfl
  -- `d` may be smaller than `c`, but starts where `c` does
  have hbd : b.addr + 16 + b.size ≤ d.addr ∨ d.addr + 16 + d.size ≤ b.addr := by
    apply hlay₁.apart hb₁ hd
    intro heq
    have haddr : b.addr = d.addr := by rw [heq]
    have hbc := h.apart hb (c := c) (by simp) hne
    omega
  rw [(hlay₁.mem_header hb₁).2]
  -- the copy stays inside the payload of the new block
  have hcopy : ∀ x, (x < c.payload ∨ c.payload + b.size ≤ x) →
      memcpy k₁.mem c.payload b.payload b.size x = k₁.mem x :=
    fun x hx => memcpy_out (by rw [Block.payload_eq]; omega) hx
  have hlay₂ : Layout (memcpy k₁.mem c.payload b.payload b.size) lo hi (xs ++ (place c n ++ ys)) :=
    hlay₁.copied hd b.payload (by omega)
  obtain ⟨m', bs', hfreed, hlay', hmerges, hframe', hco'⟩ := free_spec hlay₂ hb₁ hused
  refine ⟨m', bs', hfreed, hk₁, hlay', .moved xs c ys rfl hfree hsmall hn hmerges ?_ ?_, ?_⟩
  · intro x hx hx' hout
    have hx₁ : ¬ InHeaders (xs ++ (place c n ++ ys)) x := fun h' => h'.of_replace.elim hx hx'
    rw [hframe' x hx₁, hcopy x hout, hframe₁ x hx hx']
  · -- a byte is copied from a payload that the allocation has left alone, into one that `free` does
    intro i hi
    have hsrc1 : b.payload ≤ b.payload + i := by omega
    have hsrc2 : b.payload + i < b.stop := by rw [Block.payload_eq]; omega
    rw [hframe' _ (hlay₁.not_inHeaders hd (by rw [Block.payload_eq, Block.payload_eq]; omega)
        (by rw [Block.payload_eq]; omega)),
      memcpy_in (by rw [Block.payload_eq]; omega) (by rw [Block.payload_eq]; omega)
        (by rw [Block.payload_eq, Block.payload_eq]; omega) hi,
      hframe₁ _ (h.not_inHeaders hb hsrc1 hsrc2)
        (h.not_inHeaders_place hb (by simp) hne hn hsrc1 hsrc2)]
  · intro hlo hco
    obtain ⟨hcx, hcy, _⟩ := coalesced_append.mp hco
    exact hco' hlo (coalesced_place hcx hfree hcy)

/-- What the source compares with the request is the size of the join. -/
theorem Layout.join_size_eq {m : Mem} {xs ys : List Block} {c : Block}
    (h : Layout m lo hi (xs ++ b :: c :: ys)) :
    add32 (add32 c.size b.size) headerSize = (b.join c).size := by
  have hcb := h.bound (b := c) (by simp)
  have haddr := h.tiles_split.2.1
  rw [Block.stop_eq] at haddr
  unfold headerSize
  rw [Block.join_size, add32_of_lt (a := c.size) (by omega), add32_of_lt (by omega)]
  omega

/-- The growing path: merge with the free block behind, and split. -/
theorem krealloc_grow {m : Mem} {xs ys : List Block} {c : Block} (h : Layout m lo hi (xs ++ b :: c :: ys))
    (hused : b.used = true) (hn : n ≤ (b.join c).size) :
    ∃ m₁ m', mergeBlocks m b.addr c.addr = .ok m₁ ∧
      (if sub32 (b.join c).size n > minBlockSize + headerSize then createNewBlockHeader m₁ b.addr n
        else m₁) = m' ∧ Layout m' lo hi (xs ++ (place (b.join c) n ++ ys)) ∧
      ∀ x, ¬ InHeaders (xs ++ b :: c :: ys) x → ¬ InHeaders (place (b.join c) n) x → m' x = m x := by
  obtain ⟨m₁, hmerged, hlay₁, hframe₁⟩ := mergeBlocks_spec h
  obtain ⟨m', hsplit, hlay, hframe⟩ := split_spec hlay₁ hused hn
  refine ⟨m₁, m', hmerged, hsplit, hlay, ?_⟩
  intro x hx hx'
  exact (hframe x (fun h' => hx h'.of_join) hx').trans (hframe₁ x hx)

/-- **`krealloc`** of a used block that returns has kept, grown or moved it. -/
theorem krealloc_spec (hk : k.kheap = some heap) (hheap : heap.firstBlock = lo)
    (h : Layout k.mem lo hi bs) (hb : b ∈ bs) (hused : b.used = true)
    (hrun : krealloc k b.payload n = .ok (q, k')) :
    ∃ bs', k'.kheap = some heap ∧ Layout k'.mem lo hi bs' ∧ Reallocated k.mem bs b n q k'.mem bs' ∧
      (0 < lo → Coalesced bs → Coalesced bs') := by
  have hhdr := h.sub32_payload hb
  obtain ⟨xs, ys, rfl⟩ := List.append_of_mem hb
  obtain ⟨-, hcell, -⟩ := h.parts
  simp only [krealloc, hhdr, hcell, isValid_tag, assert_true, ok_bind] at hrun
  by_cases hlarge : b.size ≥ n
  · rw [if_pos hlarge] at hrun
    cases hrun
    exact ⟨_, hk, h, .kept hlarge, fun _ hco => hco⟩
  rw [if_neg hlarge] at hrun
  by_cases hmove : headKey Block.addr 0 ys = 0 ∨
      isUsed (header k.mem (headKey Block.addr 0 ys)).magic = true ∨
      add32 (add32 (header k.mem (headKey Block.addr 0 ys)).size b.size) headerSize < n
  · -- there is no room behind the block
    rw [if_pos hmove] at hrun
    obtain ⟨⟨q', k₁⟩, hmalloc, hrun⟩ := bind_eq_ok.mp hrun
    obtain ⟨m', bs', hfreed, hk₁, hlay, hres, hco⟩ :=
      krealloc_move hk hheap h hb hused (by omega) hmalloc
    simp only [hfreed, ok_bind, pure_eq_ok, Except.ok.injEq, Prod.mk.injEq] at hrun
    obtain ⟨rfl, rfl⟩ := hrun
    exact ⟨bs', hk₁, hlay, hres, hco⟩
  · -- the next block exists, is free, and together with this one is large enough
    rw [if_neg hmove] at hrun
    cases ys with
    | nil => simp at hmove
    | cons c ys =>
        have hc := h.mem_header (b := c) (by simp)
        simp only [headKey_cons, hc.1, hc.2, isUsed_tag, not_or, Bool.not_eq_true, Nat.not_lt, h.join_size_eq]
          at hmove hrun
        obtain ⟨-, hfree, hsum⟩ := hmove
        obtain ⟨m₁, m', hmerged, hsplit, hlay, hframe⟩ := krealloc_grow h hused hsum
        simp only [ge_iff_le, hsum, decide_true, assert_true, ok_bind, hmerged, pure_eq_ok,
          Except.ok.injEq, Prod.mk.injEq] at hrun
        obtain ⟨rfl, rfl⟩ := hrun
        rw [hsplit]
        refine ⟨_, hk, hlay, .grown xs c ys rfl hfree hsum hframe, ?_⟩
        intro _ hco
        obtain ⟨hcx, hcy, _⟩ := coalesced_append.mp hco
        exact coalesced_place hcx hfree hcy.tail

end WeirdOs
