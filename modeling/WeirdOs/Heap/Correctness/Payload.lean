import WeirdOs.Heap.Correctness.WellFormed

/-!
# `Heap.Correctness.Payload` — the bytes of the client

Headers and payloads share one memory, so what a client relies on is a frame property: its payloads lie
inside the region, clear of each other and of every header (`PayloadsOk`), and an operation changes
none of them but the one it is given (`HeapStep.frame`). `krealloc` moves or keeps the bytes that fit
(`Reallocated.bytes`).

Nothing here depends on where the region starts.
-/

namespace WeirdOs

open Lib Lib.Piece

variable {lo hi p q r : Nat} {s s' : HeapState} {o : HeapOp} {bs bs' : List Block} {b : Block}

/-- The size the header in front of `p` records. -/
def payloadSize (m : Mem) (p : Nat) : Nat := (header m (sub32 p headerSize)).size

/-- The payloads of the live pointers are where they should be. -/
structure PayloadsOk (lo hi : Nat) (s : HeapState) : Prop where
  large : ∀ p r, s.live p = some r → r ≤ payloadSize s.heap.mem p
  inside : ∀ p r, s.live p = some r → lo ≤ p ∧ p + payloadSize s.heap.mem p ≤ hi
  disjoint : ∀ p q r r', s.live p = some r → s.live q = some r' → p ≠ q →
    p + payloadSize s.heap.mem p ≤ q ∨ q + payloadSize s.heap.mem q ≤ p
  noHeader : ∃ l, s.blocks = some l ∧ ∀ p r, s.live p = some r → ∀ x ∈ l,
    x.1 + headerSize ≤ p ∨ p + payloadSize s.heap.mem p ≤ x.1

/-! ## Where the payloads are -/

theorem payloadSize_eq {m : Mem} (h : Layout m lo hi bs) (hb : b ∈ bs) :
    payloadSize m b.payload = b.size := by
  rw [payloadSize, h.sub32_payload hb, (h.mem_header hb).2]

/-- The block behind a live pointer. -/
theorem HeapInv.block_of_live (h : HeapInv lo hi s bs) (hp : s.live p = some r) :
    ∃ b ∈ bs, b.used = true ∧ b.payload = p ∧ r ≤ b.size ∧ payloadSize s.heap.mem p = b.size := by
  obtain ⟨b, hb, hu, rfl, hr⟩ := h.owned.sound p r hp
  exact ⟨b, hb, hu, rfl, hr, payloadSize_eq h.layout hb⟩

/-- The addresses a walk visits are those of the blocks. -/
theorem mem_entries {prev : Nat} {x : Nat × BlockHeader} (hx : x ∈ entries prev bs) :
    ∃ b ∈ bs, x.1 = b.addr := by
  induction bs generalizing prev with
  | nil => exact absurd hx (by simp [entries])
  | cons b bs ih =>
      rcases List.mem_cons.mp hx with rfl | hx
      · exact ⟨b, by simp, rfl⟩
      · obtain ⟨c, hc, heq⟩ := ih hx
        exact ⟨c, List.mem_cons_of_mem _ hc, heq⟩

theorem HeapInv.payloadsOk (h : HeapInv lo hi s bs) : PayloadsOk lo hi s := by
  constructor
  · intro p r hp
    obtain ⟨b, _, _, _, hr, hsize⟩ := h.block_of_live hp
    omega
  · intro p r hp
    obtain ⟨b, hb, _, rfl, _, hsize⟩ := h.block_of_live hp
    have hbound := h.layout.bound hb
    rw [hsize, Block.payload_eq]
    omega
  · intro p q r r' hp hq hne
    obtain ⟨b, hb, _, rfl, _, hsize⟩ := h.block_of_live hp
    obtain ⟨c, hc, _, rfl, _, hsize'⟩ := h.block_of_live hq
    rw [hsize, hsize', Block.payload_eq, Block.payload_eq]
    rcases h.layout.apart hb hc (fun heq => hne (by rw [heq])) with hapart | hapart
    · exact Or.inl (by omega)
    · exact Or.inr (by omega)
  · refine ⟨_, h.blocks_eq, ?_⟩
    intro p r hp x hx
    obtain ⟨b, hb, _, rfl, _, hsize⟩ := h.block_of_live hp
    obtain ⟨c, hc, hcx⟩ := mem_entries hx
    rw [hsize, hcx, Block.payload_eq, headerSize]
    by_cases heq : b = c
    · rw [heq]
      exact Or.inl (Nat.le_refl _)
    · rcases h.layout.apart hb hc heq with hapart | hapart
      · exact Or.inr (by omega)
      · exact Or.inl (by omega)

/-! ## What the operations leave alone -/

/-- The payload of a used block is clear of what replaces a free block. -/
theorem Layout.payload_frame {m m' : Mem} {c : Block} {n : Nat} (h : Layout m lo hi bs) (hb : b ∈ bs)
    (hu : b.used = true) (hc : c ∈ bs) (hfree : c.used = false) (hn : n ≤ c.size)
    (hframe : ∀ x, ¬ InHeaders bs x → ¬ InHeaders (place c n) x → m' x = m x) {x : Nat}
    (h1 : b.payload ≤ x) (h2 : x < b.stop) : m' x = m x :=
  hframe x (h.not_inHeaders hb h1 h2)
    (h.not_inHeaders_place hb hc (Block.ne_of_used hu hfree) hn h1 h2)

/-- **`krealloc` leaves the other payloads alone.** -/
theorem Reallocated.frame {m m' : Mem} {c : Block} {n : Nat} (h : Reallocated m bs c n q m' bs')
    (hlay : Layout m lo hi bs) (hc : c ∈ bs) (hb : b ∈ bs) (hu : b.used = true)
    (hne : b ≠ c) {x : Nat} (h1 : b.payload ≤ x) (h2 : x < b.stop) : m' x = m x := by
  have hstop := Block.stop_eq b
  have hpay := Block.payload_eq b
  cases h with
  | kept _ => rfl
  | grown xs d ys hsplit hfree hn hframe =>
      subst hsplit
      apply hframe x (hlay.not_inHeaders hb h1 h2)
      intro hx
      -- the joined block spans `c` and `d`, and `b` is neither
      have hplaced := inHeaders_place hn hx
      have hjstop := Block.stop_eq (c.join d)
      have hd : d.addr = c.addr + 16 + c.size := hlay.tiles_split.2.1
      rw [Block.join_addr] at hplaced hjstop
      rw [Block.join_size] at hjstop
      have hbc := hlay.apart hb hc hne
      have hbd := hlay.apart hb (c := d) (by simp) (Block.ne_of_used hu hfree)
      omega
  | moved xs d ys hsplit hfree hsmall hn _ hframe _ =>
      subst hsplit
      have hbd : b ≠ d := Block.ne_of_used hu hfree
      refine hframe x (hlay.not_inHeaders hb h1 h2)
        (hlay.not_inHeaders_place hb (by simp) hbd hn h1 h2) ?_
      rw [Block.payload_eq]
      rcases hlay.apart hb (c := d) (by simp) hbd with hapart | hapart
      · exact Or.inl (by omega)
      · exact Or.inr (by omega)

/-- **The frame of one operation**: a payload it is not given keeps its bytes and stays live. -/
theorem HeapStep.frame (h : HeapStep s bs o s' bs') (hlay : Layout s.heap.mem lo hi bs) (hb : b ∈ bs)
    (hu : b.used = true) (harg : o.argument ≠ some b.payload) :
    (∀ x, b.payload ≤ x → x < b.stop → s'.heap.mem x = s.heap.mem x) ∧
      s'.live b.payload = s.live b.payload := by
  cases h with
  | kmalloc xs c ys hsplit hfree hn hframe =>
      subst hsplit
      have hne : b.payload ≠ c.payload := hlay.payload_ne hb (by simp) (Block.ne_of_used hu hfree)
      exact ⟨fun x h1 h2 => hlay.payload_frame hb hu (by simp) hfree hn hframe h1 h2,
        Function.update_of_ne hne ..⟩
  | @free c k' _ hc _ _ hframe =>
      have hne : b.payload ≠ c.payload := fun heq => harg (by rw [heq]; rfl)
      exact ⟨fun x h1 h2 => hframe x (hlay.not_inHeaders hb h1 h2), Function.update_of_ne hne ..⟩
  | @krealloc c n q k' _ hc _ hres =>
      have hne : b.payload ≠ c.payload := fun heq => harg (by rw [heq]; rfl)
      have hbc : b ≠ c := fun heq => hne (by rw [heq])
      refine ⟨fun x h1 h2 => hres.frame hlay hc hb hu hbc h1 h2, ?_⟩
      have hq : b.payload ≠ q := by
        obtain ⟨m', kheap, placement⟩ := k'
        cases hres with
        | kept _ => exact hne
        | grown => exact hne
        | moved xs d ys hsplit hfree _ _ _ _ _ =>
            subst hsplit
            exact hlay.payload_ne hb (by simp) (Block.ne_of_used hu hfree)
      simp only [Function.update_of_ne hq, Function.update_of_ne hne]
  | @write c i v k' hc _ hi hstored =>
      have hne : b.payload ≠ c.payload := fun heq => harg (by rw [heq]; rfl)
      refine ⟨?_, rfl⟩
      intro x h1 h2
      have hapart := hlay.apart hb hc fun heq => hne (by rw [heq])
      rw [Block.stop_eq] at h2
      rw [Block.payload_eq] at h1
      show k'.mem x = _
      rw [hstored, store8_out]
      rw [Block.payload_eq]
      omega

/-- The new block survives the release of the old one, and the joins after it. -/
theorem Layout.placed_mem {m : Mem} {xs ys : List Block} {c : Block} {n : Nat}
    (h : Layout m lo hi (xs ++ c :: ys)) (hb : b ∈ xs ++ c :: ys) (hu : b.used = true)
    (hfree : c.used = false)
    (hmerges : Merges (release b.payload (xs ++ (place c n ++ ys))) bs') :
    ⟨c.addr, placedSize c n, true⟩ ∈ bs' := by
  have hbmem := (mem_middle.mp hb).resolve_left (Block.ne_of_used hu hfree)
  have hne : c.payload ≠ b.payload := (h.tiles.payload_ne b hbmem).symm
  obtain ⟨rest, hplace, _⟩ := place_eq c n
  have hmem : (⟨c.addr, placedSize c n, true⟩ : Block) ∈ usedBlocks bs' := by
    rw [usedBlocks_merges hmerges, mem_usedBlocks]
    exact ⟨List.mem_map.mpr ⟨⟨c.addr, placedSize c n, true⟩, by rw [hplace]; simp, if_neg hne⟩, rfl⟩
  exact (mem_usedBlocks.mp hmem).1

/-- **`krealloc` keeps the bytes that fit**, and the new payload is large enough. -/
theorem Reallocated.bytes {m m' : Mem} {n : Nat} (h : Reallocated m bs b n q m' bs')
    (hlay : Layout m lo hi bs) (hlay' : Layout m' lo hi bs') (hb : b ∈ bs) (hu : b.used = true) :
    n ≤ payloadSize m' q ∧ ∀ i < min n b.size, m' (q + i) = m (b.payload + i) := by
  cases h with
  | kept hn => exact ⟨by rw [payloadSize_eq hlay hb]; exact hn, fun _ _ => rfl⟩
  | grown xs c ys hsplit hfree hn hframe =>
      subst hsplit
      obtain ⟨rest, hplace, _⟩ := place_eq (b.join c) n
      have hnew := payloadSize_eq hlay' (b := ⟨b.addr, placedSize (b.join c) n, true⟩) (by
        rw [hplace]
        simp)
      have hle := le_placedSize hn
      refine ⟨Nat.le_trans hle (Nat.le_of_eq hnew.symm), ?_⟩
      intro i hi
      have hstop := Block.stop_eq b
      have hpay := Block.payload_eq b
      apply hframe _ (hlay.not_inHeaders hb (by omega) (by omega))
      intro hx
      -- the headers of `place` are past the bytes asked for, and `i` is one of these
      have hplaced := inHeaders_place hn hx
      rw [Block.join_addr] at hplaced
      omega
  | moved xs c ys hsplit hfree hsmall hn hmerges _ hcopied =>
      subst hsplit
      refine ⟨?_, fun i hi => hcopied i (by omega)⟩
      have hnew := payloadSize_eq hlay' (hlay.placed_mem hb hu hfree hmerges)
      exact Nat.le_trans (le_placedSize hn) (Nat.le_of_eq hnew.symm)

/-! ## The block `krealloc` returns -/

/-- How many payload bytes the block has that `krealloc(ptr, n)` returns: the block as it is when it is
    large enough; else the block and the free one after it, or the block the search finds, less what is
    split off. -/
def reallocRoom (k : KernelHeap) (heap : Heap) (ptr n : Nat) : Exec Nat := do
  let hdr := header k.mem (sub32 ptr headerSize)
  if hdr.size ≥ n then return hdr.size
  let next := header k.mem hdr.next
  let mergeSize := add32 (add32 next.size hdr.size) headerSize
  let kept := fun size => if size - n > headerSize + minBlockSize then n else size
  if hdr.next = 0 ∨ isUsed next.magic ∨ mergeSize < n then
    let (block, _) ← getSuitableBlock k.mem n false heap
    return kept (header k.mem block).size
  return kept mergeSize

/-- The room of a block that is joined with the free one after it. -/
theorem reallocRoom_grown {k : KernelHeap} {xs ys : List Block} {c : Block} {heap : Heap} {n : Nat}
    (h : Layout k.mem lo hi (xs ++ b :: c :: ys)) (hsmall : ¬ b.size ≥ n) (hfree : c.used = false)
    (hn : n ≤ (b.join c).size) : reallocRoom k heap b.payload n = .ok (placedSize (b.join c) n) := by
  have hhdr := h.sub32_payload (b := b) (by simp)
  obtain ⟨-, hlinks, -⟩ := h.parts
  have hc := h.mem_header (b := c) (by simp)
  have hcb := h.bound (b := c) (by simp)
  have haddr : c.addr = b.addr + 16 + b.size := h.tiles_split.2.1
  have hmerge : add32 (add32 c.size b.size) headerSize = (b.join c).size := by
    unfold headerSize
    rw [Block.join_size, add32_of_lt (a := c.size) (by omega), add32_of_lt (by omega)]
    omega
  -- there is a free block behind, so the search is not reached
  have hstay : ¬ (c.addr = 0 ∨ c.used = true ∨ (b.join c).size < n) := by
    rw [hfree]
    simp only [Bool.false_eq_true, false_or, not_or, Nat.not_lt]
    exact ⟨by omega, hn⟩
  simp only [reallocRoom, hhdr, hlinks, headKey_cons, hc.1, hc.2, isUsed_tag, hmerge]
  rw [if_neg hsmall, if_neg hstay]
  rfl

/-- The block that an allocation returned is the one the search finds. -/
theorem suitable_of_alloc {m m' : Mem} {heap : Heap} {n : Nat} {c : Block} (hheap : heap.firstBlock = lo)
    (h : Layout m lo hi bs) (hc : c ∈ bs) (halloc : allocInternal m n false heap = .ok (c.payload, m')) :
    suitable lo n bs = some c ∧ n ≤ c.size := by
  rw [allocInternal_eq h hheap] at halloc
  cases hs : suitable lo n bs with
  | none =>
      rw [hs] at halloc
      cases halloc
  | some d =>
      rw [hs] at halloc
      dsimp only at halloc
      by_cases hle : n ≤ d.size
      · rw [if_pos hle] at halloc
        obtain ⟨hpayload, -⟩ := Prod.mk.inj (Except.ok.inj halloc)
        obtain rfl : d = c := Classical.byContradiction fun hdc =>
          h.payload_ne (suitable_mem hs).1 hc hdc hpayload
        exact ⟨rfl, hle⟩
      · rw [if_neg hle] at halloc
        cases halloc

/-- **The block `krealloc` returns** is used, has the room computed, and begins with the old bytes. -/
theorem krealloc_room {k k' : KernelHeap} {heap : Heap} {n : Nat} (hk : k.kheap = some heap)
    (hheap : heap.firstBlock = lo) (h : Layout k.mem lo hi bs) (hb : b ∈ bs) (hused : b.used = true)
    (hrun : krealloc k b.payload n = .ok (q, k')) :
    ∃ bs', k'.kheap = some heap ∧ Layout k'.mem lo hi bs' ∧ ∃ d ∈ bs', d.used = true ∧ d.payload = q ∧
      reallocRoom k heap b.payload n = .ok d.size ∧ ∀ i < b.size, k'.mem (q + i) = k.mem (b.payload + i) := by
  obtain ⟨bs', hk', hlay', hres, -⟩ := krealloc_spec hk hheap h hb hused hrun
  have hhdr := h.sub32_payload hb
  obtain ⟨hmagic, hsize⟩ := h.mem_header hb
  simp only [krealloc, hhdr, hmagic, hsize, isValid_tag, assert_true, ok_bind] at hrun
  by_cases hlarge : b.size ≥ n
  · rw [if_pos hlarge] at hrun
    cases hrun
    refine ⟨bs, hk, h, b, hb, hused, rfl, ?_, fun _ _ => rfl⟩
    simp only [reallocRoom, hhdr, hsize]
    rw [if_pos hlarge]
    rfl
  rw [if_neg hlarge] at hrun
  refine ⟨bs', hk', hlay', ?_⟩
  have hbytes := (hres.bytes h hlay' hb hused).2
  rw [Nat.min_eq_right (by omega)] at hbytes
  obtain ⟨m', kheap', placement⟩ := k'
  cases hres with
  | kept hn => exact absurd hn hlarge
  | grown xs c ys hsplit hfree hn _ =>
      subst hsplit
      obtain ⟨rest, hplace, _⟩ := place_eq (b.join c) n
      exact ⟨⟨b.addr, placedSize (b.join c) n, true⟩, by rw [hplace]; simp, rfl, rfl,
        reallocRoom_grown h hlarge hfree hn, hbytes⟩
  | moved xs c ys hsplit hfree hsmall hn hmerges _ _ =>
      subst hsplit
      refine ⟨⟨c.addr, placedSize c n, true⟩, h.placed_mem hb hused hfree hmerges, rfl, rfl, ?_, hbytes⟩
      have hne : b.payload ≠ c.payload := h.payload_ne hb (by simp) (Block.ne_of_used hused hfree)
      split at hrun
      · -- the search has found the block
        rename_i hmove
        obtain ⟨⟨q', k₁⟩, hmalloc, hrun⟩ := bind_eq_ok.mp hrun
        obtain ⟨m₁, halloc, -⟩ := (kmalloc_eq_ok hk).mp hmalloc
        obtain ⟨m₂, -, hrun⟩ := bind_eq_ok.mp hrun
        obtain rfl : q' = c.payload := by cases hrun; rfl
        obtain ⟨hs, hle⟩ := suitable_of_alloc hheap h (by simp) halloc
        simp only [reallocRoom, hhdr, hsize]
        rw [if_neg hlarge, if_pos hmove, getSuitableBlock_eq h hheap, hs]
        dsimp only
        rw [if_pos hle, ok_bind, (h.mem_header (by simp)).2]
        rfl
      · -- the block has grown in place, and is not where `c` is
        obtain ⟨u, -, hrun⟩ := bind_eq_ok.mp hrun
        obtain ⟨m₁, -, hrun⟩ := bind_eq_ok.mp hrun
        exact absurd (Prod.mk.inj (Except.ok.inj hrun)).1 hne

/-! ## The calls, one by one -/

/-- **What one operation leaves alone**: the live payloads it is not given. -/
theorem HeapInv.step_frame (h : HeapInv lo hi s bs) (hstep : s.step o = .ok s') :
    (∃ bs', HeapInv lo hi s' bs') ∧ ∀ p r, s.live p = some r → o.argument ≠ some p →
      s'.live p = some r ∧ ∀ i < payloadSize s.heap.mem p, s'.heap.mem (p + i) = s.heap.mem (p + i) := by
  obtain ⟨bs', hcase, h'⟩ := h.step hstep
  refine ⟨⟨bs', h'⟩, ?_⟩
  intro p r hp harg
  obtain ⟨b, hb, hu, rfl, _, hbsize⟩ := h.block_of_live hp
  obtain ⟨hbytes, hlive⟩ := hcase.frame h.layout hb hu harg
  refine ⟨hlive.trans hp, fun i hi => hbytes _ (by omega) ?_⟩
  rw [Block.stop_eq, Block.payload_eq]
  omega

/-- A pointer that was just handed out was not live. -/
theorem HeapInv.kmalloc_fresh (h : HeapInv lo hi s bs) {n : Nat} {k' : KernelHeap}
    (hrun : kmalloc s.heap n = .ok (p, k')) : s.live p = none := by
  obtain ⟨heap, hk, hheap⟩ := h.kheap
  obtain ⟨xs, c, ys, rfl, hfree, -, rfl, -⟩ := kmalloc_spec hk hheap h.layout hrun
  cases hlive : s.live c.payload with
  | none => rfl
  | some r =>
      obtain ⟨b, hb, hu, hpay, -⟩ := h.owned.sound _ r hlive
      exact absurd hpay (h.layout.payload_ne hb (by simp) (Block.ne_of_used hu hfree))

/-- **`malloc`** hands out a new pointer and leaves the other payloads alone. -/
theorem HeapInv.malloc (h : HeapInv lo hi s bs) {n : Nat} (hn : n < 4294967296)
    (hrun : s.malloc n = .ok (p, s')) :
    (∃ bs', HeapInv lo hi s' bs') ∧ s.live p = none ∧ s'.live p = some n ∧
      ∀ q r, s.live q = some r → s'.live q = some r ∧
        ∀ i < payloadSize s.heap.mem q, s'.heap.mem (q + i) = s.heap.mem (q + i) := by
  obtain ⟨⟨p', k'⟩, hmalloc, hret⟩ := bind_eq_ok.mp hrun
  obtain ⟨rfl, rfl⟩ := Prod.mk.inj (Except.ok.inj hret)
  have hstep : s.step (.kmalloc (UInt32.ofNat n)) = .ok ⟨k', Function.update s.live p' (some n)⟩ := by
    rw [HeapState.step, UInt32.toNat_ofNat_of_lt' hn, hmalloc]
    rfl
  obtain ⟨hinv, hframe⟩ := h.step_frame hstep
  exact ⟨hinv, h.kmalloc_fresh hmalloc, Function.update_self ..,
    fun q r hq => hframe q r hq (by simp [HeapOp.argument])⟩

/-- **`release`** of a live pointer returns, and leaves the other payloads alone. -/
theorem HeapInv.release (h : HeapInv lo hi s bs) (hp : s.live p = some r) :
    ∃ s', s.release p = .ok s' ∧ (∃ bs', HeapInv lo hi s' bs') ∧
      s'.live = Function.update s.live p none ∧
      ∀ q r, s.live q = some r → q ≠ p → s'.live q = some r ∧
        ∀ i < payloadSize s.heap.mem q, s'.heap.mem (q + i) = s.heap.mem (q + i) := by
  obtain ⟨b, hb, hu, rfl, -⟩ := h.owned.sound p r hp
  obtain ⟨m', -, hrun, -⟩ := free_spec h.layout hb hu
  have hstep : s.step (.free b.payload) =
      .ok ⟨{ s.heap with mem := m' }, Function.update s.live b.payload none⟩ := by
    simp only [HeapState.step, hp, hrun]
    rfl
  obtain ⟨hinv, hframe⟩ := h.step_frame hstep
  refine ⟨⟨{ s.heap with mem := m' }, Function.update s.live b.payload none⟩, ?_, hinv, rfl, ?_⟩
  · rw [HeapState.release, hrun]
    rfl
  · intro q r hq hne
    refine hframe q r hq fun harg => hne ?_
    exact (Option.some.inj harg).symm

/-- **`realloc`** of a live pointer: the pointer it returns was not live unless it is the old one, its
    payload begins with the old bytes, and the other payloads are left alone. -/
theorem HeapInv.realloc (h : HeapInv lo hi s bs) (hp : s.live p = some r) {n : Nat} (hn : n < 4294967296)
    (hrun : s.realloc p n = .ok (q, s')) :
    (∃ bs', HeapInv lo hi s' bs') ∧ (q = p ∨ s.live q = none) ∧
      s'.live = Function.update (Function.update s.live p none) q (some n) ∧
      (∀ i < min n (payloadSize s.heap.mem p), s'.heap.mem (q + i) = s.heap.mem (p + i)) ∧
      ∀ q' r, s.live q' = some r → q' ≠ p → s'.live q' = some r ∧
        ∀ i < payloadSize s.heap.mem q', s'.heap.mem (q' + i) = s.heap.mem (q' + i) := by
  obtain ⟨⟨q₁, k'⟩, hrealloc, hret⟩ := bind_eq_ok.mp hrun
  obtain ⟨rfl, rfl⟩ := Prod.mk.inj (Except.ok.inj hret)
  have hstep : s.step (.krealloc p (UInt32.ofNat n)) =
      .ok ⟨k', Function.update (Function.update s.live p none) q₁ (some n)⟩ := by
    simp only [HeapState.step, hp]
    rw [UInt32.toNat_ofNat_of_lt' hn, hrealloc]
    rfl
  obtain ⟨hinv, hframe⟩ := h.step_frame hstep
  obtain ⟨b, hb, hu, rfl, -, hbsize⟩ := h.block_of_live hp
  obtain ⟨heap, hk, hfirst⟩ := h.kheap
  obtain ⟨bs', -, hlay', hres, -⟩ := krealloc_spec hk hfirst h.layout hb hu hrealloc
  refine ⟨hinv, ?_, rfl, ?_, ?_⟩
  · obtain ⟨m', kheap', placement⟩ := k'
    cases hres with
    | kept => exact Or.inl rfl
    | grown => exact Or.inl rfl
    | moved xs c ys hsplit hfree =>
        subst hsplit
        apply Or.inr
        cases hlive : s.live c.payload with
        | none => rfl
        | some r' =>
            obtain ⟨d, hd, hdu, hpay, -⟩ := h.owned.sound _ r' hlive
            exact absurd hpay (h.layout.payload_ne hd (by simp) (Block.ne_of_used hdu hfree))
  · rw [hbsize]
    exact (hres.bytes h.layout hlay' hb hu).2
  · intro q' r' hq' hne
    refine hframe q' r' hq' fun harg => hne ?_
    exact (Option.some.inj harg).symm

/-- A size that `realloc` serves is a size of 32 bits. -/
theorem HeapInv.realloc_lt (h : HeapInv lo hi s bs) (hp : s.live p = some r) {n : Nat}
    (hrun : s.realloc p n = .ok (q, s')) : n < 4294967296 := by
  obtain ⟨⟨q₁, k'⟩, hrealloc, hret⟩ := bind_eq_ok.mp hrun
  obtain ⟨b, hb, hu, rfl, -, -⟩ := h.block_of_live hp
  obtain ⟨heap, hk, hfirst⟩ := h.kheap
  obtain ⟨bs', -, hlay', hres, -⟩ := krealloc_spec hk hfirst h.layout hb hu hrealloc
  have hlarge := (hres.bytes h.layout hlay' hb hu).1
  have hlt : payloadSize k'.mem q₁ < 4294967296 := load32_lt _ _
  omega

/-- **`realloc` to no more than was requested last** returns the pointer, and the heap as it was. -/
theorem HeapInv.realloc_kept (h : HeapInv lo hi s bs) (hp : s.live p = some r) {n : Nat} (hn : n ≤ r) :
    s.realloc p n = .ok (p, { s with live := Function.update s.live p (some n) }) := by
  obtain ⟨b, hb, hu, rfl, hr, -⟩ := h.block_of_live hp
  obtain ⟨hmagic, hsize⟩ := h.layout.mem_header hb
  have hkept : krealloc s.heap b.payload n = .ok (b.payload, s.heap) := by
    unfold krealloc
    rw [h.layout.sub32_payload hb]
    simp only [hmagic, hsize, isValid_tag, assert_true, ok_bind]
    rw [if_pos (by omega)]
    rfl
  rw [HeapState.realloc, hkept]
  simp only [ok_bind, pure_eq_ok, Function.update_idem]

/-- **`malloc` hands out the bytes that were asked for as they lie in memory.** -/
theorem HeapInv.malloc_bytes (h : HeapInv lo hi s bs) {n : Nat} (hrun : s.malloc n = .ok (p, s')) :
    ∀ i < n, s'.heap.mem (p + i) = s.heap.mem (p + i) := by
  obtain ⟨⟨p', k'⟩, hmalloc, hret⟩ := bind_eq_ok.mp hrun
  obtain ⟨rfl, rfl⟩ := Prod.mk.inj (Except.ok.inj hret)
  obtain ⟨heap, hk, hfirst⟩ := h.kheap
  obtain ⟨xs, c, ys, rfl, -, hn, rfl, -, -, hframe⟩ := kmalloc_spec hk hfirst h.layout hmalloc
  intro i hi
  have hpay := Block.payload_eq c
  have hstop := Block.stop_eq c
  have hplaced := le_placedSize hn
  apply hframe _ (h.layout.not_inHeaders (b := c) (by simp) (by omega) (by omega))
  intro hx
  have hheader := inHeaders_place hn hx
  omega

/-- **Writing inside a live payload** keeps the heap as it is. -/
theorem HeapInv.setMem (h : HeapInv lo hi s bs) (hp : s.live p = some r) {m : Mem}
    (hout : ∀ x, x < p ∨ p + r ≤ x → m x = s.heap.mem x) :
    HeapInv lo hi { s with heap := { s.heap with mem := m } } bs := by
  obtain ⟨b, hb, hu, rfl, hr⟩ := h.owned.sound p r hp
  refine ⟨h.kheap, h.layout.congr fun x hx => hout x ?_, h.owned, h.coalesced⟩
  refine Classical.byContradiction fun hin => h.layout.not_inHeaders hb (by omega) ?_ hx
  have hpay := Block.payload_eq b
  rw [Block.stop_eq]
  omega

/-! ## Over runs -/

/-- **Client data is safe in every reachable heap.** The payloads are where they should be; whatever
    operation comes next leaves every payload it is not given alone; and a `krealloc` that returns
    hands out enough bytes, the first of which are the old ones. -/
theorem reachable_payloads (k : KernelHeap) {size start : Nat} (hsize : 16 ≤ size)
    (hfits : start + size < 4294967296) {ops : List HeapOp}
    (hrun : (HeapState.init k size start).run ops = .ok s) :
    PayloadsOk start (start + size) s ∧
      (∀ o s', s.step o = .ok s' → ∀ p r, s.live p = some r → o.argument ≠ some p →
        s'.live p = some r ∧
          ∀ i < payloadSize s.heap.mem p, s'.heap.mem (p + i) = s.heap.mem (p + i)) ∧
      ∀ p r (n : UInt32) q k', s.live p = some r → krealloc s.heap p n.toNat = .ok (q, k') →
        n.toNat ≤ payloadSize k'.mem q ∧
          ∀ i < min n.toNat (payloadSize s.heap.mem p), k'.mem (q + i) = s.heap.mem (p + i) := by
  obtain ⟨bs, h⟩ := HeapInv.run hsize hfits hrun
  refine ⟨h.payloadsOk, ?_, ?_⟩
  · intro o s' hstep p r hp harg
    exact (h.step_frame hstep).2 p r hp harg
  · intro p r n q k' hp hre
    obtain ⟨b, hb, hu, rfl, _, hbsize⟩ := h.block_of_live hp
    obtain ⟨heap, hk, hfirst⟩ := h.kheap
    obtain ⟨bs', _, hlay', hres, _⟩ := krealloc_spec hk hfirst h.layout hb hu hre
    rw [hbsize]
    exact hres.bytes h.layout hlay' hb hu

/-- Two allocations at address 64, the first of which is then moved past the second. -/
theorem reachable_payloads_grow :
    ∃ s, (HeapState.init ⟨fun _ => 0, none, 0⟩ 200 64).run
        [.kmalloc 16, .kmalloc 8, .write 80 3 7, .krealloc 80 40] = .ok s ∧
      PayloadsOk 64 264 s := by
  have hok : ((HeapState.init ⟨fun _ => 0, none, 0⟩ 200 64).run
      [.kmalloc 16, .kmalloc 8, .write 80 3 7, .krealloc 80 40]).toOption.isSome = true := by
    decide +kernel
  obtain ⟨s, hs⟩ := Option.isSome_iff_exists.mp hok
  have hrun := toOption_eq_some.mp hs
  exact ⟨s, hrun, (reachable_payloads _ (by decide) (by decide) hrun).1⟩

end WeirdOs
