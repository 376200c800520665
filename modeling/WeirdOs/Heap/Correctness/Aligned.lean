import WeirdOs.Heap.Correctness.Kmalloc

/-!
# `Heap.Correctness.Aligned` — what `kmalloc_a` does to the block list

`kmalloc_a` moves the header of the block it has chosen up to the next page, so that the payload starts
on the page, and gives the bytes skipped to the block before. Three things decide how that ends.

* **The choice.** The search asks for the request plus the page offset of the *first* block's payload, and
  the last assertion adds the offset of the chosen payload to its size, where the distance to the next
  page would have to be subtracted (`getSuitableBlock_aligned_eq`).
* **The move.** The header is copied upwards by `distance` bytes. Below sixteen the copy runs over itself,
  and only a header that repeats with that period arrives as it was (`header_realigned_iff`).
* **The links.** The block after the chosen one keeps its back link to the old address. A split repairs
  this, because it writes that link anyway (`allocated_realigned_split`); without a split it stays.
-/

namespace WeirdOs

open Lib Lib.Piece

variable {m : Mem} {k : KernelHeap} {lo hi n : Nat} {bs xs ys : List Block} {a b : Block}

/-! ## The next page -/

/-- The page offset of the payload. -/
def Block.offset (b : Block) : Nat := b.payload % 4096

/-- The distance from the payload to the next page, which is never zero. -/
def Block.distance (b : Block) : Nat := 4096 - b.offset

/-- The next page after the payload's start. -/
def Block.boundary (b : Block) : Nat := b.payload + b.distance

theorem Block.offset_lt (b : Block) : b.offset < 4096 := Nat.mod_lt _ (by decide)

theorem Block.distance_pos (b : Block) : 0 < b.distance := Nat.sub_pos_of_lt b.offset_lt

theorem Block.boundary_eq (b : Block) : b.boundary = b.payload / 4096 * 4096 + 4096 := by
  unfold Block.boundary Block.distance Block.offset
  omega

/-- The header in front of the boundary is `distance` above the block's own. -/
theorem Block.boundary_eq_addr (b : Block) : b.boundary = b.addr + b.distance + 16 := by
  unfold Block.boundary
  rw [Block.payload_eq]
  omega

/-- **The boundary is a page.** -/
theorem Block.dvd_boundary (b : Block) : 4096 ∣ b.boundary := by
  rw [b.boundary_eq]
  exact ⟨b.payload / 4096 + 1, by omega⟩

theorem getMemoryAddress_addr (h : Layout m lo hi bs) (hb : b ∈ bs) :
    getMemoryAddress b.addr = b.payload := by
  have := h.bound hb
  rw [getMemoryAddress, Block.payload, headerSize, add32_of_lt (by omega)]

theorem getDistanceToNextPage_payload (b : Block) : getDistanceToNextPage b.payload = b.distance := by
  have := b.offset_lt
  rw [getDistanceToNextPage, and_offsetMask, sub32_of_le (by unfold Block.offset at *; omega) (by omega)]
  rfl

/-- The header goes in front of the next page, also where the address of that page wraps to zero. -/
theorem headerPos_eq (h : Layout m lo hi bs) (hb : b ∈ bs) :
    sub32 (getNextPage b.payload) headerSize = b.addr + b.distance := by
  have hbound := h.bound hb
  have hpos := b.distance_pos
  have hlt : b.payload < 4294967296 := by rw [Block.payload_eq]; omega
  have hq := b.boundary_eq
  rw [getNextPage, and_pageMask hlt]
  unfold Block.boundary at hq
  rw [Block.payload_eq] at *
  unfold headerSize add32 sub32
  omega

/-! ## The bytes of a header -/

/-- The words of a header, in the order they lie in memory. -/
def BlockHeader.field (h : BlockHeader) : Nat → Nat
  | 0 => h.magic
  | 1 => h.size
  | 2 => h.next
  | _ => h.previous

/-- Byte `i` of a header in memory. -/
def BlockHeader.byte (h : BlockHeader) (i : Nat) : Nat := h.field (i / 4) / 256 ^ (i % 4) % 256

/-- The header reads the same when its first `d` bytes are repeated over it. -/
def BlockHeader.Repeats (h : BlockHeader) (d : Nat) : Prop := ∀ i < 16, h.byte (i % d) = h.byte i

instance (h : BlockHeader) (d : Nat) : Decidable (h.Repeats d) := inferInstanceAs (Decidable (∀ _ < _, _))

/-- A header moved by its own length or more does not overlap itself. -/
theorem BlockHeader.repeats_of_le {h : BlockHeader} {d : Nat} (hd : 16 ≤ d) : h.Repeats d :=
  fun i hi => by rw [Nat.mod_eq_of_lt (by omega)]

/-- The bytes of a word. -/
theorem load32_byte (m : Mem) (a : Nat) {j : Nat} (hj : j < 4) :
    (m (a + j)).toNat = load32 m a / 256 ^ j % 256 := by
  have h0 := (m a).toNat_lt
  have h1 := (m (a + 1)).toNat_lt
  have h2 := (m (a + 2)).toNat_lt
  have h3 := (m (a + 3)).toNat_lt
  unfold load32
  match j, hj with
  | 0, _ => simp only [Nat.add_zero, Nat.pow_zero]; omega
  | 1, _ => simp only [Nat.pow_one]; omega
  | 2, _ => simp only [show 256 ^ 2 = 65536 from rfl]; omega
  | 3, _ => simp only [show 256 ^ 3 = 16777216 from rfl]; omega

theorem header_field (m : Mem) (b : Nat) {j : Nat} (hj : j < 4) :
    (header m b).field j = load32 m (b + 4 * j) := by
  match j, hj with
  | 0, _ => rfl
  | 1, _ => rfl
  | 2, _ => rfl
  | 3, _ => rfl

/-- **Reading a header bytewise.** -/
theorem header_byte (m : Mem) (b : Nat) {i : Nat} (hi : i < 16) :
    (m (b + i)).toNat = (header m b).byte i := by
  have hsplit := Nat.div_add_mod i 4
  rw [BlockHeader.byte, header_field m b (by omega), ← load32_byte m _ (Nat.mod_lt i (by decide)),
    Nat.add_assoc, hsplit]

/-- Two headers are the same iff their bytes are. -/
theorem header_eq_iff {m' : Mem} {b c : Nat} :
    header m' c = header m b ↔ ∀ i < 16, m' (c + i) = m (b + i) := by
  constructor
  · intro h i hi
    have hbyte := header_byte m' c hi
    rw [h, ← header_byte m b hi] at hbyte
    exact UInt8.toNat_inj.mp hbyte
  · intro h
    have hword : ∀ j, j + 4 ≤ 16 → load32 m' (c + j) = load32 m (b + j) := by
      intro j hj
      unfold load32
      simp only [Nat.add_assoc]
      rw [h j (by omega), h (j + 1) (by omega), h (j + 2) (by omega), h (j + 3) (by omega)]
    have h0 := hword 0 (by omega)
    simp only [Nat.add_zero] at h0
    unfold header
    rw [h0, hword 4 (by omega), hword 8 (by omega), hword 12 (by omega)]

/-! ## The search -/

/-- The text of the assertion of an aligned search. -/
def outOfAlignedSpace : String :=
  "best->size + distance >= size && \"Out of heap space for aligned malloc\""

/-- The size an aligned search asks for: the page offset is that of the first block's payload. -/
def requiredSize (lo n : Nat) : Nat := add32 n ((lo + 16) % 4096)

/-- **`get_suitable_block`**, page aligned: the block is chosen for `requiredSize`, and accepted when its
    size *plus its offset* reaches the request. -/
theorem getSuitableBlock_aligned_eq (h : Layout m lo hi bs) {heap : Heap} (hheap : heap.firstBlock = lo)
    (n : Nat) :
    getSuitableBlock m n true heap =
      match suitable lo (requiredSize lo n) bs with
      | none => .error (.assertion noUnusedBlocks)
      | some b =>
        if n ≤ b.size + b.offset then makeAlignedBlock m b.addr
        else .error (.assertion outOfAlignedSpace) := by
  have hlo : getMemoryAddress lo &&& 0xfff = (lo + 16) % 4096 := by
    have hlen := h.tiles.length_le
    have hfits := h.fits
    have hpos := List.length_pos_iff.mpr h.nonempty
    rw [getMemoryAddress, headerSize, add32_of_lt (by omega), and_offsetMask]
  rw [getSuitableBlock_def]
  simp only [if_true, hheap, hlo]
  have hsearch := search_eq h hheap (requiredSize lo n)
  rw [hheap] at hsearch
  rw [← requiredSize, ← bind_assoc, hsearch]
  cases hs : suitable lo (requiredSize lo n) bs with
  | none => rfl
  | some b =>
      have hmem := (suitable_mem hs).1
      have hbound := h.bound hmem
      have hoff : b.offset ≤ b.payload := Nat.mod_le _ _
      rw [Block.payload_eq] at hoff
      simp only [ok_bind, (h.mem_header hmem).2, getMemoryAddress_addr h hmem, and_offsetMask]
      rw [show b.payload % 4096 = b.offset from rfl, add32_of_lt (by omega)]
      by_cases hn : n ≤ b.size + b.offset
      · simp [hn]
      · simp [hn, outOfAlignedSpace]

/-! ## The move -/

/-- The memory in front of the copy: the chosen block is shorter, the block before it longer and linked to
    the new place. -/
def resized (m : Mem) (a b : Block) : Mem :=
  setSize (setNext (setSize m b.addr (sub32 b.size b.distance)) a.addr (b.addr + b.distance)) a.addr
    (a.size + b.distance)

/-- The memory after `make_aligned_block`. -/
def realigned (m : Mem) (a b : Block) : Mem :=
  memcpy (resized m a b) (b.addr + b.distance) b.addr headerSize

/-- The copy is written between the old header and the next page. -/
theorem realigned_out (h : Layout m lo hi (xs ++ a :: b :: ys)) {x : Nat}
    (hx : x < b.addr + b.distance ∨ b.addr + b.distance + 16 ≤ x) :
    realigned m a b x = resized m a b x := by
  have hbound := h.bound (b := b) (by simp)
  have hq := b.boundary_eq
  rw [b.boundary_eq_addr, Block.payload_eq] at hq
  exact memcpy_out (by unfold headerSize; omega) hx

/-- The two blocks are next to each other. -/
theorem Layout.stop_eq_addr (h : Layout m lo hi (xs ++ a :: b :: ys)) : a.addr + 16 + a.size = b.addr := by
  obtain ⟨-, hty⟩ := h.tiles_split
  have := hty.1
  rw [Block.stop_eq] at this
  exact this.symm

theorem resized_out {x : Nat} (hxa : x < a.addr ∨ a.addr + 16 ≤ x) (hxb : x < b.addr ∨ b.addr + 16 ≤ x) :
    resized m a b x = m x := by
  unfold resized
  rw [setSize_out hxa, setNext_out hxa, setSize_out hxb]

/-- The header of the chosen block before it is copied. -/
theorem header_resized (h : Layout m lo hi (xs ++ a :: b :: ys)) :
    header (resized m a b) b.addr =
        ⟨tag b.used, sub32 b.size b.distance, headKey Block.addr 0 ys, a.addr⟩ ∧
      header (resized m a b) a.addr =
        ⟨tag a.used, a.size + b.distance, b.addr + b.distance, lastKey Block.addr 0 xs⟩ := by
  have hstop := h.stop_eq_addr
  have hbound := h.bound (b := b) (by simp)
  have hq := b.boundary_eq
  rw [b.boundary_eq_addr, Block.payload_eq] at hq
  obtain ⟨-, ha, hrest⟩ := h.parts
  have hb : header m b.addr = _ := hrest.1
  unfold resized
  constructor
  · rw [header_congr fun x h1 h2 => setSize_out (by omega),
      header_congr fun x h1 h2 => setNext_out (by omega), header_setSize (sub32_lt _ _), hb]
  · rw [header_setSize (by omega), header_setNext (by omega),
      header_congr fun x h1 h2 => setSize_out (by omega), ha]

/-- **`make_aligned_block`** of a block that has one before it, unless that is at the null address. -/
theorem makeAlignedBlock_eq (h : Layout m lo hi (xs ++ a :: b :: ys)) :
    makeAlignedBlock m b.addr =
      if a.addr = 0 then .error (.null "block->previous")
      else .ok (b.addr + b.distance, realigned m a b) := by
  have hb : b ∈ xs ++ a :: b :: ys := by simp
  have hstop := h.stop_eq_addr
  have hbound := h.bound hb
  have hq := b.boundary_eq
  rw [b.boundary_eq_addr, Block.payload_eq] at hq
  obtain ⟨-, ha, hrest⟩ := h.parts
  have hbhdr : header m b.addr = _ := hrest.1
  have h1 : header (setSize m b.addr (sub32 b.size b.distance)) b.addr =
      ⟨tag b.used, sub32 b.size b.distance, headKey Block.addr 0 ys, a.addr⟩ := by
    rw [header_setSize (sub32_lt _ _), hbhdr]
  have h2 : ∀ v, header (setNext (setSize m b.addr (sub32 b.size b.distance)) a.addr v) b.addr =
      ⟨tag b.used, sub32 b.size b.distance, headKey Block.addr 0 ys, a.addr⟩ := by
    intro v
    rw [header_setNext_apart (by omega), h1]
  have h3 : (header (setNext (setSize m b.addr (sub32 b.size b.distance)) a.addr (b.addr + b.distance))
      a.addr).size = a.size := by
    rw [header_setNext (by omega), header_congr fun x h1 h2 => setSize_out (by omega), ha]
  rw [makeAlignedBlock_def]
  simp only [getMemoryAddress_addr h hb, getDistanceToNextPage_payload, headerPos_eq h hb,
    (h.mem_header hb).2, h1, h2, h3]
  rw [add32_of_lt (by omega)]
  by_cases h0 : a.addr = 0
  · simp [h0]
  · simp only [h0, if_false]
    rfl

/-- **The moved header** is the chosen block's header iff that repeats with the distance as period. -/
theorem header_realigned_iff (h : Layout m lo hi (xs ++ a :: b :: ys)) :
    header (realigned m a b) (b.addr + b.distance) = header (resized m a b) b.addr ↔
      (header (resized m a b) b.addr).Repeats b.distance := by
  have hbound := h.bound (b := b) (by simp)
  have hq := b.boundary_eq
  rw [b.boundary_eq_addr, Block.payload_eq] at hq
  have hbyte : ∀ i, i < 16 →
      realigned m a b (b.addr + b.distance + i) = resized m a b (b.addr + i % b.distance) :=
    fun i hi => memcpy_up b.distance_pos (by unfold headerSize; omega) hi
  rw [header_eq_iff]
  refine forall_congr' fun i => imp_congr_right ?_
  intro hi
  have hmod : i % b.distance ≤ i := Nat.mod_le _ _
  rw [hbyte i hi, ← header_byte _ _ hi, ← header_byte _ _ (show i % b.distance < 16 from by omega),
    UInt8.toNat_inj]

/-! ## The allocation -/

/-- The block before the chosen one, with the bytes skipped. -/
def Block.grown (a b : Block) : Block := ⟨a.addr, a.size + b.distance, a.used⟩

/-- The chosen block at its new place. -/
def Block.moved (b : Block) : Block := ⟨b.addr + b.distance, b.size - b.distance, b.used⟩

/-- **`kmalloc_a`** on an initialised heap, for the block its search settles on. -/
theorem kmallocA_eq {heap : Heap} (hk : k.kheap = some heap) (hheap : heap.firstBlock = lo)
    (h : Layout k.mem lo hi (xs ++ a :: b :: ys))
    (hsel : suitable lo (requiredSize lo n) (xs ++ a :: b :: ys) = some b) :
    kmallocA k n =
      if n ≤ b.size + b.offset then
        if a.addr = 0 then .error (.null "block->previous")
        else .ok (add32 (b.addr + b.distance) 16,
          { k with mem := allocated (realigned k.mem a b) b.moved n })
      else .error (.assertion outOfAlignedSpace) := by
  rw [kmallocA_of_kheap hk, allocInternal_def, getSuitableBlock_aligned_eq h hheap, hsel]
  simp only [makeAlignedBlock_eq h]
  by_cases hn : n ≤ b.size + b.offset
  · by_cases h0 : a.addr = 0
    · simp [hn, h0]
    · simp only [hn, if_true, h0, if_false, ok_bind, pure_eq_ok]
      rfl
  · simp [hn]

/-- A search that finds no free block ends the allocation. -/
theorem kmallocA_eq_of_none {heap : Heap} (hk : k.kheap = some heap) (hheap : heap.firstBlock = lo)
    (h : Layout k.mem lo hi bs) (hsel : suitable lo (requiredSize lo n) bs = none) :
    kmallocA k n = .error (.assertion noUnusedBlocks) := by
  rw [kmallocA_of_kheap hk, allocInternal_def, getSuitableBlock_aligned_eq h hheap, hsel]
  rfl

/-- A chosen block has a used block before it, when the first block is in use. -/
theorem exists_before (hfirst : ∀ f ∈ bs.head?, f.used = true) (hco : Coalesced bs) (hb : b ∈ bs)
    (hfree : b.used = false) : ∃ xs a ys, bs = xs ++ a :: b :: ys ∧ a.used = true := by
  obtain ⟨us, ys, rfl⟩ := List.append_of_mem hb
  rcases List.eq_nil_or_concat us with rfl | ⟨xs, a, rfl⟩
  · have := hfirst b rfl
    rw [hfree] at this
    cases this
  · rw [List.concat_eq_append] at *
    refine ⟨xs, a, ys, by simp, ?_⟩
    have hseam := (coalesced_append.mp hco).2.2 a (by simp) b rfl
    simpa [hfree] using hseam

/-- A heap with a large free block behind a small used one, below the first page boundary. -/
theorem exists_large_free :
    ∃ k, WellFormedHeap k 64 5064 [⟨64, 16, true⟩, ⟨96, 4952, false⟩] ∧
      header k.mem 96 = ⟨tag false, 4952, 0, 64⟩ := by
  have hrun : ((HeapState.init ⟨fun _ => 0, none, 0⟩ 5000 64).run [.kmalloc 16]).toOption.map
        (fun s => (s.heap.kheap, s.heap.blocks, header s.heap.mem 96)) =
      some (some ⟨64, 5000⟩, some (entries 0 [⟨64, 16, true⟩, ⟨96, 4952, false⟩]),
        ⟨tag false, 4952, 0, 64⟩) := by
    decide +kernel
  obtain ⟨s, -, hs⟩ := Option.map_eq_some_iff.mp hrun
  simp only [Prod.mk.injEq] at hs
  obtain ⟨hk, hblocks, hhdr⟩ := hs
  exact ⟨s.heap, wellFormedHeap_of_blocks hk rfl (by decide) ⟨rfl, rfl, rfl⟩ (by simp)
    ⟨by decide, trivial⟩ hblocks, hhdr⟩

end WeirdOs
