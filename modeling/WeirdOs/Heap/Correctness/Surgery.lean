import WeirdOs.Heap.Correctness.Layout

/-!
# `Heap.Correctness.Surgery` — what the header surgeries do to the layout

One specification lemma for each function that rewrites headers, on a layout taken apart at the block it
works on:

* `createHeap_spec` — one free block;
* `mergeBlocks_spec` — two neighbours become their join;
* `createNewBlockHeader_spec` — a block is cut in two;
* `setMagic_spec` — a block changes its used flag.

Each lemma also says which bytes change: only bytes of headers, before or after. What a merge and a split
share, that blocks are replaced and the next one is linked back, is `Layout.replace`. Everything above
this file argues about block lists and never unfolds these functions again.
-/

namespace WeirdOs

open Lib

variable {m : Mem} {lo hi : Nat} {xs ys : List Block} {b c : Block}

/-- **`create_heap`** lays out one free block over the whole region. -/
theorem createHeap_spec (m : Mem) {size start : Nat} (hsize : 16 ≤ size)
    (hfits : start + size < 4294967296) :
    Layout (createHeap m size start).2 start (start + size) [⟨start, size - 16, false⟩] ∧
      (createHeap m size start).1.firstBlock = start := by
  refine ⟨⟨⟨rfl, ?_⟩, ⟨?_, trivial⟩, hfits, by simp⟩, rfl⟩
  · show start + 16 + (size - 16) = start + size
    omega
  · unfold cell
    simp only [createHeap, headKey_nil, headerSize]
    rw [header_setPrevious (by omega), header_setNext (by omega), header_setSize (sub32_lt _ _),
      header_setSize (by omega), magicNumber_and, header_setMagic (tag_lt _),
      sub32_of_le (by omega) (by omega)]

/-- `merge_blocks` of linked neighbours, as the three writes it makes. -/
theorem mergeBlocks_eq {first second : Nat} (m1 m2 : Mem) (h : (header m first).next = second)
    (h1 : m1 = setNext m first (header m second).next)
    (h2 : m2 = relinkHead m1 (header m1 first).next first) :
    mergeBlocks m first second =
      .ok (setSize m2 first (add32 (header m2 first).size (add32 (header m2 second).size headerSize))) := by
  subst h1 h2
  simp only [mergeBlocks, h, decide_true, assert_true, ok_bind]
  rfl

/-- **`merge_blocks`** replaces two neighbours by their join. -/
theorem mergeBlocks_spec (h : Layout m lo hi (xs ++ b :: c :: ys)) :
    ∃ m', mergeBlocks m b.addr c.addr = .ok m' ∧ Layout m' lo hi (xs ++ b.join c :: ys) ∧
      ∀ x, ¬ InHeaders (xs ++ b :: c :: ys) x → m' x = m x := by
  obtain ⟨-, hb, hc, -⟩ := h.parts
  obtain ⟨-, hcaddr, hty⟩ := h.tiles_split
  have hfits := h.fits
  have hle := hty.le
  have hhead : headKey Block.addr 0 ys < 4294967296 := h.headKey_lt fun d hd => by simp [hd]
  simp only [Block.stop_eq] at hcaddr hle hty
  unfold cell at hc
  -- the three writes, in the order of the source
  let m1 := setNext m b.addr (headKey Block.addr 0 ys)
  let m2 := relinkHead m1 (headKey Block.addr 0 ys) b.addr
  let m3 := setSize m2 b.addr (b.size + (c.size + 16))
  have hb1 : header m1 b.addr = ⟨tag b.used, b.size, headKey Block.addr 0 ys, lastKey Block.addr 0 xs⟩ := by
    rw [header_setNext hhead, hb]
  have hm2 : ∀ x, ¬ InHeaders ys x → m2 x = m1 x := fun x hx => relinkHead_out hx
  have hb2 : header m2 b.addr = header m1 b.addr :=
    header_congr fun x h1 h2 => hm2 x fun hx => by have := hx.span hty; omega
  have hc2 : header m2 c.addr = header m c.addr := by
    rw [header_congr fun x h1 h2 => hm2 x fun hx => by have := hx.span hty; omega,
      header_setNext_apart (by omega)]
  have hrun : mergeBlocks m b.addr c.addr = .ok m3 := by
    rw [mergeBlocks_eq m1 m2 (by rw [hb]; rfl) (by rw [hc]) (by rw [hb1]), hb2, hc2, hb1,
      hc]
    simp only [headerSize]
    rw [add32_of_lt (a := c.size) (by omega), add32_of_lt (by omega)]
  have hjoin : header m3 b.addr =
      ⟨tag b.used, b.size + (c.size + 16), headKey Block.addr 0 ys, lastKey Block.addr 0 xs⟩ := by
    rw [header_setSize (by omega), hb2, hb1]
  have hspan : (b.join c).stop = c.stop := by
    rw [Block.stop_eq, Block.stop_eq, Block.join_addr, Block.join_size]
    omega
  refine ⟨m3, hrun, ?_, ?_⟩
  · have h' : Layout m lo hi (xs ++ ([b, c] ++ ys)) := h
    show Layout m3 lo hi (xs ++ ([b.join c] ++ ys))
    refine h'.replace ⟨rfl, hcaddr, rfl⟩ (by simp) ⟨rfl, hspan⟩ (by simp) ⟨hjoin, trivial⟩ ?_
    intro x hx
    rw [Block.stop_eq] at hx
    rw [show m3 x = m2 x from setSize_out (by omega)]
    exact relinkHead_congr (setNext_out (by omega))
  · intro x hx
    rw [inHeaders_append, inHeaders_cons, inHeaders_cons] at hx
    rw [show m3 x = m2 x from setSize_out (by omega), hm2 x (fun h' => hx (Or.inr (Or.inr (Or.inr h'))))]
    exact setNext_out (by omega)

/-- **`create_new_block_header`** cuts a block in two: a used block of `n` bytes and a free rest. -/
theorem createNewBlockHeader_spec (h : Layout m lo hi (xs ++ b :: ys)) {n : Nat} (hn : n + 16 ≤ b.size) :
    Layout (createNewBlockHeader m b.addr n) lo hi
        (xs ++ ⟨b.addr, n, true⟩ :: ⟨b.addr + 16 + n, b.size - n - 16, false⟩ :: ys) ∧
      ∀ x, ¬ InHeaders (xs ++ b :: ys) x → (x < b.addr + 16 + n ∨ b.addr + 16 + n + 16 ≤ x) →
        createNewBlockHeader m b.addr n x = m x := by
  obtain ⟨-, hb, -⟩ := h.parts
  obtain ⟨-, hty⟩ := h.tiles_split
  have hfits := h.fits
  have hle := hty.le
  rw [Block.stop_eq] at hty hle
  have hhead : headKey Block.addr 0 ys < 4294967296 := h.headKey_lt fun d hd => by simp [hd]
  -- the new header `nb`, and the memory after each group of writes
  let nb := b.addr + 16 + n
  let m1 := relinkHead m (headKey Block.addr 0 ys) nb
  let m5 := setMagic (setSize (setPrevious (setNext m1 nb (headKey Block.addr 0 ys)) nb b.addr) nb
    (b.size - n - 16)) nb (tag false)
  let m8 := setMagic (setSize (setNext m5 b.addr nb) b.addr n) b.addr (tag true)
  have hm1 : ∀ x, ¬ InHeaders ys x → m1 x = m x := fun x hx => relinkHead_out hx
  have hm5 : ∀ x, (x < nb ∨ nb + 16 ≤ x) → m5 x = m1 x := fun x hx => by
    rw [show m5 x = _ from setMagic_out hx, setSize_out hx, setPrevious_out hx, setNext_out hx]
  have hm8 : ∀ x, (x < b.addr ∨ b.addr + 16 ≤ x) → m8 x = m5 x := fun x hx => by
    rw [show m8 x = _ from setMagic_out hx, setSize_out hx, setNext_out hx]
  have hb1 : header m1 b.addr = header m b.addr :=
    header_congr fun x h1 h2 => hm1 x fun hx => by have := hx.span hty; omega
  have hb5 : header m5 b.addr = header m b.addr := by
    rw [header_congr fun x h1 h2 => hm5 x (by omega), hb1]
  have hb8 : header m8 b.addr = ⟨tag true, n, nb, lastKey Block.addr 0 xs⟩ := by
    rw [header_setMagic (tag_lt _), header_setSize (by omega), header_setNext (by omega), hb5, hb]
  have hnb8 : header m8 nb = ⟨tag false, b.size - n - 16, headKey Block.addr 0 ys, b.addr⟩ := by
    rw [header_congr fun x h1 h2 => hm8 x (by omega), header_setMagic (tag_lt _), header_setSize (by omega),
      header_setPrevious (by omega), header_setNext hhead]
  -- the source computes the new address and the rest with wrapping arithmetic; nothing wraps here
  have hrun : createNewBlockHeader m b.addr n = m8 := by
    have hnb : add32 (add32 b.addr n) headerSize = nb := by
      unfold headerSize
      rw [add32_of_lt (a := b.addr) (by omega), add32_of_lt (by omega)]
      omega
    have hsize : sub32 (sub32 b.size n) headerSize = b.size - n - 16 := by
      unfold headerSize
      rw [sub32_of_le (a := b.size) (by omega) (by omega), sub32_of_le (by omega) (by omega)]
    have hapart : b.addr + 16 ≤ nb := by omega
    unfold createNewBlockHeader
    simp only [hnb]
    rw [show (if (header m b.addr).next ≠ 0 then setPrevious m (header m b.addr).next nb else m) = m1 from by
      rw [hb]; rfl]
    simp only [header_setPrevious_apart (Or.inl hapart), header_setNext_apart (Or.inl hapart), hb1, hb,
      hsize, magicNumber_and]
    rw [header_setSize (by omega), header_setNext (by omega),
      show header _ b.addr = header m b.addr from hb5, hb]
    simp only [tag_or]
    rfl
  rw [hrun]
  refine ⟨?_, ?_⟩
  · have h' : Layout m lo hi (xs ++ ([b] ++ ys)) := h
    have hspan : Block.stop ⟨nb, b.size - n - 16, false⟩ = b.stop := by
      rw [Block.stop_eq, Block.stop_eq]
      show nb + 16 + (b.size - n - 16) = _
      omega
    show Layout m8 lo hi (xs ++ ([⟨b.addr, n, true⟩, ⟨nb, b.size - n - 16, false⟩] ++ ys))
    refine h'.replace ⟨rfl, rfl⟩ (by simp) ⟨rfl, rfl, hspan⟩ (by simp) ⟨hb8, hnb8, trivial⟩ ?_
    intro x hx
    rw [Block.stop_eq] at hx
    rw [hm8 x (by omega), hm5 x (by omega)]
    rfl
  · intro x hx hxnb
    rw [inHeaders_append, inHeaders_cons] at hx
    rw [hm8 x (by omega), hm5 x hxnb, hm1 x fun h' => hx (Or.inr (Or.inr h'))]

/-- **Setting the magic** of a block sets its used flag. -/
theorem setMagic_spec (h : Layout m lo hi (xs ++ b :: ys)) (used : Bool) :
    Layout (setMagic m b.addr (tag used)) lo hi (xs ++ { b with used := used } :: ys) ∧
      ∀ x, ¬ InHeaders (xs ++ b :: ys) x → setMagic m b.addr (tag used) x = m x := by
  obtain ⟨hlx, hb, hly⟩ := h.parts
  obtain ⟨htx, hty⟩ := h.tiles_split
  have hle := hty.le
  rw [Block.stop_eq] at hty hle
  refine ⟨Layout.of_parts htx hty h.fits ?_ ?_ ?_, ?_⟩
  · exact linked_congr (fun x hx => setMagic_out (by have := hx.span htx; omega)) hlx
  · rw [header_setMagic (tag_lt _), hb]
  · exact linked_congr (fun x hx => setMagic_out (by have := hx.span hty; omega)) hly
  · intro x hx
    rw [inHeaders_append, inHeaders_cons] at hx
    exact setMagic_out (by omega)

end WeirdOs
