import WeirdOs.Heap.Correctness.Stateful
import WeirdOs.Lib.Coalesce
import WeirdOs.Lib.Linked

/-!
# `Heap.Correctness.Layout` — the block list behind the headers

The bookkeeping of the heap lives in memory; what it *means* is a list of blocks. `Layout m lo hi bs`
says that the headers found in `m` describe exactly the blocks `bs`:

* `Tiles lo hi bs` — header and payload of each block end where the next header starts, from `lo` up to
  `hi`, with nothing left over;
* `Linked (cell m) …` — each header holds its block's tag and size, and links to the neighbours' headers
  (null at both ends).

`Block` is a `Piece` (free blocks join over the header between them), so `Lib.Coalesce` applies to block
lists as they are. The rest of the file is the plumbing every surgery needs: reading a header over a
write, the span of a segment, and re-linking the head of what follows.
-/

namespace WeirdOs

open Lib

/-! ## Reading headers over writes -/

section Header

variable {m m' : Mem} {b c v x : Nat}

/-- A header depends only on its sixteen bytes. -/
theorem header_congr (h : ∀ x, b ≤ x → x < b + 16 → m' x = m x) : header m' b = header m b := by
  unfold header
  rw [load32_congr fun x h1 h2 => h x (by omega) (by omega),
    load32_congr fun x h1 h2 => h x (by omega) (by omega),
    load32_congr fun x h1 h2 => h x (by omega) (by omega),
    load32_congr fun x h1 h2 => h x (by omega) (by omega)]

theorem setMagic_out (h : x < b ∨ b + 16 ≤ x) : setMagic m b v x = m x := store32_out (by omega)
theorem setSize_out (h : x < b ∨ b + 16 ≤ x) : setSize m b v x = m x := store32_out (by omega)
theorem setNext_out (h : x < b ∨ b + 16 ≤ x) : setNext m b v x = m x := store32_out (by omega)
theorem setPrevious_out (h : x < b ∨ b + 16 ≤ x) : setPrevious m b v x = m x := store32_out (by omega)

theorem header_setMagic (hv : v < 4294967296) :
    header (setMagic m b v) b = { header m b with magic := v } := by
  simp only [header, setMagic, load32_store32 hv]
  rw [load32_store32_of_disjoint (by omega), load32_store32_of_disjoint (by omega),
    load32_store32_of_disjoint (by omega)]

theorem header_setSize (hv : v < 4294967296) :
    header (setSize m b v) b = { header m b with size := v } := by
  simp only [header, setSize, load32_store32 hv]
  rw [load32_store32_of_disjoint (by omega), load32_store32_of_disjoint (by omega),
    load32_store32_of_disjoint (by omega)]

theorem header_setNext (hv : v < 4294967296) :
    header (setNext m b v) b = { header m b with next := v } := by
  simp only [header, setNext, load32_store32 hv]
  rw [load32_store32_of_disjoint (by omega), load32_store32_of_disjoint (by omega),
    load32_store32_of_disjoint (by omega)]

theorem header_setPrevious (hv : v < 4294967296) :
    header (setPrevious m b v) b = { header m b with previous := v } := by
  simp only [header, setPrevious, load32_store32 hv]
  rw [load32_store32_of_disjoint (by omega), load32_store32_of_disjoint (by omega),
    load32_store32_of_disjoint (by omega)]

theorem header_setNext_apart (h : c + 16 ≤ b ∨ b + 16 ≤ c) :
    header (setNext m b v) c = header m c := header_congr fun _ _ _ => setNext_out (by omega)

theorem header_setPrevious_apart (h : c + 16 ≤ b ∨ b + 16 ≤ c) :
    header (setPrevious m b v) c = header m c := header_congr fun _ _ _ => setPrevious_out (by omega)

end Header

/-! ## Magic numbers -/

/-- The magic number of a used or a free block. -/
def tag (used : Bool) : Nat := if used then magicNumber ||| 0x1 else magicNumber

@[simp] theorem isUsed_tag (used : Bool) : isUsed (tag used) = used := by cases used <;> rfl

@[simp] theorem isValid_tag (used : Bool) : isValid (tag used) = true := by cases used <;> rfl

theorem tag_lt (used : Bool) : tag used < 4294967296 := by cases used <;> decide

@[simp] theorem tag_and (used : Bool) : tag used &&& 0xfffffffe = tag false := by cases used <;> rfl

@[simp] theorem tag_or (used : Bool) : tag used ||| 0x1 = tag true := by cases used <;> rfl

theorem magicNumber_and : magicNumber &&& 0xfffffffe = tag false := rfl

/-! ## Blocks -/

/-- A block of the heap: the address of its header, the size of its payload, whether it is used. -/
structure Block where
  addr : Nat
  size : Nat
  used : Bool
deriving DecidableEq, Repr

/-- The address of the payload. -/
def Block.payload (b : Block) : Nat := b.addr + headerSize

/-- The first address after the block. -/
def Block.stop (b : Block) : Nat := b.addr + headerSize + b.size

theorem Block.payload_eq (b : Block) : b.payload = b.addr + 16 := rfl
theorem Block.stop_eq (b : Block) : b.stop = b.addr + 16 + b.size := rfl

/-- Two neighbours joined: the second header becomes payload of the first. -/
def Block.join (b c : Block) : Block := ⟨b.addr, b.size + (c.size + headerSize), b.used⟩

/-- Free blocks are pieces that join over the header between them. -/
instance : Piece Block where
  isFree b := !b.used
  join := Block.join
  free_join _ _ ha _ := ha
  join_assoc a b c := by
    simp only [Block.join, headerSize, Block.mk.injEq, and_true, true_and]
    omega

@[simp] theorem isFree_eq (b : Block) : Piece.isFree b = !b.used := rfl
@[simp] theorem join_eq (b c : Block) : Piece.join b c = b.join c := rfl
@[simp] theorem Block.join_addr (b c : Block) : (b.join c).addr = b.addr := rfl
@[simp] theorem Block.join_used (b c : Block) : (b.join c).used = b.used := rfl
theorem Block.join_size (b c : Block) : (b.join c).size = b.size + (c.size + 16) := rfl

theorem Block.eq_of {b c : Block} (haddr : b.addr = c.addr) (hsize : b.size = c.size)
    (hused : b.used = c.used) : b = c := by
  obtain ⟨addr, size, used⟩ := b
  cases haddr
  cases hsize
  cases hused
  rfl

/-- A used block is not a free one. -/
theorem Block.ne_of_used {b c : Block} (hb : b.used = true) (hc : c.used = false) : b ≠ c := by
  rintro rfl
  rw [hb] at hc
  cases hc

/-- The header of `b` holds the links `prev` and `next` and the data of `b`. -/
def cell (m : Mem) (prev next : Nat) (b : Block) : Prop :=
  header m b.addr = ⟨tag b.used, b.size, next, prev⟩

/-! ## Tiling -/

/-- The blocks fill `[lo, hi)` exactly, in order. -/
def Tiles : Nat → Nat → List Block → Prop
  | lo, hi, []      => lo = hi
  | lo, hi, b :: bs => b.addr = lo ∧ Tiles b.stop hi bs

theorem tiles_cons {lo hi : Nat} {b : Block} {bs : List Block} :
    Tiles lo hi (b :: bs) ↔ b.addr = lo ∧ Tiles b.stop hi bs := Iff.rfl

theorem tiles_append {lo hi : Nat} {xs ys : List Block} :
    Tiles lo hi (xs ++ ys) ↔ ∃ mid, Tiles lo mid xs ∧ Tiles mid hi ys := by
  induction xs generalizing lo with
  | nil => exact ⟨fun h => ⟨lo, rfl, h⟩, fun ⟨mid, h1, h2⟩ => by cases h1; exact h2⟩
  | cons b bs ih =>
      simp only [List.cons_append, tiles_cons, ih]
      constructor
      · rintro ⟨h1, mid, h2, h3⟩
        exact ⟨mid, ⟨h1, h2⟩, h3⟩
      · rintro ⟨mid, ⟨h1, h2⟩, h3⟩
        exact ⟨h1, mid, h2, h3⟩

/-- A tiling needs sixteen bytes for each block. -/
theorem Tiles.length_le {lo hi : Nat} {bs : List Block} (h : Tiles lo hi bs) :
    lo + 16 * bs.length ≤ hi := by
  induction bs generalizing lo with
  | nil => exact Nat.le_of_eq h
  | cons b bs ih =>
      have hrest := ih h.2
      have hlo := h.1
      simp only [List.length_cons, Block.stop_eq] at hrest ⊢
      omega

theorem Tiles.le {lo hi : Nat} {bs : List Block} (h : Tiles lo hi bs) : lo ≤ hi := by
  have := h.length_le
  omega

/-- Every block of a tiling lies inside it. -/
theorem Tiles.mem {lo hi : Nat} {bs : List Block} (h : Tiles lo hi bs) {b : Block} (hb : b ∈ bs) :
    lo ≤ b.addr ∧ b.stop ≤ hi := by
  induction bs generalizing lo with
  | nil => exact absurd hb (by simp)
  | cons c bs ih =>
      have hlo := h.1
      rcases List.mem_cons.mp hb with rfl | hb
      · exact ⟨Nat.le_of_eq hlo.symm, h.2.le⟩
      · have hrest := ih h.2 hb
        rw [Block.stop_eq] at hrest
        exact ⟨by omega, hrest.2⟩

/-- What follows a non-empty tiled segment starts past address zero. -/
theorem Tiles.headKey_eq {lo hi : Nat} {bs : List Block} (h : Tiles lo hi bs) (hne : bs ≠ []) :
    headKey Block.addr 0 bs = lo := by
  cases bs with
  | nil => exact absurd rfl hne
  | cons b bs => exact h.1

/-- Blocks that tile a span end where it ends. -/
theorem Tiles.stop_unique {lo hi hi' : Nat} {bs : List Block} (h : Tiles lo hi bs) (h' : Tiles lo hi' bs) :
    hi = hi' := by
  induction bs generalizing lo with
  | nil => exact h.symm.trans h'
  | cons b bs ih => exact ih h.2 h'.2

/-- Two blocks of a tiling that meet are the same block. -/
theorem Tiles.apart {lo hi : Nat} {bs : List Block} (h : Tiles lo hi bs) {b c : Block}
    (hb : b ∈ bs) (hc : c ∈ bs) : b = c ∨ b.stop ≤ c.addr ∨ c.stop ≤ b.addr := by
  induction bs generalizing lo with
  | nil => exact absurd hb (by simp)
  | cons d bs ih =>
      rcases List.mem_cons.mp hb with rfl | hb'
      · rcases List.mem_cons.mp hc with rfl | hc'
        · exact Or.inl rfl
        · exact Or.inr (Or.inl (h.2.mem hc').1)
      · rcases List.mem_cons.mp hc with rfl | hc'
        · exact Or.inr (Or.inr (h.2.mem hb').1)
        · exact ih h.2 hb' hc'

/-! ## The bytes of the headers -/

/-- Address `x` is a byte of the header of one of the blocks. -/
def InHeaders (bs : List Block) (x : Nat) : Prop := ∃ b ∈ bs, b.addr ≤ x ∧ x < b.addr + 16

theorem InHeaders.span {lo hi x : Nat} {bs : List Block} (h : Tiles lo hi bs) (hx : InHeaders bs x) :
    lo ≤ x ∧ x < hi := by
  obtain ⟨b, hb, h1, h2⟩ := hx
  have hmem := h.mem hb
  rw [Block.stop_eq] at hmem
  omega

theorem inHeaders_cons {b : Block} {bs : List Block} {x : Nat} :
    InHeaders (b :: bs) x ↔ (b.addr ≤ x ∧ x < b.addr + 16) ∨ InHeaders bs x := by
  simp [InHeaders]

theorem inHeaders_append {xs ys : List Block} {x : Nat} :
    InHeaders (xs ++ ys) x ↔ InHeaders xs x ∨ InHeaders ys x := by
  simp [InHeaders, or_and_right, exists_or]

/-- A join drops a header and adds none. -/
theorem InHeaders.of_join {xs ys : List Block} {b c : Block} {x : Nat}
    (hx : InHeaders (xs ++ b.join c :: ys) x) : InHeaders (xs ++ b :: c :: ys) x := by
  simp only [inHeaders_append, inHeaders_cons, Block.join_addr] at hx ⊢
  rcases hx with hx | hx | hx
  · exact Or.inl hx
  · exact Or.inr (Or.inl hx)
  · exact Or.inr (Or.inr (Or.inr hx))

/-- Replacing a block adds the headers of what replaces it. -/
theorem InHeaders.of_replace {xs ys zs : List Block} {b : Block} {x : Nat}
    (hx : InHeaders (xs ++ (zs ++ ys)) x) : InHeaders (xs ++ b :: ys) x ∨ InHeaders zs x := by
  simp only [inHeaders_append, inHeaders_cons] at hx ⊢
  rcases hx with hx | hx | hx
  · exact Or.inl (Or.inl hx)
  · exact Or.inr hx
  · exact Or.inl (Or.inr (Or.inr hx))

/-- A segment depends only on the bytes of its headers. -/
theorem linked_congr {m m' : Mem} {prev next : Nat} {bs : List Block}
    (hm : ∀ x, InHeaders bs x → m' x = m x) (h : Linked (cell m) Block.addr prev next bs) :
    Linked (cell m') Block.addr prev next bs := by
  apply h.imp
  intro b hb p n hcell
  have hhdr : header m' b.addr = header m b.addr :=
    header_congr fun x h1 h2 => hm x ⟨b, hb, h1, h2⟩
  exact hhdr.trans hcell

/-- Re-linking what follows: `if (next) next->previous = v`. -/
def relinkHead (m : Mem) (next v : Nat) : Mem := if next ≠ 0 then setPrevious m next v else m

theorem relinkHead_out {m : Mem} {ys : List Block} {v x : Nat} (hx : ¬ InHeaders ys x) :
    relinkHead m (headKey Block.addr 0 ys) v x = m x := by
  cases ys with
  | nil => rfl
  | cons d ys =>
      unfold relinkHead
      split
      · rw [setPrevious_out]
        rw [inHeaders_cons] at hx
        simp only [headKey_cons]
        omega
      · rfl

/-- The relinking is a write, so it agrees on memories that agree. -/
theorem relinkHead_congr {m m' : Mem} {next v x : Nat} (h : m' x = m x) :
    relinkHead m' next v x = relinkHead m next v x := by
  unfold relinkHead setPrevious store32
  split
  · simp only [h]
  · exact h

/-- **Re-linking the head** of a segment that starts past address zero changes its back link only. -/
theorem linked_relinkHead {m : Mem} {lo hi prev v : Nat} {ys : List Block} (ht : Tiles lo hi ys)
    (hlo : 0 < lo) (hv : v < 4294967296) (h : Linked (cell m) Block.addr prev 0 ys) :
    Linked (cell (relinkHead m (headKey Block.addr 0 ys) v)) Block.addr v 0 ys := by
  cases ys with
  | nil => trivial
  | cons d ys =>
      have hd : d.addr ≠ 0 := by
        have := ht.1
        omega
      simp only [relinkHead, headKey_cons, hd, ne_eq, not_false_eq_true, if_true]
      refine ⟨?_, linked_congr (fun x hx => setPrevious_out ?_) h.2⟩
      · unfold cell
        rw [header_setPrevious hv, h.1]
      · have hspan := hx.span ht.2
        rw [Block.stop_eq] at hspan
        omega

/-! ## The layout of a heap -/

/-- The headers in `m` describe the blocks `bs`, which fill `[lo, hi)`. -/
structure Layout (m : Mem) (lo hi : Nat) (bs : List Block) : Prop where
  tiles : Tiles lo hi bs
  linked : Linked (cell m) Block.addr 0 0 bs
  fits : hi < 4294967296
  nonempty : bs ≠ []

namespace Layout

variable {m m' : Mem} {lo hi : Nat} {bs xs ys : List Block} {b c : Block}

/-- A layout survives any change outside the headers. -/
theorem congr (h : Layout m lo hi bs) (hm : ∀ x, InHeaders bs x → m' x = m x) : Layout m' lo hi bs :=
  ⟨h.tiles, linked_congr hm h.linked, h.fits, h.nonempty⟩

/-- The three spans around a block in the middle of the list. -/
theorem tiles_split (h : Layout m lo hi (xs ++ b :: ys)) :
    Tiles lo b.addr xs ∧ Tiles b.stop hi ys := by
  obtain ⟨mid, hx, hb, hy⟩ := tiles_append.mp h.tiles
  exact ⟨hb ▸ hx, hy⟩

/-- A layout taken apart at a block: what is before it, its header, what is after it. -/
theorem parts (h : Layout m lo hi (xs ++ b :: ys)) :
    Linked (cell m) Block.addr 0 b.addr xs ∧
      header m b.addr = ⟨tag b.used, b.size, headKey Block.addr 0 ys, lastKey Block.addr 0 xs⟩ ∧
      Linked (cell m) Block.addr b.addr 0 ys := by
  obtain ⟨hx, hb, hy⟩ := linked_append.mp h.linked
  exact ⟨hx, hb, hy⟩

/-- A layout put together at a block. -/
theorem of_parts (hx : Tiles lo b.addr xs) (hy : Tiles b.stop hi ys) (hfits : hi < 4294967296)
    (hlx : Linked (cell m) Block.addr 0 b.addr xs)
    (hb : header m b.addr = ⟨tag b.used, b.size, headKey Block.addr 0 ys, lastKey Block.addr 0 xs⟩)
    (hly : Linked (cell m) Block.addr b.addr 0 ys) : Layout m lo hi (xs ++ b :: ys) :=
  ⟨tiles_append.mpr ⟨b.addr, hx, rfl, hy⟩, linked_append.mpr ⟨hlx, hb, hly⟩, hfits, by simp⟩

theorem mem_header (h : Layout m lo hi bs) (hb : b ∈ bs) :
    (header m b.addr).magic = tag b.used ∧ (header m b.addr).size = b.size := by
  obtain ⟨xs, ys, rfl⟩ := List.append_of_mem hb
  rw [h.parts.2.1]
  exact ⟨rfl, rfl⟩

/-- Every block fits below `2^32`. -/
theorem bound (h : Layout m lo hi bs) (hb : b ∈ bs) :
    lo ≤ b.addr ∧ b.addr + 16 + b.size ≤ hi ∧ hi < 4294967296 :=
  ⟨(h.tiles.mem hb).1, (h.tiles.mem hb).2, h.fits⟩

/-- Two blocks do not overlap. -/
theorem apart (h : Layout m lo hi bs) (hb : b ∈ bs) (hc : c ∈ bs) (hne : b ≠ c) :
    b.addr + 16 + b.size ≤ c.addr ∨ c.addr + 16 + c.size ≤ b.addr :=
  (h.tiles.apart hb hc).resolve_left hne

/-- Payloads tell the blocks apart. -/
theorem payload_ne (h : Layout m lo hi bs) (hb : b ∈ bs) (hc : c ∈ bs) (hne : b ≠ c) :
    b.payload ≠ c.payload := by
  have := h.apart hb hc hne
  rw [Block.payload_eq, Block.payload_eq]
  omega

/-- The header is in front of the payload. -/
theorem sub32_payload (h : Layout m lo hi bs) (hb : b ∈ bs) : sub32 b.payload headerSize = b.addr := by
  have := h.bound hb
  rw [Block.payload, headerSize, sub32_of_le (by omega) (by omega), Nat.add_sub_cancel]

/-- A link to what follows fits its field. -/
theorem headKey_lt (h : Layout m lo hi bs) (hys : ys ⊆ bs) : headKey Block.addr 0 ys < 4294967296 := by
  cases ys with
  | nil => simp
  | cons d ys =>
      have := h.bound (hys List.mem_cons_self)
      rw [headKey_cons]
      omega

/-- **Blocks in the middle replaced** by others that fill the same span. Outside of it only the back link of
    the block that follows changes. -/
theorem replace {us zs : List Block} {p q : Nat} (h : Layout m lo hi (xs ++ (us ++ ys)))
    (hus : Tiles p q us) (hne : us ≠ []) (hzs : Tiles p q zs) (hne' : zs ≠ [])
    (hlinked : Linked (cell m') Block.addr (lastKey Block.addr 0 xs) (headKey Block.addr 0 ys) zs)
    (hm : ∀ x, x < p ∨ q ≤ x →
      m' x = relinkHead m (headKey Block.addr 0 ys) (lastKey Block.addr 0 zs) x) :
    Layout m' lo hi (xs ++ (zs ++ ys)) := by
  obtain ⟨mid, htx, htuy⟩ := tiles_append.mp h.tiles
  obtain ⟨mid', htu, hty⟩ := tiles_append.mp htuy
  obtain rfl : mid = p := (htu.headKey_eq hne).symm.trans (hus.headKey_eq hne)
  obtain rfl : mid' = q := htu.stop_unique hus
  obtain ⟨hlx, hluy⟩ := linked_append.mp h.linked
  have hly := (linked_append.mp hluy).2
  have hlink : headKey Block.addr 0 (us ++ ys) = headKey Block.addr 0 (zs ++ ys) := by
    rw [headKey_append, headKey_append]
    cases us with
    | nil => exact absurd rfl hne
    | cons u us =>
        cases zs with
        | nil => exact absurd rfl hne'
        | cons z zs => exact hus.1.trans hzs.1.symm
  obtain ⟨zs', z, rfl⟩ := List.eq_nil_or_concat zs |>.resolve_left hne'
  rw [List.concat_eq_append] at *
  have hz := hzs.mem (b := z) (by simp)
  have hqhi := hty.le
  have hfits := h.fits
  rw [Block.stop_eq] at hz
  refine ⟨tiles_append.mpr ⟨mid, htx, tiles_append.mpr ⟨mid', hzs, hty⟩⟩,
    linked_append.mpr ⟨?_, linked_append.mpr ⟨hlinked, ?_⟩⟩, h.fits, by simp⟩
  · rw [hlink] at hlx
    refine linked_congr ?_ hlx
    intro x hx
    have hspan := hx.span htx
    rw [hm x (Or.inl hspan.2), relinkHead_out fun hx' => ?_]
    have := hx'.span hty
    omega
  · rw [lastKey_concat] at hm ⊢
    apply linked_congr (fun x hx => hm x (Or.inr (hx.span hty).1))
    exact linked_relinkHead hty (by omega) (by omega) hly

/-- A walk along the list ends well before the fuel does. -/
theorem length_lt (h : Layout m lo hi bs) : bs.length < walkFuel := by
  have := h.tiles.length_le
  have := h.fits
  unfold walkFuel
  omega

end Layout

end WeirdOs
