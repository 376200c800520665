import WeirdOs.Heap.Correctness.AlignedHeap
import Mathlib.Algebra.GroupWithZero.Nat

/-!
# `Heap.Correctness.AlignedFree` — the bytes that go to the block before

`make_aligned_block` gives the bytes up to the next page to the block before the chosen one, which is in
use. `free` of the aligned block finds the header at its new place and does not look there: those bytes are
part of a used block from then on, and no call takes them back. So `kmalloc_a` followed by `free` makes
the free bytes fewer by the distance to the next page, which is at least one (`kmallocAFree_loses`). With
`kmalloc` nothing is lost (`kmalloc_free_blocks`).
-/

namespace WeirdOs

open Lib Lib.Piece

variable {m : Mem} {k k' : KernelHeap} {lo hi n : Nat} {bs xs ys : List Block} {a b : Block}

/-! ## Free bytes -/

/-- The bytes in the unused blocks of a list found in memory. -/
def freeBytesIn (l : List (Nat × BlockHeader)) : Nat :=
  ((l.filter fun x => !isUsed x.2.magic).map fun x => x.2.size).sum

/-- The free bytes of the heap: those in the unused blocks met on the walk along its links. -/
def KernelHeap.freeBytes (k : KernelHeap) : Option Nat := k.blocks.map freeBytesIn

/-- The bytes in the free ones of these blocks. -/
def freeSize (bs : List Block) : Nat := ((bs.filter fun b => !b.used).map Block.size).sum

theorem freeSize_append (xs ys : List Block) : freeSize (xs ++ ys) = freeSize xs + freeSize ys := by
  rw [freeSize, List.filter_append, List.map_append, List.sum_append]
  rfl

theorem freeSize_cons_used (hb : b.used = true) : freeSize (b :: bs) = freeSize bs := by
  rw [freeSize, List.filter_cons_of_neg (by simp [hb])]
  rfl

theorem freeSize_cons_free (hb : b.used = false) : freeSize (b :: bs) = b.size + freeSize bs := by
  rw [freeSize, List.filter_cons_of_pos (by simp [hb]), List.map_cons, List.sum_cons]
  rfl

/-- **The move takes the distance away** from the free bytes of a block list. -/
theorem freeSize_moved (ha : a.used = true) (hb : b.used = false) (hroom : b.distance ≤ b.size) :
    freeSize (xs ++ a :: b :: ys) = freeSize (xs ++ a.grown b :: b.moved :: ys) + b.distance := by
  rw [freeSize_append, freeSize_cons_used ha, freeSize_cons_free hb, freeSize_append,
    freeSize_cons_used (b := a.grown b) ha, freeSize_cons_free (b := b.moved) hb]
  show _ = _ + (b.size - b.distance + _) + _
  omega

/-! ## The walk -/

/-- What a walk sees of a header: all but its back link. -/
def walkCell (m : Mem) (_ next : Nat) (b : Block) : Prop :=
  (header m b.addr).magic = tag b.used ∧ (header m b.addr).size = b.size ∧ (header m b.addr).next = next

theorem freeBytesIn_cons {h : BlockHeader} {l : List (Nat × BlockHeader)} (hmagic : h.magic = tag b.used)
    (hsize : h.size = b.size) (hl : freeBytesIn l = freeSize bs) :
    freeBytesIn ((b.addr, h) :: l) = freeSize (b :: bs) := by
  unfold freeBytesIn freeSize at *
  rw [List.filter_cons, List.filter_cons, hmagic, isUsed_tag]
  cases b.used with
  | true => exact hl
  | false =>
      simp only [Bool.not_false, if_true, List.map_cons, List.sum_cons]
      rw [hl, hsize]

/-- A walk sees the same where the memory in front of the back link is the same. -/
theorem walkCell_of_cell {m' : Mem} {prev next : Nat} (h : cell m prev next b)
    (hm : ∀ x, b.addr ≤ x → x < b.addr + 12 → m' x = m x) : walkCell m' prev next b := by
  have hhdr : header m b.addr = ⟨tag b.used, b.size, next, prev⟩ := h
  have hmagic : load32 m' b.addr = load32 m b.addr := load32_congr fun x h1 h2 => hm x (by omega) (by omega)
  have hsize : load32 m' (b.addr + 4) = load32 m (b.addr + 4) :=
    load32_congr fun x h1 h2 => hm x (by omega) (by omega)
  have hnext : load32 m' (b.addr + 8) = load32 m (b.addr + 8) :=
    load32_congr fun x h1 h2 => hm x (by omega) (by omega)
  refine ⟨?_, ?_, ?_⟩
  · exact hmagic.trans (congrArg BlockHeader.magic hhdr)
  · exact hsize.trans (congrArg BlockHeader.size hhdr)
  · exact hnext.trans (congrArg BlockHeader.next hhdr)

/-- **The walk counts the free bytes**, whatever the back links are. -/
theorem walk_freeBytes :
    ∀ {fuel prev lo : Nat} {b : Block}, Tiles lo hi (b :: bs) →
      Linked (walkCell m) Block.addr prev 0 (b :: bs) → bs.length < fuel →
      ∃ l, walk m fuel b.addr = some l ∧ freeBytesIn l = freeSize (b :: bs) := by
  induction bs with
  | nil =>
      intro fuel prev lo b _ hl hfuel
      obtain ⟨fuel, rfl⟩ : ∃ f, fuel = f + 1 := ⟨fuel - 1, by omega⟩
      obtain ⟨hmagic, hsize, hnext⟩ := hl.1
      rw [headKey_nil] at hnext
      refine ⟨[(b.addr, header m b.addr)], ?_, freeBytesIn_cons hmagic hsize rfl⟩
      rw [walk, if_pos hnext]
  | cons c bs ih =>
      intro fuel prev lo b ht hl hfuel
      obtain ⟨fuel, rfl⟩ : ∃ f, fuel = f + 1 := ⟨fuel - 1, by omega⟩
      obtain ⟨hmagic, hsize, hnext⟩ := hl.1
      have hc : c.addr ≠ 0 := by
        have := ht.2.1
        rw [Block.stop_eq] at this
        omega
      obtain ⟨l, hwalk, hfree⟩ := ih ht.2 hl.2 (by simpa using hfuel)
      refine ⟨(b.addr, header m b.addr) :: l, ?_, freeBytesIn_cons hmagic hsize hfree⟩
      rw [headKey_cons] at hnext
      rw [walk, if_neg (by rw [hnext]; exact hc), hnext, hwalk]
      rfl

/-- The free bytes of a heap whose headers are those of a tiling, but for the back links. -/
theorem freeBytes_eq {heap : Heap} (hk : k.kheap = some heap) (hheap : heap.firstBlock = lo)
    (ht : Tiles lo hi bs) (hl : Linked (walkCell k.mem) Block.addr 0 0 bs) (hne : bs ≠ [])
    (hfits : hi < 4294967296) : k.freeBytes = some (freeSize bs) := by
  have hlen := ht.length_le
  cases bs with
  | nil => exact absurd rfl hne
  | cons b bs =>
      rw [List.length_cons] at hlen
      have hshort : bs.length < walkFuel := by
        unfold walkFuel
        omega
      obtain ⟨l, hwalk, hfree⟩ := walk_freeBytes ht hl hshort
      rw [KernelHeap.freeBytes, KernelHeap.blocks, hk, Option.bind_some, hheap, ← ht.1, hwalk,
        Option.map_some, hfree]

theorem WellFormedHeap.freeBytes (h : WellFormedHeap k lo hi bs) : k.freeBytes = some (freeSize bs) := by
  obtain ⟨heap, hk, hheap⟩ := h.kheap
  have hl : Linked (walkCell k.mem) Block.addr 0 0 bs := by
    apply h.layout.linked.imp
    intro b _ p n hcell
    exact walkCell_of_cell hcell fun _ _ _ => rfl
  exact freeBytes_eq hk hheap h.layout.tiles hl h.layout.nonempty h.layout.fits

/-! ## Freeing between used blocks -/

/-- **A used block between used ones** is marked free, and nothing is merged. Its neighbours are those its
    own links name; theirs do not matter. -/
theorem free_between_used {hdr size next prev : Nat} (hhdr : header m hdr = ⟨tag true, size, next, prev⟩)
    (hfits : hdr + 16 < 4294967296)
    (hnext : next ≠ 0 → (header m next).magic = tag true ∧ hdr + 16 ≤ next)
    (hprev : prev ≠ 0 → (header m prev).magic = tag true ∧ prev + 16 ≤ hdr) :
    free m (hdr + 16) = .ok (setMagic m hdr (tag false)) := by
  have hself : sub32 (hdr + 16) headerSize = hdr := by
    unfold headerSize
    rw [sub32_of_le (by omega) (by omega), Nat.add_sub_cancel]
  have hfreed : header (setMagic m hdr (tag false)) hdr = ⟨tag false, size, next, prev⟩ := by
    rw [header_setMagic (tag_lt false), hhdr]
  have hkeep : ∀ c, c + 16 ≤ hdr ∨ hdr + 16 ≤ c → header (setMagic m hdr (tag false)) c = header m c := by
    intro c hc
    exact header_congr fun x h1 h2 => setMagic_out (by omega)
  obtain ⟨fuel, hfuel⟩ : ∃ f, walkFuel = f + 1 := ⟨4294967295, rfl⟩
  have hforwards : mergeForwards walkFuel (setMagic m hdr (tag false)) hdr =
      .ok (setMagic m hdr (tag false)) := by
    rw [hfuel, mergeForwards, hfreed]
    by_cases h0 : next = 0
    · rw [if_pos h0]
      rfl
    · obtain ⟨hmagic, hle⟩ := hnext h0
      rw [if_neg h0, hkeep next (Or.inr hle), hmagic]
      simp
  have hbackward : mergeBackward walkFuel (setMagic m hdr (tag false)) hdr =
      .ok (setMagic m hdr (tag false)) := by
    rw [hfuel, mergeBackward, hfreed]
    by_cases h0 : prev = 0
    · rw [if_pos h0]
      rfl
    · obtain ⟨hmagic, hle⟩ := hprev h0
      rw [if_neg h0, hkeep prev (Or.inl hle), hmagic]
      simp
  unfold free
  simp only [hself, hhdr, isValid_tag, isUsed_tag, assert_true, ok_bind, Bool.not_true, Bool.false_eq_true,
    if_false, tag_and]
  rw [hforwards, ok_bind, hbackward]

/-! ## A pair of calls -/

/-- `kmalloc_a(n)`, and `free` of what it returns. -/
def kmallocAFree (k : KernelHeap) (n : Nat) : Exec KernelHeap := do
  let (p, k) ← kmallocA k n
  let m ← free k.mem p
  return { k with mem := m }

/-- A heap and a request that a pair is for: the heap is well formed and coalesced with its first block in
    use, and the block `b` that `kmalloc_a(n)` settles on has room for the move and the request. The block
    before `b` is not at the null address, and the header of `b` survives the copy, which a distance of
    sixteen bytes makes sure of (`BlockHeader.repeats_of_le`). -/
structure PairFits (k : KernelHeap) (lo hi n : Nat) (bs : List Block) (b : Block) : Prop where
  heap : WellFormedHeap k lo hi bs
  first : ∀ f ∈ bs.head?, f.used = true
  selected : suitable lo (requiredSize lo n) bs = some b
  room : b.distance + n ≤ b.size
  before : (header k.mem b.addr).previous ≠ 0
  intact : BlockHeader.Repeats { header k.mem b.addr with size := b.size - b.distance } b.distance

/-- The list after the move, with the moved block free. -/
theorem coalesced_moved (hco : Coalesced (xs ++ a :: b :: ys)) (ha : a.used = true) :
    Coalesced (xs ++ a.grown b :: b.moved :: ys) := by
  obtain ⟨hcx, ⟨-, hcy⟩, hseam⟩ := coalesced_append.mp hco
  have hmoved : Coalesced (b.moved :: ys) := by
    cases ys with
    | nil => trivial
    | cons y ys => exact hcy
  refine coalesced_append.mpr ⟨hcx, ⟨by simp [Block.grown, ha], hmoved⟩, ?_⟩
  intro c hc d hd
  obtain rfl : a.grown b = d := by simpa using hd
  simp [Block.grown, ha]

/-- **Split, or at the end**: the heap after the pair is laid out as coalesced blocks again. -/
theorem free_realigned (h : Layout m lo hi (xs ++ a :: b :: ys)) (hco : Coalesced (xs ++ a :: b :: ys))
    (ha : a.used = true) (hb : b.used = false) (hroom : b.distance + n ≤ b.size)
    (hintact : header (realigned m a b) (b.addr + b.distance) = header (resized m a b) b.addr)
    (hlink : b.size - b.distance - n > headerSize + minBlockSize ∨ ys = []) :
    ∃ m', free (allocated (realigned m a b) b.moved n) (b.addr + b.distance + 16) = .ok m' ∧
      Layout m' lo hi (xs ++ a.grown b :: b.moved :: ys) := by
  have hlay := allocated_realigned h hroom hintact hlink
  have hmoved := coalesced_moved hco ha
  have hn : n ≤ b.moved.size := by
    show n ≤ b.size - b.distance
    omega
  rw [List.append_cons] at hlay hmoved ⊢
  rw [show b.addr + b.distance + 16 = b.moved.payload from rfl]
  exact free_placed hlay (show b.moved.used = false from hb) hn hmoved

/-- A header that is marked, and marked again as it was, reads as before. -/
theorem header_setMagic_back {hdr v : Nat} (hv : v < 4294967296) (hw : (header m hdr).magic < 4294967296) :
    header (setMagic (setMagic m hdr v) hdr (header m hdr).magic) hdr = header m hdr := by
  rw [header_setMagic hw, header_setMagic hv]

/-- The blocks next to the moved one keep their tags when it is marked. -/
theorem neighbours_marked {y : Block} {v : Nat} (h : Layout m lo hi (xs ++ a :: b :: y :: ys))
    (hroom : b.distance ≤ b.size) :
    (header (setMagic (realigned m a b) (b.addr + b.distance) v) y.addr).magic = tag y.used ∧
      (header (setMagic (realigned m a b) (b.addr + b.distance) v) a.addr).magic = tag a.used := by
  have hstop := h.stop_eq_addr
  constructor
  · rw [header_behind h hroom, (h.mem_header (b := y) (by simp)).1]
  · rw [header_congr (m := resized m a b) fun x h1 h2 => ?_, (header_resized h).2]
    rw [setMagic_out (by omega), realigned_out h (by omega)]

/-- **A walk of the moved blocks** after the header at the new place is marked and unmarked: only the back
    link of the block after it is stale. -/
theorem linked_unmarked {y : Block} (h : Layout m lo hi (xs ++ a :: b :: y :: ys)) (hb : b.used = false)
    (hroom : b.distance ≤ b.size)
    (hintact : header (realigned m a b) (b.addr + b.distance) = header (resized m a b) b.addr) :
    Linked (walkCell (setMagic (setMagic (realigned m a b) (b.addr + b.distance) (tag true))
      (b.addr + b.distance) (tag false))) Block.addr 0 0 (xs ++ a.grown b :: b.moved :: y :: ys) := by
  have hlay := layout_realigned h hroom hintact
  have hystop := (List.append_cons xs a (b :: y :: ys) ▸ h).stop_eq_addr
  have hmoved : (header (realigned m a b) (b.addr + b.distance)).magic = tag false :=
    (congrArg BlockHeader.magic (header_moved h hroom hintact)).trans (by rw [hb])
  apply hlay.linked.imp
  intro c hc p q hcell
  have hmem : b.moved ∈ xs ++ a.grown b :: b.moved :: y :: ys := by simp
  have hymem : y ∈ xs ++ a.grown b :: b.moved :: y :: ys := by simp
  rcases hlay.tiles.apart hc hmem with rfl | hapart
  · -- the moved header is as after the move
    have hback : header _ (b.addr + b.distance) = header (realigned m a b) (b.addr + b.distance) :=
      hmoved ▸ header_setMagic_back (tag_lt true) (hmoved ▸ tag_lt false)
    have hcell' : header (realigned m a b) (b.addr + b.distance) = _ :=
      (header_relinked h hroom).symm.trans hcell
    unfold walkCell
    rw [show b.moved.addr = b.addr + b.distance from rfl, hback, hcell']
    exact ⟨rfl, rfl, rfl⟩
  · -- the other headers are, but for the back link of `y`
    have hylink := hlay.tiles.apart hc hymem
    have hstopm : b.moved.stop = b.addr + 16 + b.size := by
      rw [Block.stop_eq]
      show b.addr + b.distance + 16 + (b.size - b.distance) = _
      omega
    rw [hstopm, Block.stop_eq, show b.moved.addr = b.addr + b.distance from rfl] at hapart
    apply walkCell_of_cell hcell
    intro x h1 h2
    rw [setMagic_out (by omega), setMagic_out (by omega)]
    unfold relinkHead setPrevious
    split
    · rw [headKey_cons, store32_out]
      rcases hylink with rfl | hylink
      · omega
      · rw [Block.stop_eq, Block.stop_eq] at hylink
        omega
    · rfl

/-- **Neither**: the block after the chosen one has a stale back link, but `free` does not follow it, and
    neither does a walk. -/
theorem free_realigned_whole {y : Block} (h : Layout m lo hi (xs ++ a :: b :: y :: ys)) (ha : a.used = true)
    (hb : b.used = false) (hy : y.used = true) (hroom : b.distance + n ≤ b.size)
    (hintact : header (realigned m a b) (b.addr + b.distance) = header (resized m a b) b.addr)
    (hwhole : ¬ b.size - b.distance - n > headerSize + minBlockSize) :
    ∃ m', free (allocated (realigned m a b) b.moved n) (b.addr + b.distance + 16) = .ok m' ∧
      Tiles lo hi (xs ++ a.grown b :: b.moved :: y :: ys) ∧
      Linked (walkCell m') Block.addr 0 0 (xs ++ a.grown b :: b.moved :: y :: ys) := by
  have hbound := h.bound (b := b) (by simp)
  have hstop := h.stop_eq_addr
  have hystop := (List.append_cons xs a (b :: y :: ys) ▸ h).stop_eq_addr
  obtain ⟨hymagic, hamagic⟩ := neighbours_marked (v := tag true) h (by omega)
  rw [hy] at hymagic
  rw [ha] at hamagic
  have hmarked : header (setMagic (realigned m a b) (b.addr + b.distance) (tag true)) (b.addr + b.distance) =
      ⟨tag true, b.size - b.distance, y.addr, a.addr⟩ := by
    have hmoved : header (realigned m a b) (b.addr + b.distance) = _ := header_moved h (by omega) hintact
    rw [header_setMagic (tag_lt true), hmoved, headKey_cons]
  rw [allocated_whole h hroom hintact hwhole]
  refine ⟨_, free_between_used hmarked (by omega) ?_ ?_, (layout_realigned h (by omega) hintact).tiles,
    linked_unmarked h hb (by omega) hintact⟩
  · intro _
    exact ⟨hymagic, by omega⟩
  · intro _
    exact ⟨hamagic, by omega⟩

/-- **One pair** loses the distance. Where the block is split or the last one, the heap is well formed
    afterwards, and there may be a next pair. -/
theorem PairFits.step (h : PairFits k lo hi n bs b) :
    ∃ k' rest, kmallocAFree k n = .ok k' ∧ k'.freeBytes = some rest ∧
      k.freeBytes = some (rest + b.distance) ∧
      (b.size - b.distance - n > headerSize + minBlockSize ∨ (header k.mem b.addr).next = 0 →
        ∃ bs', WellFormedHeap k' lo hi bs' ∧ ∀ f ∈ bs'.head?, f.used = true) := by
  obtain ⟨heap, hk, hheap⟩ := h.heap.kheap
  obtain ⟨hmem, hfree⟩ := suitable_mem h.selected
  obtain ⟨xs, a, ys, rfl, hused⟩ := exists_before h.first h.heap.coalesced hmem hfree
  have hlay := h.heap.layout
  have hco := h.heap.coalesced
  have hroom := h.room
  have hbound := hlay.bound hmem
  have hlay' : Layout k.mem lo hi ((xs ++ [a]) ++ b :: ys) := List.append_cons xs a (b :: ys) ▸ hlay
  have hintact := (intact_iff hlay (by omega)).mpr h.intact
  have ha0 : a.addr ≠ 0 := by
    have hbefore := h.before
    rwa [hlay.parts.2.2.1] at hbefore
  have hrun := kmallocA_eq hk hheap hlay h.selected
  rw [if_pos (by omega), if_neg ha0, add32_of_lt (by omega)] at hrun
  have hpair : ∀ m', free (allocated (realigned k.mem a b) b.moved n) (b.addr + b.distance + 16) = .ok m' →
      kmallocAFree k n = .ok { k with mem := m' } := by
    intro m' hm'
    rw [kmallocAFree, hrun, ok_bind]
    show (free _ _ >>= _) = _
    rw [hm']
    rfl
  have htotal : k.freeBytes = some (freeSize (xs ++ a.grown b :: b.moved :: ys) + b.distance) := by
    rw [h.heap.freeBytes, freeSize_moved hused hfree (by omega)]
  by_cases hlink : b.size - b.distance - n > headerSize + minBlockSize ∨ ys = []
  · obtain ⟨m', hm', hlaid⟩ := free_realigned hlay hco hused hfree hroom hintact hlink
    have hwf : WellFormedHeap { k with mem := m' } lo hi (xs ++ a.grown b :: b.moved :: ys) :=
      ⟨⟨heap, hk, hheap⟩, hlaid, coalesced_moved hco hused⟩
    exact ⟨_, _, hpair m' hm', hwf.freeBytes, htotal, fun _ => ⟨_, hwf, first_used_grown h.first hused _⟩⟩
  · rw [not_or] at hlink
    obtain ⟨hwhole, hys⟩ := hlink
    cases ys with
    | nil => exact absurd rfl hys
    | cons y ys =>
        have hy : y.used = true := by
          have hseam := (coalesced_append.mp hco).2.1.2.1
          simpa [hfree] using hseam
        obtain ⟨m', hm', ht, hl⟩ := free_realigned_whole hlay hused hfree hy hroom hintact hwhole
        have hrest : KernelHeap.freeBytes { k with mem := m' } = some _ :=
          freeBytes_eq hk hheap ht hl (by simp) hlay.fits
        refine ⟨_, _, hpair m' hm', hrest, htotal, ?_⟩
        intro hagain
        rcases hagain with hsplit | hnext
        · exact absurd hsplit hwhole
        · exact absurd (hlay'.last_of_next hnext) hys

/-- Pairs of calls, one after the other, each for a heap and a request it is for: from `k` to `k'`, with the
    distances of the blocks they settle on. -/
inductive PairRun (lo hi : Nat) (k : KernelHeap) : KernelHeap → List Nat → Prop where
  | refl : PairRun lo hi k k []
  | pair {k' k'' : KernelHeap} {n : Nat} {bs : List Block} {b : Block} {ds : List Nat} :
    PairRun lo hi k k' ds → PairFits k' lo hi n bs b → kmallocAFree k' n = .ok k'' →
      PairRun lo hi k k'' (ds ++ [b.distance])

/-- **Any number of pairs** loses the sum of the distances, at least a byte for each pair. -/
theorem PairRun.freeBytes {ds : List Nat} {total : Nat} (h : PairRun lo hi k k' ds)
    (hfree : k.freeBytes = some total) :
    ∃ rest, k'.freeBytes = some rest ∧ total = rest + ds.sum ∧ ds.length ≤ ds.sum := by
  induction h with
  | refl => exact ⟨total, hfree, rfl, Nat.le_refl 0⟩
  | @pair k' k'' n bs b ds _ hfits hpair ih =>
      obtain ⟨rest, hrest, htotal, hlen⟩ := ih
      obtain ⟨k₁, rest', hstep, hrest', hlost, -⟩ := hfits.step
      rw [hpair] at hstep
      cases hstep
      rw [hrest] at hlost
      have hsame := Option.some.inj hlost
      have hpos := b.distance_pos
      refine ⟨rest', hrest', ?_, ?_⟩
      · rw [List.sum_append, List.sum_singleton]
        omega
      · rw [List.sum_append, List.sum_singleton, List.length_append, List.length_singleton]
        omega

/-- **What `kmalloc_a` and `free` lose.** Let a heap be well formed and coalesced with its first block in
    use, and let the block that `kmalloc_a(n)` settles on have room for the move and the request. Then
    `kmalloc_a(n)` and `free` of its result leave fewer free bytes: the distance from the payload of that
    block to the next page is missing, which is a page when the payload is on one already. After any number
    of such pairs the sum of the distances is missing, so there are not more pairs than free bytes. -/
theorem kmallocAFree_loses {ds : List Nat} {total : Nat} (hrun : PairRun lo hi k k' ds)
    (hfree : k.freeBytes = some total) :
    (∃ rest, k'.freeBytes = some rest ∧ total = rest + ds.sum ∧ ds.length ≤ ds.sum) ∧
    ∀ n bs b, PairFits k' lo hi n bs b → 0 < b.distance ∧ 4096 ∣ b.payload + b.distance ∧
      ∃ k'' rest, kmallocAFree k' n = .ok k'' ∧ k''.freeBytes = some rest ∧
        k'.freeBytes = some (rest + b.distance) ∧
        (b.size - b.distance - n > headerSize + minBlockSize ∨ (header k'.mem b.addr).next = 0 →
          ∃ bs', WellFormedHeap k'' lo hi bs' ∧ ∀ f ∈ bs'.head?, f.used = true) := by
  refine ⟨hrun.freeBytes hfree, ?_⟩
  intro n bs b hfits
  exact ⟨b.distance_pos, b.dvd_boundary, hfits.step⟩

/-- A hundred bytes on page one and given back, and then a hundred bytes on page two. The first pair moves the
    free block by 3984 bytes, the second by a whole page more. -/
theorem kmallocAFree_loses_twice :
    ∃ k k' k'', WellFormedHeap k 64 10064 [⟨64, 16, true⟩, ⟨96, 9952, false⟩] ∧ k.freeBytes = some 9952 ∧
      kmallocAFree k 100 = .ok k' ∧ k'.freeBytes = some 5968 ∧
      kmallocAFree k' 100 = .ok k'' ∧ k''.freeBytes = some 1872 := by
  have hrun : ((HeapState.init ⟨fun _ => 0, none, 0⟩ 10000 64).run [.kmalloc 16]).toOption.map
        (fun s => (s.heap.kheap, s.heap.blocks, header s.heap.mem 96)) =
      some (some ⟨64, 10000⟩, some (entries 0 [⟨64, 16, true⟩, ⟨96, 9952, false⟩]),
        ⟨tag false, 9952, 0, 64⟩) := by
    decide +kernel
  have hfirst : ((HeapState.init ⟨fun _ => 0, none, 0⟩ 10000 64).run [.kmalloc 16]).toOption.bind
        (fun s => (kmallocAFree s.heap 100).toOption.map
          fun k => (k.kheap, k.blocks, header k.mem 4080)) =
      some (some ⟨64, 10000⟩, some (entries 0 [⟨64, 4000, true⟩, ⟨4080, 5968, false⟩]),
        ⟨tag false, 5968, 0, 64⟩) := by
    decide +kernel
  obtain ⟨s, hs, hheap⟩ := Option.map_eq_some_iff.mp hrun
  rw [hs, Option.bind_some] at hfirst
  obtain ⟨k', hcall, hheap'⟩ := Option.map_eq_some_iff.mp hfirst
  simp only [Prod.mk.injEq] at hheap hheap'
  obtain ⟨hk, hblocks, hhdr⟩ := hheap
  obtain ⟨hk', hblocks', hhdr'⟩ := hheap'
  have hwf : WellFormedHeap s.heap 64 10064 [⟨64, 16, true⟩, ⟨96, 9952, false⟩] :=
    wellFormedHeap_of_blocks hk rfl (by decide) ⟨rfl, rfl, rfl⟩ (by simp) ⟨by decide, trivial⟩ hblocks
  have hwf' : WellFormedHeap k' 64 10064 [⟨64, 4000, true⟩, ⟨4080, 5968, false⟩] :=
    wellFormedHeap_of_blocks hk' rfl (by decide) ⟨rfl, rfl, rfl⟩ (by simp) ⟨by decide, trivial⟩ hblocks'
  have hfits : PairFits s.heap 64 10064 100 [⟨64, 16, true⟩, ⟨96, 9952, false⟩] ⟨96, 9952, false⟩ := by
    refine ⟨hwf, by simp, by decide, by decide, ?_, ?_⟩
    · rw [hhdr]
      decide
    · exact BlockHeader.repeats_of_le (by decide)
  have hfits' : PairFits k' 64 10064 100 [⟨64, 4000, true⟩, ⟨4080, 5968, false⟩] ⟨4080, 5968, false⟩ := by
    refine ⟨hwf', by simp, by decide, by decide, ?_, ?_⟩
    · rw [hhdr']
      decide
    · exact BlockHeader.repeats_of_le (by decide)
  have hpair : PairRun 64 10064 s.heap k' _ := .pair .refl hfits (toOption_eq_some.mp hcall)
  obtain ⟨⟨rest, hrest, hsum, -⟩, hnext⟩ := kmallocAFree_loses hpair hwf.freeBytes
  obtain ⟨-, -, k'', rest', hpair', hrest', hlost, -⟩ := hnext _ _ _ hfits'
  -- both distances
  obtain rfl : rest = 5968 := Nat.add_right_cancel (hsum.symm.trans (show 9952 = 5968 + 3984 from rfl))
  obtain rfl : rest' = 1872 :=
    (Nat.add_right_cancel ((Option.some.inj (hrest.symm.trans hlost)).symm.trans
      (show 5968 = 1872 + 4096 from rfl)))
  exact ⟨s.heap, k', k'', hwf, hwf.freeBytes, toOption_eq_some.mp hcall, hrest, hpair', hrest'⟩

/-- **A pair that loses most of the heap.** A hundred bytes, allocated on page one and freed, leave 968 of
    4952 free bytes. -/
theorem kmallocAFree_not_kept :
    ∃ k bs b, WellFormedHeap k 64 5064 bs ∧ (∀ f ∈ bs.head?, f.used = true) ∧
      suitable 64 (requiredSize 64 100) bs = some b ∧ b.distance + 100 ≤ b.size ∧
      k.freeBytes = some 4952 ∧ ∃ k', kmallocAFree k 100 = .ok k' ∧ k'.freeBytes = some 968 := by
  have hrun : ((HeapState.init ⟨fun _ => 0, none, 0⟩ 5000 64).run [.kmalloc 16]).toOption.map
        (fun s => (s.heap.kheap, s.heap.blocks)) =
      some (some ⟨64, 5000⟩, some (entries 0 [⟨64, 16, true⟩, ⟨96, 4952, false⟩])) := by
    decide +kernel
  have hbytes : ((HeapState.init ⟨fun _ => 0, none, 0⟩ 5000 64).run [.kmalloc 16]).toOption.map
        (fun s => (s.heap.freeBytes, (kmallocAFree s.heap 100).toOption.bind KernelHeap.freeBytes)) =
      some (some 4952, some 968) := by
    decide +kernel
  obtain ⟨s, hrun', hs⟩ := Option.map_eq_some_iff.mp hrun
  rw [hrun', Option.map_some] at hbytes
  simp only [Prod.mk.injEq] at hs
  obtain ⟨hk, hblocks⟩ := hs
  obtain ⟨htotal, hpair⟩ := Prod.mk.inj (Option.some.inj hbytes)
  refine ⟨s.heap, [⟨64, 16, true⟩, ⟨96, 4952, false⟩], ⟨96, 4952, false⟩,
    wellFormedHeap_of_blocks hk rfl (by decide) ⟨rfl, rfl, rfl⟩ (by simp) ⟨by decide, trivial⟩ hblocks,
    by simp, by decide, by decide, htotal, ?_⟩
  cases hcall : kmallocAFree s.heap 100 with
  | error _ =>
      rw [hcall] at hpair
      cases hpair
  | ok k' =>
      rw [hcall] at hpair
      exact ⟨k', rfl, hpair⟩

end WeirdOs
