import WeirdOs.Heap.Correctness.WellFormed
import WeirdOs.Lib.BestFit

/-!
# `Heap.Correctness.Kmalloc` — one allocation in any well-formed heap

The earlier files follow a heap from its creation on. Here a heap is given as it stands
(`WellFormedHeap`): whatever a walk along the links finds well formed is one
(`exists_wellFormedHeap_iff`), reachable or not.

* `kmalloc_bestFit` — which block an allocation hands out, when it fails, and that a failure leaves
  everything as it was;
* `kmalloc_free_blocks` — freeing the block at once gives the block list back.

The search is `Lib.BestFit`. A region at the null address is excluded from the first result: its second
loop starts at a null pointer and never looks at a block (`null_region_not_bestFit`).
-/

namespace WeirdOs

open Lib Lib.Piece

variable {m : Mem} {k k' : KernelHeap} {lo hi : Nat} {bs xs ys : List Block} {b : Block}

/-! ## Well-formed heaps -/

/-- The kernel heap, laid out as the coalesced blocks `bs`. -/
structure WellFormedHeap (k : KernelHeap) (lo hi : Nat) (bs : List Block) : Prop where
  kheap : ∃ heap, k.kheap = some heap ∧ heap.firstBlock = lo
  layout : Layout k.mem lo hi bs
  coalesced : Coalesced bs

/-- A layout is what the walk finds. -/
theorem Layout.blocks_eq {heap : Heap} (h : Layout k.mem lo hi bs) (hk : k.kheap = some heap)
    (hfirst : heap.firstBlock = lo) : k.blocks = some (entries 0 bs) := by
  have hlen := h.length_lt
  cases bs with
  | nil => exact absurd rfl h.nonempty
  | cons b bs =>
      rw [KernelHeap.blocks, hk, Option.bind_some, hfirst, ← h.tiles.1]
      exact walk_eq h.tiles h.linked (Nat.lt_of_succ_lt hlen)

theorem WellFormedHeap.blocks_eq (h : WellFormedHeap k lo hi bs) : k.blocks = some (entries 0 bs) := by
  obtain ⟨heap, hk, hfirst⟩ := h.kheap
  exact h.layout.blocks_eq hk hfirst

/-- Clearing the last bit. -/
theorem and_lastBitMask {a : Nat} (h : a < 4294967296) : a &&& 0xfffffffe = a / 2 * 2 := by
  have hmask := and_highMask (j := 1) (by decide) h
  rwa [Nat.shiftLeft_eq (a >>> 1), Nat.shiftRight_eq_div_pow] at hmask

/-- A valid magic number is one of the two. -/
theorem eq_tag_of_isValid {v : Nat} (hv : v < 4294967296) (h : isValid v = true) : v = tag (isUsed v) := by
  have hand : v / 2 * 2 = magicNumber := by
    rw [← and_lastBitMask hv]
    simpa [isValid] using h
  have hused : isUsed v = decide (v % 2 ≠ 0) := by
    rw [isUsed, Nat.and_one_is_mod]
  rw [hused]
  unfold magicNumber at hand
  rcases Nat.mod_two_eq_zero_or_one v with h0 | h1
  · rw [h0]
    simp only [ne_eq, not_true_eq_false, decide_false]
    exact (show v = 0x5d6d9cd6 from by omega).trans rfl
  · rw [h1]
    simp only [ne_eq, Nat.one_ne_zero, not_false_eq_true, decide_true]
    exact (show v = 0x5d6d9cd7 from by omega).trans (by decide)

/-- A walk starts with the header it is given. -/
theorem walk_head {fuel b : Nat} {l : List (Nat × BlockHeader)} (h : walk m fuel b = some l) :
    ∃ l', l = (b, header m b) :: l' := by
  cases fuel with
  | zero => cases h
  | succ fuel =>
      rw [walk] at h
      split at h
      · cases h
        exact ⟨[], rfl⟩
      · obtain ⟨l', _, rfl⟩ := Option.map_eq_some_iff.mp h
        exact ⟨l', rfl⟩

/-- **A well-formed walk is a layout.** -/
theorem layout_of_walk {fuel : Nat} :
    ∀ {b prev : Nat} {l : List (Nat × BlockHeader)}, walk m fuel b = some l → l.IsChain Follows →
      (∃ x ∈ l.getLast?, x.1 + headerSize + x.2.size = hi ∧ x.2.next = 0) →
      (∀ x ∈ l, isValid x.2.magic = true) → (header m b).previous = prev →
      ∃ bs, bs ≠ [] ∧ Tiles b hi bs ∧ Linked (cell m) Block.addr prev 0 bs ∧ Coalesced bs ∧
        ∀ c ∈ bs.head?, c.used = isUsed (header m b).magic := by
  induction fuel with
  | zero => intro b prev l hwalk; cases hwalk
  | succ fuel ih =>
      intro b prev l hwalk hchain hlast hmagic hprev
      have hb : (b, header m b) ∈ l := by
        obtain ⟨l', rfl⟩ := walk_head hwalk
        exact List.mem_cons_self
      have htag : (header m b).magic = tag (isUsed (header m b).magic) :=
        eq_tag_of_isValid (load32_lt m b) (hmagic _ hb)
      have hcell : ∀ next, (header m b).next = next →
          header m b = ⟨tag (isUsed (header m b).magic), (header m b).size, next, prev⟩ := by
        rintro _ rfl
        rw [← htag, ← hprev]
      rw [walk] at hwalk
      split at hwalk
      · -- the last block
        rename_i hnext
        cases hwalk
        obtain ⟨x, hx, hstop, -⟩ := hlast
        cases hx
        exact ⟨[⟨b, (header m b).size, isUsed (header m b).magic⟩], by simp, ⟨rfl, hstop⟩,
          ⟨hcell 0 hnext, trivial⟩, trivial, by simp⟩
      · rename_i hnext
        obtain ⟨l', hwalk', rfl⟩ := Option.map_eq_some_iff.mp hwalk
        obtain ⟨l'', rfl⟩ := walk_head hwalk'
        obtain ⟨hfollows, hchain'⟩ := List.isChain_cons_cons.mp hchain
        obtain ⟨bs, hne, htiles, hlinked, hco, hhead⟩ :=
          ih hwalk' hchain' (by rwa [List.getLast?_cons_cons] at hlast)
            (fun x hx => hmagic x (List.mem_cons_of_mem _ hx)) hfollows.previous
        refine ⟨⟨b, (header m b).size, isUsed (header m b).magic⟩ :: bs, by simp, ⟨rfl, ?_⟩, ⟨?_, hlinked⟩,
          ?_, by simp⟩
        · rw [Block.stop, hfollows.tile]
          exact htiles
        · exact hcell _ (htiles.headKey_eq hne).symm
        · cases bs with
          | nil => trivial
          | cons c bs =>
              refine ⟨?_, hco⟩
              intro hfree
              have hc := hhead c rfl
              simp only [isFree_eq, Bool.not_eq_true', hc] at hfree
              rcases hfollows.notBothFree with hu | hu
              · exact absurd hu (by simp [hfree.1])
              · exact absurd hu (by simp [hfree.2])

/-- **The well-formed heaps are those a walk finds well formed.** -/
theorem exists_wellFormedHeap_iff :
    (∃ bs, WellFormedHeap k lo hi bs) ↔
      hi < 4294967296 ∧ (∃ heap, k.kheap = some heap ∧ heap.firstBlock = lo) ∧
        ∃ l, k.blocks = some l ∧ WellFormed lo hi l := by
  constructor
  · rintro ⟨bs, h⟩
    exact ⟨h.layout.fits, h.kheap, _, h.blocks_eq, entries_wellFormed h.layout h.coalesced⟩
  · rintro ⟨hfits, ⟨heap, hk, hfirst⟩, l, hl, hwf⟩
    rw [KernelHeap.blocks, hk, Option.bind_some, hfirst] at hl
    have hprev : (header k.mem lo).previous = 0 := by
      obtain ⟨x, hx, hx1, hx2⟩ := hwf.first
      obtain ⟨l', rfl⟩ := walk_head hl
      cases hx
      exact hx2
    obtain ⟨bs, hne, htiles, hlinked, hco, -⟩ := layout_of_walk hl hwf.chain hwf.last hwf.magic hprev
    exact ⟨bs, ⟨heap, hk, hfirst⟩, ⟨htiles, hlinked, hfits, hne⟩, hco⟩

/-- The walk determines the blocks. -/
theorem entries_injective :
    ∀ {bs bs' : List Block} {prev : Nat}, entries prev bs = entries prev bs' → bs = bs' := by
  intro bs
  induction bs with
  | nil =>
      intro bs' prev h
      cases bs' with
      | nil => rfl
      | cons b' bs' => cases h
  | cons b bs ih =>
      intro bs' prev h
      cases bs' with
      | nil => cases h
      | cons b' bs' =>
          simp only [entries, List.cons.injEq, Prod.mk.injEq, BlockHeader.mk.injEq] at h
          obtain ⟨⟨haddr, htag, hsize, -, -⟩, hrest⟩ := h
          have hused : b.used = b'.used := by simpa using congrArg isUsed htag
          obtain rfl := Block.eq_of haddr hsize hused
          rw [ih hrest]

/-- A walk over coalesced blocks that tile the region comes from a well-formed heap. -/
theorem wellFormedHeap_of_blocks {heap : Heap} (hk : k.kheap = some heap) (hfirst : heap.firstBlock = lo)
    (hfits : hi < 4294967296) (ht : Tiles lo hi bs) (hne : bs ≠ []) (hco : Coalesced bs)
    (hblocks : k.blocks = some (entries 0 bs)) : WellFormedHeap k lo hi bs := by
  have hwf : WellFormed lo hi (entries 0 bs) := by
    refine ⟨?_, entries_chain ht hco, entries_last ht hne, fun x hx => entries_magic hx⟩
    cases bs with
    | nil => exact absurd rfl hne
    | cons b bs => exact ⟨_, rfl, ht.1, rfl⟩
  obtain ⟨bs', h⟩ := exists_wellFormedHeap_iff.mpr ⟨hfits, ⟨heap, hk, hfirst⟩, _, hblocks, hwf⟩
  rwa [entries_injective (Option.some.inj (hblocks.symm.trans h.blocks_eq))]

/-- A new heap is well formed. -/
theorem wellFormedHeap_init (k : KernelHeap) {size start : Nat} (hsize : 16 ≤ size)
    (hfits : start + size < 4294967296) :
    WellFormedHeap (initKernalHeap k size start) start (start + size) [⟨start, size - 16, false⟩] := by
  obtain ⟨hlay, hfirst⟩ := createHeap_spec k.mem hsize hfits
  exact ⟨⟨_, rfl, hfirst⟩, hlay, trivial⟩

/-! ## Which block is handed out -/

/-- The free blocks of size `n` or more, and the first of the smallest of them. -/
abbrev IsBestFit (n : Nat) : List Block → Block → List Block → Prop :=
  BestFit (fun b => !b.used) Block.size n

/-- The search past a region's null start is the pass of `Lib.BestFit`. -/
theorem suitable_scanned {n : Nat} (hlo : 0 < lo) (h : suitable lo n bs = some b) :
    Scanned (fun b => !b.used) Block.size n bs b := by
  obtain ⟨f, hf, rfl⟩ := Option.map_eq_some_iff.mp h
  rw [if_neg (by omega)]
  exact scanned_foldl hf

/-- There is nothing to choose from only when every block is used. -/
theorem suitable_eq_none {n : Nat} : suitable lo n bs = none ↔ ∀ b ∈ bs, b.used = true := by
  simp [suitable]

/-- **`kmalloc`** on an initialised heap, as a function of the block list. -/
theorem kmalloc_eq {heap : Heap} (hk : k.kheap = some heap) (hfirst : heap.firstBlock = lo)
    (h : Layout k.mem lo hi bs) (n : Nat) :
    kmalloc k n =
      match suitable lo n bs with
      | none => .error (.assertion noUnusedBlocks)
      | some b =>
        if n ≤ b.size then .ok (b.payload, { k with mem := allocated k.mem b n })
        else .error (.assertion outOfHeapSpace) := by
  rw [kmalloc_of_kheap hk, allocInternal_eq h hfirst]
  cases suitable lo n bs with
  | none => rfl
  | some b =>
      by_cases hn : n ≤ b.size
      · simp [hn]
      · simp [hn]

/-- **Best fit.** Past a null start, `kmalloc(n)` succeeds iff some free block has size `n` or more; it
    hands out the first of the smallest ones; and a failure is an assertion that leaves the heap as it
    was. -/
theorem kmalloc_bestFit (h : WellFormedHeap k lo hi bs) (hlo : 0 < lo) (n : UInt32) :
    ((∃ p k', Stateful.kmalloc n.toNat k = .ok p k') ↔ ∃ b ∈ bs, b.used = false ∧ n.toNat ≤ b.size) ∧
      (∀ p k', Stateful.kmalloc n.toNat k = .ok p k' →
        ∃ xs b ys, bs = xs ++ b :: ys ∧ IsBestFit n.toNat xs b ys ∧ p = b.payload) ∧
      ∀ e k', Stateful.kmalloc n.toNat k = .error e k' →
        (∃ text, e = .assertion text) ∧ k' = k ∧ k'.blocks = k.blocks := by
  obtain ⟨heap, hk, hfirst⟩ := h.kheap
  have hrun := kmalloc_eq hk hfirst h.layout n.toNat
  simp only [Stateful.kmalloc_eq_ok]
  refine ⟨?_, ?_, ?_⟩
  · cases hs : suitable lo n.toNat bs with
    | none =>
        have hnone := suitable_eq_none.mp hs
        rw [hrun, hs]
        apply iff_of_false (by simp)
        rintro ⟨b, hb, hfree, _⟩
        exact absurd (hnone b hb) (by simp [hfree])
    | some b =>
        have hfits := (suitable_scanned hlo hs).fits_iff
        simp only [Bool.not_eq_true'] at hfits
        rw [← hfits, hrun, hs]
        by_cases hn : n.toNat ≤ b.size <;> simp [hn]
  · intro p k' hok
    rw [hrun] at hok
    cases hs : suitable lo n.toNat bs with
    | none => rw [hs] at hok; cases hok
    | some b =>
        rw [hs] at hok
        by_cases hn : n.toNat ≤ b.size
        · simp only [hn, if_true, Except.ok.injEq, Prod.mk.injEq] at hok
          obtain ⟨xs, ys, hsplit, hbest⟩ := (suitable_scanned hlo hs).bestFit hn
          exact ⟨xs, b, ys, hsplit, hbest, hok.1.symm⟩
        · simp [hn] at hok
  · intro e k' herr
    obtain rfl := Stateful.kmalloc_error herr
    refine ⟨?_, rfl, rfl⟩
    have herr' := Stateful.kmalloc_eq_error.mp ⟨_, herr⟩
    rw [hrun] at herr'
    cases hs : suitable lo n.toNat bs with
    | none => rw [hs] at herr'; cases herr'; exact ⟨_, rfl⟩
    | some b =>
        rw [hs] at herr'
        by_cases hn : n.toNat ≤ b.size
        · simp [hn] at herr'
        · simp only [hn, if_false, Except.error.injEq] at herr'
          exact ⟨_, herr'.symm⟩

/-- A new heap of 100 bytes at address 64 has room for 16. -/
theorem kmalloc_bestFit_init :
    ∃ p k', Stateful.kmalloc 16 (initKernalHeap ⟨fun _ => 0, none, 0⟩ 100 64) = .ok p k' :=
  (kmalloc_bestFit (wellFormedHeap_init _ (by decide) (by decide)) (by decide) 16).1.mpr
    ⟨⟨64, 84, false⟩, by decide, rfl, by decide⟩

/-- **A region at the null address**: the first free block is too small, and the one behind it, which is
    not, is never looked at. -/
theorem null_region_not_bestFit :
    ∃ k bs, WellFormedHeap k 0 200 bs ∧ (∃ b ∈ bs, b.used = false ∧ (40 : UInt32).toNat ≤ b.size) ∧
      ¬ ∃ p k', Stateful.kmalloc (40 : UInt32).toNat k = .ok p k' := by
  have hrun : ((HeapState.init ⟨fun _ => 0, none, 0⟩ 200 0).run
      [.kmalloc 16, .kmalloc 16, .kmalloc 16, .free 48]).toOption.map
        (fun s => (s.heap.kheap, s.heap.blocks, (kmalloc s.heap 40).toOption.isSome)) =
      some (some ⟨0, 200⟩,
        some (entries 0 [⟨0, 16, true⟩, ⟨32, 16, false⟩, ⟨64, 16, true⟩, ⟨96, 88, false⟩]), false) := by
    decide +kernel
  obtain ⟨s, -, hs⟩ := Option.map_eq_some_iff.mp hrun
  simp only [Prod.mk.injEq] at hs
  obtain ⟨hk, hblocks, hfail⟩ := hs
  refine ⟨s.heap, _, wellFormedHeap_of_blocks hk rfl (by decide) ?_ (by simp) ?_ hblocks,
    ⟨⟨96, 88, false⟩, by simp, rfl, by decide⟩, ?_⟩
  · exact ⟨rfl, rfl, rfl, rfl, rfl⟩
  · exact ⟨by decide, by decide, by decide, trivial⟩
  · rintro ⟨p, k', hok⟩
    have hok' := Stateful.kmalloc_eq_ok.mp hok
    rw [show (40 : UInt32).toNat = 40 from rfl] at hok'
    rw [hok'] at hfail
    cases hfail

/-! ## Freeing at once -/

/-- Releasing what was placed, and joining, gives the block back. -/
theorem merges_place {n : Nat} (hfree : b.used = false) (hn : n ≤ b.size) :
    Merges (xs ++ (⟨b.addr, placedSize b n, false⟩ :: (place b n).tail ++ ys)) (xs ++ b :: ys) := by
  unfold place placedSize
  split
  · rename_i hsplit
    unfold headerSize minBlockSize at hsplit
    have hjoin : Block.join ⟨b.addr, n, false⟩ ⟨b.addr + 16 + n, b.size - n - 16, false⟩ = b := by
      rw [Block.join, headerSize, show n + (b.size - n - 16 + 16) = b.size from by omega, ← hfree]
    have hmerge := Merge.mk xs (a := (⟨b.addr, n, false⟩ : Block))
      (b := ⟨b.addr + 16 + n, b.size - n - 16, false⟩) ys rfl rfl
    rw [join_eq, hjoin] at hmerge
    exact .single hmerge
  · rw [show (⟨b.addr, b.size, false⟩ : Block) = b from by rw [← hfree]]
    exact .refl

/-- **`free` of what was placed** in a free block of a coalesced list gives the list back, whether the block
    was split or not. -/
theorem free_placed {n : Nat} (h : Layout m lo hi (xs ++ (place b n ++ ys))) (hfree : b.used = false)
    (hn : n ≤ b.size) (hco : Coalesced (xs ++ b :: ys)) :
    ∃ m', free m b.payload = .ok m' ∧ Layout m' lo hi (xs ++ b :: ys) := by
  obtain ⟨hcx, hcy, hseam⟩ := coalesced_append.mp hco
  obtain ⟨rest, hplace, -⟩ := place_eq b n
  have hplaced := coalesced_place (n := n) (d := b) hcx hfree hcy
  have hmerges : Merges (xs ++ (⟨b.addr, placedSize b n, false⟩ :: (place b n).tail ++ ys)) (xs ++ b :: ys) :=
    merges_place hfree hn
  rw [hplace] at h hplaced hmerges
  obtain ⟨m', bs', hrun, hlay, hmerges', -, hco'⟩ := free_spec_at h rfl
  -- in front of a free block there is a used one, so `free` joins all there is to join
  have hcoalesced := hco' (fun p hp _ => by simpa [hfree] using hseam p hp b rfl) hplaced
  have hbs' : bs' = xs ++ b :: ys := by
    rw [hmerges'.eq_coalesce hcoalesced, ← coalesce_of_coalesced hco]
    exact hmerges.coalesce_eq
  subst hbs'
  exact ⟨m', hrun, hlay⟩

/-- **`free` undoes `kmalloc`**: whatever was handed out, split off or not, freeing it at once gives the
    block list back. -/
theorem kmalloc_free_blocks (h : WellFormedHeap k lo hi bs) {n : UInt32} {p : Nat}
    (hrun : kmalloc k n.toNat = .ok (p, k')) :
    ∃ m', free k'.mem p = .ok m' ∧ WellFormedHeap { k' with mem := m' } lo hi bs ∧
      KernelHeap.blocks { k' with mem := m' } = k.blocks := by
  obtain ⟨heap, hk, hfirst⟩ := h.kheap
  obtain ⟨xs, b, ys, rfl, hfree, hn, rfl, hk', hlay, -⟩ := kmalloc_spec hk hfirst h.layout hrun
  obtain ⟨m', hrun', hlay'⟩ := free_placed hlay hfree hn h.coalesced
  have hwf : WellFormedHeap { k' with mem := m' } lo hi (xs ++ b :: ys) :=
    ⟨⟨heap, hk', hfirst⟩, hlay', h.coalesced⟩
  exact ⟨m', hrun', hwf, hwf.blocks_eq.trans h.blocks_eq.symm⟩

/-- Sixteen bytes of a new heap of 100, for which its block is split, and seventy, for which it is not; both
    taken and given back. -/
theorem kmalloc_free_blocks_init :
    ∃ p q k₁ k₂ m₁ m₂,
      kmalloc (initKernalHeap ⟨fun _ => 0, none, 0⟩ 100 64) 16 = .ok (p, k₁) ∧ free k₁.mem p = .ok m₁ ∧
      KernelHeap.blocks { k₁ with mem := m₁ } =
        KernelHeap.blocks (initKernalHeap ⟨fun _ => 0, none, 0⟩ 100 64) ∧
      kmalloc (initKernalHeap ⟨fun _ => 0, none, 0⟩ 100 64) 70 = .ok (q, k₂) ∧ free k₂.mem q = .ok m₂ ∧
      KernelHeap.blocks { k₂ with mem := m₂ } =
        KernelHeap.blocks (initKernalHeap ⟨fun _ => 0, none, 0⟩ 100 64) := by
  have hsplit : (kmalloc (initKernalHeap ⟨fun _ => 0, none, 0⟩ 100 64) 16).toOption.isSome = true := by
    decide +kernel
  have hwhole : (kmalloc (initKernalHeap ⟨fun _ => 0, none, 0⟩ 100 64) 70).toOption.isSome = true := by
    decide +kernel
  obtain ⟨⟨p, k₁⟩, h₁⟩ := Option.isSome_iff_exists.mp hsplit
  obtain ⟨⟨q, k₂⟩, h₂⟩ := Option.isSome_iff_exists.mp hwhole
  obtain ⟨m₁, hfree₁, -, hblocks₁⟩ :=
    kmalloc_free_blocks (wellFormedHeap_init _ (by decide) (by decide)) (n := 16) (toOption_eq_some.mp h₁)
  obtain ⟨m₂, hfree₂, -, hblocks₂⟩ :=
    kmalloc_free_blocks (wellFormedHeap_init _ (by decide) (by decide)) (n := 70) (toOption_eq_some.mp h₂)
  exact ⟨p, q, k₁, k₂, m₁, m₂, toOption_eq_some.mp h₁, hfree₁, hblocks₁, toOption_eq_some.mp h₂, hfree₂,
    hblocks₂⟩

/-! ## `free` in any well-formed heap -/

/-- **`free`** of any block: a free one is left alone, a used one is released and joined with its
    neighbours. A block at the null address has to be in use. -/
theorem WellFormedHeap.free (h : WellFormedHeap k lo hi bs) (hnull : ∀ c ∈ bs, c.addr = 0 → c.used = true)
    (hb : b ∈ bs) :
    ∃ m', free k.mem b.payload = .ok m' ∧
      WellFormedHeap { k with mem := m' } lo hi (coalesce (release b.payload bs)) := by
  obtain ⟨xs, ys, rfl⟩ := List.append_of_mem hb
  rw [release_eq h.layout.tiles]
  cases hu : b.used with
  | true =>
      obtain ⟨m', bs', hrun, hlay, hmerges, -, hco⟩ := free_spec_at h.layout hu
      have hco' := hco (fun p hp => hnull p (List.mem_append_left _ (List.mem_of_getLast? hp))) h.coalesced
      rw [← hmerges.eq_coalesce hco']
      exact ⟨m', hrun, h.kheap, hlay, hco'⟩
  | false =>
      rw [show { b with used := false } = b from by rw [← hu], coalesce_of_coalesced h.coalesced]
      refine ⟨k.mem, ?_, h⟩
      simp [WeirdOs.free, h.layout.sub32_payload hb, (h.layout.mem_header hb).1, hu]

/-- Only the first block can be at the null address. -/
theorem Tiles.used_of_addr_eq_zero (h : Tiles lo hi bs) (hfirst : ∀ f ∈ bs.head?, f.used = true) :
    ∀ c ∈ bs, c.addr = 0 → c.used = true := by
  intro c hc hc0
  cases bs with
  | nil => exact absurd hc (by simp)
  | cons f bs =>
      rcases List.mem_cons.mp hc with rfl | hc
      · exact hfirst c rfl
      · have := (h.2.mem hc).1
        rw [Block.stop_eq] at this
        omega

/-- **A tiling is determined by the tags and sizes found in memory.** -/
theorem Tiles.unique {bs' : List Block} (h : Tiles lo hi bs) (h' : Tiles lo hi bs')
    (hs : ∀ c ∈ bs, (header m c.addr).magic = tag c.used ∧ (header m c.addr).size = c.size)
    (hs' : ∀ c ∈ bs', (header m c.addr).magic = tag c.used ∧ (header m c.addr).size = c.size) : bs = bs' := by
  induction bs generalizing lo bs' with
  | nil =>
      cases bs' with
      | nil => rfl
      | cons c' bs' =>
          have := h'.length_le
          have hlo : lo = hi := h
          simp only [List.length_cons] at this
          omega
  | cons c bs ih =>
      cases bs' with
      | nil =>
          have := h.length_le
          have hlo : lo = hi := h'
          simp only [List.length_cons] at this
          omega
      | cons c' bs' =>
          have haddr : c.addr = c'.addr := h.1.trans h'.1.symm
          obtain ⟨hmagic, hsize⟩ := hs c List.mem_cons_self
          obtain ⟨hmagic', hsize'⟩ := hs' c' List.mem_cons_self
          rw [haddr] at hmagic hsize
          have hused : c.used = c'.used := by
            simpa using congrArg isUsed (hmagic.symm.trans hmagic')
          obtain rfl := Block.eq_of haddr (hsize.symm.trans hsize') hused
          rw [ih h.2 h'.2 (fun d hd => hs d (List.mem_cons_of_mem _ hd))
            fun d hd => hs' d (List.mem_cons_of_mem _ hd)]

end WeirdOs
