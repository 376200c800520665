import WeirdOs.Heap.Correctness.Kmalloc
import WeirdOs.Heap.Correctness.Payload

/-!
# `Heap.Correctness.New` — `new`, and memory that is not the heap's

The heap keeps some bytes of its region for itself: those of no live payload (`HeapState.Own`). Whoever leaves
them alone leaves the heap as it is (`HeapInv.setOther`), and `kmalloc` writes nothing else
(`HeapInv.malloc_keeps`).

`new` asserts what `kmalloc` asserts already. `HeapInv.new_new_iff` says when two objects can be made one after
the other: the second may come out of what the first leaves of its block.
-/

namespace WeirdOs

open Lib Lib.Piece

variable {lo hi n n' p room : Nat} {s s' : HeapState} {bs : List Block}

/-! ## The heap's own bytes -/

/-- The headers are among them. -/
theorem HeapInv.own_of_inHeaders {x : Nat} (h : HeapInv lo hi s bs) (hx : InHeaders bs x) : s.Own lo hi x := by
  have hspan := hx.span h.layout.tiles
  refine ⟨hspan.1, hspan.2, fun p r hp => ?_⟩
  obtain ⟨b, hb, -, rfl, hr, -⟩ := h.block_of_live hp
  by_contra hin
  refine h.layout.not_inHeaders hb (by omega) ?_ hx
  rw [Block.stop_eq]
  have hpay := Block.payload_eq b
  omega

/-- What is live is outside of a free block. -/
theorem HeapInv.live_off_free {b : Block} {q r : Nat} (h : HeapInv lo hi s bs) (hb : b ∈ bs)
    (hfree : b.used = false) (hq : s.live q = some r) : q + r ≤ b.addr ∨ b.stop ≤ q := by
  obtain ⟨c, hc, hu, rfl, hr, -⟩ := h.block_of_live hq
  have hapart := h.layout.apart hc hb (Block.ne_of_used hu hfree)
  have hpay := Block.payload_eq c
  have hstop := Block.stop_eq b
  omega

/-- What is in a free block is the heap's own. -/
theorem HeapInv.own_of_free {b : Block} {x : Nat} (h : HeapInv lo hi s bs) (hb : b ∈ bs)
    (hfree : b.used = false) (hle : b.addr ≤ x) (hlt : x < b.stop) : s.Own lo hi x := by
  have hbound := h.layout.bound hb
  have hstop := Block.stop_eq b
  refine ⟨by omega, by omega, fun q r hq => ?_⟩
  have hout := h.live_off_free hb hfree hq
  omega

/-- Where all that was live is live, no more is the heap's own. -/
theorem HeapState.Own.mono {x : Nat} (h : s'.Own lo hi x) (hlive : ∀ q r, s.live q = some r → s'.live q = some r) :
    s.Own lo hi x :=
  ⟨h.1, h.2.1, fun q r hq => h.2.2 q r (hlive q r hq)⟩

/-- Other memory. -/
def HeapState.setMem (s : HeapState) (m : Mem) : HeapState := { s with heap := { s.heap with mem := m } }

/-- **Other memory may change.** -/
theorem HeapInv.setOther {m : Mem} (h : HeapInv lo hi s bs) (hm : ∀ x, s.Own lo hi x → m x = s.heap.mem x) :
    HeapInv lo hi (s.setMem m) bs :=
  ⟨h.kheap, h.layout.congr fun x hx => hm x (h.own_of_inHeaders hx), h.owned, h.coalesced⟩

/-- **`kmalloc`, block by block.** It writes to nothing but the heap's own bytes. -/
theorem HeapInv.malloc_keeps (h : HeapInv lo hi s bs) (hrun : s.malloc n = .ok (p, s')) :
    ∃ xs b ys, bs = xs ++ b :: ys ∧ b.used = false ∧ n ≤ b.size ∧ p = b.payload ∧
      HeapInv lo hi s' (xs ++ (place b n ++ ys)) ∧ s'.live = Function.update s.live p (some n) ∧
      ∀ x, ¬ s.Own lo hi x → s'.heap.mem x = s.heap.mem x := by
  obtain ⟨⟨q, k'⟩, hmalloc, hret⟩ := bind_eq_ok.mp hrun
  obtain ⟨rfl, rfl⟩ := Prod.mk.inj (Except.ok.inj hret)
  obtain ⟨heap, hk, hheap⟩ := h.kheap
  obtain ⟨xs, b, ys, rfl, hfree, hn, rfl, hk', hlay, hframe⟩ := kmalloc_spec hk hheap h.layout hmalloc
  have hco : 0 < lo → Coalesced (xs ++ (place b n ++ ys)) := fun hlo => by
    obtain ⟨hxs, hys, -⟩ := coalesced_append.mp (h.coalesced hlo)
    exact coalesced_place hxs hfree hys
  have hinv : HeapInv lo hi ⟨k', Function.update s.live b.payload (some n)⟩ (xs ++ (place b n ++ ys)) :=
    ⟨⟨heap, hk', hheap⟩, hlay, (h.owned.drop_free hfree).place hn, hco⟩
  refine ⟨xs, b, ys, rfl, hfree, hn, rfl, hinv, rfl, fun x hx => ?_⟩
  refine hframe x (fun hin => hx (h.own_of_inHeaders hin)) fun hin => hx ?_
  -- the rest that is split off is in a free block
  have hplace := inHeaders_place hn hin
  have hstop := Block.stop_eq b
  have hle := le_placedSize hn
  exact h.own_of_free (b := b) (by simp) hfree (by omega) (by omega)

/-- **What `malloc` hands out** was the heap's own. -/
theorem HeapInv.malloc_own {x : Nat} (h : HeapInv lo hi s bs) (hrun : s.malloc n = .ok (p, s')) (hle : p ≤ x)
    (hlt : x < p + n) : s.Own lo hi x := by
  obtain ⟨xs, b, ys, rfl, hfree, hn, rfl, -⟩ := h.malloc_keeps hrun
  have hpay := Block.payload_eq b
  have hstop := Block.stop_eq b
  exact h.own_of_free (b := b) (by simp) hfree (by omega) (by omega)

/-- What is live stays live, with the same bytes. -/
theorem HeapInv.malloc_live {q r : Nat} (h : HeapInv lo hi s bs) (hrun : s.malloc n = .ok (p, s'))
    (hq : s.live q = some r) : s'.live q = some r := by
  obtain ⟨⟨p', k'⟩, hmalloc, hret⟩ := bind_eq_ok.mp hrun
  obtain ⟨rfl, rfl⟩ := Prod.mk.inj (Except.ok.inj hret)
  have hfresh := h.kmalloc_fresh hmalloc
  refine (Function.update_of_ne ?_ ..).trans hq
  rintro rfl
  rw [hfresh] at hq
  cases hq

/-- Blocks with room for `n` bytes and then for `n'`: one that can be split, or two. -/
def RoomForTwo (n n' : Nat) (bs : List Block) : Prop :=
  (∃ b ∈ bs, b.used = false ∧ n + 16 + n' ≤ b.size) ∨
    ∃ b ∈ bs, ∃ c ∈ bs, b ≠ c ∧ b.used = false ∧ c.used = false ∧ n ≤ b.size ∧ n' ≤ c.size

/-- The blocks found in memory have it. -/
def HeapState.RoomForTwo (s : HeapState) (n n' : Nat) : Prop :=
  ∃ bs, s.blocks = some (entries 0 bs) ∧ WeirdOs.RoomForTwo n n' bs

theorem HeapInv.roomForTwo_iff (h : HeapInv lo hi s bs) : s.RoomForTwo n n' ↔ WeirdOs.RoomForTwo n n' bs := by
  constructor
  · rintro ⟨bs', hblocks, hroom⟩
    obtain rfl : bs = bs' := entries_injective (Option.some.inj (h.blocks_eq.symm.trans hblocks))
    exact hroom
  · exact fun hroom => ⟨bs, h.blocks_eq, hroom⟩

/-- **`kmalloc` returns** when a free block is large enough. -/
theorem kmalloc_ok {k : KernelHeap} {heap : Heap} (hk : k.kheap = some heap) (hfirst : heap.firstBlock = lo)
    (hlay : Layout k.mem lo hi bs) (hlo : 0 < lo) (hfit : ∃ b ∈ bs, b.used = false ∧ n ≤ b.size) :
    ∃ p k', kmalloc k n = .ok (p, k') := by
  have hrun := kmalloc_eq hk hfirst hlay n
  cases hs : suitable lo n bs with
  | none =>
      obtain ⟨b, hb, hfree, -⟩ := hfit
      have hused := suitable_eq_none.mp hs b hb
      rw [hfree] at hused
      cases hused
  | some b =>
      have hfits := (suitable_scanned hlo hs).fits_iff
      simp only [Bool.not_eq_true'] at hfits
      rw [hs] at hrun
      dsimp only at hrun
      rw [if_pos (hfits.mpr hfit)] at hrun
      exact ⟨_, _, hrun⟩

/-- `malloc` returns iff some free block is large enough. -/
theorem HeapInv.malloc_iff (h : HeapInv lo hi s bs) (hlo : 0 < lo) :
    (∃ p s', s.malloc n = .ok (p, s')) ↔ ∃ b ∈ bs, b.used = false ∧ n ≤ b.size := by
  constructor
  · rintro ⟨p, s', hrun⟩
    obtain ⟨xs, b, ys, rfl, hfree, hn, -⟩ := h.malloc_keeps hrun
    exact ⟨b, by simp, hfree, hn⟩
  · intro hfit
    obtain ⟨heap, hk, hheap⟩ := h.kheap
    obtain ⟨p, k', hmalloc⟩ := kmalloc_ok hk hheap h.layout hlo hfit
    exact ⟨p, _, bind_eq_ok.mpr ⟨_, hmalloc, rfl⟩⟩

/-- A block is either placed or still there. -/
theorem mem_place_of_mem {xs ys : List Block} {b c : Block} (hc : c ∈ xs ++ b :: ys) :
    c = b ∨ c ∈ xs ++ (place b n ++ ys) := by
  rcases mem_middle.mp hc with rfl | hc
  · exact Or.inl rfl
  · refine Or.inr ?_
    simp only [List.mem_append] at hc ⊢
    tauto

/-- The rest that is split off a block. -/
theorem rest_mem_place {b : Block} (hroom : n + 16 + n' ≤ b.size) (hn' : 4 < n') :
    (⟨b.addr + 16 + n, b.size - n - 16, false⟩ : Block) ∈ place b n := by
  unfold place headerSize minBlockSize
  rw [if_pos (by omega)]
  exact List.mem_cons_of_mem _ (List.mem_singleton_self _)

/-- **A free block with more room** leaves the rest of it. -/
theorem HeapInv.malloc_room {b : Block} (h : HeapInv lo hi s bs) (hlo : 0 < lo) (hb : b ∈ bs)
    (hfree : b.used = false) (hroom : n + 16 + room ≤ b.size) (hsplit : 4 < room) :
    ∃ p s' bs', s.malloc n = .ok (p, s') ∧ HeapInv lo hi s' bs' ∧
      ∃ c ∈ bs', c.used = false ∧ room ≤ c.size := by
  obtain ⟨p, s', hrun⟩ := (h.malloc_iff hlo).mpr ⟨b, hb, hfree, show n ≤ b.size by omega⟩
  obtain ⟨xs, c, ys, rfl, -, -, -, hinv, -⟩ := h.malloc_keeps hrun
  refine ⟨p, s', _, hrun, hinv, ?_⟩
  rcases mem_place_of_mem (n := n) hb with rfl | hmem
  · refine ⟨_, List.mem_append_right _ (List.mem_append_left _ (rest_mem_place hroom hsplit)), rfl, ?_⟩
    dsimp only
    omega
  · exact ⟨b, hmem, hfree, by omega⟩

/-- **`new`** asserts nothing that `kmalloc` does not. -/
theorem HeapInv.new_eq (h : HeapInv lo hi s bs) (hn : 0 < n) : s.new n = s.malloc n := by
  obtain ⟨heap, hk, -⟩ := h.kheap
  unfold HeapState.new
  rw [hk, if_neg (Nat.ne_of_gt hn)]
  show s.malloc n >>= _ = _
  cases hrun : s.malloc n with
  | error e => rfl
  | ok r =>
      obtain ⟨p, s'⟩ := r
      obtain ⟨xs, b, ys, -, -, -, rfl, -⟩ := h.malloc_keeps hrun
      have hne : b.payload ≠ 0 := by
        rw [Block.payload_eq]
        omega
      simp only [ok_bind, hne, ne_eq, not_false_eq_true, decide_true, assert_true]
      rfl

/-! ## Two objects in a row -/

/-- **Two objects can be made** iff there is room for both. -/
theorem HeapInv.new_new_iff (h : HeapInv lo hi s bs) (hlo : 0 < lo) (hsplit : 4 < n') (hle : n' ≤ n) :
    (∃ p s₁ q s₂, s.new n = .ok (p, s₁) ∧ s₁.new n' = .ok (q, s₂)) ↔ s.RoomForTwo n n' := by
  rw [h.roomForTwo_iff, h.new_eq (by omega)]
  constructor
  · rintro ⟨p, s₁, q, s₂, hfirst, hsecond⟩
    obtain ⟨xs, b, ys, rfl, hfree, hn, -, hinv, -⟩ := h.malloc_keeps hfirst
    rw [hinv.new_eq (by omega)] at hsecond
    obtain ⟨c, hc, hcfree, hcn⟩ := (hinv.malloc_iff hlo).mp ⟨q, s₂, hsecond⟩
    by_cases hrest : c ∈ place b n
    · -- the second object is in what the first left of the block
      refine Or.inl ⟨b, by simp, hfree, ?_⟩
      unfold place headerSize minBlockSize at hrest
      split at hrest
      · rcases List.mem_cons.mp hrest with rfl | hrest
        · cases hcfree
        · rw [List.mem_singleton.mp hrest] at hcn
          dsimp only at hcn
          omega
      · rw [List.mem_singleton.mp hrest] at hcfree
        cases hcfree
    · have hother : c ∈ xs ++ ys := by
        simp only [List.mem_append] at hc ⊢
        tauto
      refine Or.inr ⟨b, by simp, c, mem_middle.mpr (Or.inr hother), ?_, hfree, hcfree, hn, hcn⟩
      rintro rfl
      exact h.layout.tiles.payload_ne _ hother rfl
  · intro hroom
    rcases hroom with ⟨b, hb, hfree, hb'⟩ | ⟨b, hb, c, hc, hne, hbfree, hcfree, hbn, hcn⟩
    · obtain ⟨p, s₁, bs₁, hfirst, hinv, hfit⟩ := h.malloc_room hlo hb hfree hb' hsplit
      obtain ⟨q, s₂, hsecond⟩ := (hinv.malloc_iff hlo).mpr hfit
      exact ⟨p, s₁, q, s₂, hfirst, (hinv.new_eq (by omega)).trans hsecond⟩
    · obtain ⟨p, s₁, hfirst⟩ := (h.malloc_iff hlo).mpr ⟨b, hb, hbfree, hbn⟩
      obtain ⟨xs, d, ys, rfl, -, -, -, hinv, -⟩ := h.malloc_keeps hfirst
      -- one of the two blocks is still free
      have hfit : ∃ e ∈ xs ++ (place d n ++ ys), e.used = false ∧ n' ≤ e.size := by
        rcases mem_place_of_mem (n := n) hc with rfl | hmem
        · exact ⟨b, (mem_place_of_mem hb).resolve_left hne, hbfree, by omega⟩
        · exact ⟨c, hmem, hcfree, hcn⟩
      obtain ⟨q, s₂, hsecond⟩ := (hinv.malloc_iff hlo).mpr hfit
      exact ⟨p, s₁, q, s₂, hfirst, (hinv.new_eq (by omega)).trans hsecond⟩

/-- What making an object keeps: the heap is in order, what is live stays live, and no byte but the heap's own is
    written. -/
structure HeapKept (lo hi : Nat) (s s' : HeapState) : Prop where
  inv : ∃ bs, HeapInv lo hi s' bs
  live : ∀ q r, s.live q = some r → s'.live q = some r
  mem : ∀ x, ¬ s.Own lo hi x → s'.heap.mem x = s.heap.mem x

theorem HeapKept.trans {t : HeapState} (h : HeapKept lo hi s s') (h' : HeapKept lo hi s' t) : HeapKept lo hi s t where
  inv := h'.inv
  live q r hq := h'.live q r (h.live q r hq)
  mem x hx := (h'.mem x fun hown => hx (hown.mono h.live)).trans (h.mem x hx)

/-- **One object.** -/
theorem HeapInv.new_kept (h : HeapInv lo hi s bs) (hn : 0 < n) (hrun : s.new n = .ok (p, s')) :
    HeapKept lo hi s s' := by
  rw [h.new_eq hn] at hrun
  obtain ⟨xs, b, ys, -, -, -, -, hinv, -, hmem⟩ := h.malloc_keeps hrun
  exact ⟨⟨_, hinv⟩, fun q r hq => h.malloc_live hrun hq, hmem⟩

/-! ## Outside the region -/

/-- What replaces a block has its headers where the block was. -/
theorem Layout.outside_place {m : Mem} {b : Block} {x : Nat} (h : Layout m lo hi bs) (hlow : lo ≤ b.addr)
    (hhigh : b.stop ≤ hi) (hn : n ≤ b.size) (hx : x < lo ∨ hi ≤ x) : ¬ InHeaders (place b n) x := by
  intro hin
  have hplace := inHeaders_place hn hin
  have hstop := Block.stop_eq b
  have hle := le_placedSize hn
  have hfits := h.fits
  omega

/-- **No operation writes outside the region.** -/
theorem HeapStep.outside {o : HeapOp} {bs' : List Block} {x : Nat} (h : HeapStep s bs o s' bs')
    (hlay : Layout s.heap.mem lo hi bs) (hx : x < lo ∨ hi ≤ x) : s'.heap.mem x = s.heap.mem x := by
  have hout : ¬ InHeaders bs x := fun hin => by
    have := hin.span hlay.tiles
    omega
  cases h with
  | kmalloc xs b ys hsplit hfree hn hframe =>
      have hbound := hlay.bound (b := b) (by simp [hsplit])
      exact hframe x hout (hlay.outside_place hbound.1 (b.stop_eq ▸ hbound.2.1) hn hx)
  | free hb hu hmerges hframe => exact hframe x hout
  | @krealloc b n q k' bs' hb hu hres =>
      obtain ⟨m', kheap, placement⟩ := k'
      cases hres with
      | kept hn => rfl
      | grown xs c ys hsplit hfree hn hframe =>
          have hbound := hlay.bound hb
          have hnext := hlay.bound (b := c) (by simp [hsplit])
          subst hsplit
          have hc : c.addr = b.addr + 16 + b.size := hlay.tiles_split.2.1
          have hjoin : (b.join c).stop = c.stop := by
            rw [Block.stop_eq, Block.stop_eq, Block.join_addr, Block.join_size]
            omega
          exact hframe x hout (hlay.outside_place hbound.1 (hjoin ▸ c.stop_eq ▸ hnext.2.1) hn hx)
      | moved xs c ys hsplit hfree hsmall hn hmerges hframe hcopied =>
          have hbound := hlay.bound (b := c) (by simp [hsplit])
          refine hframe x hout (hlay.outside_place hbound.1 (c.stop_eq ▸ hbound.2.1) hn hx) ?_
          rw [Block.payload_eq]
          omega
  | @write b i v k' hb hu hi hstored =>
      have hbound := hlay.bound hb
      show k'.mem x = _
      rw [hstored]
      refine store8_out ?_
      rw [Block.payload_eq]
      omega

end WeirdOs
