import WeirdOs.Heap.Correctness.Realloc
import WeirdOs.Heap.Run

/-!
# `Heap.Correctness.Invariant` — what every reachable heap satisfies

`HeapInv lo hi s bs` ties the three views of a heap together: the memory is laid out as the blocks `bs`,
the client's live pointers are exactly the payloads of the used blocks (`Owned`), and, when the region
does not start at address zero, no two neighbouring blocks are free.

`step_cases` says once what each operation can do to the blocks, the bytes and the live pointers
(`HeapStep`); `HeapInv.step` and `HeapInv.run` follow.
-/

namespace WeirdOs

open Lib Lib.Piece

variable {lo hi : Nat} {s s' : HeapState} {o : HeapOp} {bs bs' xs ys : List Block} {b c : Block}
  {live : Nat → Option Nat} {r : Nat}

/-! ## Live pointers and used blocks -/

/-- The live pointers are the payloads of the used blocks, each at least as large as last requested. -/
structure Owned (live : Nat → Option Nat) (bs : List Block) : Prop where
  sound : ∀ p r, live p = some r → ∃ b ∈ bs, b.used = true ∧ b.payload = p ∧ r ≤ b.size
  complete : ∀ b ∈ bs, b.used = true → ∃ r, live b.payload = some r

/-- The used blocks of a list. -/
def usedBlocks (bs : List Block) : List Block := bs.filter fun b => b.used

theorem mem_usedBlocks : b ∈ usedBlocks bs ↔ b ∈ bs ∧ b.used = true := List.mem_filter

/-- Only the used blocks matter. -/
theorem Owned.congr (h : Owned live bs) (heq : usedBlocks bs' = usedBlocks bs) : Owned live bs' := by
  have hmem : ∀ b, (b ∈ bs' ∧ b.used = true) ↔ (b ∈ bs ∧ b.used = true) := fun b => by
    rw [← mem_usedBlocks, ← mem_usedBlocks, heq]
  constructor
  · intro p r hp
    obtain ⟨b, hb, hu, hrest⟩ := h.sound p r hp
    have hb' := (hmem b).mpr ⟨hb, hu⟩
    exact ⟨b, hb'.1, hu, hrest⟩
  · intro b hb hu
    exact h.complete b ((hmem b).mp ⟨hb, hu⟩).1 hu

/-- Membership, with the middle element in front. -/
theorem mem_middle : c ∈ xs ++ b :: ys ↔ c = b ∨ c ∈ xs ++ ys :=
  List.perm_middle.mem_iff.trans List.mem_cons

/-- A new used block, with its payload live. -/
theorem Owned.insert (h : Owned live (xs ++ ys)) (hr : r ≤ b.size) (hu : b.used = true) :
    Owned (Function.update live b.payload (some r)) (xs ++ b :: ys) := by
  constructor
  · intro p r' hp
    by_cases heq : p = b.payload
    · subst heq
      rw [Function.update_self] at hp
      cases hp
      exact ⟨b, by simp, hu, rfl, hr⟩
    · rw [Function.update_of_ne heq] at hp
      obtain ⟨c, hc, hrest⟩ := h.sound p r' hp
      exact ⟨c, mem_middle.mpr (Or.inr hc), hrest⟩
  · intro c hc hcu
    by_cases heq : c.payload = b.payload
    · exact ⟨r, by rw [heq, Function.update_self]⟩
    · rw [Function.update_of_ne heq]
      exact h.complete c ((mem_middle.mp hc).resolve_left fun h' => heq (by rw [h'])) hcu

/-- A used block dropped, with its payload no longer live. -/
theorem Owned.erase (h : Owned live (xs ++ b :: ys))
    (hinj : ∀ c ∈ xs ++ ys, c.payload ≠ b.payload) :
    Owned (Function.update live b.payload none) (xs ++ ys) := by
  constructor
  · intro p r hp
    by_cases heq : p = b.payload
    · subst heq
      simp at hp
    · rw [Function.update_of_ne heq] at hp
      obtain ⟨c, hc, hcu, hcp, hrest⟩ := h.sound p r hp
      have hmem := (mem_middle.mp hc).resolve_left fun h' => heq (by rw [← hcp, h'])
      exact ⟨c, hmem, hcu, hcp, hrest⟩
  · intro c hc hcu
    rw [Function.update_of_ne (hinj c hc)]
    exact h.complete c (mem_middle.mpr (Or.inr hc)) hcu

/-! ## The used blocks after each surgery -/

theorem usedBlocks_append : usedBlocks (xs ++ ys) = usedBlocks xs ++ usedBlocks ys :=
  List.filter_append ..

theorem usedBlocks_cons_used (hu : b.used = true) : usedBlocks (b :: ys) = b :: usedBlocks ys :=
  List.filter_cons_of_pos hu

theorem usedBlocks_cons_free (hu : b.used = false) : usedBlocks (b :: ys) = usedBlocks ys :=
  List.filter_cons_of_neg (by simp [hu])

/-- Placing a request adds one used block. -/
theorem usedBlocks_place {n : Nat} :
    usedBlocks (xs ++ (place b n ++ ys)) = usedBlocks (xs ++ ⟨b.addr, placedSize b n, true⟩ :: ys) := by
  obtain ⟨rest, hplace, hrest, _⟩ := place_eq b n
  have hnil : usedBlocks rest = [] := List.filter_eq_nil_iff.mpr fun c hc => by simp [hrest c hc]
  rw [hplace, List.cons_append, usedBlocks_append, usedBlocks_append, usedBlocks_cons_used rfl,
    usedBlocks_cons_used rfl, usedBlocks_append, hnil, List.nil_append]

/-- A request placed: the block handed out becomes live. -/
theorem Owned.place {n : Nat} (h : Owned live (xs ++ ys)) (hn : n ≤ b.size) :
    Owned (Function.update live b.payload (some n)) (xs ++ (place b n ++ ys)) :=
  Owned.congr (h.insert (b := ⟨b.addr, placedSize b n, true⟩) (le_placedSize hn) rfl) usedBlocks_place

/-- A free block owns nothing. -/
theorem Owned.drop_free (h : Owned live (xs ++ b :: ys)) (hfree : b.used = false) :
    Owned live (xs ++ ys) :=
  h.congr (by rw [usedBlocks_append, usedBlocks_append, usedBlocks_cons_free hfree])

/-- Joins leave the used blocks alone. -/
theorem usedBlocks_merges (h : Merges bs bs') : usedBlocks bs' = usedBlocks bs := by
  simpa [usedBlocks] using h.used_eq

/-! ## The invariant -/

/-- **The heap invariant.** -/
structure HeapInv (lo hi : Nat) (s : HeapState) (bs : List Block) : Prop where
  kheap : ∃ heap, s.heap.kheap = some heap ∧ heap.firstBlock = lo
  layout : Layout s.heap.mem lo hi bs
  owned : Owned s.live bs
  coalesced : 0 < lo → Coalesced bs

/-- **What one operation does**: to the blocks, to the bytes, to the live pointers. -/
inductive HeapStep (s : HeapState) (bs : List Block) : HeapOp → HeapState → List Block → Prop where
  | kmalloc {n : UInt32} {k' : KernelHeap} (xs : List Block) (b : Block) (ys : List Block)
      (split : bs = xs ++ b :: ys) (free : b.used = false) (large : n.toNat ≤ b.size)
      (frame : ∀ x, ¬ InHeaders bs x → ¬ InHeaders (place b n.toNat) x → k'.mem x = s.heap.mem x) :
      HeapStep s bs (.kmalloc n) ⟨k', Function.update s.live b.payload (some n.toNat)⟩
        (xs ++ (place b n.toNat ++ ys))
  | free {b : Block} {k' : KernelHeap} {bs' : List Block} (mem : b ∈ bs) (used : b.used = true)
      (merges : Merges (release b.payload bs) bs')
      (frame : ∀ x, ¬ InHeaders bs x → k'.mem x = s.heap.mem x) :
      HeapStep s bs (.free b.payload) ⟨k', Function.update s.live b.payload none⟩ bs'
  | krealloc {b : Block} {n : UInt32} {q : Nat} {k' : KernelHeap} {bs' : List Block} (mem : b ∈ bs)
      (used : b.used = true) (result : Reallocated s.heap.mem bs b n.toNat q k'.mem bs') :
      HeapStep s bs (.krealloc b.payload n)
        ⟨k', Function.update (Function.update s.live b.payload none) q (some n.toNat)⟩ bs'
  | write {b : Block} {i : Nat} {v : UInt8} {k' : KernelHeap} (mem : b ∈ bs) (used : b.used = true)
      (inside : i < b.size) (stored : k'.mem = store8 s.heap.mem (b.payload + i) v) :
      HeapStep s bs (.write b.payload i v) ⟨k', s.live⟩ bs

/-- **Inversion of a step**, with the parts of the invariant that do not concern live pointers. -/
theorem step_cases (h : HeapInv lo hi s bs) (hstep : s.step o = .ok s') :
    ∃ bs', HeapStep s bs o s' bs' ∧ (∃ heap, s'.heap.kheap = some heap ∧ heap.firstBlock = lo) ∧
      Layout s'.heap.mem lo hi bs' ∧ (0 < lo → Coalesced bs') := by
  obtain ⟨heap, hk, hheap⟩ := h.kheap
  cases o with
  | kmalloc n =>
      obtain ⟨⟨p, k'⟩, hrun, hret⟩ := bind_eq_ok.mp hstep
      cases hret
      obtain ⟨xs, b, ys, rfl, hfree, hn, rfl, hk', hlay, hframe⟩ := kmalloc_spec hk hheap h.layout hrun
      refine ⟨_, .kmalloc xs b ys rfl hfree hn hframe, ⟨heap, hk', hheap⟩, hlay, ?_⟩
      intro hlo
      obtain ⟨hcx, hcy, _⟩ := coalesced_append.mp (h.coalesced hlo)
      exact coalesced_place hcx hfree hcy
  | free p =>
      cases hlive : s.live p with
      | none => simp [HeapState.step, hlive] at hstep
      | some r =>
          obtain ⟨b, hb, hu, rfl, _⟩ := h.owned.sound p r hlive
          obtain ⟨m', bs', hrun, hlay, hmerges, hframe, hco⟩ := free_spec h.layout hb hu
          simp only [HeapState.step, hlive, hrun, ok_bind, pure_eq_ok, Except.ok.injEq] at hstep
          subst hstep
          exact ⟨bs', .free hb hu hmerges hframe, ⟨heap, hk, hheap⟩, hlay,
            fun hlo => hco hlo (h.coalesced hlo)⟩
  | krealloc p n =>
      cases hlive : s.live p with
      | none => simp [HeapState.step, hlive] at hstep
      | some r =>
          obtain ⟨b, hb, hu, rfl, _⟩ := h.owned.sound p r hlive
          simp only [HeapState.step, hlive] at hstep
          obtain ⟨⟨q, k'⟩, hrun, hret⟩ := bind_eq_ok.mp hstep
          cases hret
          obtain ⟨bs', hk', hlay, hres, hco⟩ := krealloc_spec hk hheap h.layout hb hu hrun
          exact ⟨bs', .krealloc hb hu hres, ⟨heap, hk', hheap⟩, hlay, fun hlo => hco hlo (h.coalesced hlo)⟩
  | write p i v =>
      cases hlive : s.live p with
      | none => simp [HeapState.step, hlive] at hstep
      | some r =>
          obtain ⟨b, hb, hu, rfl, hr⟩ := h.owned.sound p r hlive
          by_cases hi : i < r
          · simp only [HeapState.step, hlive, hi, if_true, pure_eq_ok, Except.ok.injEq] at hstep
            subst hstep
            refine ⟨bs, .write hb hu (by omega) rfl, ⟨heap, hk, hheap⟩, ?_, h.coalesced⟩
            -- the byte written is one of the payload, and so in no header
            refine h.layout.congr fun x hx => store8_out ?_
            rintro rfl
            exact h.layout.not_inHeaders hb (by omega) (by rw [Block.stop_eq, Block.payload_eq]; omega) hx
          · simp [HeapState.step, hlive, hi] at hstep

/-- **Live pointers stay in step with the used blocks.** -/
theorem HeapStep.owned (h : HeapStep s bs o s' bs') (hlay : Layout s.heap.mem lo hi bs)
    (howned : Owned s.live bs) : Owned s'.live bs' := by
  cases h with
  | kmalloc xs b ys hsplit hfree hn _ =>
      subst hsplit
      exact (howned.drop_free hfree).place hn
  | free hb hu hmerges _ =>
      obtain ⟨xs, ys, rfl⟩ := List.append_of_mem hb
      apply (howned.erase hlay.tiles.payload_ne).congr
      rw [usedBlocks_merges hmerges, release_eq hlay.tiles, usedBlocks_append, usedBlocks_append,
        usedBlocks_cons_free rfl]
  | @krealloc b n q k' bs' hb hu hres =>
      obtain ⟨m', kheap, placement⟩ := k'
      cases hres with
      | kept hn =>
          obtain ⟨xs, ys, rfl⟩ := List.append_of_mem hb
          exact (howned.erase hlay.tiles.payload_ne).insert hn hu
      | grown xs c ys hsplit hfree hn _ =>
          subst hsplit
          exact ((howned.erase hlay.tiles.payload_ne).drop_free hfree).place (b := b.join c) hn
      | moved xs c ys hsplit hfree hsmall hn hmerges _ _ =>
          subst hsplit
          -- first the new block becomes live, then the old one is dropped
          have hne : b ≠ c := Block.ne_of_used hu hfree
          have ht := tiles_place hn hlay.tiles
          have hins := (howned.drop_free hfree).place hn
          have hmem := (mem_middle.mp hb).resolve_left hne
          have hb' : b ∈ xs ++ (place c n.toNat ++ ys) := by
            simp only [List.mem_append] at hmem ⊢
            rcases hmem with h' | h'
            · exact Or.inl h'
            · exact Or.inr (Or.inr h')
          rw [Function.update_comm (hlay.tiles.payload_ne b hmem)]
          obtain ⟨us, vs, hsplit⟩ := List.append_of_mem hb'
          rw [hsplit] at ht hins hmerges
          apply (hins.erase ht.payload_ne).congr
          rw [usedBlocks_merges hmerges, release_eq ht, usedBlocks_append, usedBlocks_append,
            usedBlocks_cons_free rfl]
  | write hb hu _ _ => exact howned

/-- **One step keeps the invariant**, and is one of `HeapStep`. -/
theorem HeapInv.step (h : HeapInv lo hi s bs) (hstep : s.step o = .ok s') :
    ∃ bs', HeapStep s bs o s' bs' ∧ HeapInv lo hi s' bs' := by
  obtain ⟨bs', hcase, hk, hlay, hco⟩ := step_cases h hstep
  exact ⟨bs', hcase, hk, hlay, hcase.owned h.layout h.owned, hco⟩

/-- The invariant holds of a new heap. -/
theorem HeapInv.init (k : KernelHeap) {size start : Nat} (hsize : 16 ≤ size)
    (hfits : start + size < 4294967296) :
    HeapInv start (start + size) (HeapState.init k size start) [⟨start, size - 16, false⟩] := by
  obtain ⟨hlay, hfirst⟩ := createHeap_spec k.mem hsize hfits
  refine ⟨⟨_, rfl, hfirst⟩, hlay, ⟨?_, ?_⟩, fun _ => trivial⟩
  · intro p r hp
    simp [HeapState.init] at hp
  · intro b hb hu
    simp only [List.mem_singleton] at hb
    simp [hb] at hu

/-- **Every reachable heap satisfies the invariant.** -/
theorem HeapInv.run {k : KernelHeap} {size start : Nat} (hsize : 16 ≤ size)
    (hfits : start + size < 4294967296) {ops : List HeapOp}
    (hrun : (HeapState.init k size start).run ops = .ok s) :
    ∃ bs, HeapInv start (start + size) s bs :=
  run_invariant (fun s => ∃ bs, HeapInv start (start + size) s bs)
    (fun _ _ _ ⟨_, h⟩ hstep => by
      obtain ⟨bs', _, h'⟩ := h.step hstep
      exact ⟨bs', h'⟩)
    ⟨_, .init k hsize hfits⟩ hrun

end WeirdOs
