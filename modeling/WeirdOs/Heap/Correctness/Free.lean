import WeirdOs.Heap.Correctness.Alloc

/-!
# `Heap.Correctness.Free` — `free` on the block list

`free` marks one block free and then runs two loops: one joins the block with the free blocks after it,
the other walks back and joins it with the free blocks before it. Each iteration is one
`Lib.Piece.Merge`, so a loop is a sequence of them (`Merged`), and *where* it stops is all that is left
to say: in front of a used block, or at the end of the list.

`free_spec` puts the two together. The result is reached from the released list (`release`) by joins
only; and when the list was coalesced before, it is coalesced afterwards — unless the region starts at
address zero. There the back link to the first block is null, and the second loop never joins with it.
-/

namespace WeirdOs

open Lib Lib.Piece

variable {m m' : Mem} {lo hi : Nat} {bs bs' xs ys : List Block} {b : Block}

/-! ## Joins in memory -/

/-- From the layout `bs` in `m`, joins alone led to the layout `bs'` in `m'`; only bytes of headers have
    changed. -/
structure Merged (m m' : Mem) (lo hi : Nat) (bs bs' : List Block) : Prop where
  layout : Layout m' lo hi bs'
  merges : Merges bs bs'
  frame : ∀ x, ¬ InHeaders bs x → m' x = m x

/-- Joins add no header. -/
theorem InHeaders.of_merges {x : Nat} (h : Merges bs bs') (hx : InHeaders bs' x) : InHeaders bs x := by
  induction h with
  | refl => exact hx
  | tail _ hstep ih =>
      apply ih
      cases hstep with
      | mk xs ys _ _ => exact InHeaders.of_join hx

theorem Merged.refl (h : Layout m lo hi bs) : Merged m m lo hi bs bs :=
  ⟨h, Relation.ReflTransGen.refl, fun _ _ => rfl⟩

theorem Merged.trans {m₁ m₂ m₃ : Mem} {bs₁ bs₂ bs₃ : List Block} (h : Merged m₁ m₂ lo hi bs₁ bs₂)
    (h' : Merged m₂ m₃ lo hi bs₂ bs₃) : Merged m₁ m₃ lo hi bs₁ bs₃ :=
  ⟨h'.layout, h.merges.trans h'.merges, fun x hx => by
    rw [h'.frame x fun hx' => hx (hx'.of_merges h.merges), h.frame x hx]⟩

/-- `merge_blocks` of two free neighbours is one join. -/
theorem mergeBlocks_merged {c : Block} (h : Layout m lo hi (xs ++ b :: c :: ys)) (hb : b.used = false)
    (hc : c.used = false) :
    ∃ m', mergeBlocks m b.addr c.addr = .ok m' ∧
      Merged m m' lo hi (xs ++ b :: c :: ys) (xs ++ b.join c :: ys) := by
  obtain ⟨m', hrun, hlay, hframe⟩ := mergeBlocks_spec h
  exact ⟨m', hrun, hlay, Relation.ReflTransGen.single (.mk xs ys (by simp [hb]) (by simp [hc])), hframe⟩

/-! ## The two loops -/

/-- **Merging forwards** joins the block with the free blocks after it, up to a used block or the end. -/
theorem mergeForwards_spec :
    ∀ {fuel : Nat} {m : Mem} {b : Block} {ys : List Block}, Layout m lo hi (xs ++ b :: ys) →
      b.used = false → ys.length < fuel →
      ∃ m' b' ys', mergeForwards fuel m b.addr = .ok m' ∧
        Merged m m' lo hi (xs ++ b :: ys) (xs ++ b' :: ys') ∧ b'.addr = b.addr ∧ b'.used = false ∧
        ys' <:+ ys ∧ ∀ c ∈ ys'.head?, c.used = true := by
  intro fuel
  induction fuel with
  | zero => intro m b ys _ _ hfuel; omega
  | succ fuel ih =>
      intro m b ys h hfree hfuel
      have hhdr := h.parts.2.1
      rw [mergeForwards, hhdr]
      cases ys with
      | nil => exact ⟨m, b, [], by simp, .refl h, rfl, hfree, List.suffix_rfl, by simp⟩
      | cons c ys =>
          have hc := h.mem_header (b := c) (by simp)
          have hc0 : c.addr ≠ 0 := by
            have := h.tiles_split.2.1
            rw [Block.stop_eq] at this
            omega
          simp only [headKey_cons, hc0, if_false, hc.1, isValid_tag, isUsed_tag, assert_true, ok_bind,
            pure_eq_ok]
          cases hu : c.used with
          | true => exact ⟨m, b, c :: ys, rfl, .refl h, rfl, hfree, List.suffix_rfl, by simp [hu]⟩
          | false =>
              -- the block keeps its address, so the loop goes on with the join
              obtain ⟨m₁, hrun, hmerged⟩ := mergeBlocks_merged h hfree hu
              obtain ⟨m', b', ys', hloop, hmerged', haddr, hused, hsuf, hstop⟩ :=
                ih hmerged.layout hfree (by simpa using hfuel)
              simp only [Bool.false_eq_true, if_false, hrun, ok_bind]
              exact ⟨m', b', ys', hloop, hmerged.trans hmerged', haddr, hused,
                hsuf.trans (List.suffix_cons c ys), hstop⟩

/-- **Merging backward** joins the block with the free blocks before it, up to a used block or the
    start. A free block at address zero is taken for the start. -/
theorem mergeBackward_spec :
    ∀ {fuel : Nat} {m : Mem} {b : Block} {xs : List Block}, Layout m lo hi (xs ++ b :: ys) →
      b.used = false → xs.length < fuel →
      ∃ m' b' xs', mergeBackward fuel m b.addr = .ok m' ∧
        Merged m m' lo hi (xs ++ b :: ys) (xs' ++ b' :: ys) ∧ b'.used = false ∧ xs' <+: xs ∧
        (Coalesced xs → (∀ p ∈ xs.getLast?, p.addr = 0 → p.used = true) →
          ∀ p ∈ xs'.getLast?, p.used = true) := by
  intro fuel
  induction fuel with
  | zero => intro m b xs _ _ hfuel; omega
  | succ fuel ih =>
      intro m b xs h hfree hfuel
      have hhdr := h.parts.2.1
      rw [mergeBackward, hhdr]
      rcases List.eq_nil_or_concat xs with rfl | ⟨xs, p, rfl⟩
      · exact ⟨m, b, [], by simp, .refl h, hfree, List.prefix_rfl, by simp⟩
      · have hp := h.mem_header (b := p) (by simp)
        simp only [List.concat_eq_append, lastKey_concat] at *
        by_cases hp0 : p.addr = 0
        · exact ⟨m, b, xs ++ [p], by simp [hp0], .refl h, hfree, List.prefix_rfl,
            fun _ hzero q hq => hzero q hq (by simp at hq; rw [← hq, hp0])⟩
        · simp only [hp0, if_false, hp.1, isValid_tag, isUsed_tag, assert_true, ok_bind, pure_eq_ok]
          cases hu : p.used with
          | true => exact ⟨m, b, xs ++ [p], rfl, .refl h, hfree, List.prefix_rfl, by simp [hu]⟩
          | false =>
              -- the join is in the place of the previous block
              rw [List.append_assoc, List.singleton_append] at h ⊢
              obtain ⟨m₁, hrun, hmerged⟩ := mergeBlocks_merged h hu hfree
              obtain ⟨m', b', xs', hloop, hmerged', hused, hpre, hstop⟩ :=
                ih hmerged.layout hu (by simp at hfuel; omega)
              simp only [Bool.false_eq_true, if_false, hrun, ok_bind]
              refine ⟨m', b', xs', hloop, hmerged.trans hmerged', hused,
                hpre.trans (List.prefix_append xs [p]), ?_⟩
              intro hco _
              -- what is in front of a free block is used, wherever it lies
              obtain ⟨hxs, _, hseam⟩ := coalesced_append.mp hco
              exact hstop hxs fun q hq _ => by simpa [hu] using hseam q hq p rfl

/-! ## Releasing a block -/

/-- The list with the block of payload `p` marked free. -/
def release (p : Nat) (bs : List Block) : List Block :=
  bs.map fun b => if b.payload = p then { b with used := false } else b

/-- Payloads tell the blocks of a tiling apart. -/
theorem Tiles.payload_ne (h : Tiles lo hi (xs ++ b :: ys)) :
    ∀ c ∈ xs ++ ys, c.payload ≠ b.payload := by
  intro c hc heq
  obtain ⟨mid, htx, hb, hty⟩ := tiles_append.mp h
  have hbstop := Block.stop_eq b
  have hcstop := Block.stop_eq c
  rw [Block.payload_eq, Block.payload_eq] at heq
  rcases List.mem_append.mp hc with hc | hc
  · have := (htx.mem hc).2
    omega
  · have := (hty.mem hc).1
    omega

/-- Releasing one block of a tiling changes that block only. -/
theorem release_eq (h : Tiles lo hi (xs ++ b :: ys)) :
    release b.payload (xs ++ b :: ys) = xs ++ { b with used := false } :: ys := by
  have hkeep : ∀ zs : List Block, (∀ c ∈ zs, c ∈ xs ++ ys) → release b.payload zs = zs := fun zs hzs =>
    (List.map_congr_left fun c hc => if_neg (h.payload_ne c (hzs c hc))).trans (List.map_id zs)
  have hxs := hkeep xs fun c hc => List.mem_append_left ys hc
  have hys := hkeep ys fun c hc => List.mem_append_right xs hc
  unfold release at *
  rw [List.map_append, List.map_cons, hxs, hys, if_pos rfl]

/-- **`free`** of a used block, in place: the list is released and joined around the block. What was
    coalesced stays so, unless the block in front is a free block at address zero. -/
theorem free_spec_at (h : Layout m lo hi (xs ++ b :: ys)) (hused : b.used = true) :
    ∃ m' bs', free m b.payload = .ok m' ∧ Layout m' lo hi bs' ∧
      Merges (xs ++ { b with used := false } :: ys) bs' ∧
      (∀ x, ¬ InHeaders (xs ++ b :: ys) x → m' x = m x) ∧
      ((∀ p ∈ xs.getLast?, p.addr = 0 → p.used = true) → Coalesced (xs ++ b :: ys) → Coalesced bs') := by
  have hb : b ∈ xs ++ b :: ys := by simp
  have hhdr := h.sub32_payload hb
  have hmagic := (h.mem_header hb).1
  obtain ⟨hlay, hframe⟩ := setMagic_spec h false
  have hheaders : ∀ x, InHeaders (xs ++ { b with used := false } :: ys) x → InHeaders (xs ++ b :: ys) x :=
    fun x hx => by simpa [inHeaders_append, inHeaders_cons] using hx
  -- the fuel is enough for both loops: the list is shorter than the address space
  have hlen := hlay.length_lt
  rw [List.length_append, List.length_cons] at hlen
  have hys : ys.length < walkFuel := by omega
  have hxs : xs.length < walkFuel := by omega
  obtain ⟨m₁, b₁, ys', hrun₁, hmerged₁, haddr, hfree₁, hsuf, hnext⟩ :=
    mergeForwards_spec hlay rfl hys
  obtain ⟨m', b₂, xs', hrun₂, hmerged₂, hfree₂, hpre, hprev⟩ :=
    mergeBackward_spec hmerged₁.layout hfree₁ hxs
  have hmerged := hmerged₁.trans hmerged₂
  refine ⟨m', xs' ++ b₂ :: ys', ?_, hmerged.layout, hmerged.merges, ?_, ?_⟩
  · simp only [free, hhdr, hmagic, isValid_tag, isUsed_tag, hused, assert_true, ok_bind, Bool.not_true,
      Bool.false_eq_true, if_false, tag_and]
    rw [hrun₁, ok_bind, ← haddr, hrun₂]
  · intro x hx
    rw [hmerged.frame x fun hx' => hx (hheaders x hx'), hframe x hx]
  · -- what is left on either side was coalesced, and starts with a used block
    intro hzero hco
    obtain ⟨hcx, hcy, _⟩ := coalesced_append.mp hco
    have hlast := hprev hcx hzero
    obtain ⟨zs, rfl⟩ := hpre
    obtain ⟨ws, rfl⟩ := hsuf
    have hcx' := (coalesced_append.mp hcx).1
    have hcy' := (coalesced_append.mp hcy.tail).2.1
    refine coalesced_append.mpr ⟨hcx', ?_, ?_⟩
    · cases ys' with
      | nil => trivial
      | cons c ys' =>
          have hc : c.used = true := hnext c rfl
          exact ⟨by simp [hc], hcy'⟩
    · intro p hp c hc
      simp [hlast p hp]

/-- **`free`** of a used block. -/
theorem free_spec (h : Layout m lo hi bs) (hb : b ∈ bs) (hused : b.used = true) :
    ∃ m' bs', free m b.payload = .ok m' ∧ Layout m' lo hi bs' ∧ Merges (release b.payload bs) bs' ∧
      (∀ x, ¬ InHeaders bs x → m' x = m x) ∧ (0 < lo → Coalesced bs → Coalesced bs') := by
  obtain ⟨xs, ys, rfl⟩ := List.append_of_mem hb
  obtain ⟨m', bs', hrun, hlay, hmerges, hframe, hco⟩ := free_spec_at h hused
  rw [release_eq h.tiles]
  refine ⟨m', bs', hrun, hlay, hmerges, hframe, fun hlo => hco ?_⟩
  intro p hp hp0
  have := (h.bound (List.mem_append_left _ (List.mem_of_getLast? hp))).1
  omega

end WeirdOs
