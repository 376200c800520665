import WeirdOs.Heap.Correctness.WellFormed

/-!
# `Heap.Correctness.FreeOrder` — the order of frees does not matter

A heap whose region does not start at the null address is always coalesced, so its block list is the
normal form of `Lib.Coalesce`. Freeing pointers one after the other marks their blocks free and
coalesces after each; by `coalesce_map_coalesce` that is the same as marking all of them first and
coalescing once (`frees_spec`), and marking does not know an order.

Freeing everything leaves a coalesced list without used blocks, and there is only one: the block of
`create_heap`.
-/

namespace WeirdOs

open Lib Lib.Piece

variable {lo hi : Nat} {s : HeapState} {bs : List Block} {ps qs : List Nat}

/-- The list with the blocks of all the payloads `ps` marked free. -/
def releaseAll (ps : List Nat) (bs : List Block) : List Block :=
  bs.map fun b => if b.payload ∈ ps then { b with used := false } else b

theorem releaseAll_nil : releaseAll [] bs = bs := by simp [releaseAll]

/-- Releasing one more payload first. -/
theorem releaseAll_cons {p : Nat} : releaseAll (p :: ps) bs = releaseAll ps (release p bs) := by
  unfold releaseAll release
  rw [List.map_map]
  apply List.map_congr_left
  intro b _
  simp only [Function.comp_apply, List.mem_cons]
  by_cases hp : b.payload = p
  · rw [if_pos hp, if_pos (Or.inl hp)]
    split <;> rfl
  · simp only [hp, false_or, if_false]

/-- What is released is a set: the order of its list does not matter. -/
theorem releaseAll_perm (h : ps.Perm qs) : releaseAll ps bs = releaseAll qs bs := by
  unfold releaseAll
  simp only [h.mem_iff]

/-- **Freeing live pointers**, in the order of the list, never fails, and coalesces the list with all of
    their blocks marked free. -/
theorem frees_spec (hlo : 0 < lo) (h : HeapInv lo hi s bs) (hlive : ∀ p ∈ ps, ∃ r, s.live p = some r)
    (hnodup : ps.Nodup) :
    ∃ s', s.run (ps.map .free) = .ok s' ∧ HeapInv lo hi s' (coalesce (releaseAll ps bs)) ∧
      ∀ p, s'.live p = if p ∈ ps then none else s.live p := by
  induction ps generalizing s bs with
  | nil =>
      rw [releaseAll_nil, coalesce_of_coalesced (h.coalesced hlo)]
      exact ⟨s, rfl, h, fun p => by simp⟩
  | cons p ps ih =>
      obtain ⟨hp, hnodup'⟩ := List.nodup_cons.mp hnodup
      obtain ⟨r, hr⟩ := hlive p List.mem_cons_self
      obtain ⟨b, hb, hu, rfl, _⟩ := h.owned.sound p r hr
      obtain ⟨m', bs₁, hfree, hlay, hmerges, hframe, hco⟩ := free_spec h.layout hb hu
      let s₁ : HeapState := ⟨{ s.heap with mem := m' }, Function.update s.live b.payload none⟩
      have hstep : s.step (.free b.payload) = .ok s₁ := by simp [HeapState.step, hr, hfree, s₁]
      have hcase : HeapStep s bs (.free b.payload) s₁ bs₁ := .free hb hu hmerges hframe
      have hbs₁ := hco hlo (h.coalesced hlo)
      have h₁ : HeapInv lo hi s₁ bs₁ :=
        ⟨h.kheap, hlay, hcase.owned h.layout h.owned, fun _ => hbs₁⟩
      have hlive₁ : ∀ q ∈ ps, s₁.live q = s.live q := fun q hq =>
        Function.update_of_ne (fun heq : q = b.payload => hp (heq ▸ hq)) ..
      obtain ⟨s', hrun, hinv, hlive'⟩ := ih h₁ (fun q hq => by
        rw [hlive₁ q hq]
        exact hlive q (List.mem_cons_of_mem _ hq)) hnodup'
      refine ⟨s', run_cons.mpr ⟨s₁, hstep, hrun⟩, ?_, ?_⟩
      · -- releasing leaves free blocks alone, so it may come before or after the joins
        rw [hmerges.eq_coalesce hbs₁, releaseAll, coalesce_map_coalesce fun a ha => ?_] at hinv
        · rw [releaseAll_cons]
          exact hinv
        · obtain ⟨addr, size, used⟩ := a
          cases used with
          | true => simp at ha
          | false => split <;> rfl
      · intro q
        rw [hlive' q]
        by_cases hq : q ∈ ps
        · rw [if_pos hq, if_pos (List.mem_cons_of_mem _ hq)]
        · by_cases hqp : q = b.payload
          · subst hqp
            rw [if_neg hq, if_pos List.mem_cons_self]
            exact Function.update_self ..
          · rw [if_neg hq, if_neg (by simp [hq, hqp])]
            exact Function.update_of_ne hqp ..

/-- A heap without live pointers is one free block over the whole region. -/
theorem HeapInv.blocks_of_none_live (hlo : 0 < lo) (h : HeapInv lo hi s bs)
    (hnone : ∀ p, s.live p = none) : bs = [⟨lo, hi - lo - 16, false⟩] := by
  have hfree : ∀ b ∈ bs, b.used = false := fun b hb => by
    cases hu : b.used with
    | false => rfl
    | true =>
        obtain ⟨r, hr⟩ := h.owned.complete b hb hu
        rw [hnone] at hr
        cases hr
  have hco := h.coalesced hlo
  have ht := h.layout.tiles
  cases bs with
  | nil => exact absurd rfl h.layout.nonempty
  | cons b bs =>
      cases bs with
      | nil =>
          obtain ⟨addr, size, used⟩ := b
          have haddr : addr = lo := ht.1
          have hstop : addr + 16 + size = hi := ht.2
          have hu : used = false := hfree _ List.mem_cons_self
          rw [haddr, hu, show size = hi - lo - 16 from by omega]
      | cons c bs =>
          have hbc := hco.1
          simp [hfree b (by simp), hfree c (by simp)] at hbc

/-- **The order of frees is irrelevant.** In a reachable heap whose region does not start at the null
    address, freeing a set of live pointers in any two orders succeeds and gives the same block list;
    freeing all of them gives back the block list of `create_heap`. -/
theorem free_order_irrelevant (k : KernelHeap) {size start : Nat} (hsize : 16 ≤ size)
    (hfits : start + size < 4294967296) (hstart : 0 < start) {ops : List HeapOp}
    (hrun : (HeapState.init k size start).run ops = .ok s)
    (hlive : ∀ p ∈ ps, ∃ r, s.live p = some r) (hnodup : ps.Nodup) (hperm : ps.Perm qs) :
    ∃ s₁ s₂ l, s.run (ps.map .free) = .ok s₁ ∧ s.run (qs.map .free) = .ok s₂ ∧
      s₁.blocks = some l ∧ s₂.blocks = some l ∧
      ((∀ p r, s.live p = some r → p ∈ ps) →
        l = [(start, ⟨magicNumber, size - 16, 0, 0⟩)] ∧ (HeapState.init k size start).blocks = some l) := by
  obtain ⟨bs, h⟩ := HeapInv.run hsize hfits hrun
  obtain ⟨s₁, hrun₁, h₁, hlive₁⟩ := frees_spec hstart h hlive hnodup
  obtain ⟨s₂, hrun₂, h₂, _⟩ := frees_spec hstart h (fun p hp => hlive p (hperm.mem_iff.mpr hp))
    (hperm.nodup_iff.mp hnodup)
  rw [← releaseAll_perm hperm] at h₂
  refine ⟨s₁, s₂, _, hrun₁, hrun₂, h₁.blocks_eq, h₂.blocks_eq, ?_⟩
  intro hall
  have hbs := h₁.blocks_of_none_live hstart fun p => by
    rw [hlive₁ p]
    split
    · rfl
    · rename_i hp
      cases hlp : s.live p with
      | none => rfl
      | some r => exact absurd (hall p r hlp) hp
  rw [hbs, (HeapInv.init k hsize hfits).blocks_eq,
    show start + size - start - 16 = size - 16 from by omega]
  exact ⟨rfl, rfl⟩

/-- Three allocations at address 64, freed in two orders. -/
theorem free_order_irrelevant_three :
    ∃ s, (HeapState.init ⟨fun _ => 0, none, 0⟩ 200 64).run [.kmalloc 8, .kmalloc 8, .kmalloc 8] = .ok s ∧
      ∃ s₁ s₂ l, s.run ([80, 104, 128].map .free) = .ok s₁ ∧ s.run ([128, 80, 104].map .free) = .ok s₂ ∧
        s₁.blocks = some l ∧ s₂.blocks = some l := by
  have hok : ((HeapState.init ⟨fun _ => 0, none, 0⟩ 200 64).run
      [.kmalloc 8, .kmalloc 8, .kmalloc 8]).toOption.map (fun s => [80, 104, 128].map s.live) =
        some [some 8, some 8, some 8] := by decide +kernel
  obtain ⟨s, hs, hlives⟩ := Option.map_eq_some_iff.mp hok
  have hrun := toOption_eq_some.mp hs
  simp only [List.map_cons, List.map_nil, List.cons.injEq, and_true] at hlives
  have hlive : ∀ p ∈ [80, 104, 128], ∃ r, s.live p = some r := by simp [hlives]
  have hperm : [80, 104, 128].Perm [128, 80, 104] := by decide
  obtain ⟨s₁, s₂, l, h₁, h₂, hl₁, hl₂, _⟩ :=
    free_order_irrelevant _ (by decide) (by decide) (by decide) hrun hlive (by decide) hperm
  exact ⟨s, hrun, s₁, s₂, l, h₁, h₂, hl₁, hl₂⟩

/-- **A region that starts at the null address** remembers the order: the block at null is merged only
    when it is the one being freed. -/
theorem null_region_free_order :
    ∃ s s₁ s₂, (HeapState.init ⟨fun _ => 0, none, 0⟩ 100 0).run [.kmalloc 16, .kmalloc 16] = .ok s ∧
      s.live 16 = some 16 ∧ s.live 48 = some 16 ∧ s.run ([16, 48].map .free) = .ok s₁ ∧
      s.run ([48, 16].map .free) = .ok s₂ ∧ s₁.blocks ≠ s₂.blocks := by
  let start := HeapState.init ⟨fun _ => 0, none, 0⟩ 100 0
  have hlive : (start.run [.kmalloc 16, .kmalloc 16]).toOption.map (fun s => (s.live 16, s.live 48)) =
      some (some 16, some 16) := by decide +kernel
  have hfirst : (start.run ([.kmalloc 16, .kmalloc 16] ++ [16, 48].map .free)).toOption.bind
      HeapState.blocks = some [(0, ⟨tag false, 16, 32, 0⟩), (32, ⟨tag false, 52, 0, 0⟩)] := by
    decide +kernel
  have hsecond : (start.run ([.kmalloc 16, .kmalloc 16] ++ [48, 16].map .free)).toOption.bind
      HeapState.blocks = some [(0, ⟨tag false, 84, 0, 0⟩)] := by decide +kernel
  obtain ⟨s, hs, hlive⟩ := Option.map_eq_some_iff.mp hlive
  obtain ⟨s₁, hs₁, hb₁⟩ := Option.bind_eq_some_iff.mp hfirst
  obtain ⟨s₂, hs₂, hb₂⟩ := Option.bind_eq_some_iff.mp hsecond
  obtain ⟨t₁, ht₁, hrun₁⟩ := run_append.mp (toOption_eq_some.mp hs₁)
  obtain ⟨t₂, ht₂, hrun₂⟩ := run_append.mp (toOption_eq_some.mp hs₂)
  have hs := toOption_eq_some.mp hs
  obtain rfl : s = t₁ := Except.ok.inj (hs.symm.trans ht₁)
  obtain rfl : s = t₂ := Except.ok.inj (hs.symm.trans ht₂)
  obtain ⟨h16, h48⟩ := Prod.mk.inj hlive
  refine ⟨s, s₁, s₂, hs, h16, h48, hrun₁, hrun₂, ?_⟩
  rw [hb₁, hb₂]
  simp

end WeirdOs
