import WeirdOs.Paging.Correctness.View
import WeirdOs.Paging.Correctness.Bitmap

/-!
# `Paging.Correctness.Ranges` — which pages a call of `allocate` maps

A caller of `allocate` wants every page that its range meets. `allocate` rounds the start down and the
size up, each for itself, and compares addresses of 32 bits. It therefore misses the last page of a range
that straddles one page boundary more than its size needs (`Straddles`), and every page of a range that
ends in the last page of the address space, where the end wraps to 0 (`ReachesTop`). It never maps a page
outside (`mem_allocatePages`).
-/

namespace WeirdOs

open Lib

variable {s s' t : Paging} {dir a v size : Nat}

/-! ## Pages of a range -/

/-- The page at `a` has an address in common with `[v, v + size)`. -/
def Meets (v size a : Nat) : Prop := a % 0x1000 = 0 ∧ a < v + size ∧ v < a + 0x1000

/-- The page of the last address of the range. -/
def lastPage (v size : Nat) : Nat := (v + size - 1) / 0x1000 * 0x1000

/-- The range meets one page more than its size needs. -/
def Straddles (v size : Nat) : Prop := 0x1000 ≤ v % 0x1000 + (size - 1) % 0x1000

/-- The range ends in the last page of the address space. -/
def ReachesTop (v size : Nat) : Prop := 0xfffff000 < v + size

/-- The pages that `allocate` maps start at page boundaries. -/
theorem allocatePages_aligned (h : a ∈ allocatePages v size) : a % 0x1000 = 0 := by
  obtain ⟨-, -, hmod⟩ := mem_pageRange.mp h
  rw [hmod]
  exact Nat.mul_mod_left _ _

theorem meets_lastPage (hpos : 0 < size) : Meets v size (lastPage v size) := by
  unfold Meets lastPage
  omega

/-- **The pages that `allocate` maps** are those its range meets, but for the last one of a range that
    straddles, and but for all of another range that ends in the last page of the address space. -/
theorem mem_allocatePages (hpos : 0 < size) (hsize : size < 4294967296) (hend : v + size ≤ 4294967296) :
    a ∈ allocatePages v size ↔ Meets v size a ∧ (Straddles v size → a ≠ lastPage v size) ∧
      (¬ Straddles v size → ¬ ReachesTop v size) := by
  unfold allocatePages
  dsimp only
  rw [mem_pageRange]
  unfold Meets lastPage Straddles ReachesTop
  split <;> omega

/-! ## Runs -/

/-- A directory none of whose pages is mapped, and a bitmap with the reserved frames only. -/
structure Untouched (dir : Nat) (s : Paging) : Prop where
  nframes : s.nframes = 0x4000
  bits : ∀ f < 0x4000, testAt 32 s.frames f = decide (f < 2048)
  zero : ∀ p, s.pages p = Page.zero
  tables : ∀ k, (s.dirs dir).tables k = 0
  fresh : ∃ heap, Fresh dir s heap

theorem Untouched.frameInv (h : Untouched dir s) : FrameInv dir s := by
  obtain ⟨heap, hfresh⟩ := h.fresh
  exact FrameInv.init h.nframes h.bits h.zero hfresh

theorem Untouched.viewInv (h : Untouched dir s) : ViewInv dir s := by
  obtain ⟨heap, hfresh⟩ := h.fresh
  exact ViewInv.init hfresh h.tables

/-- What `initialise_paging` leaves is untouched, if memory was zero where the bitmap is not zeroed and
    where the tables will be. -/
theorem initialisePaging_untouched (frames : Nat → Nat) (heap : List Nat)
    (hmem : ∀ i, 128 ≤ i → i < 512 → frames i = 0) (hapart : heap.Pairwise Apart)
    (hnonnull : ∀ a ∈ heap, a ≠ 0) :
    ∃ s, initialisePaging frames (fun _ => Page.zero) heap = .ok s ∧ Untouched s.kernelDirectory s := by
  obtain ⟨s, hs, hn, hpages, hheap, hdir, hbits⟩ := initialisePaging_spec frames (fun _ => Page.zero) heap
  have htables : ∀ k, (s.dirs s.kernelDirectory).tables k = 0 := fun k => by rw [hdir]; rfl
  exact ⟨s, hs, hn, hbits hmem, fun p => by rw [hpages], htables,
    heap, hheap, hapart, hnonnull, fun a _ k hk => absurd (htables k) hk⟩

/-- **The pages that a run maps** are those it is asked for, and those mapped before. -/
theorem run_mapped_iff {rs : List PageRequest} (hf : FrameInv dir s) (hv : ViewInv dir s)
    (hclear : ClearBefore dir s rs) (hrun : run (mapPage dir) s rs = .ok s') (a : Nat) :
    Mapped s' dir a ↔ Mapped s dir a ∨ ∃ r ∈ rs, a / 0x1000 = r.address / 0x1000 := by
  obtain ⟨-, hall, hkeep⟩ := hf.run hclear hrun
  constructor
  · intro hmapped
    by_cases hin : ∃ r ∈ rs, a / 0x1000 = r.address / 0x1000
    · exact Or.inr hin
    · left
      have hout : ∀ r ∈ rs, a / 0x1000 ≠ r.address / 0x1000 := fun r hr heq => hin ⟨r, hr, heq⟩
      rw [mapped_iff, ← (hv.run_keep hout hrun).2]
      exact mapped_iff.mp hmapped
  · rintro (hmapped | ⟨r, hr, hpage⟩)
    · exact hkeep a hmapped
    · rw [mapped_iff, pageAt_page hpage]
      exact mapped_iff.mp (hall r hr)

/-- The call with its arguments as numbers. -/
def AllocateCall.run (dir : Nat) (s : Paging) (c : AllocateCall) : Exec Paging :=
  allocate s dir c.virtAddr.toNat c.size.toNat c.isKernel.toNat c.isWritable.toNat

theorem AllocateCall.run_eq (c : AllocateCall) (s : Paging) :
    c.run dir s = Lib.run (mapPage dir) s c.requests :=
  allocate_eq c.virtAddr.toNat_lt c.size.toNat_lt s

theorem AllocateCall.mem_requests {c : AllocateCall} (ha : a % 0x1000 = 0) :
    (∃ r ∈ c.requests, a / 0x1000 = r.address / 0x1000) ↔ a ∈ c.pages := by
  constructor
  · rintro ⟨r, hr, hpage⟩
    obtain ⟨b, hb, rfl⟩ := List.mem_map.mp hr
    have hb0 := allocatePages_aligned hb
    obtain rfl : a = b := by
      dsimp only at hpage
      omega
    exact hb
  · exact fun hin => ⟨_, List.mem_map.mpr ⟨a, hin, rfl⟩, rfl⟩

/-- **What one call maps**, after any others. -/
theorem allocate_mapped_iff {calls : List AllocateCall} {c : AllocateCall} (hs : Untouched dir s)
    (hclear : ClearBefore dir s ((calls ++ [c]).flatMap AllocateCall.requests))
    (hrun : runAllocate dir s calls = .ok t) (hcall : c.run dir t = .ok s') (ha : a % 0x1000 = 0) :
    Mapped s' dir a ↔ Mapped t dir a ∨ a ∈ c.pages := by
  rw [runAllocate_eq] at hrun
  rw [AllocateCall.run_eq] at hcall
  rw [List.flatMap_append, List.flatMap_singleton] at hclear
  obtain ⟨hbefore, hclear⟩ := hclear.append hrun
  have hf : FrameInv dir t := (hs.frameInv.run hbefore hrun).1
  rw [run_mapped_iff hf (hs.viewInv.run hrun) hclear hcall, AllocateCall.mem_requests ha]

/-- There are 14336 frames for an untouched directory. -/
theorem Untouched.clearBefore {rs : List PageRequest} (h : Untouched dir s) (hlen : rs.length ≤ 14336) :
    ClearBefore dir s rs := by
  apply clearBefore_of_length h.nframes
  rw [card_clearBelow h.bits]
  exact hlen

/-- **Exactly which ranges are mapped as their caller wants.** After any calls of `allocate` on a new
    directory, and while free frames remain, let a call for a range inside the address space return. Every
    page that the range meets is mapped, and no other page that was not, if and only if these are mapped
    already: the last page, if the range straddles; all of its pages, if it does not and ends in the last
    page of the address space. -/
theorem allocate_range_iff {calls : List AllocateCall} {c : AllocateCall} (hs : Untouched dir s)
    (hclear : ClearBefore dir s ((calls ++ [c]).flatMap AllocateCall.requests))
    (hrun : runAllocate dir s calls = .ok t) (hcall : c.run dir t = .ok s') (hpos : 0 < c.size.toNat)
    (hend : c.virtAddr.toNat + c.size.toNat ≤ 4294967296) :
    ((∀ a, Meets c.virtAddr.toNat c.size.toNat a → Mapped s' dir a) ∧
      ∀ a, a % 0x1000 = 0 → ¬ Meets c.virtAddr.toNat c.size.toNat a → Mapped s' dir a → Mapped t dir a) ↔
    (Straddles c.virtAddr.toNat c.size.toNat →
      Mapped t dir (lastPage c.virtAddr.toNat c.size.toNat)) ∧
    (¬ Straddles c.virtAddr.toNat c.size.toNat → ReachesTop c.virtAddr.toNat c.size.toNat →
      ∀ a, Meets c.virtAddr.toNat c.size.toNat a → Mapped t dir a) := by
  have hmapped : ∀ a, a % 0x1000 = 0 → (Mapped s' dir a ↔ Mapped t dir a ∨ a ∈ c.pages) := fun a ha =>
    allocate_mapped_iff hs hclear hrun hcall ha
  have hmem : ∀ a, a ∈ c.pages ↔ _ := fun a => mem_allocatePages hpos c.size.toNat_lt hend
  constructor
  · rintro ⟨hall, -⟩
    -- a page of the range that the call leaves out was mapped before
    have hout : ∀ a, Meets c.virtAddr.toNat c.size.toNat a → a ∉ c.pages → Mapped t dir a :=
      fun a ha hnot => ((hmapped a ha.1).mp (hall a ha)).resolve_right hnot
    constructor
    · intro hstraddles
      apply hout _ (meets_lastPage hpos)
      rw [hmem]
      exact fun h => h.2.1 hstraddles rfl
    · intro hstraddles htop a ha
      apply hout a ha
      rw [hmem]
      exact fun h => h.2.2 hstraddles htop
  · rintro ⟨hlast, htop⟩
    refine ⟨?_, ?_⟩
    · intro a ha
      rw [hmapped a ha.1, hmem]
      by_cases hstraddles : Straddles c.virtAddr.toNat c.size.toNat
      · by_cases hlastPage : a = lastPage c.virtAddr.toNat c.size.toNat
        · exact Or.inl (hlastPage ▸ hlast hstraddles)
        · exact Or.inr ⟨ha, fun _ => hlastPage, fun h => absurd hstraddles h⟩
      · by_cases hreaches : ReachesTop c.virtAddr.toNat c.size.toNat
        · exact Or.inl (htop hstraddles hreaches a ha)
        · exact Or.inr ⟨ha, fun h => absurd h hstraddles, fun _ => hreaches⟩
    · intro a ha hnot hin
      rw [hmapped a ha, hmem] at hin
      exact hin.resolve_right fun h => hnot h.1

/-- A range of two pages, the second of which an earlier call has mapped with the page after it. -/
theorem allocate_range_iff_shared :
    ∃ s t s', initialisePaging (fun _ => 0) (fun _ => Page.zero) [0xd0001000] = .ok s ∧
      runAllocate s.kernelDirectory s [⟨0x2000, 0x2000, 1, 0⟩] = .ok t ∧
      (⟨0x1000, 0x2000, 0, 1⟩ : AllocateCall).run s.kernelDirectory t = .ok s' ∧
      (∀ a, Meets 0x1000 0x2000 a → Mapped s' s.kernelDirectory a) ∧
      ∀ a, a % 0x1000 = 0 → ¬ Meets 0x1000 0x2000 a → Mapped s' s.kernelDirectory a →
        Mapped t s.kernelDirectory a := by
  obtain ⟨s, hs, hnew⟩ := initialisePaging_untouched (fun _ => 0) [0xd0001000] (fun _ _ _ => rfl)
    (List.pairwise_singleton ..) (by decide)
  have hrun : ((initialisePaging (fun _ => 0) (fun _ => Page.zero) [0xd0001000]).toOption.bind fun s =>
      (runAllocate s.kernelDirectory s [⟨0x2000, 0x2000, 1, 0⟩]).toOption.bind fun t =>
        ((⟨0x1000, 0x2000, 0, 1⟩ : AllocateCall).run s.kernelDirectory t).toOption).isSome = true := by
    decide +kernel
  obtain ⟨s', hs'⟩ := Option.isSome_iff_exists.mp hrun
  obtain ⟨s₁, hs₁, hs'⟩ := Option.bind_eq_some_iff.mp hs'
  obtain rfl := Except.ok.inj (hs.symm.trans (toOption_eq_some.mp hs₁))
  obtain ⟨t, ht, hs'⟩ := Option.bind_eq_some_iff.mp hs'
  have hbefore := toOption_eq_some.mp ht
  have hcall := toOption_eq_some.mp hs'
  have hiff := allocate_range_iff hnew (hnew.clearBefore (by decide)) hbefore hcall (by decide) (by decide)
  have hno : ¬ Straddles 0x1000 0x2000 ∧ ¬ ReachesTop 0x1000 0x2000 := by
    unfold Straddles ReachesTop
    decide
  obtain ⟨hall, hother⟩ := hiff.mpr ⟨fun h => absurd h hno.1, fun _ h => absurd h hno.2⟩
  exact ⟨s, t, s', hs, hbefore, hcall, hall, hother⟩

/-- **Two ranges that are not mapped**: the second page of `[0x1800, 0x2800)`, and the last page of the
    address space. -/
theorem allocate_range_missed :
    ∃ s s₁ s₂, initialisePaging (fun _ => 0) (fun _ => Page.zero) [0xd0001000] = .ok s ∧
      (⟨0x1800, 0x1000, 0, 1⟩ : AllocateCall).run s.kernelDirectory s = .ok s₁ ∧
      Meets 0x1800 0x1000 0x2000 ∧ ¬ Mapped s₁ s.kernelDirectory 0x2000 ∧
      (⟨0xfffff000, 0x1000, 0, 1⟩ : AllocateCall).run s.kernelDirectory s = .ok s₂ ∧
      Meets 0xfffff000 0x1000 0xfffff000 ∧ ¬ Mapped s₂ s.kernelDirectory 0xfffff000 := by
  have hrun : ((initialisePaging (fun _ => 0) (fun _ => Page.zero) [0xd0001000]).toOption.bind fun s =>
      ((⟨0x1800, 0x1000, 0, 1⟩ : AllocateCall).run s.kernelDirectory s).toOption.bind fun s₁ =>
        ((⟨0xfffff000, 0x1000, 0, 1⟩ : AllocateCall).run s.kernelDirectory s).toOption.map fun s₂ =>
          (pageAt s₁ s.kernelDirectory 0x2000, pageAt s₂ s.kernelDirectory 0xfffff000)) =
      some (Page.zero, Page.zero) := by
    decide +kernel
  obtain ⟨s, hs, hrest⟩ := Option.bind_eq_some_iff.mp hrun
  obtain ⟨s₁, hs₁, hrest⟩ := Option.bind_eq_some_iff.mp hrest
  obtain ⟨s₂, hs₂, hpages⟩ := Option.map_eq_some_iff.mp hrest
  obtain ⟨h₁, h₂⟩ := Prod.mk.inj hpages
  have hzero : ∀ {t : Paging} {b : Nat}, pageAt t s.kernelDirectory b = Page.zero →
      ¬ Mapped t s.kernelDirectory b := fun h hmapped => by
    rw [mapped_iff, h] at hmapped
    exact absurd hmapped.1 (by decide)
  refine ⟨s, s₁, s₂, toOption_eq_some.mp hs, toOption_eq_some.mp hs₁, ?_, hzero h₁,
    toOption_eq_some.mp hs₂, ?_, hzero h₂⟩
  · unfold Meets
    decide
  · unfold Meets
    decide

end WeirdOs
