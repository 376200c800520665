import WeirdOs.Elf.Loader
import WeirdOs.Paging.Correctness.Directory

/-!
# `Elf.Correctness` — what loading an image does to the kernel's part of a directory

`load` trusts the addresses in the image. Nothing compares them with the kernel's half of the address
space, and `get_page` does not look at the 4 MB bit, so a segment there replaces the kernel's mapping by
a new page table and is then copied over the kernel. `load_kernel_iff` says exactly which images do no
harm: those whose segments, one after the other, stay out of the two 4 MB slots and end at or below
`0xc0000000` (`LowSegments`).

For an image whose headers lie in kernel memory, as those of `exec_process` do, the condition is one on
the image as it is when `load` is called (`lowSegments_iff`): harmless copies do not reach it.
-/

namespace WeirdOs

open Lib

variable {s s' : LoadState} {m : Mem} {addr dir i : Nat}

/-! ## The condition -/

/-- Every byte of the copy `(dest, n)` goes below the kernel. -/
def CopyLow (c : Nat × Nat) : Prop := ∀ j < c.2, add32 c.1 j < 0xc0000000

/-- A segment that stays out of the kernel: no page of its range is in one of the 4 MB slots, and its
    bytes end at or below `0xc0000000`. -/
structure SegmentLow (ph : ProgramHeader) : Prop where
  pages : ∀ a ∈ allocatePages ph.vaddr ph.memsz, Outside a
  copy : ph.filesz = 0 ∨ ph.vaddr + ph.filesz ≤ 0xc0000000

/-- From header `i` on, every segment stays out of the kernel: each header as memory holds it when its
    turn comes. -/
def LowSegments (addr : Nat) : Nat → Nat → Mem → Prop
  | 0, _, _ => True
  | fuel + 1, i, m =>
    i < (elfHeader m addr).phnum →
      let ph := programHeader m addr i
      (ph.type ≠ ptLoad → LowSegments addr fuel (i + 1) m) ∧
      (ph.type = ptLoad → SegmentLow ph ∧
        LowSegments addr fuel (i + 1) (memcpy m ph.vaddr (add32 addr ph.offset) ph.filesz))

/-- The fields of a program header are 32-bit words. -/
theorem programHeader_lt (m : Mem) (addr i : Nat) :
    (programHeader m addr i).vaddr < 4294967296 ∧ (programHeader m addr i).memsz < 4294967296 ∧
      (programHeader m addr i).filesz < 4294967296 :=
  ⟨load32_lt _ _, load32_lt _ _, load32_lt _ _⟩

/-- **The bytes of a copy** are all below the kernel exactly when it ends there. -/
theorem copyLow_iff {d n : Nat} (hd : d < 4294967296) (hn : n < 4294967296) :
    CopyLow (d, n) ↔ n = 0 ∨ d + n ≤ 0xc0000000 := by
  unfold CopyLow add32
  dsimp only
  constructor
  · intro h
    rcases Nat.eq_zero_or_pos n with hzero | hpos
    · exact Or.inl hzero
    · right
      have hfirst := h 0 hpos
      rcases Nat.lt_or_ge 0xc0000000 (d + n) with hover | hfits
      · -- the byte at `0xc0000000` would be one of the copy
        have := h (0xc0000000 - d) (by omega)
        omega
      · exact hfits
  · intro h j hj
    omega

/-- A copy that ends below the kernel leaves the kernel's half of memory alone. -/
theorem memcpy_low {d src n x : Nat} (h : n = 0 ∨ d + n ≤ 0xc0000000) (hx : 0xc0000000 ≤ x) :
    memcpy m d src n x = m x := by
  rcases h with rfl | hle
  · rfl
  · exact memcpy_out (by omega) (by omega)

/-! ## One segment -/

/-- The two slots of the kernel. -/
def KernelSlot (k : Nat) : Prop := k = kernelPageNumber ∨ k = kheapPageNumber

/-- What `allocate` maps, as requests. -/
theorem allocate_run {p p' : Paging} {v size w : Nat} (hv : v < 4294967296) (hsize : size < 4294967296)
    (h : allocate p dir v size 0 w = .ok p') :
    run (mapPage dir) p ((allocatePages v size).map fun a => ⟨a, 0, w⟩) = .ok p' := by
  rw [← allocate_eq hv hsize]
  exact h

/-- `allocate` outside the kernel's slots leaves them alone. -/
theorem allocate_same {p p' : Paging} {v size w k : Nat} (hv : v < 4294967296) (hsize : size < 4294967296)
    (h : allocate p dir v size 0 w = .ok p') (hk : KernelSlot k)
    (hout : ∀ a ∈ allocatePages v size, Outside a) :
    (p'.dirs dir).tables k = (p.dirs dir).tables k ∧
      (p'.dirs dir).tablesPhysical k = (p.dirs dir).tablesPhysical k := by
  apply run_mapPage_same (allocate_run hv hsize h)
  intro r hr
  obtain ⟨a, ha, rfl⟩ := List.mem_map.mp hr
  rcases hk with rfl | rfl
  · exact (hout a ha).1
  · exact (hout a ha).2

/-- A slot of the kernel that is no 4 MB page any more stays so. -/
theorem allocate_broken {p p' : Paging} {v size w k : Nat} (hv : v < 4294967296)
    (hsize : size < 4294967296) (h : allocate p dir v size 0 w = .ok p')
    (hk : (p.dirs dir).tablesPhysical k &&& 0x80 = 0) : (p'.dirs dir).tablesPhysical k &&& 0x80 = 0 :=
  run_mapPage_broken (allocate_run hv hsize h) hk

/-- `allocate` inside one of the kernel's slots breaks it. -/
theorem allocate_breaks {p p' : Paging} {v size w : Nat} (hv : v < 4294967296) (hsize : size < 4294967296)
    (h : allocate p dir v size 0 w = .ok p') (hnull : ∀ k, KernelSlot k → (p.dirs dir).tables k = 0)
    (hin : ¬ ∀ a ∈ allocatePages v size, Outside a) :
    ∃ k, KernelSlot k ∧ (p'.dirs dir).tablesPhysical k &&& 0x80 = 0 := by
  simp only [Classical.not_forall] at hin
  obtain ⟨a, ha, hslot⟩ := hin
  have hk : KernelSlot (slot a) := by
    unfold Outside at hslot
    rcases Decidable.em (slot a = kernelPageNumber) with h' | h'
    · exact Or.inl h'
    · exact Or.inr (Decidable.byContradiction fun h'' => hslot ⟨h', h''⟩)
  exact ⟨slot a, hk, run_mapPage_breaks (allocate_run hv hsize h) (hnull _ hk)
    ⟨_, List.mem_map.mpr ⟨a, ha, rfl⟩, rfl⟩⟩

/-! ## The loop -/

/-- **What one iteration does**: past the last header nothing; a header of another type is skipped; a
    segment is allocated and copied. -/
theorem loadLoop_cases {fuel i : Nat} (h : loadLoop addr dir (fuel + 1) i s = .ok s') :
    (¬ i < (elfHeader s.mem addr).phnum ∧ s' = s) ∨
    (i < (elfHeader s.mem addr).phnum ∧ (programHeader s.mem addr i).type ≠ ptLoad ∧
      loadLoop addr dir fuel (i + 1) s = .ok s') ∨
    (i < (elfHeader s.mem addr).phnum ∧ (programHeader s.mem addr i).type = ptLoad ∧
      ∃ paging,
        allocate s.paging dir (programHeader s.mem addr i).vaddr (programHeader s.mem addr i).memsz 0
          ((programHeader s.mem addr i).flags &&& pfW) = .ok paging ∧
        loadLoop addr dir fuel (i + 1)
          { paging := paging
            mem := memcpy s.mem (programHeader s.mem addr i).vaddr
              (add32 addr (programHeader s.mem addr i).offset) (programHeader s.mem addr i).filesz
            copied := s.copied ++
              [((programHeader s.mem addr i).vaddr, (programHeader s.mem addr i).filesz)] } = .ok s') := by
  rw [loadLoop] at h
  by_cases hi : i < (elfHeader s.mem addr).phnum
  · rw [if_pos hi] at h
    right
    by_cases ht : (programHeader s.mem addr i).type = ptLoad
    · simp only [ht, ne_eq, not_true_eq_false, if_false] at h
      exact Or.inr ⟨hi, ht, bind_eq_ok.mp h⟩
    · simp only [ht, ne_eq, not_false_eq_true, if_true] at h
      exact Or.inl ⟨hi, ht, h⟩
  · rw [if_neg hi] at h
    cases h
    exact Or.inl ⟨hi, rfl⟩

/-- **Harmless segments**: the slots stay as they are, and every copy is low. -/
theorem loadLoop_low :
    ∀ {fuel i : Nat} {s : LoadState}, loadLoop addr dir fuel i s = .ok s' →
      LowSegments addr fuel i s.mem →
      (∀ k, KernelSlot k → (s'.paging.dirs dir).tables k = (s.paging.dirs dir).tables k ∧
        (s'.paging.dirs dir).tablesPhysical k = (s.paging.dirs dir).tablesPhysical k) ∧
      ∀ c ∈ s'.copied, c ∈ s.copied ∨ CopyLow c := by
  intro fuel
  induction fuel with
  | zero => intro i s h; cases h
  | succ fuel ih =>
      intro i s h hlow
      rcases loadLoop_cases h with ⟨_, rfl⟩ | ⟨hi, ht, hrest⟩ | ⟨hi, ht, paging, halloc, hrest⟩
      · exact ⟨fun _ _ => ⟨rfl, rfl⟩, fun c hc => Or.inl hc⟩
      · exact ih hrest ((hlow hi).1 ht)
      · obtain ⟨hseg, hlow'⟩ := (hlow hi).2 ht
        obtain ⟨hv, hm, hf⟩ := programHeader_lt s.mem addr i
        obtain ⟨hslots, hcopied⟩ := ih hrest hlow'
        refine ⟨?_, ?_⟩
        · intro k hk
          obtain ⟨h1, h2⟩ := hslots k hk
          obtain ⟨h3, h4⟩ := allocate_same hv hm halloc hk hseg.pages
          exact ⟨h1.trans h3, h2.trans h4⟩
        · -- an earlier copy, this one, or a later one
          intro c hc
          rcases hcopied c hc with hc' | hc'
          · rcases List.mem_append.mp hc' with hc' | hc'
            · exact Or.inl hc'
            · rw [List.mem_singleton.mp hc']
              exact Or.inr ((copyLow_iff hv hf).mpr hseg.copy)
          · exact Or.inr hc'

/-- Harm is not undone: a broken slot stays broken, and a copy stays made. -/
theorem loadLoop_keeps :
    ∀ {fuel i : Nat} {s : LoadState}, loadLoop addr dir fuel i s = .ok s' →
      (∀ k, (s.paging.dirs dir).tablesPhysical k &&& 0x80 = 0 →
        (s'.paging.dirs dir).tablesPhysical k &&& 0x80 = 0) ∧ ∀ c ∈ s.copied, c ∈ s'.copied := by
  intro fuel
  induction fuel with
  | zero => intro i s h; cases h
  | succ fuel ih =>
      intro i s h
      rcases loadLoop_cases h with ⟨_, rfl⟩ | ⟨_, _, hrest⟩ | ⟨_, _, paging, halloc, hrest⟩
      · exact ⟨fun _ hk => hk, fun c hc => hc⟩
      · exact ih hrest
      · obtain ⟨hv, hm, _⟩ := programHeader_lt s.mem addr i
        obtain ⟨hbroken, hcopied⟩ := ih hrest
        exact ⟨fun k hk => hbroken k (allocate_broken hv hm halloc hk),
          fun c hc => hcopied c (List.mem_append_left _ hc)⟩

/-- **A harmful segment** breaks a slot of the kernel, or is copied into it. -/
theorem loadLoop_harm :
    ∀ {fuel i : Nat} {s : LoadState}, loadLoop addr dir fuel i s = .ok s' →
      (∀ k, KernelSlot k → (s.paging.dirs dir).tables k = 0) → ¬ LowSegments addr fuel i s.mem →
      (∃ k, KernelSlot k ∧ (s'.paging.dirs dir).tablesPhysical k &&& 0x80 = 0) ∨
        ∃ c ∈ s'.copied, ¬ CopyLow c := by
  intro fuel
  induction fuel with
  | zero => intro i s h; cases h
  | succ fuel ih =>
      intro i s h hnull hharm
      rcases loadLoop_cases h with ⟨hi, _⟩ | ⟨_, ht, hrest⟩ | ⟨_, ht, paging, halloc, hrest⟩
      · exact absurd (fun hi' => absurd hi' hi) hharm
      · exact ih hrest hnull fun hlow => hharm fun _ => ⟨fun _ => hlow, fun ht' => absurd ht' ht⟩
      · obtain ⟨hv, hm, hf⟩ := programHeader_lt s.mem addr i
        obtain ⟨hbroken, hcopied⟩ := loadLoop_keeps hrest
        by_cases hpages : ∀ a ∈ allocatePages (programHeader s.mem addr i).vaddr
            (programHeader s.mem addr i).memsz, Outside a
        · by_cases hcopy : CopyLow ((programHeader s.mem addr i).vaddr, (programHeader s.mem addr i).filesz)
          · -- this segment is harmless, so a later one is not
            refine ih hrest ?_ fun hlow => hharm fun _ =>
              ⟨fun ht' => absurd ht ht', fun _ => ⟨⟨hpages, (copyLow_iff hv hf).mp hcopy⟩, hlow⟩⟩
            intro k hk
            rw [(allocate_same hv hm halloc hk hpages).1]
            exact hnull k hk
          · exact Or.inr ⟨_, hcopied _ (by simp), hcopy⟩
        · obtain ⟨k, hk, hb⟩ := allocate_breaks hv hm halloc hnull hpages
          exact Or.inl ⟨k, hk, hbroken k hb⟩

/-! ## Images in kernel memory -/

/-- The header and the program headers lie in kernel memory. -/
structure InKernel (m : Mem) (addr : Nat) : Prop where
  header : 0xc0000000 ≤ addr
  table : 0xc0000000 ≤ add32 addr (elfHeader m addr).phoff
  fits : add32 addr (elfHeader m addr).phoff + 32 * (elfHeader m addr).phnum ≤ 4294967296

/-- Memory that agrees on the kernel's half holds the same header. -/
theorem elfHeader_congr {m' : Mem} (haddr : 0xc0000000 ≤ addr) (h : ∀ x, 0xc0000000 ≤ x → m' x = m x) :
    elfHeader m' addr = elfHeader m addr := by
  unfold elfHeader
  congr 1
  all_goals
    first
    | exact load32_congr fun x h1 _ => h x (by omega)
    | exact load16_congr fun x h1 _ => h x (by omega)

theorem programHeader_congr {m' : Mem} (hk : InKernel m addr) (hi : i < (elfHeader m addr).phnum)
    (h : ∀ x, 0xc0000000 ≤ x → m' x = m x) : programHeader m' addr i = programHeader m addr i := by
  have htable := hk.table
  have hfits := hk.fits
  unfold programHeader
  rw [elfHeader_congr hk.header h]
  generalize add32 addr (elfHeader m addr).phoff = base at *
  rw [add32_of_lt (show base + 32 * i < 4294967296 from by omega)]
  dsimp only
  congr 1
  all_goals exact load32_congr fun x h1 _ => h x (by omega)

/-- What holds of the headers from `i` on holds of header `i` and of those from `i + 1` on. -/
theorem forall_headers_iff {P : Nat → Prop} {num : Nat} : (∀ j, i ≤ j → j < num → P j) ↔
    (i < num → P i) ∧ ∀ j, i + 1 ≤ j → j < num → P j := by
  constructor
  · exact fun h => ⟨h i (Nat.le_refl i), fun j hj => h j (Nat.le_of_succ_le hj)⟩
  · rintro ⟨hi, hrest⟩ j hij hj
    rcases Nat.eq_or_lt_of_le hij with rfl | hlt
    · exact hi hj
    · exact hrest j hlt hj

/-- **For an image in kernel memory the condition is one on the image.** -/
theorem lowSegments_iff {m₀ : Mem} (hk : InKernel m₀ addr) :
    ∀ {fuel i : Nat} {m : Mem}, (∀ x, 0xc0000000 ≤ x → m x = m₀ x) →
      (elfHeader m₀ addr).phnum ≤ i + fuel →
      (LowSegments addr fuel i m ↔
        ∀ j, i ≤ j → j < (elfHeader m₀ addr).phnum → (programHeader m₀ addr j).type = ptLoad →
          SegmentLow (programHeader m₀ addr j)) := by
  intro fuel
  induction fuel with
  | zero =>
      intro i m _ hfuel
      exact ⟨fun _ j h1 h2 => by omega, fun _ => trivial⟩
  | succ fuel ih =>
      intro i m hm hfuel
      rw [LowSegments, elfHeader_congr hk.header hm, forall_headers_iff]
      by_cases hi : i < (elfHeader m₀ addr).phnum
      · simp only [hi, true_implies, programHeader_congr hk hi hm]
        by_cases ht : (programHeader m₀ addr i).type = ptLoad
        · simp only [ht, ne_eq, not_true_eq_false, false_implies, true_implies, true_and]
          refine and_congr_right fun hseg => ih ?_ (by omega)
          intro x hx
          rw [memcpy_low hseg.copy hx, hm x hx]
        · simp only [ht, ne_eq, not_false_eq_true, true_implies, false_implies, and_true, true_and]
          exact ih hm (by omega)
      · exact iff_of_true (fun hi' => absurd hi' hi)
          ⟨fun hi' => absurd hi' hi, fun j h1 h2 => by omega⟩

/-! ## Loading an image -/

/-- **Exactly which images leave the kernel's part of a directory alone.** For a directory whose two
    kernel slots are 4 MB pages, as `fork_page` makes them, and an image that is accepted and loaded:
    both slots are as they were and no byte was copied to `0xc0000000` or above, if and only if every
    segment stays out of the kernel. For an image in kernel memory that is a condition on its program
    headers. -/
theorem load_kernel_iff {layout : ElfLayout}
    (hslots : ∀ k, KernelSlot k → (s.paging.dirs dir).tables k = 0 ∧
      (s.paging.dirs dir).tablesPhysical k &&& 0x80 ≠ 0)
    (hcopied : s.copied = []) (hload : loadImage s addr dir = .ok (layout, s')) :
    (((∀ k, KernelSlot k → (s'.paging.dirs dir).tables k = (s.paging.dirs dir).tables k ∧
        (s'.paging.dirs dir).tablesPhysical k = (s.paging.dirs dir).tablesPhysical k) ∧
      ∀ c ∈ s'.copied, CopyLow c) ↔ LowSegments addr loadFuel 0 s.mem) ∧
    (InKernel s.mem addr → (LowSegments addr loadFuel 0 s.mem ↔
      ∀ i < (elfHeader s.mem addr).phnum, (programHeader s.mem addr i).type = ptLoad →
        SegmentLow (programHeader s.mem addr i))) := by
  obtain ⟨_, _, hload⟩ := bind_eq_ok.mp hload
  obtain ⟨_, _, hload⟩ := bind_eq_ok.mp hload
  obtain ⟨s₁, hloop, hload⟩ := bind_eq_ok.mp hload
  obtain ⟨paging, hstack, hret⟩ := bind_eq_ok.mp hload
  cases hret
  -- the stack is in the first slot
  have hpages : ∀ a ∈ allocatePages 0 0x2000, Outside a := by
    rw [show allocatePages 0 0x2000 = [0, 0x1000] by decide]
    simp [Outside, slot, kernelPageNumber, kheapPageNumber]
  refine ⟨⟨?_, ?_⟩, ?_⟩
  · rintro ⟨hsame, hlow⟩
    apply Classical.byContradiction
    intro hharm
    rcases loadLoop_harm hloop (fun k hk => (hslots k hk).1) hharm with ⟨k, hk, hbroken⟩ | ⟨c, hc, hhigh⟩
    · have hbroken' := allocate_broken (by decide) (by decide) hstack hbroken
      rw [(hsame k hk).2] at hbroken'
      exact (hslots k hk).2 hbroken'
    · exact hhigh (hlow c hc)
  · intro hlow
    obtain ⟨hsame, hcopies⟩ := loadLoop_low hloop hlow
    refine ⟨?_, ?_⟩
    · intro k hk
      obtain ⟨h1, h2⟩ := hsame k hk
      obtain ⟨h3, h4⟩ := allocate_same (by decide) (by decide) hstack hk hpages
      exact ⟨h3.trans h1, h4.trans h2⟩
    · intro c hc
      rcases hcopies c hc with hc' | hc'
      · rw [hcopied] at hc'
        cases hc'
      · exact hc'
  · intro hk
    have hphnum : (elfHeader s.mem addr).phnum < 65536 := load16_lt _ _
    rw [lowSegments_iff hk (fun _ _ => rfl) (by unfold loadFuel; omega)]
    simp

/-- The bytes of an image with one writable segment of four bytes, for address 0. -/
def segmentBytes : List UInt8 :=
  [0x7f, 0x45, 0x4c, 0x46, 1, 1, 1, 0, 0, 0, 0, 0, 0, 0, 0, 0, 2, 0, 3, 0, 1, 0, 0, 0, 0, 0, 0, 0,
    52, 0, 0, 0, 0, 0, 0, 0, 0, 0, 0, 0, 52, 0, 32, 0, 1, 0, 40, 0, 0, 0, 0, 0,
    1, 0, 0, 0, 0, 0, 0, 0, 0, 0, 0, 0, 0, 0, 0, 0, 4, 0, 0, 0, 4, 0, 0, 0, 7, 0, 0, 0]

/-- Memory with that image at `0xd0000010`, the segment for `vaddr`, and zero elsewhere. -/
def segmentImage (vaddr : Nat) : Mem :=
  store32 (writeBytes (fun _ => 0) 0xd0000010 segmentBytes) (0xd0000010 + 60) vaddr

theorem segmentImage_inKernel : InKernel (segmentImage 0x1000) 0xd0000010 :=
  ⟨by decide, by decide +kernel, by decide +kernel⟩

theorem segmentImage_phnum : (elfHeader (segmentImage 0x1000) 0xd0000010).phnum = 1 := by decide +kernel

theorem segmentImage_header :
    programHeader (segmentImage 0x1000) 0xd0000010 0 = ⟨1, 0, 0x1000, 4, 4, 7⟩ := by
  decide +kernel

/-- A segment at `0x1000` is harmless. -/
theorem segmentImage_low (i : Nat) (hi : i < (elfHeader (segmentImage 0x1000) 0xd0000010).phnum) :
    SegmentLow (programHeader (segmentImage 0x1000) 0xd0000010 i) := by
  rw [segmentImage_phnum] at hi
  obtain rfl : i = 0 := by omega
  rw [segmentImage_header]
  refine ⟨?_, Or.inr (by decide)⟩
  rw [show allocatePages 0x1000 4 = [0x1000] by decide]
  simp [Outside, slot, kernelPageNumber, kheapPageNumber]

theorem segmentImage_loads :
    ∃ p s' layout, initialisePaging (fun _ => 0) (fun _ => Page.zero) [0xd0001000, 0xd0002000] = .ok p ∧
      loadImage ⟨p, segmentImage 0x1000, []⟩ 0xd0000010 p.kernelDirectory = .ok (layout, s') := by
  have hsome : ((initialisePaging (fun _ => 0) (fun _ => Page.zero)
      [0xd0001000, 0xd0002000]).toOption.bind fun p =>
        (loadImage ⟨p, segmentImage 0x1000, []⟩ 0xd0000010 p.kernelDirectory).toOption).isSome = true := by
    decide +kernel
  obtain ⟨⟨layout, s'⟩, hs'⟩ := Option.isSome_iff_exists.mp hsome
  obtain ⟨p, hp, hload⟩ := Option.bind_eq_some_iff.mp hs'
  exact ⟨p, s', layout, toOption_eq_some.mp hp, toOption_eq_some.mp hload⟩

/-- Loading it leaves the kernel alone. -/
theorem load_kernel_iff_low :
    ∃ p s' layout, initialisePaging (fun _ => 0) (fun _ => Page.zero) [0xd0001000, 0xd0002000] = .ok p ∧
      loadImage ⟨p, segmentImage 0x1000, []⟩ 0xd0000010 p.kernelDirectory = .ok (layout, s') ∧
      ((∀ k, KernelSlot k →
        (s'.paging.dirs p.kernelDirectory).tables k = (p.dirs p.kernelDirectory).tables k ∧
        (s'.paging.dirs p.kernelDirectory).tablesPhysical k = (p.dirs p.kernelDirectory).tablesPhysical k) ∧
      ∀ c ∈ s'.copied, CopyLow c) := by
  obtain ⟨p, s', layout, hp, hload⟩ := segmentImage_loads
  obtain ⟨p', hp', _, _, _, hdir, _⟩ :=
    initialisePaging_spec (fun _ => 0) (fun _ => Page.zero) [0xd0001000, 0xd0002000]
  obtain rfl := Except.ok.inj (hp.symm.trans hp')
  have hslots : ∀ k, KernelSlot k → (p.dirs p.kernelDirectory).tables k = 0 ∧
      (p.dirs p.kernelDirectory).tablesPhysical k &&& 0x80 ≠ 0 := by
    rw [hdir]
    rintro k (rfl | rfl)
    · exact ⟨rfl, by decide⟩
    · exact ⟨rfl, by decide⟩
  obtain ⟨hiff, hlow⟩ := load_kernel_iff hslots rfl hload
  exact ⟨p, s', layout, hp, hload,
    hiff.mpr ((hlow segmentImage_inKernel).mpr fun i hi _ => segmentImage_low i hi)⟩

/-- **A segment at `0xc0000000`** replaces the kernel's 4 MB page by an empty page table, and is copied
    over the kernel. -/
theorem load_kernel_segment :
    ∃ p s' layout, initialisePaging (fun _ => 0) (fun _ => Page.zero) [0xd0001000, 0xd0002000] = .ok p ∧
      loadImage ⟨p, segmentImage 0xc0000000, []⟩ 0xd0000010 p.kernelDirectory = .ok (layout, s') ∧
      (p.dirs p.kernelDirectory).tablesPhysical kernelPageNumber = 0x83 ∧
      (s'.paging.dirs p.kernelDirectory).tablesPhysical kernelPageNumber = 0x401007 ∧
      ∃ c ∈ s'.copied, ¬ CopyLow c := by
  have hsome : ((initialisePaging (fun _ => 0) (fun _ => Page.zero)
      [0xd0001000, 0xd0002000]).toOption.bind fun p =>
        (loadImage ⟨p, segmentImage 0xc0000000, []⟩ 0xd0000010 p.kernelDirectory).toOption.map fun r =>
          ((p.dirs p.kernelDirectory).tablesPhysical kernelPageNumber,
            (r.2.paging.dirs p.kernelDirectory).tablesPhysical kernelPageNumber, r.2.copied)) =
      some (0x83, 0x401007, [(0xc0000000, 4)]) := by
    decide +kernel
  obtain ⟨p, hp, hrest⟩ := Option.bind_eq_some_iff.mp hsome
  obtain ⟨⟨layout, s'⟩, hs', hvalues⟩ := Option.map_eq_some_iff.mp hrest
  obtain ⟨hbefore, hvalues⟩ := Prod.mk.inj hvalues
  obtain ⟨hafter, hcopied⟩ := Prod.mk.inj hvalues
  refine ⟨p, s', layout, toOption_eq_some.mp hp, toOption_eq_some.mp hs', hbefore, hafter,
    (0xc0000000, 4), ?_, ?_⟩
  · dsimp only at hcopied
    rw [hcopied]
    simp
  · intro h
    have := h 0 (by decide)
    revert this
    decide

end WeirdOs
