import WeirdOs.Elf.Reads
import WeirdOs.Paging.Correctness.Ranges

/-!
# `Elf.Segments` — what memory holds after an image is loaded

For a well-formed image in kernel memory the loop of `load` is a run over the segments the image has
(`loadLoop_run`): each is allocated and copied. The run settles which pages are mapped and what every byte
below the kernel is, and so whether the segments are in memory as the format demands (`load_segments_iff`).

Two things can be wrong with them. A page that `allocate` misses is not there: a copy to it ends in a page
fault, which halts the system. And what follows the bytes of the file is not cleared: it is what the frames
hold. `mem` of an address that is not mapped stands for that, as long as no frame is handed out twice.
-/

namespace WeirdOs

open Lib

variable {s s' t : LoadState} {m m₀ : Mem} {addr dir len a i : Nat} {ph : ProgramHeader}
  {phs : List ProgramHeader}

/-! ## Segments -/

/-- The segments from program header `i` on. -/
def segmentsFrom (m : Mem) (addr i : Nat) : List ProgramHeader :=
  ((List.range' i ((elfHeader m addr).phnum - i)).map (programHeader m addr)).filter fun ph =>
    ph.type = ptLoad

/-- The segments of an image. -/
def segments (m : Mem) (addr : Nat) : List ProgramHeader := segmentsFrom m addr 0

/-- What the loop of `load` does with a segment. -/
def loadSegment (addr dir : Nat) (s : LoadState) (ph : ProgramHeader) : Exec LoadState := do
  let paging ← allocate s.paging dir ph.vaddr ph.memsz 0 (ph.flags &&& pfW)
  return { paging := paging
           mem := memcpy s.mem ph.vaddr (add32 addr ph.offset) ph.filesz
           copied := s.copied ++ [(ph.vaddr, ph.filesz)] }

theorem segmentsFrom_of_le (h : (elfHeader m addr).phnum ≤ i) : segmentsFrom m addr i = [] := by
  rw [segmentsFrom, Nat.sub_eq_zero_of_le h]
  rfl

theorem segmentsFrom_of_lt (h : i < (elfHeader m addr).phnum) : segmentsFrom m addr i =
    if (programHeader m addr i).type = ptLoad then programHeader m addr i :: segmentsFrom m addr (i + 1)
    else segmentsFrom m addr (i + 1) := by
  rw [segmentsFrom, show (elfHeader m addr).phnum - i = (elfHeader m addr).phnum - (i + 1) + 1 from by omega,
    List.range'_succ, List.map_cons, List.filter_cons]
  by_cases ht : (programHeader m addr i).type = ptLoad <;> simp [ht, segmentsFrom]

/-- The bytes copied from the file end below the kernel. -/
def ProgramHeader.Low (ph : ProgramHeader) : Prop := ph.filesz = 0 ∨ ph.vaddr + ph.filesz ≤ 0xc0000000

/-- **The loop of `load` is a run over segments**, for an image in kernel memory none of whose copies gets
    there. -/
theorem loadLoop_run (hk : InKernel m₀ addr) :
    ∀ {fuel i : Nat} {s : LoadState}, (∀ x, 0xc0000000 ≤ x → s.mem x = m₀ x) →
      i ≤ (elfHeader m₀ addr).phnum → (elfHeader m₀ addr).phnum < i + fuel →
      (∀ ph ∈ segmentsFrom m₀ addr i, ph.Low) →
      loadLoop addr dir fuel i s = run (loadSegment addr dir) s (segmentsFrom m₀ addr i) := by
  intro fuel
  induction fuel with
  | zero =>
      intro i s _ hle hfuel
      omega
  | succ fuel ih =>
      intro i s hm hle hfuel hlow
      rw [loadLoop, elfHeader_congr hk.header hm]
      by_cases hi : i < (elfHeader m₀ addr).phnum
      · rw [if_pos hi, programHeader_congr hk hi hm]
        rw [segmentsFrom_of_lt hi] at hlow ⊢
        by_cases ht : (programHeader m₀ addr i).type = ptLoad
        · rw [if_pos ht] at hlow ⊢
          obtain ⟨hfirst, hrest⟩ := List.forall_mem_cons.mp hlow
          simp only [ht, ne_eq, not_true_eq_false, if_false]
          rw [run, loadSegment]
          cases allocate s.paging dir (programHeader m₀ addr i).vaddr (programHeader m₀ addr i).memsz 0
              ((programHeader m₀ addr i).flags &&& pfW) with
          | error e => rfl
          | ok paging => exact ih (fun x hx => (memcpy_low hfirst hx).trans (hm x hx)) hi (by omega) hrest
        · rw [if_neg ht] at hlow ⊢
          simp only [ht, ne_eq, not_false_eq_true, if_true]
          exact ih hm hi (by omega) hlow
      · rw [if_neg hi, segmentsFrom_of_le (by omega)]
        rfl

/-! ## Well-formed images -/

/-- The address is in the memory image of the segment. -/
def ProgramHeader.Holds (ph : ProgramHeader) (x : Nat) : Prop := ph.vaddr ≤ x ∧ x < ph.vaddr + ph.memsz

/-- A well-formed image of `len` bytes, in kernel memory: the program headers and the bytes of the segments
    lie inside; the memory images are at least as large, apart from each other, below the kernel and outside
    the pages of the stack. -/
structure WellFormedImage (m : Mem) (addr len : Nat) : Prop where
  kernel : 0xc0000000 ≤ addr
  fits : addr + len ≤ 4294967296
  headers : (elfHeader m addr).phoff + 32 * (elfHeader m addr).phnum ≤ len
  file : ∀ ph ∈ segments m addr, ph.offset + ph.filesz ≤ len
  sizes : ∀ ph ∈ segments m addr, ph.filesz ≤ ph.memsz
  user : ∀ ph ∈ segments m addr, ∀ x, ph.Holds x → 0x2000 ≤ x ∧ x < 0xc0000000
  apart : (segments m addr).Pairwise fun ph ph' => ∀ x, ph.Holds x → ¬ ph'.Holds x

theorem WellFormedImage.inKernel (h : WellFormedImage m addr len) (hpos : 0 < (elfHeader m addr).phnum) :
    InKernel m addr := by
  have hkernel := h.kernel
  have hfits := h.fits
  have hheaders := h.headers
  have htable : add32 addr (elfHeader m addr).phoff = addr + (elfHeader m addr).phoff :=
    add32_of_lt (by omega)
  refine ⟨hkernel, ?_, ?_⟩
  · rw [htable]
    omega
  · rw [htable]
    omega

/-- The copies of a well-formed image end below the kernel. -/
theorem WellFormedImage.low (h : WellFormedImage m addr len) (hph : ph ∈ segments m addr) : ph.Low := by
  rcases Nat.eq_zero_or_pos ph.filesz with hzero | hpos
  · exact Or.inl hzero
  · right
    have hsizes := h.sizes ph hph
    have hlast := h.user ph hph (ph.vaddr + (ph.filesz - 1)) ⟨Nat.le_add_right _ _, by omega⟩
    omega

/-- Segments are program headers. -/
theorem exists_of_mem_segments (hph : ph ∈ segments m addr) : ∃ i, programHeader m addr i = ph := by
  obtain ⟨i, -, hi⟩ := List.mem_map.mp (List.mem_filter.mp hph).1
  exact ⟨i, hi⟩

/-- Where a segment starts and how large it is are words of the file. -/
theorem segments_lt : ∀ ph ∈ segments m addr, ph.vaddr < 4294967296 ∧ ph.memsz < 4294967296 := by
  intro ph hph
  obtain ⟨i, rfl⟩ := exists_of_mem_segments hph
  exact ⟨(programHeader_lt m addr i).1, (programHeader_lt m addr i).2.1⟩

/-- The address is in the part of the segment that is copied from the file. -/
def ProgramHeader.InFile (ph : ProgramHeader) (x : Nat) : Prop := ph.vaddr ≤ x ∧ x < ph.vaddr + ph.filesz

theorem WellFormedImage.holds (h : WellFormedImage m addr len) (hph : ph ∈ segments m addr) {x : Nat}
    (hx : ph.InFile x) : ph.Holds x :=
  ⟨hx.1, Nat.lt_of_lt_of_le hx.2 (Nat.add_le_add_left (h.sizes ph hph) _)⟩

theorem WellFormedImage.inFile_apart (h : WellFormedImage m addr len) :
    (segments m addr).Pairwise fun ph ph' => ∀ x, ph.InFile x → ¬ ph'.InFile x := by
  apply h.apart.imp_of_mem
  intro ph ph' hph hph' hapart x hx hx'
  exact hapart x (h.holds hph hx) (h.holds hph' hx')

/-- What follows the bytes of the file in one segment is not copied for any other. -/
theorem WellFormedImage.not_inFile (h : WellFormedImage m addr len) :
    ∀ ph ∈ segments m addr, ∀ ph' ∈ segments m addr, ∀ x, ph.Holds x → ¬ ph.InFile x → ¬ ph'.InFile x := by
  apply List.Pairwise.forall_of_forall_of_flip
  · exact fun ph _ x _ hnot => hnot
  · apply h.apart.imp_of_mem
    intro ph ph' _ hph' hapart x hx _ hx'
    exact hapart x hx (h.holds hph' hx')
  · apply h.apart.imp_of_mem
    intro ph ph' hph _ hapart x hx _ hx'
    exact hapart x (h.holds hph hx') hx

/-! ## Runs over segments -/

/-- The pages `allocate` is asked for by a segment. -/
def ProgramHeader.requests (ph : ProgramHeader) : List PageRequest :=
  (allocatePages ph.vaddr ph.memsz).map fun a => ⟨a, 0, ph.flags &&& pfW⟩

theorem loadSegment_eq_ok : loadSegment addr dir s ph = .ok t ↔
    ∃ paging, allocate s.paging dir ph.vaddr ph.memsz 0 (ph.flags &&& pfW) = .ok paging ∧
      t = { paging := paging
            mem := memcpy s.mem ph.vaddr (add32 addr ph.offset) ph.filesz
            copied := s.copied ++ [(ph.vaddr, ph.filesz)] } := by
  unfold loadSegment
  rw [bind_eq_ok]
  simp [eq_comm]

/-- **The page tables after a run** are those after its requests. -/
theorem run_loadSegment_paging (hphs : ∀ ph ∈ phs, ph.vaddr < 4294967296 ∧ ph.memsz < 4294967296)
    (hrun : run (loadSegment addr dir) s phs = .ok t) :
    run (mapPage dir) s.paging (phs.flatMap ProgramHeader.requests) = .ok t.paging := by
  induction phs generalizing s with
  | nil =>
      cases hrun
      rfl
  | cons ph phs ih =>
      obtain ⟨s₁, hstep, hrest⟩ := run_cons.mp hrun
      obtain ⟨⟨hv, hm⟩, hphs'⟩ := List.forall_mem_cons.mp hphs
      obtain ⟨paging, halloc, rfl⟩ := loadSegment_eq_ok.mp hstep
      rw [List.flatMap_cons, run_append]
      exact ⟨paging, allocate_run hv hm halloc, ih hphs' hrest⟩

/-- A run changes no byte but those copied. -/
theorem run_loadSegment_frame {x : Nat} (hlow : ∀ ph ∈ phs, ph.Low) (hout : ∀ ph ∈ phs, ¬ ph.InFile x)
    (hrun : run (loadSegment addr dir) s phs = .ok t) : t.mem x = s.mem x := by
  induction phs generalizing s with
  | nil =>
      cases hrun
      rfl
  | cons ph phs ih =>
      obtain ⟨s₁, hstep, hrest⟩ := run_cons.mp hrun
      obtain ⟨hfirst, hlow'⟩ := List.forall_mem_cons.mp hlow
      obtain ⟨hnot, hout'⟩ := List.forall_mem_cons.mp hout
      obtain ⟨paging, -, rfl⟩ := loadSegment_eq_ok.mp hstep
      rw [ih hlow' hout' hrest]
      rcases hfirst with hzero | hle
      · rw [hzero]
        rfl
      · unfold ProgramHeader.InFile at hnot
        exact memcpy_out (by omega) (by omega)

/-- **What a run copies.** The part of each segment that comes from the file is as in the image, if no
    other segment is in its way. -/
theorem run_loadSegment_copied {k : Nat} (hkernel : 0xc0000000 ≤ addr) (hfits : addr + len ≤ 4294967296)
    (hfile : ∀ ph ∈ phs, ph.offset + ph.filesz ≤ len) (hlow : ∀ ph ∈ phs, ph.Low)
    (hapart : phs.Pairwise fun ph ph' => ∀ x, ph.InFile x → ¬ ph'.InFile x)
    (hrun : run (loadSegment addr dir) s phs = .ok t) (hph : ph ∈ phs) (hk : k < ph.filesz) :
    t.mem (ph.vaddr + k) = s.mem (addr + ph.offset + k) := by
  induction phs generalizing s with
  | nil => cases hph
  | cons ph' phs ih =>
      obtain ⟨s₁, hstep, hrest⟩ := run_cons.mp hrun
      obtain ⟨hfile₁, hfile'⟩ := List.forall_mem_cons.mp hfile
      obtain ⟨hlow₁, hlow'⟩ := List.forall_mem_cons.mp hlow
      obtain ⟨hapart₁, hapart'⟩ := List.pairwise_cons.mp hapart
      obtain ⟨paging, -, rfl⟩ := loadSegment_eq_ok.mp hstep
      rcases List.mem_cons.mp hph with rfl | hlater
      · -- copied by this step, and not touched by the later ones
        rw [run_loadSegment_frame hlow'
          (fun ph'' hph'' => hapart₁ ph'' hph'' _ ⟨Nat.le_add_right _ _, by omega⟩) hrest]
        have hend : ph.vaddr + ph.filesz ≤ 0xc0000000 := hlow₁.resolve_left (by omega)
        have hsrc : add32 addr ph.offset = addr + ph.offset := add32_of_lt (by omega)
        dsimp only
        rw [memcpy_in (by omega) (by omega) (by omega) hk, hsrc]
      · -- the image is not touched by this step
        rw [ih hfile' hlow' hapart' hrest hlater]
        exact memcpy_low hlow₁ (by omega)

/-- **The bytes of the segments after a run** over them: those from the file are copied, the others are as
    they were. -/
theorem WellFormedImage.bytes (h : WellFormedImage s.mem addr len)
    (hrun : run (loadSegment addr dir) s (segments s.mem addr) = .ok t) (hph : ph ∈ segments s.mem addr)
    {k : Nat} (hk : k < ph.memsz) :
    t.mem (ph.vaddr + k) = if k < ph.filesz then s.mem (addr + ph.offset + k) else s.mem (ph.vaddr + k) := by
  split
  next hfile =>
    exact run_loadSegment_copied h.kernel h.fits h.file (fun _ => h.low) h.inFile_apart hrun hph hfile
  next htail =>
    apply run_loadSegment_frame (fun _ => h.low) _ hrun
    intro ph' hph'
    refine h.not_inFile ph hph ph' hph' _ ⟨Nat.le_add_right _ _, Nat.add_lt_add_left hk _⟩ ?_
    intro hin
    exact htail (Nat.lt_of_add_lt_add_left hin.2)

/-- **Loading is a run over the segments** of a well-formed image, and the allocation of the stack. -/
theorem loadImage_run {layout : ElfLayout} (himage : WellFormedImage s.mem addr len)
    (hload : loadImage s addr dir = .ok (layout, s')) :
    ∃ t paging, run (loadSegment addr dir) s (segments s.mem addr) = .ok t ∧
      allocate t.paging dir 0 0x2000 0 1 = .ok paging ∧ s' = { t with paging := paging } := by
  obtain ⟨_, _, hload⟩ := bind_eq_ok.mp hload
  obtain ⟨_, hpos, hload⟩ := bind_eq_ok.mp hload
  rw [assert_eq_ok, decide_eq_true_eq] at hpos
  obtain ⟨t, hloop, hload⟩ := bind_eq_ok.mp hload
  obtain ⟨paging, hstack, hret⟩ := bind_eq_ok.mp hload
  cases hret
  have hk := himage.inKernel hpos
  have hphnum : (elfHeader s.mem addr).phnum < 65536 := load16_lt _ _
  rw [loadLoop_run hk (fun _ _ => rfl) (Nat.zero_le _) (by unfold loadFuel; omega)
    (fun ph hph => himage.low hph), ← segments] at hloop
  exact ⟨t, paging, hloop, hstack, rfl⟩

/-! ## What is in memory -/

/-- The page of the address is one of those that `allocate` maps for the segment. -/
def ProgramHeader.Maps (ph : ProgramHeader) (x : Nat) : Prop :=
  x / 0x1000 * 0x1000 ∈ allocatePages ph.vaddr ph.memsz

theorem mem_requests_iff {x : Nat} :
    (∃ r ∈ phs.flatMap ProgramHeader.requests, x / 0x1000 = r.address / 0x1000) ↔
      ∃ ph ∈ phs, ph.Maps x := by
  constructor
  · rintro ⟨r, hr, hpage⟩
    obtain ⟨ph, hph, hr⟩ := List.mem_flatMap.mp hr
    obtain ⟨b, hb, rfl⟩ := List.mem_map.mp hr
    have haligned := allocatePages_aligned hb
    refine ⟨ph, hph, ?_⟩
    unfold ProgramHeader.Maps
    have hb' : x / 0x1000 * 0x1000 = b := by
      dsimp only at hpage
      omega
    rw [hb']
    exact hb
  · rintro ⟨ph, hph, hmaps⟩
    refine ⟨_, List.mem_flatMap.mpr ⟨ph, hph, List.mem_map.mpr ⟨_, hmaps, rfl⟩⟩, ?_⟩
    show x / 0x1000 = x / 0x1000 * 0x1000 / 0x1000
    omega

/-- **The pages mapped after a run** are those mapped before, and those of its segments. -/
theorem run_loadSegment_mapped (hf : FrameInv dir s.paging) (hv : ViewInv dir s.paging)
    (hphs : ∀ ph ∈ phs, ph.vaddr < 4294967296 ∧ ph.memsz < 4294967296)
    (hclear : ClearBefore dir s.paging (phs.flatMap ProgramHeader.requests))
    (hrun : run (loadSegment addr dir) s phs = .ok t) (x : Nat) :
    Mapped t.paging dir x ↔ Mapped s.paging dir x ∨ ∃ ph ∈ phs, ph.Maps x := by
  rw [run_mapped_iff hf hv hclear (run_loadSegment_paging hphs hrun), mem_requests_iff]

/-- So it is after each part of a run over the segments of an image. -/
theorem prefix_mapped {pre : List ProgramHeader} (hf : FrameInv dir s.paging) (hv : ViewInv dir s.paging)
    (hclear : ClearBefore dir s.paging ((segments m addr).flatMap ProgramHeader.requests))
    (hpre : pre <+: segments m addr) (hrun : run (loadSegment addr dir) s pre = .ok t) (x : Nat) :
    Mapped t.paging dir x ↔ Mapped s.paging dir x ∨ ∃ ph ∈ pre, ph.Maps x := by
  have hwords : ∀ ph ∈ pre, ph.vaddr < 4294967296 ∧ ph.memsz < 4294967296 :=
    fun ph hph => segments_lt ph (hpre.subset hph)
  obtain ⟨rest, hsplit⟩ := hpre
  rw [← hsplit, List.flatMap_append] at hclear
  exact run_loadSegment_mapped hf hv hwords (hclear.append (run_loadSegment_paging hwords hrun)).1 hrun x

/-- The stack is apart from everything above its two pages. -/
theorem stack_mapped_iff {p p' : Paging} {x : Nat} (hf : FrameInv dir p) (hv : ViewInv dir p)
    (hclear : ClearBefore dir p ((allocatePages 0 0x2000).map fun a => ⟨a, 0, 1⟩))
    (hstack : allocate p dir 0 0x2000 0 1 = .ok p') (hx : 0x2000 ≤ x) :
    Mapped p' dir x ↔ Mapped p dir x := by
  rw [run_mapped_iff hf hv hclear (allocate_run (by decide) (by decide) hstack), or_iff_left]
  rw [show allocatePages 0 0x2000 = [0, 0x1000] by decide]
  simp only [List.map_cons, List.map_nil, List.mem_cons, List.not_mem_nil, or_false, exists_eq_or_imp,
    exists_eq_left]
  omega

/-- The requests of `load`: the segments, then the stack. -/
def imageRequests (m : Mem) (addr : Nat) : List PageRequest :=
  (segments m addr).flatMap ProgramHeader.requests ++ (allocatePages 0 0x2000).map fun a => ⟨a, 0, 1⟩

/-- No copy ends in a page fault: whenever a segment is copied, the pages it is copied to are mapped. -/
def CopiesMapped (addr dir : Nat) (s : LoadState) : Prop :=
  ∀ pre ph t, pre ++ [ph] <+: segments s.mem addr → run (loadSegment addr dir) s (pre ++ [ph]) = .ok t →
    ∀ k < ph.filesz, Mapped t.paging dir (ph.vaddr + k)

/-- Every segment is in memory as the format demands: its bytes from the file, and zeros up to `memsz`. -/
def SegmentsLoaded (addr dir : Nat) (s s' : LoadState) : Prop :=
  ∀ ph ∈ segments s.mem addr, ∀ k < ph.memsz, Mapped s'.paging dir (ph.vaddr + k) ∧
    s'.mem (ph.vaddr + k) = if k < ph.filesz then s.mem (addr + ph.offset + k) else 0

/-- What makes it so: the page of each byte was mapped before, or is mapped for a segment, for a byte from
    the file not for a later one; and each byte that does not come from the file is zero already. -/
structure LoadsWell (addr dir : Nat) (s : LoadState) : Prop where
  copies : ∀ pre ph, pre ++ [ph] <+: segments s.mem addr → ∀ k < ph.filesz,
    Mapped s.paging dir (ph.vaddr + k) ∨ ∃ ph' ∈ pre ++ [ph], ph'.Maps (ph.vaddr + k)
  pages : ∀ ph ∈ segments s.mem addr, ∀ k < ph.memsz,
    Mapped s.paging dir (ph.vaddr + k) ∨ ∃ ph' ∈ segments s.mem addr, ph'.Maps (ph.vaddr + k)
  zero : ∀ ph ∈ segments s.mem addr, ∀ k, ph.filesz ≤ k → k < ph.memsz → s.mem (ph.vaddr + k) = 0

/-- **Exactly which well-formed images are in memory after they are loaded.** Let the directory have had any
    calls of `allocate`, and let free frames remain. No copy of a well-formed image ends in a page fault, and
    every byte of its segments is as the format demands, if and only if every page is mapped in time and
    every byte past those of the file is zero already. -/
theorem load_segments_iff {p₀ : Paging} {calls : List AllocateCall} {layout : ElfLayout}
    (hnew : Untouched dir p₀) (hcalls : runAllocate dir p₀ calls = .ok s.paging)
    (hclear : ClearBefore dir p₀ (calls.flatMap AllocateCall.requests ++ imageRequests s.mem addr))
    (himage : WellFormedImage s.mem addr len) (hload : loadImage s addr dir = .ok (layout, s')) :
    CopiesMapped addr dir s ∧ SegmentsLoaded addr dir s s' ↔ LoadsWell addr dir s := by
  obtain ⟨t, paging, hrun, hstack, rfl⟩ := loadImage_run himage hload
  -- what is mapped before the run, after each part of it, and with the stack
  rw [runAllocate_eq] at hcalls
  obtain ⟨hbefore, hclear⟩ := hclear.append hcalls
  have hf : FrameInv dir s.paging := (hnew.frameInv.run hbefore hcalls).1
  have hv : ViewInv dir s.paging := hnew.viewInv.run hcalls
  have hrequests := run_loadSegment_paging segments_lt hrun
  obtain ⟨hclear₁, hclear₂⟩ := hclear.append hrequests
  have hmapped : ∀ pre t, pre <+: segments s.mem addr → run (loadSegment addr dir) s pre = .ok t →
      ∀ x, Mapped t.paging dir x ↔ Mapped s.paging dir x ∨ ∃ ph ∈ pre, ph.Maps x :=
    fun pre t hpre ht => prefix_mapped hf hv hclear₁ hpre ht
  have hfinal : ∀ x, 0x2000 ≤ x → (Mapped paging dir x ↔
      Mapped s.paging dir x ∨ ∃ ph ∈ segments s.mem addr, ph.Maps x) := by
    intro x hx
    rw [stack_mapped_iff (hf.run hclear₁ hrequests).1 (hv.run hrequests) hclear₂ hstack hx]
    exact hmapped _ t (List.prefix_refl _) hrun x
  have huser : ∀ ph ∈ segments s.mem addr, ∀ k < ph.memsz, 0x2000 ≤ ph.vaddr + k := fun ph hph k hlt =>
    (himage.user ph hph _ ⟨Nat.le_add_right _ _, Nat.add_lt_add_left hlt _⟩).1
  constructor
  · rintro ⟨hfault, hbytes⟩
    refine ⟨?_, ?_, ?_⟩
    · intro pre ph hpre k hlt
      obtain ⟨t', ht⟩ := run_prefix hpre hrun
      exact (hmapped _ t' hpre ht _).mp (hfault pre ph t' hpre ht k hlt)
    · intro ph hph k hlt
      exact (hfinal _ (huser ph hph k hlt)).mp (hbytes ph hph k hlt).1
    · intro ph hph k hle hlt
      have hbyte := (hbytes ph hph k hlt).2
      dsimp only at hbyte
      rwa [himage.bytes hrun hph hlt, if_neg (Nat.not_lt.mpr hle), if_neg (Nat.not_lt.mpr hle)] at hbyte
  · intro h
    refine ⟨?_, fun ph hph k hlt => ⟨?_, ?_⟩⟩
    · intro pre ph t' hpre ht k hlt
      exact (hmapped _ t' hpre ht _).mpr (h.copies pre ph hpre k hlt)
    · exact (hfinal _ (huser ph hph k hlt)).mpr (h.pages ph hph k hlt)
    · dsimp only
      rw [himage.bytes hrun hph hlt]
      split
      next => rfl
      next htail => exact h.zero ph hph k (Nat.not_lt.mp htail) hlt

/-! ## An image with a tail -/

/-- An image at `0xd0000010` with one segment at `0x3000`, of four bytes from the file and four more. The
    frame it gets holds `stale` in these. -/
def bssImage (stale : Nat) : Mem :=
  store32 (store32 (segmentImage 0x3000) (0xd0000010 + 72) 8) 0x3004 stale

/-- Its program header, whether the frame is clean or not. -/
theorem bssImage_segments : ∀ stale ∈ [0, 0xaa],
    (elfHeader (bssImage stale) 0xd0000010).phoff = 52 ∧ (elfHeader (bssImage stale) 0xd0000010).phnum = 1 ∧
      segments (bssImage stale) 0xd0000010 = [⟨1, 0, 0x3000, 4, 8, 7⟩] := by
  decide +kernel

theorem bssImage_wellFormed {stale : Nat} (hstale : stale ∈ [0, 0xaa]) :
    WellFormedImage (bssImage stale) 0xd0000010 84 := by
  obtain ⟨hphoff, hphnum, hsegments⟩ := bssImage_segments stale hstale
  refine ⟨by decide, by decide, by rw [hphoff, hphnum], ?_, ?_, ?_, ?_⟩
  · rw [hsegments]
    decide
  · rw [hsegments]
    decide
  · rw [hsegments]
    intro ph hph x hx
    obtain rfl := List.mem_singleton.mp hph
    obtain ⟨hle, hlt⟩ := hx
    dsimp only at hle hlt
    omega
  · rw [hsegments]
    exact List.pairwise_singleton ..

theorem bssImage_loads :
    ∃ p s' layout, initialisePaging (fun _ => 0) (fun _ => Page.zero) [0xd0001000, 0xd0002000] = .ok p ∧
      Untouched p.kernelDirectory p ∧
      loadImage ⟨p, bssImage 0, []⟩ 0xd0000010 p.kernelDirectory = .ok (layout, s') := by
  obtain ⟨p, hp, hnew⟩ := initialisePaging_untouched (fun _ => 0) [0xd0001000, 0xd0002000]
    (fun _ _ _ => rfl) (by unfold Apart; decide) (by decide)
  have hsome : ((initialisePaging (fun _ => 0) (fun _ => Page.zero)
      [0xd0001000, 0xd0002000]).toOption.bind fun p =>
        (loadImage ⟨p, bssImage 0, []⟩ 0xd0000010 p.kernelDirectory).toOption).isSome = true := by
    decide +kernel
  obtain ⟨⟨layout, s'⟩, hs'⟩ := Option.isSome_iff_exists.mp hsome
  rw [hp, toOption_eq_some.mpr rfl, Option.bind_some] at hs'
  exact ⟨p, s', layout, hp, hnew, toOption_eq_some.mp hs'⟩

/-- All of its segment is mapped for it, and the tail is zero if the frame is. -/
theorem bssImage_loadsWell {p : Paging} {dir : Nat} :
    LoadsWell 0xd0000010 dir ⟨p, bssImage 0, []⟩ := by
  obtain ⟨-, -, hsegments⟩ := bssImage_segments 0 (by decide)
  have hmaps : ∀ k < 8, (⟨1, 0, 0x3000, 4, 8, 7⟩ : ProgramHeader).Maps (0x3000 + k) := by
    unfold ProgramHeader.Maps
    decide
  have hzero : ∀ k < 8, 4 ≤ k → bssImage 0 (0x3000 + k) = 0 := by decide +kernel
  refine ⟨?_, ?_, ?_⟩
  · intro pre ph hpre k hk
    have hph : ph ∈ segments (bssImage 0) 0xd0000010 := hpre.subset (by simp)
    rw [hsegments] at hph
    obtain rfl := List.mem_singleton.mp hph
    exact Or.inr ⟨_, by simp, hmaps k (Nat.lt_trans hk (by decide))⟩
  · intro ph hph k hk
    have hself := hph
    rw [hsegments] at hph
    obtain rfl := List.mem_singleton.mp hph
    exact Or.inr ⟨_, hself, hmaps k hk⟩
  · intro ph hph k hle hlt
    rw [hsegments] at hph
    obtain rfl := List.mem_singleton.mp hph
    exact hzero k hlt hle

/-- The clean one is in memory as it should be. -/
theorem load_segments_iff_clean :
    ∃ p s' layout, initialisePaging (fun _ => 0) (fun _ => Page.zero) [0xd0001000, 0xd0002000] = .ok p ∧
      loadImage ⟨p, bssImage 0, []⟩ 0xd0000010 p.kernelDirectory = .ok (layout, s') ∧
      SegmentsLoaded 0xd0000010 p.kernelDirectory ⟨p, bssImage 0, []⟩ s' := by
  obtain ⟨p, s', layout, hp, hnew, hload⟩ := bssImage_loads
  obtain ⟨-, -, hsegments⟩ := bssImage_segments 0 (by decide)
  have hcalls : runAllocate p.kernelDirectory p [] = .ok p := rfl
  have hclear : ClearBefore p.kernelDirectory p
      (([] : List AllocateCall).flatMap AllocateCall.requests ++ imageRequests (bssImage 0) 0xd0000010) := by
    rw [List.flatMap_nil, List.nil_append]
    apply hnew.clearBefore
    rw [imageRequests, hsegments]
    decide
  have hiff := load_segments_iff (s := ⟨p, bssImage 0, []⟩) hnew hcalls hclear
    (bssImage_wellFormed (by decide)) hload
  exact ⟨p, s', layout, hp, hload, (hiff.mpr bssImage_loadsWell).2⟩

/-- **The tail is not cleared.** On a frame that was used before, the byte after those of the file is what
    it was, where the format demands a zero. -/
theorem load_segments_stale :
    ∃ p s' layout, initialisePaging (fun _ => 0) (fun _ => Page.zero) [0xd0001000, 0xd0002000] = .ok p ∧
      WellFormedImage (bssImage 0xaa) 0xd0000010 84 ∧
      loadImage ⟨p, bssImage 0xaa, []⟩ 0xd0000010 p.kernelDirectory = .ok (layout, s') ∧
      ⟨1, 0, 0x3000, 4, 8, 7⟩ ∈ segments (bssImage 0xaa) 0xd0000010 ∧ s'.mem (0x3000 + 4) = 0xaa := by
  have hsome : ((initialisePaging (fun _ => 0) (fun _ => Page.zero)
      [0xd0001000, 0xd0002000]).toOption.bind fun p =>
        (loadImage ⟨p, bssImage 0xaa, []⟩ 0xd0000010 p.kernelDirectory).toOption.map fun r =>
          r.2.mem (0x3000 + 4)) = some 0xaa := by
    decide +kernel
  obtain ⟨p, hp, hrest⟩ := Option.bind_eq_some_iff.mp hsome
  obtain ⟨⟨layout, s'⟩, hload, hbyte⟩ := Option.map_eq_some_iff.mp hrest
  obtain ⟨-, -, hsegments⟩ := bssImage_segments 0xaa (by decide)
  exact ⟨p, s', layout, toOption_eq_some.mp hp, bssImage_wellFormed (by decide), toOption_eq_some.mp hload,
    by rw [hsegments]; exact List.mem_singleton_self _, hbyte⟩

end WeirdOs
