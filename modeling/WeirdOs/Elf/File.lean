import WeirdOs.Elf.Segments

/-!
# `Elf.File` — executable files

The loader works on an image in memory. What it does with one that was read from a file is a matter of the
file alone: wherever the bytes of the file are in kernel memory, the headers read there are those of the file,
and the segments are its segments (`segments_copied`). An `Executable` is a file that makes a well-formed
image anywhere, and it is loaded as soon as its pages can be mapped (`loadImage_file`).
-/

namespace WeirdOs

open Lib

variable {m m₀ : Mem} {addr n dir i : Nat} {content : List UInt8} {s : LoadState} {phs : List ProgramHeader}

/-! ## Headers are where the file is -/

/-- The bytes of a file as memory, from address 0 on. -/
def fileMem (content : List UInt8) : Mem := fun x => content.getD x 0

/-- The memory holds the `n` bytes at `addr`. -/
def HoldsAt (m m₀ : Mem) (addr n : Nat) : Prop := ∀ i < n, m (addr + i) = m₀ i

theorem HoldsAt.load32 (h : HoldsAt m m₀ addr n) (hi : i + 4 ≤ n) :
    Lib.load32 m (addr + i) = Lib.load32 m₀ i := by
  apply load32_of_bytes
  intro j hj
  rw [Nat.add_assoc, h (i + j) (by omega)]

theorem HoldsAt.load16 (h : HoldsAt m m₀ addr n) (hi : i + 2 ≤ n) :
    Lib.load16 m (addr + i) = Lib.load16 m₀ i := by
  apply load16_of_bytes
  intro j hj
  rw [Nat.add_assoc, h (i + j) (by omega)]

/-- **The header** is that of the file. -/
theorem elfHeader_copied (h : HoldsAt m m₀ addr n) (hn : 48 ≤ n) : elfHeader m addr = elfHeader m₀ 0 := by
  have hmagic : Lib.load32 m addr = Lib.load32 m₀ 0 := h.load32 (i := 0) (by omega)
  unfold elfHeader
  simp only [Nat.zero_add]
  rw [hmagic, h.load32 (by omega), h.load32 (by omega), h.load32 (by omega), h.load16 (by omega),
    h.load16 (by omega), h.load16 (by omega), h.load16 (by omega)]

/-- So are the program headers inside. -/
theorem programHeader_copied (h : HoldsAt m m₀ addr n) (hfits : addr + n ≤ 4294967296) (hn : 48 ≤ n)
    (hi : (elfHeader m₀ 0).phoff + 32 * i + 32 ≤ n) : programHeader m addr i = programHeader m₀ 0 i := by
  unfold programHeader
  rw [elfHeader_copied h hn, add32_of_lt (show addr + (elfHeader m₀ 0).phoff < 4294967296 by omega),
    add32_of_lt (show addr + (elfHeader m₀ 0).phoff + 32 * i < 4294967296 by omega),
    add32_of_lt (show 0 + (elfHeader m₀ 0).phoff < 4294967296 by omega),
    add32_of_lt (show 0 + (elfHeader m₀ 0).phoff + 32 * i < 4294967296 by omega), Nat.zero_add]
  have hword : ∀ j, j + 4 ≤ 32 → Lib.load32 m (addr + (elfHeader m₀ 0).phoff + 32 * i + j) =
      Lib.load32 m₀ ((elfHeader m₀ 0).phoff + 32 * i + j) := fun j hj => by
    rw [Nat.add_assoc addr, Nat.add_assoc addr, h.load32 (by omega)]
  have htype := hword 0 (by decide)
  rw [Nat.add_zero, Nat.add_zero] at htype
  dsimp only
  rw [htype, hword 4 (by decide), hword 8 (by decide), hword 16 (by decide), hword 20 (by decide),
    hword 24 (by decide)]

/-- **The segments** are those of the file. -/
theorem segments_copied (h : HoldsAt m m₀ addr n) (hfits : addr + n ≤ 4294967296) (hn : 48 ≤ n)
    (hheaders : (elfHeader m₀ 0).phoff + 32 * (elfHeader m₀ 0).phnum ≤ n) : segments m addr = segments m₀ 0 := by
  unfold segments segmentsFrom
  rw [elfHeader_copied h hn]
  congr 1
  apply List.map_congr_left
  intro i hi
  have hlt := List.mem_range'_1.mp hi
  exact programHeader_copied h hfits hn (by omega)

/-! ## Executables -/

/-- The segments of a file. -/
def fileSegments (content : List UInt8) : List ProgramHeader := segments (fileMem content) 0

/-- A file that the loader accepts, with everything the headers point to inside; the memory images are at
    least as large as what is in the file, apart from each other, below the kernel and outside the pages of
    the stack. None straddles pages: `allocate` would miss its last one. -/
structure Executable (content : List UInt8) : Prop where
  accepted : elfLoader (fileMem content) 0 = .ok ()
  header : 52 ≤ content.length
  nonempty : 0 < (elfHeader (fileMem content) 0).phnum
  headers : (elfHeader (fileMem content) 0).phoff + 32 * (elfHeader (fileMem content) 0).phnum ≤ content.length
  file : ∀ ph ∈ fileSegments content, ph.offset + ph.filesz ≤ content.length
  sizes : ∀ ph ∈ fileSegments content, ph.filesz ≤ ph.memsz
  user : ∀ ph ∈ fileSegments content, ∀ x, ph.Holds x → 0x2000 ≤ x ∧ x < 0xc0000000
  apart : (fileSegments content).Pairwise fun ph ph' => ∀ x, ph.Holds x → ¬ ph'.Holds x
  straddles : ∀ ph ∈ fileSegments content, ¬ Straddles ph.vaddr ph.memsz

/-- The pages that are mapped for the file: those of its segments, then the stack. -/
def fileRequests (content : List UInt8) : List PageRequest := imageRequests (fileMem content) 0

theorem Executable.header_eq (h : Executable content) (hm : HoldsAt m (fileMem content) addr content.length) :
    elfHeader m addr = elfHeader (fileMem content) 0 :=
  elfHeader_copied hm (Nat.le_trans (by decide) h.header)

theorem Executable.segments_eq (h : Executable content)
    (hm : HoldsAt m (fileMem content) addr content.length) (hfits : addr + content.length ≤ 4294967296) :
    segments m addr = fileSegments content :=
  segments_copied hm hfits (Nat.le_trans (by decide) h.header) h.headers

/-- **An executable makes a well-formed image** wherever it is in kernel memory. -/
theorem Executable.image (h : Executable content) (hm : HoldsAt m (fileMem content) addr content.length)
    (hkernel : 0xc0000000 ≤ addr) (hfits : addr + content.length ≤ 4294967296) :
    WellFormedImage m addr content.length where
  kernel := hkernel
  fits := hfits
  headers := by
    rw [h.header_eq hm]
    exact h.headers
  file := by
    rw [h.segments_eq hm hfits]
    exact h.file
  sizes := by
    rw [h.segments_eq hm hfits]
    exact h.sizes
  user := by
    rw [h.segments_eq hm hfits]
    exact h.user
  apart := by
    rw [h.segments_eq hm hfits]
    exact h.apart

/-- What comes from the file is part of the memory image, -/
theorem Executable.holds {ph : ProgramHeader} {x : Nat} (h : Executable content) (hph : ph ∈ fileSegments content)
    (hx : ph.InFile x) : ph.Holds x :=
  ⟨hx.1, Nat.lt_of_lt_of_le hx.2 (Nat.add_le_add_left (h.sizes ph hph) _)⟩

/-- which is past the stack and below the kernel. -/
theorem Executable.inFile {ph : ProgramHeader} {x : Nat} (h : Executable content) (hph : ph ∈ fileSegments content)
    (hx : ph.InFile x) : 0x2000 ≤ x ∧ x < 0xc0000000 := h.user ph hph x (h.holds hph hx)

/-! ## Loading a file -/

/-- **When the pages of its segments can be mapped, a run over them returns.** -/
theorem run_loadSegment_ok {p : Paging} (addr : Nat) (hphs : ∀ ph ∈ phs, ph.vaddr < 4294967296 ∧ ph.memsz < 4294967296)
    (hmap : run (mapPage dir) s.paging (phs.flatMap ProgramHeader.requests) = .ok p) :
    ∃ t, run (loadSegment addr dir) s phs = .ok t ∧ t.paging = p := by
  induction phs generalizing s with
  | nil =>
      cases hmap
      exact ⟨s, rfl, rfl⟩
  | cons ph phs ih =>
      obtain ⟨⟨hv, hm⟩, hphs'⟩ := List.forall_mem_cons.mp hphs
      rw [List.flatMap_cons] at hmap
      obtain ⟨paging, hfirst, hrest⟩ := run_append.mp hmap
      have hallocate : allocate s.paging dir ph.vaddr ph.memsz 0 (ph.flags &&& pfW) = .ok paging := by
        rw [allocate_eq hv hm]
        exact hfirst
      obtain ⟨t, ht, htp⟩ := ih (s := ⟨paging, memcpy s.mem ph.vaddr (add32 addr ph.offset) ph.filesz,
        s.copied ++ [(ph.vaddr, ph.filesz)]⟩) hphs' hrest
      exact ⟨t, run_cons.mpr ⟨_, loadSegment_eq_ok.mpr ⟨paging, hallocate, rfl⟩, ht⟩, htp⟩

/-- What loading a file does to memory: the parts of the segments that come from the file hold its bytes, and
    everything else is as it was. -/
structure FileLoaded (content : List UInt8) (m m' : Mem) : Prop where
  bytes : ∀ ph ∈ fileSegments content, ∀ k < ph.filesz, some (m' (ph.vaddr + k)) = content[ph.offset + k]?
  frame : ∀ x, (∀ ph ∈ fileSegments content, ¬ ph.InFile x) → m' x = m x

/-- Only memory below the kernel is changed. -/
theorem FileLoaded.high {m' : Mem} (h : FileLoaded content m m') (hexe : Executable content) {x : Nat}
    (hx : 0xc0000000 ≤ x) : m' x = m x := by
  apply h.frame
  intro ph hph hin
  have hlow := (hexe.inFile hph hin).2
  omega

/-- **An executable is loaded**, when it is in kernel memory and its pages can be mapped. -/
theorem loadImage_file {p : Paging} (hexe : Executable content)
    (hm : HoldsAt s.mem (fileMem content) addr content.length) (hkernel : 0xc0000000 ≤ addr)
    (hfits : addr + content.length ≤ 4294967296)
    (hmap : run (mapPage dir) s.paging (fileRequests content) = .ok p) :
    ∃ s', loadImage s addr dir = .ok (⟨(elfHeader (fileMem content) 0).entry, 0x2000⟩, s') ∧
      s'.paging = p ∧ FileLoaded content s.mem s'.mem := by
  have himage := hexe.image hm hkernel hfits
  have hheader := hexe.header_eq hm
  have hsegments := hexe.segments_eq hm hfits
  obtain ⟨paging, hmaps, hstack⟩ := run_append.mp hmap
  obtain ⟨t, ht, rfl⟩ := run_loadSegment_ok addr segments_lt hmaps
  rw [← show segments s.mem addr = segments (fileMem content) 0 from hsegments] at ht
  have hphnum : (elfHeader s.mem addr).phnum < 65536 := load16_lt _ _
  have hpos : 0 < (elfHeader s.mem addr).phnum := hheader ▸ hexe.nonempty
  have hloaded : FileLoaded content s.mem t.mem := by
    refine ⟨?_, ?_⟩
    · intro ph hph k hk
      have hin := hexe.file ph hph
      have hbytes := himage.bytes ht (hsegments ▸ hph) (Nat.lt_of_lt_of_le hk (hexe.sizes ph hph))
      rw [if_pos hk, Nat.add_assoc, hm (ph.offset + k) (by omega)] at hbytes
      rw [hbytes, fileMem, List.getD_eq_getElem _ _ (by omega), List.getElem?_eq_getElem (by omega)]
    · intro x hx
      exact run_loadSegment_frame (fun ph hph => himage.low hph) (hsegments ▸ hx) ht
  refine ⟨{ t with paging := p }, ?_, rfl, hloaded⟩
  unfold loadImage
  have haccepted : elfLoader s.mem addr = .ok () := by
    have hfile := hexe.accepted
    unfold elfLoader at hfile ⊢
    rwa [hheader]
  rw [haccepted, ok_bind, load, decide_eq_true hpos, assert_true, ok_bind,
    loadLoop_run (himage.inKernel hpos) (fun _ _ => rfl) (Nat.zero_le _) (by unfold loadFuel; omega)
      (fun ph hph => himage.low hph), ← segments, ht, ok_bind]
  dsimp only
  rw [allocate_eq (by decide) (by decide), hstack, ok_bind]
  -- the headers are read again after the copies, and are in kernel memory
  have hsame : elfHeader t.mem addr = elfHeader s.mem addr :=
    elfHeader_congr hkernel fun x hx => hloaded.high hexe hx
  rw [hsame, hheader]
  rfl

/-! ## A small executable -/

/-- A program that calls the kernel and returns: an ELF header, a program header, and the three bytes
    `int $0x80`, `ret` of its only segment, which runs at `0x2000`. -/
def callElf : List UInt8 := [
  0x7f, 0x45, 0x4c, 0x46, 1, 1, 1, 0, 0, 0, 0, 0, 0, 0, 0, 0,
  2, 0, 3, 0, 1, 0, 0, 0, 0x00, 0x20, 0, 0, 52, 0, 0, 0, 0, 0, 0, 0, 0, 0, 0, 0,
  52, 0, 32, 0, 1, 0, 40, 0, 0, 0, 0, 0,
  1, 0, 0, 0, 84, 0, 0, 0, 0x00, 0x20, 0, 0, 0x00, 0x20, 0, 0, 3, 0, 0, 0, 3, 0, 0, 0, 5, 0, 0, 0, 0, 0x10, 0, 0,
  0xcd, 0x80, 0xc3]

theorem callElf_executable : Executable callElf := by
  have hsegments : fileSegments callElf = [⟨1, 84, 0x2000, 3, 3, 5⟩] := by decide +kernel
  refine ⟨by rfl, by decide, by decide, by decide, ?_, ?_, ?_, ?_, ?_⟩ <;> rw [hsegments]
  · simp [callElf]
  · simp
  · simp [ProgramHeader.Holds]
    omega
  · simp
  · simp [Straddles]

end WeirdOs
