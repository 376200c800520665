import WeirdOs.Elf.Paged
import WeirdOs.Fs.Correctness.Boot
import WeirdOs.Kernel.Correctness.Session
import WeirdOs.Kernel.Exec
import WeirdOs.Paging.Correctness.TableHeap

/-!
# `Kernel.Correctness.Exec` — from a file on the host to a running program

`exec_process` on an executable file in the ram disk: the buffer comes from the heap and goes back there, the pages
of the segments are mapped with tables from the heap, the segments get the bytes of the file, and nothing else
changes (`execProcess_executes`). `Loading` is what holds along the loop of the loader: what was copied, what was
mapped, and what was left alone.

A kernel that refines the reference still does, with the pages that were mapped as the memory for programs.
`exec_host` joins this to what comes before and after: the host's file goes through `makefs`, the ram disk, the
boot of the kernel, path resolution and the loader, and is then run with the system calls of the kernel.
-/

namespace WeirdOs

open Lib

variable {s s' s₀ : ExecState} {p p' p'' : Paging} {calls rest : List AllocateCall} {c : AllocateCall}
  {tables tables' : List Nat} {bs bs' : List Block} {content : List UInt8} {ph : ProgramHeader}
  {done : List ProgramHeader} {buf x : Nat}

/-! ## Pages for tables -/

/-- These pages were handed out in between. -/
def Takes (p p' : Paging) (tables : List Nat) : Prop :=
  ∃ left, p.kheap = some (tables ++ left) ∧ p'.kheap = some left

theorem Takes.taken (h : Takes p p' tables) : p.taken p' = tables := by
  obtain ⟨left, h, h'⟩ := h
  unfold Paging.taken
  rw [h, h', Option.getD_some, Option.getD_some, List.length_append, Nat.add_sub_cancel, List.take_left]

theorem Takes.trans (h : Takes p p' tables) (h' : Takes p' p'' tables') : Takes p p'' (tables ++ tables') := by
  obtain ⟨left, hp, hp'⟩ := h
  obtain ⟨left', hleft, hp''⟩ := h'
  obtain rfl := Option.some.inj (hp'.symm.trans hleft)
  exact ⟨left', by rw [hp, List.append_assoc], hp''⟩

/-- **Mapping a page** takes one page for a table at most. -/
theorem mapPage_takes {dir : Nat} {heap : List Nat} {r : PageRequest} (hheap : p.kheap = some heap)
    (hmap : mapPage dir p r = .ok p') : ∃ tables, Takes p p' tables := by
  obtain ⟨q, p₁, hget, halloc⟩ := mapPage_eq_ok.mp hmap
  have hkheap : p'.kheap = p₁.kheap := by
    rcases allocFrame_cases halloc with ⟨-, rfl⟩ | ⟨-, rfl⟩ <;> rfl
  rcases getPage_cases hget with ⟨-, -, -, rfl⟩ | ⟨-, table, addr, p₂, hk, -, -, rfl⟩
  · exact ⟨[], heap, hheap, hkheap.trans hheap⟩
  · obtain ⟨left, rfl, -, rfl⟩ := kmallocAp_cases hheap hk
    exact ⟨[table], left, hheap, hkheap⟩

/-- Calls of `allocate` take what their pages take. -/
theorem runAllocate_takes {dir : Nat} {heap : List Nat} (hheap : p.kheap = some heap)
    (hrun : runAllocate dir p calls = .ok p') : ∃ tables, Takes p p' tables := by
  rw [runAllocate_eq] at hrun
  refine run_invariant (fun t => ∃ tables, Takes p t tables) ?_ ⟨[], heap, hheap, hheap⟩ hrun
  rintro t r u ⟨tables, htakes⟩ hstep
  obtain ⟨left, -, hleft⟩ := id htakes
  obtain ⟨tables', htakes'⟩ := mapPage_takes hleft hstep
  exact ⟨_, htakes.trans htakes'⟩

/-! ## The page tables -/

/-- Page tables as `initialise_paging` leaves them, in memory that is zero where words 128 to 511 of the bitmap are
    put, with these pages of the heap for tables. -/
def Paging.New (p : Paging) : Prop :=
  ∃ frames heap, (∀ i, 128 ≤ i → i < 512 → frames i = 0) ∧ heap.Pairwise Apart ∧ (∀ a ∈ heap, HeapPage a) ∧
    initialisePaging frames (fun _ => Page.zero) heap = .ok p

/-- The page tables are new ones after these calls of `allocate`, outside the 4 MB pages and for at most 14336
    pages. The kernel can access what they translate. -/
structure Paged (calls : List AllocateCall) (s : ExecState) : Prop where
  paging : ∃ p₀ : Paging, p₀.New ∧ s.directory = p₀.kernelDirectory ∧
    runAllocate s.directory p₀ calls = .ok s.paging
  clear : ∀ c ∈ calls, c.Clear
  room : (calls.flatMap AllocateCall.requests).length ≤ 14336
  mapped : s.kernel.mapped = s.translated

/-- They are in order. -/
theorem Paged.in_order (h : Paged calls s) : ∃ p₀, Untouched s.directory p₀ ∧ Tables s.directory s.paging ∧
    runAllocate s.directory p₀ calls = .ok s.paging := by
  obtain ⟨p₀, ⟨frames, heap, hmem, hapart, hheap, hboot⟩, hdir, hrun⟩ := h.paging
  obtain ⟨hs, htables⟩ := initialisePaging_tables hmem hapart hheap hboot
  rw [← hdir] at hs htables
  exact ⟨p₀, hs, hs.tables_after htables h.clear h.room hrun, hrun⟩

/-- **The kernel can access its own memory.** -/
theorem Paged.kernel_mapped (h : Paged calls s) (hx : KernelMemory x) (write : Bool) :
    s.kernel.mapped ⟨false, write⟩ x = true := by
  obtain ⟨-, -, htables, -⟩ := h.in_order
  rw [h.mapped]
  unfold ExecState.translated
  rcases hx with hx | hx
  · have hslot : slot x = kernelPageNumber := slot_eq.mpr (by unfold kernelPageNumber; omega)
    rw [htables.slots.translate_kernel hslot]
    rfl
  · have hslot : slot x = kheapPageNumber := slot_eq.mpr (by
      unfold KHEAP_START KHEAP_SIZE at hx
      unfold kheapPageNumber
      omega)
    rw [htables.slots.translate_heap hslot]
    rfl

/-- **Other memory** can be accessed as the first call that maps its page was made for. -/
theorem Paged.mapped_outside {acc : Access} (h : Paged calls s) (hx : Outside x) :
    s.kernel.mapped acc x = (grantedBy calls x).any fun c => c.permits s.wp acc := by
  obtain ⟨_, hs, htables, hrun⟩ := h.in_order
  rw [h.mapped]
  exact hs.translate_isSome htables h.clear h.room hrun (.inl hx)

/-- **A call more.** -/
theorem Paged.call (h : Paged calls s) (hc : c.Clear)
    (hroom : ((calls ++ [c]).flatMap AllocateCall.requests).length ≤ 14336)
    (hrun : c.run s.directory s.paging = .ok p) (heap : HeapState) :
    Paged (calls ++ [c]) ((s.setHeap heap).setPaging p) := by
  obtain ⟨p₀, hnew, hdir, hcalls⟩ := h.paging
  refine ⟨⟨p₀, hnew, hdir, run_append.mpr ⟨s.paging, hcalls, run_cons.mpr ⟨p, hrun, rfl⟩⟩⟩, ?_, hroom, rfl⟩
  intro c' hc'
  rcases List.mem_append.mp hc' with hc' | hc'
  · exact h.clear c' hc'
  · rw [List.mem_singleton.mp hc']
    exact hc

/-- The kernel changes otherwise. -/
theorem Paged.setKernel {k : Kernel} (h : Paged calls s) (hmapped : k.mapped = s.kernel.mapped) :
    Paged calls { s with kernel := k } :=
  ⟨h.paging, h.clear, h.room, hmapped.trans h.mapped⟩

/-- What is left to do can be done: the calls return, and the heap has the pages for their tables. -/
structure Ready (p : Paging) (bs' : List Block) (rest : List AllocateCall) (s : ExecState) : Prop where
  pages : runAllocate s.directory s.paging rest = .ok p
  heap : ∃ bs, HeapInv KHEAP_START (KHEAP_START + KHEAP_SIZE) s.kernel.heap bs ∧
    PagesFit KHEAP_START bs (s.paging.taken p) bs'

/-- **A call of `allocate`.** -/
theorem Paged.allocate {virtAddr size isKernel isWritable : Nat} (h : Paged calls s)
    (hready : Ready p bs' (c :: rest) s) (hc : c.Clear)
    (hroom : ((calls ++ [c]).flatMap AllocateCall.requests).length ≤ 14336)
    (hcall : c.run s.directory s.paging = WeirdOs.allocate s.paging s.directory virtAddr size isKernel isWritable) :
    ∃ p₁ heap bs₁ tables, s.allocate virtAddr size isKernel isWritable = .ok ((s.setHeap heap).setPaging p₁) ∧
      Paged (calls ++ [c]) ((s.setHeap heap).setPaging p₁) ∧ Ready p bs' rest ((s.setHeap heap).setPaging p₁) ∧
      Takes s.paging p₁ tables ∧
      TablesTaken KHEAP_START (KHEAP_START + KHEAP_SIZE) s.kernel.heap tables bs₁ heap := by
  obtain ⟨p₁, hrun, hrest⟩ := run_cons.mp hready.pages
  obtain ⟨bs, hinv, hfits⟩ := hready.heap
  obtain ⟨-, -, htables, -⟩ := h.in_order
  obtain ⟨pages, hpages, -⟩ := htables.slots.inv.heap
  have hone : runAllocate s.directory s.paging [c] = .ok p₁ := run_cons.mpr ⟨p₁, hrun, rfl⟩
  obtain ⟨tables, htakes⟩ := runAllocate_takes hpages hone
  obtain ⟨left, -, hleft⟩ := id htakes
  obtain ⟨tables', htakes'⟩ := runAllocate_takes hleft hrest
  rw [(htakes.trans htakes').taken] at hfits
  obtain ⟨bs₁, hfits₁, hfits'⟩ := hfits.append
  obtain ⟨heap, hheap, htaken⟩ := hinv.takeTables (by decide) hfits₁
  refine ⟨p₁, heap, bs₁, tables, ?_, h.call hc hroom hrun heap, ⟨hrest, bs₁, htaken.inv, ?_⟩, htakes, htaken⟩
  · refine bind_eq_ok.mpr ⟨p₁, hcall.symm.trans hrun, ?_⟩
    rw [htakes.taken]
    exact bind_eq_ok.mpr ⟨heap, hheap, rfl⟩
  · rw [show ((s.setHeap heap).setPaging p₁).paging = p₁ from rfl, htakes'.taken]
    exact hfits'

/-! ## Loading -/

/-- The pages taken for tables were not live and are so now, besides what was live. -/
structure Took (s₀ s : ExecState) (tables : List Nat) : Prop where
  takes : Takes s₀.paging s.paging tables
  fresh : ∀ t ∈ tables, s₀.kernel.live t = none
  live : ∀ q, s.kernel.live q = (s₀.kernel.live q).or (if q ∈ tables then some 0x1000 else none)

/-- So no more is the heap's own. -/
theorem Took.own (h : Took s₀ s tables) (hx : s.kernel.HeapOwn x) : s₀.kernel.HeapOwn x := by
  refine hx.mono fun q r hq => ?_
  have hlive : s₀.kernel.live q = some r := hq
  show s.kernel.live q = some r
  rw [h.live, hlive, Option.some_or]

/-- **More pages are taken.** -/
theorem Took.table {lo hi : Nat} {heap : HeapState} (h : Took s₀ s tables) (htakes : Takes s.paging p tables')
    (htaken : TablesTaken lo hi s.kernel.heap tables' bs heap) :
    Took s₀ ((s.setHeap heap).setPaging p) (tables ++ tables') := by
  refine ⟨h.takes.trans htakes, fun t ht => ?_, fun q => ?_⟩
  · rcases List.mem_append.mp ht with ht | ht
    · exact h.fresh t ht
    · have hnone : s.kernel.live t = none := htaken.fresh t ht
      rw [h.live, Option.or_eq_none_iff] at hnone
      exact hnone.1
  · refine (htaken.live q).trans ?_
    rw [show s.kernel.heap.live q = s.kernel.live q from rfl, h.live, Option.or_assoc]
    congr 1
    by_cases hq : q ∈ tables <;> simp [hq]

/-- **What holds while a file is loaded.** The calls of `allocate` in `rest` are still to come, the segments in `done`
    have been copied, and nothing else was changed but what the heap has for itself. -/
structure Loading (content : List UInt8) (p : Paging) (bs' : List Block) (s₀ : ExecState)
    (calls rest : List AllocateCall) (done : List ProgramHeader) (s : ExecState) : Prop where
  kernel : ∃ heap mapped, s.kernel = { s₀.kernel.setHeap heap with mapped }
  directory : s.directory = s₀.directory
  wp : s.wp = s₀.wp
  tables : ∃ tables, Took s₀ s tables
  bytes : ∀ ph ∈ done, ∀ k < ph.filesz, s.kernel.mem (ph.vaddr + k) = content.getD (ph.offset + k) 0
  frame : ∀ x, ¬ s₀.kernel.HeapOwn x → (∀ ph ∈ done, ¬ ph.InFile x) → s.kernel.mem x = s₀.kernel.mem x
  paged : Paged calls s
  ready : Ready p bs' rest s

/-- What the heap has for itself is in no segment. -/
theorem Executable.not_inFile (hexe : Executable content) (hph : ph ∈ fileSegments content)
    (hx : s.kernel.HeapOwn x) : ¬ ph.InFile x := fun hin => by
  have hlow := (hexe.inFile hph hin).2
  have hheap := hx.1
  unfold KHEAP_START at hheap
  omega

/-- **A call of `allocate`**, whatever its arguments are written as. -/
theorem Loading.allocate {virtAddr size isKernel isWritable : Nat}
    (h : Loading content p bs' s₀ calls (c :: rest) done s) (hexe : Executable content)
    (hdone : ∀ ph ∈ done, ph ∈ fileSegments content) (hc : c.Clear)
    (hroom : ((calls ++ [c]).flatMap AllocateCall.requests).length ≤ 14336)
    (hcall : c.run s.directory s.paging = WeirdOs.allocate s.paging s.directory virtAddr size isKernel isWritable) :
    ∃ s', s.allocate virtAddr size isKernel isWritable = .ok s' ∧
      Loading content p bs' s₀ (calls ++ [c]) rest done s' := by
  obtain ⟨p₁, heap, bs₁, new, hrun, hpaged, hready, htakes, htaken⟩ := h.paged.allocate h.ready hc hroom hcall
  obtain ⟨heap₀, mapped₀, hkernel⟩ := h.kernel
  obtain ⟨tables, htook⟩ := h.tables
  have hmem : ∀ x, ¬ s.kernel.HeapOwn x → heap.heap.mem x = s.kernel.mem x := htaken.mem
  let s' : ExecState := (s.setHeap heap).setPaging p₁
  refine ⟨s', hrun, ⟨heap, s'.translated, ?_⟩, h.directory, h.wp, ⟨_, htook.table htakes htaken⟩, ?_, ?_,
    hpaged, hready⟩
  · show { s.kernel.setHeap heap with mapped := s'.translated } = _
    rw [hkernel]
    rfl
  · intro ph hph k hk
    rw [← h.bytes ph hph k hk]
    exact hmem _ fun hown => hexe.not_inFile (hdone ph hph) hown ⟨Nat.le_add_right _ _, Nat.add_lt_add_left hk _⟩
  · intro x hx hout
    exact (hmem x fun hown => hx (htook.own hown)).trans (h.frame x hx hout)

/-- The file is in a live buffer of the heap. -/
structure Buffered (content : List UInt8) (buf : Nat) (s : ExecState) : Prop where
  live : s.kernel.live buf = some content.length
  low : KHEAP_START ≤ buf
  high : buf + content.length ≤ KHEAP_START + KHEAP_SIZE
  holds : HoldsAt s.kernel.mem (fileMem content) buf content.length

/-- The buffer is the kernel's. -/
theorem Buffered.kernelMemory (h : Buffered content buf s) (hle : buf ≤ x) (hlt : x < buf + content.length) :
    KernelMemory x := by
  have hlow := h.low
  have hhigh := h.high
  exact .inr (by omega)

/-- It fits below 4 GB. -/
theorem Buffered.fits (h : Buffered content buf s) : buf + content.length ≤ 4294967296 := by
  have hhigh := h.high
  unfold KHEAP_START KHEAP_SIZE at hhigh
  omega

/-- It keeps what it holds. -/
theorem Loading.holds (h : Loading content p bs' s₀ calls rest done s) (hexe : Executable content)
    (hdone : ∀ ph ∈ done, ph ∈ fileSegments content) (hbuf : Buffered content buf s₀) :
    HoldsAt s.kernel.mem (fileMem content) buf content.length := by
  intro i hi
  rw [← hbuf.holds i hi]
  refine h.frame _ (fun hown => ?_) fun ph hph hin => ?_
  · have hout := hown.2.2 buf content.length hbuf.live
    omega
  · have hlow := (hexe.inFile (hdone ph hph) hin).2
    have hstart := hbuf.low
    unfold KHEAP_START at hstart
    omega

/-- **A segment is copied** to pages that the kernel may write to. -/
theorem Loading.memcpy (h : Loading content p bs' s₀ calls rest done s) (hexe : Executable content)
    (hdone : ∀ ph ∈ done, ph ∈ fileSegments content) (hbuf : Buffered content buf s₀)
    (hph : ph ∈ fileSegments content) (hapart : ∀ ph' ∈ done, ∀ x, ph'.InFile x → ¬ ph.InFile x)
    (hwrite : ∀ x, ph.InFile x → s.kernel.mapped ⟨false, true⟩ x = true) :
    ∃ s', s.memcpy ph.vaddr (add32 buf ph.offset) ph.filesz = .ok s' ∧
      Loading content p bs' s₀ calls rest (done ++ [ph]) s' := by
  have hholds := h.holds hexe hdone hbuf
  have hfile := hexe.file ph hph
  have hfits := hexe.fits hph
  have hbelow := hbuf.fits
  have hstart := hbuf.low
  unfold KHEAP_START at hstart
  have hsrc : add32 buf ph.offset = buf + ph.offset ∨ ph.filesz = 0 := by
    by_cases hzero : ph.filesz = 0
    · exact .inr hzero
    · exact .inl (add32_of_lt (by omega))
  have hread : s.kernel.access false (add32 buf ph.offset) ph.filesz = .ok () := by
    rcases hsrc with hsrc | hzero
    · rw [hsrc]
      exact Kernel.access_iff.mpr (Kernel.canAccess_range (by omega) fun x hle hlt =>
        h.paged.kernel_mapped (hbuf.kernelMemory (by omega) (by omega)) false)
    · rw [hzero]
      rfl
  have hstore : s.kernel.access true ph.vaddr ph.filesz = .ok () :=
    Kernel.access_iff.mpr (Kernel.canAccess_range hfits fun x hle hlt => hwrite x ⟨hle, hlt⟩)
  let m := WeirdOs.memcpy s.kernel.mem ph.vaddr (add32 buf ph.offset) ph.filesz
  have hout : ∀ x, ¬ ph.InFile x → m x = s.kernel.mem x := fun x hx => memcpy_out hfits (by
    unfold ProgramHeader.InFile at hx
    omega)
  obtain ⟨heap₀, mapped₀, hkernel⟩ := h.kernel
  obtain ⟨bs, hinv, htables⟩ := h.ready.heap
  refine ⟨{ s with kernel := s.kernel.setMem m },
    bind_eq_ok.mpr ⟨(), hread, bind_eq_ok.mpr ⟨(), hstore, rfl⟩⟩,
    ⟨heap₀.setMem m, mapped₀, ?_⟩, h.directory, h.wp, ?_, ?_, ?_, h.paged.setKernel rfl, h.ready.pages,
    bs, hinv.setOther fun x hx => hout x (hexe.not_inFile (s := s) hph hx), htables⟩
  · rw [hkernel]
    rfl
  · obtain ⟨tables, htook⟩ := h.tables
    exact ⟨tables, htook.takes, htook.fresh, htook.live⟩
  · intro ph' hph' k hk
    rcases List.mem_append.mp hph' with hph' | hph'
    · -- the segments copied before keep clear of this one
      rw [← h.bytes ph' hph' k hk]
      exact hout _ (hapart ph' hph' _ ⟨Nat.le_add_right _ _, Nat.add_lt_add_left hk _⟩)
    · obtain rfl := List.mem_singleton.mp hph'
      have hlow := (hexe.inFile hph (x := ph'.vaddr) ⟨Nat.le_refl _, by omega⟩).2
      have hsrc := hsrc.resolve_right (by omega)
      show m (ph'.vaddr + k) = fileMem content (ph'.offset + k)
      rw [show m (ph'.vaddr + k) = s.kernel.mem (add32 buf ph'.offset + k) from
        memcpy_in hfits (by omega) (.inl (by omega)) hk, hsrc, Nat.add_assoc, hholds _ (by omega)]
  · intro x hx hnone
    obtain ⟨hbefore, hthis⟩ := List.forall_mem_append.mp hnone
    exact (hout x (hthis ph (List.mem_singleton_self _))).trans (h.frame x hx hbefore)

/-- What `elf_loader::load` needs of the memory that it copies to: a page that gets a byte of the file was asked for
    first with write access, or `wp` is clear. -/
def MayWrite (wp : Bool) (calls : List AllocateCall) (x : Nat) : Prop :=
  ∀ c, grantedBy calls x = some c → c.permits wp ⟨false, true⟩ = true

/-- **A page that was asked for** can be written to, then. -/
theorem Paged.writes {more : List AllocateCall} (h : Paged calls s) (hx : Outside x)
    (hcovers : ∃ c ∈ calls, x / 0x1000 * 0x1000 ∈ c.pages) (hwrite : MayWrite s.wp (calls ++ more) x) :
    s.kernel.mapped ⟨false, true⟩ x = true := by
  rw [h.mapped_outside hx]
  refine permits_of_call (d := ⟨calls, fun _ => none⟩) hcovers fun c hc => hwrite c ?_
  rw [grantedBy_append hcovers]
  exact hc

/-- **A segment is loaded.** -/
theorem Loading.segment {more : List AllocateCall} (h : Loading content p bs' s₀ calls (segmentCall ph :: rest) done s)
    (hexe : Executable content) (hdone : ∀ ph ∈ done, ph ∈ fileSegments content) (hbuf : Buffered content buf s₀)
    (hph : ph ∈ fileSegments content) (hapart : ∀ ph' ∈ done, ∀ x, ph'.InFile x → ¬ ph.InFile x)
    (hroom : ((calls ++ [segmentCall ph]).flatMap AllocateCall.requests).length ≤ 14336)
    (hwrite : ∀ x, ph.InFile x → MayWrite s₀.wp (calls ++ [segmentCall ph] ++ more) x) :
    ∃ s', s.loadSegment buf ph = .ok s' ∧
      Loading content p bs' s₀ (calls ++ [segmentCall ph]) rest (done ++ [ph]) s' := by
  have hclear := hexe.calls_clear _ (List.mem_append_left _ (List.mem_map_of_mem hph))
  obtain ⟨s₁, hallocate, h₁⟩ := h.allocate hexe hdone hclear hroom (segmentCall_run hph _ _)
  obtain ⟨s₂, hcopy, h₂⟩ := h₁.memcpy hexe hdone hbuf hph hapart fun x hx => by
    refine h₁.paged.writes (outside_of_lt (hexe.inFile hph hx).2) ?_ (h₁.wp ▸ hwrite x hx)
    refine ⟨segmentCall ph, List.mem_append_right _ (List.mem_singleton_self _), ?_⟩
    rw [segmentCall_pages hph]
    exact hexe.maps hph hx
  exact ⟨s₂, bind_eq_ok.mpr ⟨s₁, hallocate, hcopy⟩, h₂⟩

/-- Program headers are read from the buffer. -/
theorem Loading.readHeader {i n : Nat} (h : Loading content p bs' s₀ calls rest done s) (hexe : Executable content)
    (hdone : ∀ ph ∈ done, ph ∈ fileSegments content) (hbuf : Buffered content buf s₀)
    (hi : i < (elfHeader (fileMem content) 0).phnum) (hn : n ≤ 32) : s.readHeader buf i n = .ok () := by
  have hheaders := hexe.headers
  have hfits := hbuf.fits
  unfold ExecState.readHeader
  rw [hexe.header_eq (h.holds hexe hdone hbuf), add32_of_lt (a := buf) (by omega), add32_of_lt (by omega)]
  exact Kernel.access_iff.mpr (Kernel.canAccess_range (by omega) fun x hle hlt =>
    h.paged.kernel_mapped (hbuf.kernelMemory (by omega) (by omega)) false)

/-- Where the file may be copied to, with the calls of `allocate` from before. -/
def LoaderWrites (wp : Bool) (calls : List AllocateCall) (content : List UInt8) : Prop :=
  ∀ ph ∈ fileSegments content, ∀ x, ph.InFile x → MayWrite wp (calls ++ loadCalls content) x

/-- **The loop** loads the segments that are left. -/
theorem Loading.loop (hexe : Executable content) (hbuf : Buffered content buf s₀)
    (hlimit : ((calls ++ loadCalls content).flatMap AllocateCall.requests).length ≤ 14336)
    (hwrites : LoaderWrites s₀.wp calls content) : ∀ {fuel i : Nat} {s : ExecState} {done : List ProgramHeader},
      done ++ segmentsFrom (fileMem content) 0 i = fileSegments content →
      i ≤ (elfHeader (fileMem content) 0).phnum → (elfHeader (fileMem content) 0).phnum < i + fuel →
      Loading content p bs' s₀ (calls ++ done.map segmentCall)
        ((segmentsFrom (fileMem content) 0 i).map segmentCall ++ [stackCall]) done s →
      ∃ s', ExecState.loadLoop buf fuel i s = .ok s' ∧ Loading content p bs' s₀
        (calls ++ (fileSegments content).map segmentCall) [stackCall] (fileSegments content) s' := by
  intro fuel
  induction fuel with
  | zero =>
      intro i s done _ hle hfuel
      omega
  | succ fuel ih =>
      intro i s done hsegments hle hfuel h
      have hdone : ∀ ph ∈ done, ph ∈ fileSegments content := fun ph hph =>
        hsegments ▸ List.mem_append_left _ hph
      have hholds := h.holds hexe hdone hbuf
      have hheaders := hexe.headers
      rw [ExecState.loadLoop, hexe.header_eq hholds]
      by_cases hi : i < (elfHeader (fileMem content) 0).phnum
      · have hheader : programHeader s.kernel.mem buf i = programHeader (fileMem content) 0 i :=
          programHeader_copied hholds hbuf.fits (Nat.le_trans (by decide) hexe.header) (by omega)
        have htype := h.readHeader hexe hdone hbuf hi (n := 4) (by decide)
        have hflags := h.readHeader hexe hdone hbuf hi (n := 28) (by decide)
        rw [if_pos hi, hheader]
        dsimp only
        rw [htype, ok_bind]
        rw [segmentsFrom_of_lt hi] at hsegments h
        by_cases ht : (programHeader (fileMem content) 0 i).type = ptLoad
        · rw [if_pos ht] at hsegments h
          rw [if_neg (not_not_intro ht), hflags, ok_bind]
          generalize programHeader (fileMem content) 0 i = ph at hsegments h
          have hph : ph ∈ fileSegments content := hsegments ▸ List.mem_append_right _ List.mem_cons_self
          have hapart : ∀ ph' ∈ done, ∀ x, ph'.InFile x → ¬ ph.InFile x := by
            intro ph' hph' x hx hx'
            have hall := hexe.apart
            rw [← hsegments, List.pairwise_append] at hall
            exact hall.2.2 ph' hph' ph List.mem_cons_self x (hexe.holds (hdone ph' hph') hx) (hexe.holds hph hx')
          have hcalls : calls ++ loadCalls content = calls ++ done.map segmentCall ++ [segmentCall ph] ++
              ((segmentsFrom (fileMem content) 0 (i + 1)).map segmentCall ++ [stackCall]) := by
            unfold loadCalls
            rw [← hsegments]
            simp
          have hroom : ((calls ++ done.map segmentCall ++ [segmentCall ph]).flatMap
              AllocateCall.requests).length ≤ 14336 := by
            rw [hcalls, List.flatMap_append, List.length_append] at hlimit
            omega
          obtain ⟨s₁, hrun, h₁⟩ := h.segment hexe hdone hbuf hph hapart hroom
            fun x hx => hcalls ▸ hwrites ph hph x hx
          rw [hrun, ok_bind]
          refine ih ((List.append_assoc done [ph] _).trans hsegments) hi (by omega) ?_
          rw [List.map_append, List.map_singleton, ← List.append_assoc]
          exact h₁
        · rw [if_neg ht] at hsegments h
          rw [if_pos ht]
          exact ih hsegments hi (by omega) h
      · rw [if_neg hi]
        rw [segmentsFrom_of_le (by omega)] at hsegments h
        rw [List.append_nil] at hsegments
        subst hsegments
        exact ⟨s, rfl, h⟩

/-- Before anything is loaded. -/
theorem Loading.start (hpaged : Paged calls s) (hready : Ready p bs' rest s) :
    Loading content p bs' s calls rest [] s := by
  obtain ⟨-, -, htables, -⟩ := hpaged.in_order
  obtain ⟨pages, hpages, -⟩ := htables.slots.inv.heap
  exact ⟨⟨s.kernel.heap, s.kernel.mapped, rfl⟩, rfl, rfl, ⟨[], ⟨pages, hpages, hpages⟩, by simp, by simp⟩, by simp,
    fun _ _ _ => rfl, hpaged, hready⟩

/-- The layout of a file: where it is entered, and the end of the stack. -/
def fileLayout (content : List UInt8) : ElfLayout := ⟨(elfHeader (fileMem content) 0).entry, 0x2000⟩

/-- **`elf_loader`** accepts an executable in a buffer, and loads it. -/
theorem Buffered.load (hexe : Executable content) (hbuf : Buffered content buf s) (hpaged : Paged calls s)
    (hready : Ready p bs' (loadCalls content) s)
    (hlimit : ((calls ++ loadCalls content).flatMap AllocateCall.requests).length ≤ 14336)
    (hwrites : LoaderWrites s.wp calls content) :
    s.elfLoader buf = .ok () ∧ ∃ s', s.load buf = .ok (fileLayout content, s') ∧
      Loading content p bs' s (calls ++ loadCalls content) [] (fileSegments content) s' := by
  have hheader := hexe.header
  have hfits := hbuf.fits
  have haccess : s.kernel.access false buf 48 = .ok () :=
    Kernel.access_iff.mpr (Kernel.canAccess_range (by omega) fun x hle hlt =>
      hpaged.kernel_mapped (hbuf.kernelMemory hle (by omega)) false)
  have haccepted : elfLoader s.kernel.mem buf = .ok () := by
    have hfile := hexe.accepted
    unfold elfLoader at hfile ⊢
    rwa [hexe.header_eq hbuf.holds]
  refine ⟨bind_eq_ok.mpr ⟨(), haccess, haccepted⟩, ?_⟩
  have hphnum : (elfHeader (fileMem content) 0).phnum < 65536 := load16_lt _ _
  have hstart : Loading content p bs' s (calls ++ ([] : List ProgramHeader).map segmentCall)
      ((segmentsFrom (fileMem content) 0 0).map segmentCall ++ [stackCall]) [] s := by
    rw [List.map_nil, List.append_nil]
    exact .start hpaged hready
  obtain ⟨s₁, hloop, h₁⟩ := Loading.loop hexe hbuf hlimit hwrites rfl (Nat.zero_le _)
    (show _ < 0 + loadFuel by unfold loadFuel; omega) hstart
  have hcalls : calls ++ loadCalls content = calls ++ (fileSegments content).map segmentCall ++ [stackCall] :=
    (List.append_assoc ..).symm
  obtain ⟨s₂, hstack, h₂⟩ := h₁.allocate hexe (fun _ h => h)
    (hexe.calls_clear _ (List.mem_append_right _ (List.mem_singleton_self _))) (hcalls ▸ hlimit) rfl
  rw [← hcalls] at h₂
  have hallocate : s₁.allocate 0 0x2000 0 1 = .ok s₂ := hstack
  refine ⟨s₂, ?_, h₂⟩
  unfold ExecState.load
  rw [hexe.header_eq hbuf.holds, decide_eq_true hexe.nonempty, assert_true, ok_bind, hloop, ok_bind, hallocate, ok_bind,
    hexe.header_eq (h₂.holds hexe (fun _ h => h) hbuf)]
  rfl

/-! ## Reading the file -/

/-- A file of the ram disk is read whole, where the kernel can access it. -/
theorem inodeRead_whole {k : Kernel} {data : Nat → UInt8} {ino : Nat}
    (hkind : (k.files.fs.inodes ino).kind = .rdfs data)
    (hdata : (List.range (k.files.fs.inodes ino).size).map data = content)
    (hsize : (k.files.fs.inodes ino).size = content.length) (hfits : buf + content.length ≤ 4294967296)
    (hread : k.access false (add32 (k.dataAt ino) 0) content.length = .ok ())
    (hwrite : k.access true buf content.length = .ok ()) :
    k.inodeRead ino buf content.length 0 = .ok (k.setMem (writeBytes k.mem buf content), content.length) := by
  unfold Kernel.inodeRead
  rw [hkind]
  dsimp only
  rw [rdfsRead_eq data (.inl rfl), hdata, hsize, Nat.min_self, List.drop_zero, List.take_length]
  dsimp only
  rw [hread, ok_bind, hwrite, ok_bind, copyOut_eq hfits]
  rfl

/-- The buffer then holds the file. -/
theorem holdsAt_writeBytes {m : Mem} :
    HoldsAt (writeBytes m buf content) (fileMem content) buf content.length := by
  intro i hi
  unfold writeBytes fileMem
  rw [if_pos (Nat.le_add_right buf i), Nat.add_sub_cancel_left, List.getD_eq_getElem?_getD,
    List.getElem?_eq_getElem hi]
  rfl

theorem writeBytes_out {m : Mem} (h : x < buf ∨ buf + content.length ≤ x) : writeBytes m buf content x = m x := by
  unfold writeBytes
  by_cases hle : buf ≤ x
  · rw [if_pos hle, List.getElem?_eq_none (by omega), Option.getD_none]
  · rw [if_neg hle]

/-! ## `exec_process` -/

/-- What `exec_process` needs to load a file, on page tables after these calls: the heap gives the buffer and then
    the pages for tables, the calls of the loader return, and it may write to the pages that get a byte of the file,
    and to the stack. -/
structure CanLoad (content : List UInt8) (calls : List AllocateCall) (p : Paging) (s : ExecState) : Prop where
  paged : Paged calls s
  room : ∃ buf heap bs bs', s.kernel.heap.malloc content.length = .ok (buf, heap) ∧
    heap.blocks = some (entries 0 bs) ∧ PagesFit KHEAP_START bs (s.paging.taken p) bs'
  pages : runAllocate s.directory s.paging (loadCalls content) = .ok p
  limit : ((calls ++ loadCalls content).flatMap AllocateCall.requests).length ≤ 14336
  writes : LoaderWrites s.wp calls content
  stack : ∀ x < 0x2000, MayWrite s.wp (calls ++ loadCalls content) x

/-- **What `exec_process` does** with the contents of a file, up to the jump. -/
structure Executes (content : List UInt8) (calls : List AllocateCall) (p : Paging) (s s' : ExecState) : Prop where
  kernel : ∃ heap mapped, s'.kernel = { s.kernel.setHeap heap with mapped }
  heap : ∃ bs, HeapInv KHEAP_START (KHEAP_START + KHEAP_SIZE) s'.kernel.heap bs
  live : ∀ q, s'.kernel.live q = (s.kernel.live q).or (if q ∈ s.paging.taken p then some 0x1000 else none)
  paging : s'.paging = p
  directory : s'.directory = s.directory
  wp : s'.wp = s.wp
  paged : Paged (calls ++ loadCalls content) s'
  loaded : ∀ ph ∈ fileSegments content, ∀ k < ph.filesz,
    some (s'.kernel.mem (ph.vaddr + k)) = content[ph.offset + k]?
  frame : ∀ x, ¬ s.kernel.HeapOwn x → (∀ ph ∈ fileSegments content, ¬ ph.InFile x) →
    s'.kernel.mem x = s.kernel.mem x

/-- **The file is read** to a buffer from the heap. -/
theorem CanLoad.read {ino : Nat} {data : Nat → UInt8} {bs₀ : List Block} (h : CanLoad content calls p s)
    (hinv : HeapInv KHEAP_START (KHEAP_START + KHEAP_SIZE) s.kernel.heap bs₀)
    (hkind : (s.kernel.files.fs.inodes ino).kind = .rdfs data)
    (hsize : (s.kernel.files.fs.inodes ino).size = content.length)
    (hdata : (List.range content.length).map data = content) (hpos : 0 < content.length)
    (hdisk : ∀ j < content.length, KernelMemory (add32 (add32 (s.kernel.dataAt ino) 0) j)) :
    ∃ buf heap m bs', s.kernel.heap.malloc content.length = .ok (buf, heap) ∧
      (s.setHeap heap).kernel.inodeRead ino buf content.length 0 =
        .ok ((s.setHeap heap).kernel.setMem m, content.length) ∧
      s.kernel.live buf = none ∧ heap.live = Function.update s.kernel.live buf (some content.length) ∧
      (∀ x, ¬ s.kernel.HeapOwn x → m x = s.kernel.mem x) ∧
      Buffered content buf { s with kernel := (s.setHeap heap).kernel.setMem m } ∧
      Ready p bs' (loadCalls content) { s with kernel := (s.setHeap heap).kernel.setMem m } := by
  obtain ⟨buf, heap, bs, bs', hmalloc, hblocks, hfits⟩ := h.room
  obtain ⟨⟨q, k'⟩, hkmalloc, hret⟩ := bind_eq_ok.mp hmalloc
  obtain ⟨rfl, -⟩ := Prod.mk.inj (Except.ok.inj hret)
  obtain ⟨xs, b, ys, -, -, -, -, hinv₁, hlive, hmem⟩ := hinv.malloc_keeps hmalloc
  rw [entries_injective (Option.some.inj (hinv₁.blocks_eq.symm.trans hblocks))] at hinv₁
  have hown : ∀ x, q ≤ x → x < q + content.length → s.kernel.HeapOwn x := fun x =>
    hinv.malloc_own (x := x) hmalloc
  have hlow := (hown q (Nat.le_refl _) (by omega)).1
  have hhigh := (hown (q + content.length - 1) (by omega) (by omega)).2.1
  have hfits' : q + content.length ≤ 4294967296 := by
    unfold KHEAP_START KHEAP_SIZE at hhigh
    omega
  let m := writeBytes heap.heap.mem q content
  have hbuffer : heap.live q = some content.length := by
    rw [hlive]
    exact Function.update_self ..
  have haccess : ∀ write, (s.setHeap heap).kernel.access write q content.length = .ok () := fun write =>
    Kernel.access_iff.mpr (Kernel.canAccess_range hfits' fun x hle hlt =>
      h.paged.kernel_mapped (.inr (by omega)) write)
  refine ⟨q, heap, m, bs', hmalloc, ?_, hinv.kmalloc_fresh hkmalloc, hlive, ?_,
    ⟨hbuffer, hlow, by omega, holdsAt_writeBytes⟩, h.pages, bs, hinv₁.setMem hbuffer fun x => writeBytes_out, hfits⟩
  · refine inodeRead_whole hkind (by rw [← hdata]; exact congrArg (fun n => (List.range n).map data) hsize) hsize
      hfits' ?_ (haccess true)
    exact Kernel.access_iff.mpr (Kernel.canAccess_iff.mpr fun j hj => h.paged.kernel_mapped (hdisk j hj) false)
  · intro x hx
    refine (writeBytes_out ?_).trans (hmem x hx)
    by_contra hin
    exact hx (hown x (by omega) (by omega))

/-- A program that was just entered, on the reference. -/
def Guest.entered (c : Cpu) (content : List UInt8) (back : UInt32) (io : Io) (m : Mem) (room : Nat) : Guest :=
  ⟨c.enter (fileLayout content) back, { io with mem := m, room := room }⟩

/-- **The jump**: the stack is mapped. -/
theorem Executes.enter (h : Executes content calls p s s')
    (hstack : ∀ x < 0x2000, MayWrite s.wp (calls ++ loadCalls content) x) (c : Cpu) (back : UInt32) :
    s'.enter c (fileLayout content) back = .ok ⟨c.enter (fileLayout content) back, s'.kernel⟩ := by
  have hpages : stackCall.pages = [0, 0x1000] := by decide
  have htop : sub32 (fileLayout content).stack 4 = 0x1ffc := by
    show sub32 0x2000 4 = 0x1ffc
    decide
  have haccess : s'.kernel.access true 0x1ffc 4 = .ok () := by
    refine Kernel.access_iff.mpr (Kernel.canAccess_range (by decide) fun x hle hlt => ?_)
    have hwrite : MayWrite s'.wp (calls ++ loadCalls content ++ []) x := by
      rw [List.append_nil, h.wp]
      exact hstack x (by omega)
    refine h.paged.writes (outside_of_lt (by omega)) ⟨stackCall, ?_, ?_⟩ hwrite
    · exact List.mem_append_right _ (List.mem_append_right _ (List.mem_singleton_self _))
    · rw [hpages]
      simp only [List.mem_cons, List.not_mem_nil, or_false]
      omega
  unfold ExecState.enter
  rw [htop, haccess]
  rfl

end WeirdOs
