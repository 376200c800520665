import WeirdOs.Elf.File
import WeirdOs.Paging.Correctness.Space

/-!
# `Elf.Paged` — loading through the page tables

`Elf.Loader` copies the segments of a file in memory as the program sees it. Here the same copies go through
the MMU: `loadEvents` are the calls of `allocate` and the single bytes that `memcpy` stores. On an address
space they leave the bytes of the file where the program headers say (`run_segmentEvents`), so on page tables
they do as well, and the loader on flat memory gives the same tables and the same bytes.

The kernel stores into pages that are read-only for the program, which needs `wp` to be clear: with `wp` set, a
file with a read-only segment does not load (`LoaderMayWrite`).
-/

namespace WeirdOs

open Lib

variable {content : List UInt8} {ph : ProgramHeader} {phs : List ProgramHeader} {d d' : Space} {a : Nat}
  {wp : Bool} {acc : Access}

/-! ## What the loader does -/

/-- `allocator->allocate(ph->vaddr, ph->memsz, 0, ph->flags & p_flags_t::PF_W)`. -/
def segmentCall (ph : ProgramHeader) : AllocateCall :=
  ⟨UInt32.ofNat ph.vaddr, UInt32.ofNat ph.memsz, 0, UInt32.ofNat (ph.flags &&& pfW)⟩

/-- `memcpy((void *)ph->vaddr, offset<void>(ph->offset), ph->filesz)`, byte by byte. -/
def segmentStores (content : List UInt8) (ph : ProgramHeader) : List MemoryEvent :=
  (List.range ph.filesz).map fun k => .store false (UInt32.ofNat (ph.vaddr + k)) (content.getD (ph.offset + k) 0)

/-- One segment. -/
def segmentEvents (content : List UInt8) (ph : ProgramHeader) : List MemoryEvent :=
  .allocate (segmentCall ph) :: segmentStores content ph

/-- `allocator->allocate(0, 0x2000, 0, 1)`. -/
def stackCall : AllocateCall := ⟨0, 0x2000, 0, 1⟩

/-- All of `elf_loader::load`. -/
def loadEvents (content : List UInt8) : List MemoryEvent :=
  (fileSegments content).flatMap (segmentEvents content) ++ [.allocate stackCall]

/-- The calls of `allocate` in it. -/
def loadCalls (content : List UInt8) : List AllocateCall := (fileSegments content).map segmentCall ++ [stackCall]

/-- The numbers of a segment fit in 32 bits. -/
theorem segmentCall_pages (hph : ph ∈ fileSegments content) :
    (segmentCall ph).pages = allocatePages ph.vaddr ph.memsz := by
  obtain ⟨hv, hm⟩ := segments_lt ph hph
  unfold AllocateCall.pages segmentCall
  dsimp only
  rw [UInt32.toNat_ofNat_of_lt' hv, UInt32.toNat_ofNat_of_lt' hm]

theorem segmentCall_requests (hph : ph ∈ fileSegments content) : (segmentCall ph).requests = ph.requests := by
  have hw : ph.flags &&& pfW < 4294967296 := Nat.lt_of_le_of_lt Nat.and_le_right (by decide)
  unfold AllocateCall.requests ProgramHeader.requests
  rw [segmentCall_pages hph]
  unfold segmentCall
  dsimp only
  rw [UInt32.toNat_ofNat_of_lt' hw]
  rfl

/-- It is the call that the loader makes. -/
theorem segmentCall_run (hph : ph ∈ fileSegments content) (dir : Nat) (p : Paging) :
    (segmentCall ph).run dir p = allocate p dir ph.vaddr ph.memsz 0 (ph.flags &&& pfW) := by
  obtain ⟨hv, hm⟩ := segments_lt ph hph
  rw [AllocateCall.run_eq, segmentCall_requests hph, allocate_eq hv hm]
  rfl

/-- **The calls ask for the pages** that the loader on flat memory asks for. -/
theorem loadCalls_requests (content : List UInt8) :
    (loadCalls content).flatMap AllocateCall.requests = fileRequests content := by
  unfold loadCalls fileRequests imageRequests
  rw [List.flatMap_append, List.flatMap_map]
  exact congrArg₂ (· ++ ·) (List.flatMap_congr fun ph hph => segmentCall_requests hph) rfl

theorem loadEvents_calls (content : List UInt8) :
    (loadEvents content).flatMap MemoryEvent.calls = loadCalls content := by
  have hstores : ∀ ph, (segmentStores content ph).flatMap MemoryEvent.calls = [] := by
    intro ph
    unfold segmentStores
    rw [List.flatMap_map]
    simp [MemoryEvent.calls]
  have hevents : ∀ ph, (segmentEvents content ph).flatMap MemoryEvent.calls = [segmentCall ph] := by
    intro ph
    unfold segmentEvents
    rw [List.flatMap_cons, hstores]
    rfl
  unfold loadEvents loadCalls
  rw [List.flatMap_append, List.flatMap_assoc]
  simp only [hevents, ← List.map_eq_flatMap]
  rfl

/-! ## On an address space -/

/-- **Stores that are permitted** are done. -/
theorem run_stores {user : Bool} {n v : Nat} {g : Nat → UInt8} (hfits : v + n ≤ 4294967296)
    (hpermits : ∀ k < n, d.permits wp ⟨user, true⟩ (v + k) = true) :
    run (Space.step wp) d ((List.range n).map fun k => .store user (UInt32.ofNat (v + k)) (g k)) =
      .ok { d with bytes := fun x => if v ≤ x ∧ x < v + n then some (g (x - v)) else d.bytes x } := by
  induction n with
  | zero =>
      have hsame : (fun x => if v ≤ x ∧ x < v + 0 then some (g (x - v)) else d.bytes x) = d.bytes := by
        funext x
        exact if_neg (by omega)
      rw [hsame]
      rfl
  | succ n ih =>
      rw [List.range_succ, List.map_append]
      refine run_append.mpr ⟨_, ih (by omega) fun k hk => hpermits k (by omega), run_cons.mpr ⟨_, ?_, rfl⟩⟩
      have haddr : (UInt32.ofNat (v + n)).toNat = v + n :=
        UInt32.toNat_ofNat_of_lt' (show v + n < 4294967296 by omega)
      unfold Space.step
      dsimp only
      rw [haddr]
      refine (if_pos (hpermits n (by omega))).trans ?_
      refine congrArg (fun bytes => Except.ok { d with bytes }) ?_
      funext x
      by_cases hx : x = v + n
      · rw [hx, Function.update_self, if_pos (by omega), Nat.add_sub_cancel_left]
      · rw [Function.update_of_ne hx]
        exact if_congr (by omega) rfl rfl

instance (ph : ProgramHeader) (x : Nat) : Decidable (ph.InFile x) := inferInstanceAs (Decidable (_ ∧ _))

/-- **The first call counts**: those that come later change nothing for a page that there is. -/
theorem grantedBy_append {calls more : List AllocateCall} (h : ∃ c ∈ calls, a / 0x1000 * 0x1000 ∈ c.pages) :
    grantedBy (calls ++ more) a = grantedBy calls a := by
  obtain ⟨c, hc, hpage⟩ := h
  have hsome : (grantedBy calls a).isSome = true := List.find?_isSome.mpr ⟨c, hc, decide_eq_true hpage⟩
  obtain ⟨c', hc'⟩ := Option.isSome_iff_exists.mp hsome
  unfold grantedBy at hc' ⊢
  rw [List.find?_append, hc', Option.some_or]

theorem permits_of_call (h : ∃ c ∈ d.calls, a / 0x1000 * 0x1000 ∈ c.pages)
    (hcall : ∀ c, grantedBy d.calls a = some c → c.permits wp acc = true) : d.permits wp acc a = true := by
  obtain ⟨c, hc, hpage⟩ := h
  have hsome : (grantedBy d.calls a).isSome = true := List.find?_isSome.mpr ⟨c, hc, decide_eq_true hpage⟩
  obtain ⟨c', hc'⟩ := Option.isSome_iff_exists.mp hsome
  rw [Space.permits, hc', Option.any_some, hcall c' hc']

/-- **What was stored was permitted**, and still is at the end. -/
theorem Space.permits_of_run {events : List MemoryEvent} (h : run (Space.step wp) d events = .ok d') :
    (∃ more, d'.calls = d.calls ++ more) ∧ ∀ user v (x : UInt32), .store user x v ∈ events →
      d'.permits wp ⟨user, true⟩ x.toNat = true := by
  induction events generalizing d with
  | nil =>
      cases h
      exact ⟨⟨[], (List.append_nil _).symm⟩, by simp⟩
  | cons e events ih =>
      obtain ⟨d₁, hstep, hrun⟩ := run_cons.mp h
      obtain ⟨⟨more, hmore⟩, hrest⟩ := ih hrun
      -- one event only adds calls, and stores what is permitted
      have hone : (∃ more₁, d₁.calls = d.calls ++ more₁) ∧ ∀ user v (x : UInt32), e = .store user x v →
          d₁.calls = d.calls ∧ d.permits wp ⟨user, true⟩ x.toNat = true := by
        cases e with
        | allocate c =>
            cases hstep
            exact ⟨⟨[c], rfl⟩, by simp⟩
        | store user x v =>
            unfold Space.step at hstep
            dsimp only at hstep
            by_cases hp : d.permits wp ⟨user, true⟩ x.toNat = true
            · rw [if_pos hp] at hstep
              cases hstep
              refine ⟨⟨[], (List.append_nil _).symm⟩, ?_⟩
              rintro user' v' x' heq
              cases heq
              exact ⟨rfl, hp⟩
            · rw [if_neg hp] at hstep
              cases hstep
        | fill _ _ =>
            cases hstep
            exact ⟨⟨[], (List.append_nil _).symm⟩, by simp⟩
        | evict _ _ =>
            cases hstep
            exact ⟨⟨[], (List.append_nil _).symm⟩, by simp⟩
      obtain ⟨⟨more₁, hmore₁⟩, hstore⟩ := hone
      refine ⟨⟨more₁ ++ more, by rw [hmore, hmore₁, List.append_assoc]⟩, ?_⟩
      intro user v x hmem
      rcases List.mem_cons.mp hmem with heq | hmem
      · obtain ⟨hcalls, hp⟩ := hstore user v x heq.symm
        unfold Space.permits at hp ⊢
        cases hgranted : grantedBy d.calls x.toNat with
        | none =>
            rw [hgranted] at hp
            cases hp
        | some c =>
            rw [hgranted] at hp
            have hfind := hgranted
            unfold grantedBy at hfind ⊢
            rw [hmore, hcalls, List.find?_append, hfind, Option.some_or]
            exact hp
      · exact hrest user v x hmem

/-- **One segment**: its bytes are stored, and no others. -/
theorem run_segmentEvents_one (hph : ph ∈ fileSegments content) (hfits : ph.vaddr + ph.filesz ≤ 4294967296)
    (hmaps : ∀ x, ph.InFile x → ph.Maps x)
    (hwrite : ∀ x, ph.InFile x → ∀ c, grantedBy (d.calls ++ [segmentCall ph]) x = some c →
      c.permits wp ⟨false, true⟩ = true) :
    run (Space.step wp) d (segmentEvents content ph) =
      .ok ⟨d.calls ++ [segmentCall ph], fun x => if ph.InFile x then
        some (content.getD (ph.offset + (x - ph.vaddr)) 0) else d.bytes x⟩ := by
  let d₁ : Space := { d with calls := d.calls ++ [segmentCall ph] }
  refine run_cons.mpr ⟨d₁, rfl, ?_⟩
  refine run_stores (d := d₁) hfits ?_
  intro k hk
  have hin : ph.InFile (ph.vaddr + k) := ⟨Nat.le_add_right _ _, Nat.add_lt_add_left hk _⟩
  refine permits_of_call ⟨segmentCall ph, List.mem_append_right _ (List.mem_singleton_self _), ?_⟩
    (hwrite _ hin)
  rw [segmentCall_pages hph]
  exact hmaps _ hin

/-- **The segments one after the other**, when the kernel may store what it copies. -/
theorem run_segmentEvents (hphs : ∀ ph ∈ phs, ph ∈ fileSegments content)
    (hfits : ∀ ph ∈ phs, ph.vaddr + ph.filesz ≤ 4294967296) (hmaps : ∀ ph ∈ phs, ∀ x, ph.InFile x → ph.Maps x)
    (hapart : phs.Pairwise fun ph ph' => ∀ x, ph.InFile x → ¬ ph'.InFile x) (more : List AllocateCall)
    (hwrite : ∀ ph ∈ phs, ∀ x, ph.InFile x → ∀ c, grantedBy (d.calls ++ phs.map segmentCall ++ more) x = some c →
      c.permits wp ⟨false, true⟩ = true) :
    ∃ d', run (Space.step wp) d (phs.flatMap (segmentEvents content)) = .ok d' ∧
      d'.calls = d.calls ++ phs.map segmentCall ∧
      (∀ x, (∀ ph ∈ phs, ¬ ph.InFile x) → d'.bytes x = d.bytes x) ∧
      ∀ ph ∈ phs, ∀ k < ph.filesz, d'.bytes (ph.vaddr + k) = some (content.getD (ph.offset + k) 0) := by
  induction phs generalizing d with
  | nil => exact ⟨d, rfl, (List.append_nil _).symm, fun _ _ => rfl, by simp⟩
  | cons ph phs ih =>
      obtain ⟨hph, hphs'⟩ := List.forall_mem_cons.mp hphs
      obtain ⟨hfit, hfits'⟩ := List.forall_mem_cons.mp hfits
      obtain ⟨hmap, hmaps'⟩ := List.forall_mem_cons.mp hmaps
      obtain ⟨hfirst, hapart'⟩ := List.pairwise_cons.mp hapart
      rw [List.map_cons, List.append_cons] at hwrite
      obtain ⟨hwrite₁, hwrite'⟩ := List.forall_mem_cons.mp hwrite
      let d₁ : Space := ⟨d.calls ++ [segmentCall ph], fun x => if ph.InFile x then
        some (content.getD (ph.offset + (x - ph.vaddr)) 0) else d.bytes x⟩
      have hone : run (Space.step wp) d (segmentEvents content ph) = .ok d₁ := by
        refine run_segmentEvents_one hph hfit hmap fun x hx c hc => hwrite₁ x hx c ?_
        have hcovers : ∃ c ∈ d.calls ++ [segmentCall ph], x / 0x1000 * 0x1000 ∈ c.pages := by
          refine ⟨segmentCall ph, List.mem_append_right _ (List.mem_singleton_self _), ?_⟩
          rw [segmentCall_pages hph]
          exact hmap x hx
        rw [List.append_assoc, grantedBy_append hcovers]
        exact hc
      obtain ⟨d', hd', hcalls, hframe, hbytes⟩ := ih (d := d₁) hphs' hfits' hmaps' hapart' hwrite'
      refine ⟨d', run_append.mpr ⟨d₁, hone, hd'⟩, ?_, ?_, List.forall_mem_cons.mpr ⟨?_, hbytes⟩⟩
      · rw [hcalls, List.map_cons, List.append_cons]
      · intro x hx
        obtain ⟨hnot, hnots⟩ := List.forall_mem_cons.mp hx
        exact (hframe x hnots).trans (if_neg hnot)
      · intro k hk
        -- the later segments keep clear of this one
        have hin : ph.InFile (ph.vaddr + k) := ⟨Nat.le_add_right _ _, Nat.add_lt_add_left hk _⟩
        rw [hframe _ fun ph' hph' => hfirst ph' hph' _ hin]
        refine (if_pos hin).trans ?_
        rw [Nat.add_sub_cancel_left]

/-! ## Where the segments are -/

/-- The last byte of a memory image is below the kernel. -/
theorem Executable.stop_le (hexe : Executable content) (hph : ph ∈ fileSegments content) (hpos : 0 < ph.memsz) :
    0x2000 ≤ ph.vaddr ∧ ph.vaddr + ph.memsz ≤ 0xc0000000 := by
  have hfirst := hexe.user ph hph ph.vaddr ⟨Nat.le_refl _, by omega⟩
  have hlast := hexe.user ph hph (ph.vaddr + ph.memsz - 1) ⟨by omega, by omega⟩
  omega

/-- So are the pages that are mapped for it, and they are past the stack. -/
theorem Executable.page (hexe : Executable content) (hph : ph ∈ fileSegments content)
    (ha : a ∈ (segmentCall ph).pages) : 0x2000 ≤ a ∧ a < 0xc0000000 := by
  rw [segmentCall_pages hph] at ha
  obtain ⟨hv, hm⟩ := segments_lt ph hph
  by_cases hpos : 0 < ph.memsz
  · obtain ⟨hlow, hhigh⟩ := hexe.stop_le hph hpos
    obtain ⟨⟨haligned, hlt, hgt⟩, -⟩ := (mem_allocatePages hpos hm (by omega)).mp ha
    omega
  · rw [Nat.eq_zero_of_not_pos hpos] at ha
    unfold allocatePages at ha
    rw [if_neg (by decide)] at ha
    have hpages := mem_pageRange.mp ha
    omega

/-- **A segment**, which does not straddle, is mapped where it is copied to. -/
theorem Executable.maps (hexe : Executable content) (hph : ph ∈ fileSegments content) {x : Nat}
    (hx : ph.InFile x) : ph.Maps x := by
  obtain ⟨hlow, hhigh⟩ := hx
  have hsize := hexe.sizes ph hph
  obtain ⟨-, hm⟩ := segments_lt ph hph
  obtain ⟨-, hstop⟩ := hexe.stop_le hph (by omega)
  unfold ProgramHeader.Maps
  refine (mem_allocatePages (by omega) hm (by omega)).mpr
    ⟨?_, fun h => absurd h (hexe.straddles ph hph), fun _ => ?_⟩
  · unfold Meets
    omega
  · unfold ReachesTop
    omega

theorem outside_of_lt (h : a < 0xc0000000) : Outside a := by
  unfold Outside slot kernelPageNumber kheapPageNumber
  omega

/-- Nothing is mapped over the kernel, -/
theorem Executable.calls_clear (hexe : Executable content) : ∀ c ∈ loadCalls content, c.Clear := by
  intro c hc a ha
  rcases List.mem_append.mp hc with hc | hc
  · obtain ⟨ph, hph, rfl⟩ := List.mem_map.mp hc
    exact outside_of_lt (hexe.page hph ha).2
  · obtain rfl := List.mem_singleton.mp hc
    have hpages : stackCall.pages = [0, 0x1000] := by decide
    rw [hpages] at ha
    simp only [List.mem_cons, List.not_mem_nil, or_false] at ha
    exact outside_of_lt (by omega)

/-- and nothing is stored there. -/
theorem Executable.clear (hexe : Executable content) : ∀ e ∈ loadEvents content, e.Clear := by
  intro e he
  rcases List.mem_append.mp he with he | he
  · obtain ⟨ph, hph, he⟩ := List.mem_flatMap.mp he
    rcases List.mem_cons.mp he with rfl | he
    · exact hexe.calls_clear _ (List.mem_append_left _ (List.mem_map_of_mem hph))
    · obtain ⟨k, hk, rfl⟩ := List.mem_map.mp he
      have hk := List.mem_range.mp hk
      have hlow := (hexe.inFile hph (x := ph.vaddr + k) ⟨Nat.le_add_right _ _, Nat.add_lt_add_left hk _⟩).2
      have haddr : (UInt32.ofNat (ph.vaddr + k)).toNat = ph.vaddr + k :=
        UInt32.toNat_ofNat_of_lt' (show ph.vaddr + k < 4294967296 by omega)
      left
      rw [haddr]
      exact outside_of_lt (by omega)
  · obtain rfl := List.mem_singleton.mp he
    exact hexe.calls_clear _ (List.mem_append_right _ (List.mem_singleton_self _))

/-- Whether the kernel may store what it copies: a page that gets a byte of the file was asked for first by a
    segment with `PF_W`, or `wp` is clear. -/
def LoaderMayWrite (wp : Bool) (content : List UInt8) : Prop :=
  ∀ ph ∈ fileSegments content, ∀ x, ph.InFile x → ∀ c, grantedBy (loadCalls content) x = some c →
    c.permits wp ⟨false, true⟩ = true

theorem loaderMayWrite_clear (content : List UInt8) : LoaderMayWrite false content := by
  intro ph _ x _ c _
  unfold AllocateCall.permits Access.allowed
  simp

/-- The memory image of a segment ends before addresses do. -/
theorem Executable.fits (hexe : Executable content) (hph : ph ∈ fileSegments content) :
    ph.vaddr + ph.filesz ≤ 4294967296 := by
  obtain ⟨hv, -⟩ := segments_lt ph hph
  have hsize := hexe.sizes ph hph
  by_cases hpos : 0 < ph.memsz
  · obtain ⟨-, hstop⟩ := hexe.stop_le hph hpos
    omega
  · omega

/-- **The whole file**, on an address space. -/
theorem Executable.run_loadEvents (hexe : Executable content) (hwrite : LoaderMayWrite wp content) :
    ∃ d, run (Space.step wp) Space.empty (loadEvents content) = .ok d ∧ d.calls = loadCalls content ∧
      ∀ ph ∈ fileSegments content, ∀ k < ph.filesz,
        d.bytes (ph.vaddr + k) = some (content.getD (ph.offset + k) 0) := by
  have hapart : (fileSegments content).Pairwise fun ph ph' => ∀ x, ph.InFile x → ¬ ph'.InFile x :=
    hexe.apart.imp_of_mem fun hph hph' h x hx hx' => h x (hexe.holds hph hx) (hexe.holds hph' hx')
  obtain ⟨d, hd, hcalls, -, hbytes⟩ := run_segmentEvents (d := Space.empty) (fun _ h => h)
    (fun ph hph => hexe.fits hph) (fun ph hph x hx => hexe.maps hph hx) hapart [stackCall] hwrite
  refine ⟨{ d with calls := d.calls ++ [stackCall] }, run_append.mpr ⟨d, hd, rfl⟩, ?_, hbytes⟩
  show d.calls ++ [stackCall] = _
  rw [hcalls]
  rfl

/-- **The program** may read what was asked for. -/
theorem permits_loaded (hcalls : d.calls = loadCalls content)
    (h : ∃ c ∈ loadCalls content, a / 0x1000 * 0x1000 ∈ c.pages) : d.permits wp ⟨true, false⟩ a = true := by
  rw [← hcalls] at h
  refine permits_of_call h fun c hc => ?_
  have hmem : c ∈ loadCalls content := hcalls ▸ List.mem_of_find?_eq_some hc
  have hkernel : c.isKernel = 0 := by
    rcases List.mem_append.mp hmem with hmem | hmem
    · obtain ⟨ph, -, rfl⟩ := List.mem_map.mp hmem
      rfl
    · rw [List.mem_singleton.mp hmem]
      rfl
  unfold AllocateCall.permits Access.allowed
  rw [hkernel]
  rfl

/-- **The stack** is the program's to write. -/
theorem Executable.permits_stack (hexe : Executable content) (hcalls : d.calls = loadCalls content)
    (ha : a < 0x2000) : d.permits wp ⟨true, true⟩ a = true := by
  have hnone : (List.map segmentCall (fileSegments content)).find?
      (fun c => a / 0x1000 * 0x1000 ∈ c.pages) = none := by
    refine List.find?_eq_none.mpr ?_
    intro c hc hpage
    obtain ⟨ph, hph, rfl⟩ := List.mem_map.mp hc
    have hlow := (hexe.page hph (of_decide_eq_true hpage)).1
    omega
  have hpages : a / 0x1000 * 0x1000 ∈ stackCall.pages := by
    have hstack : stackCall.pages = [0, 0x1000] := by decide
    rw [hstack]
    simp only [List.mem_cons, List.not_mem_nil, or_false]
    omega
  have hgranted : grantedBy (loadCalls content) a = some stackCall := by
    unfold grantedBy loadCalls
    rw [List.find?_append, hnone, Option.none_or, List.find?_cons_of_pos (by exact decide_eq_true hpages)]
  rw [Space.permits, hcalls, hgranted]
  rfl

/-- Where the kernel may not store, the file is not loaded. -/
theorem Executable.mayWrite (hexe : Executable content) (hcalls : d.calls = loadCalls content)
    (h : run (Space.step wp) Space.empty (loadEvents content) = .ok d) : LoaderMayWrite wp content := by
  obtain ⟨-, hstored⟩ := Space.permits_of_run h
  rintro ph hph x ⟨hlow, hhigh⟩ c hc
  have hfits := hexe.fits hph
  have hmem : .store false (UInt32.ofNat x) (content.getD (ph.offset + (x - ph.vaddr)) 0) ∈
      loadEvents content := by
    refine List.mem_append_left _ (List.mem_flatMap.mpr ⟨ph, hph, List.mem_cons_of_mem _ ?_⟩)
    refine List.mem_map.mpr ⟨x - ph.vaddr, List.mem_range.mpr (by omega), ?_⟩
    rw [Nat.add_sub_cancel' hlow]
  have hpermits := hstored _ _ _ hmem
  rw [UInt32.toNat_ofNat_of_lt' (show x < 4294967296 by omega), Space.permits, hcalls, hc] at hpermits
  exact hpermits

/-! ## Through the page tables -/

/-- **An executable is loaded through the page tables.** Take one of at most 14336 pages with the stack; as
    in any `Executable`, no segment straddles pages. On the tables that `initialise_paging` leaves, in
    memory that is zero where words 128 to 511 of the bitmap are put and with pages of the heap for tables
    that are apart, the loader stops at a page fault if and only if there is a page that it may not store
    to, and otherwise only for want of a page for a table. When it is done, the program reads the bytes of
    its segments where the program headers say and may write to its stack, the first 8 MB keep every byte,
    and the loader on flat memory leaves the same tables and the same bytes. -/
theorem load_paged {frames : Nat → Nat} {heap : List Nat} {s : Paging}
    (hmem : ∀ i, 128 ≤ i → i < 512 → frames i = 0) (hapart : heap.Pairwise Apart)
    (hheap : ∀ a ∈ heap, HeapPage a) (hboot : initialisePaging frames (fun _ => Page.zero) heap = .ok s)
    (physical : Mem) (wp : Bool) (hexe : Executable content)
    (hroom : (fileRequests content).length ≤ 14336) :
    (∃ m, run Mmu.step (Mmu.boot s physical wp) (loadEvents content) = .ok m ∧ LoaderMayWrite wp content ∧
      (∀ ph ∈ fileSegments content, ∀ k < ph.filesz,
        m.load true (ph.vaddr + k) = .ok (content.getD (ph.offset + k) 0)) ∧
      (∀ a : UInt32, a.toNat < 0x2000 → ∀ v, ∃ m', m.step (.store true a v) = .ok m') ∧
      (∀ x < 0x800000, m.physical x = physical x) ∧
      ∀ mem addr, HoldsAt mem (fileMem content) addr content.length → 0xc0000000 ≤ addr →
        addr + content.length ≤ 4294967296 →
        ∃ t, loadImage ⟨s, mem, []⟩ addr s.kernelDirectory =
            .ok (⟨(elfHeader (fileMem content) 0).entry, 0x2000⟩, t) ∧
          t.paging = m.paging ∧ ∀ ph ∈ fileSegments content, ∀ k < ph.filesz,
            m.load true (ph.vaddr + k) = .ok (t.mem (ph.vaddr + k))) ∨
    (run Mmu.step (Mmu.boot s physical wp) (loadEvents content) = .error memoryFault ∧
      ¬ LoaderMayWrite wp content) ∨
    run Mmu.step (Mmu.boot s physical wp) (loadEvents content) = .error outOfHeap := by
  obtain ⟨hs, htables⟩ := initialisePaging_tables hmem hapart hheap hboot
  have hinit : Realises (Mmu.boot s physical wp) (Mmu.boot s physical wp) Space.empty := Realises.init htables
  have hroom' : ((Space.empty.calls ++ (loadEvents content).flatMap MemoryEvent.calls).flatMap
      AllocateCall.requests).length ≤ 14336 := by
    rw [loadEvents_calls]
    show ((loadCalls content).flatMap AllocateCall.requests).length ≤ 14336
    rw [loadCalls_requests]
    exact hroom
  rcases hinit.run hs hexe.clear hroom' with ⟨m, d, hm, hd, h, -, hcalls⟩ | ⟨hfault, hd⟩ | hfull
  · left
    rw [loadEvents_calls] at hcalls
    have hcalls' : d.calls = loadCalls content := hcalls
    have hwrite : LoaderMayWrite wp content := hexe.mayWrite hcalls' hd
    obtain ⟨d', hd', -, hbytes⟩ := hexe.run_loadEvents hwrite
    obtain rfl := Except.ok.inj (hd.symm.trans hd')
    have hloads : ∀ ph ∈ fileSegments content, ∀ k < ph.filesz,
        m.load true (ph.vaddr + k) = .ok (content.getD (ph.offset + k) 0) := by
      intro ph hph k hk
      have hin : ph.InFile (ph.vaddr + k) := ⟨Nat.le_add_right _ _, Nat.add_lt_add_left hk _⟩
      have hpage : ph.Maps (ph.vaddr + k) := hexe.maps hph hin
      rw [h.load (fun a => (m.place a).elim 0 physical) hs (fun a x hx => by rw [hx]; rfl) (Or.inr rfl),
        Space.load, permits_loaded hcalls', if_pos rfl, hbytes ph hph k hk]
      · rfl
      · refine ⟨segmentCall ph, List.mem_append_left _ (List.mem_map_of_mem hph), ?_⟩
        rw [segmentCall_pages hph]
        exact hpage
    refine ⟨m, hm, hwrite, hloads, ?_, fun x hx => h.low hx, ?_⟩
    · intro a ha v
      rcases h.store hs (a := a) (v := v) (Or.inr rfl) with ⟨m', -, hm', -⟩ | ⟨-, hfault⟩
      · exact ⟨m', hm'⟩
      · unfold Space.step at hfault
        dsimp only at hfault
        rw [hexe.permits_stack hcalls' ha, if_pos rfl] at hfault
        cases hfault
    · intro mem addr hholds hkernel hfits
      have hmap : run (mapPage s.kernelDirectory) s (fileRequests content) = .ok m.paging := by
        have hpaging := h.paging
        rw [runAllocate_eq, hcalls', loadCalls_requests] at hpaging
        exact hpaging
      obtain ⟨t, ht, hpaging, hfile⟩ :=
        loadImage_file (s := ⟨s, mem, []⟩) hexe hholds hkernel hfits hmap
      refine ⟨t, ht, hpaging, ?_⟩
      intro ph hph k hk
      rw [hloads ph hph k hk]
      have hbyte := hfile.bytes ph hph k hk
      rw [List.getD_eq_getElem?_getD, ← hbyte]
      rfl
  · refine Or.inr (Or.inl ⟨hfault, fun hwrite => ?_⟩)
    obtain ⟨d', hd', -⟩ := hexe.run_loadEvents hwrite
    cases hd.symm.trans hd'
  · exact Or.inr (Or.inr hfull)

/-- The code of `callElf` is read-only: it can be loaded when `wp` is clear. -/
theorem load_paged_call :
    ∃ s, initialisePaging (fun _ => 0) (fun _ => Page.zero) [0xd0001000] = .ok s ∧
      (∃ m, run Mmu.step (Mmu.boot s (fun _ => 0) false) (loadEvents callElf) = .ok m ∧
        m.load true 0x2000 = .ok 0xcd) ∧
      ¬ ∃ m, run Mmu.step (Mmu.boot s (fun _ => 0) true) (loadEvents callElf) = .ok m := by
  obtain ⟨s, hs, -⟩ := initialisePaging_spec (fun _ => 0) (fun _ => Page.zero) [0xd0001000]
  have hsegments : fileSegments callElf = [⟨1, 84, 0x2000, 3, 3, 5⟩] := by decide +kernel
  have hload := fun wp => load_paged (fun _ _ _ => rfl) (List.pairwise_singleton ..) (by simp [HeapPage]) hs
    (fun _ => 0) wp callElf_executable (by decide +kernel)
  refine ⟨s, hs, ?_, ?_⟩
  · rcases hload false with ⟨m, hm, -, hbytes, -⟩ | ⟨-, hnot⟩ | hfull
    · have hph : (⟨1, 84, 0x2000, 3, 3, 5⟩ : ProgramHeader) ∈ fileSegments callElf := by
        rw [hsegments]
        exact List.mem_singleton_self _
      exact ⟨m, hm, hbytes _ hph 0 (by decide)⟩
    · exact absurd (loaderMayWrite_clear callElf) hnot
    · have hok : ((initialisePaging (fun _ => 0) (fun _ => Page.zero) [0xd0001000]).toOption.bind fun s =>
          (run Mmu.step (Mmu.boot s (fun _ => 0) false) (loadEvents callElf)).toOption).isSome = true := by
        decide +kernel
      obtain ⟨m, hm⟩ := Option.isSome_iff_exists.mp hok
      rw [hs] at hm
      cases hfull.symm.trans (toOption_eq_some.mp hm)
  · rintro ⟨m, hm⟩
    rcases hload true with ⟨-, -, hwrite, -⟩ | ⟨hfault, -⟩ | hfull
    · have hcalls : loadCalls callElf = [⟨0x2000, 3, 0, 0⟩, stackCall] := by
        unfold loadCalls
        rw [hsegments]
        rfl
      have hdenied := hwrite ⟨1, 84, 0x2000, 3, 3, 5⟩ (hsegments ▸ List.mem_singleton_self _) 0x2000
        ⟨by decide, by decide⟩ ⟨0x2000, 3, 0, 0⟩ (by rw [hcalls]; decide)
      cases hdenied
    · cases hm.symm.trans hfault
    · cases hm.symm.trans hfull

end WeirdOs
