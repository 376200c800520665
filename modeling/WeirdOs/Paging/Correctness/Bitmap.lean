import WeirdOs.Paging.Correctness.Frames
import Mathlib.Data.Finset.Card
import Mathlib.Order.Interval.Finset.Nat

/-!
# `Paging.Correctness.Bitmap` — taking frames, giving them back, and running out of them

Three things about `alloc_frame` that its callers do not see.

* **Units.** `set_frame` gets the address of a frame, `clear_frame` its number. The frame that
  `free_frame` gives back is not the one that was taken (`allocFrame_freeFrame`).
* **The end.** `first_frame` returns 0 when it finds nothing, `alloc_frame` tests for `-1`. A full bitmap
  goes unnoticed (`allocFrame_full`).
* **The words.** The bitmap gets as many bytes as it should have words. The words in use stay inside those
  bytes for the first 2048 frames taken, and leave them with the next one (`bitmap_words_iff`).
-/

namespace WeirdOs

open Lib

variable {s s' : Paging} {p k w : Nat}

/-! ## Taking a frame -/

/-- `clear_frame` clears the bit of the frame that its argument is an address in. -/
theorem clearFrame_eq (frames : Nat → Nat) (frameAddr : Nat) :
    clearFrame frames frameAddr = clearAt 32 frames (frameAddr / 0x1000) := rfl

/-- `first_frame` finds a clear bit among those it searches, or returns 0. -/
theorem firstFrame_cases (frames : Nat → Nat) (nframes : Nat) :
    (firstClear 32 frames (indexFromBit nframes) = some (firstFrame frames nframes) ∧
      testAt 32 frames (firstFrame frames nframes) = false ∧ firstFrame frames nframes < nframes) ∨
    ((∀ f < indexFromBit nframes * 32, testAt 32 frames f = true) ∧ firstFrame frames nframes = 0) := by
  rw [firstFrame_eq]
  cases hfind : firstClear 32 frames (indexFromBit nframes) with
  | none => exact Or.inr ⟨firstClear_eq_none.mp hfind, rfl⟩
  | some f =>
      obtain ⟨hclear, hlt⟩ := firstClear_clear hfind
      unfold indexFromBit at hlt
      exact Or.inl ⟨rfl, hclear, show f < nframes by omega⟩

/-- Frame `f` is taken for the entry `p`. -/
def Paging.take (s : Paging) (p k w f : Nat) : Paging :=
  { s with
    frames := setAt 32 s.frames f
    pages := Function.update s.pages p
      { present := 1
        rw := if w ≠ 0 then 1 else 0
        user := if k ≠ 0 then 0 else 1
        frame := f } }

@[simp] theorem Paging.take_frames (f : Nat) : (s.take p k w f).frames = setAt 32 s.frames f := rfl

@[simp] theorem Paging.take_nframes (f : Nat) : (s.take p k w f).nframes = s.nframes := rfl

theorem Paging.take_pages (f : Nat) : (s.take p k w f).pages p =
    ⟨1, if w ≠ 0 then 1 else 0, if k ≠ 0 then 0 else 1, f⟩ := Function.update_self ..

theorem Paging.take_pages_of_ne {q : Nat} (f : Nat) (h : q ≠ p) :
    (s.take p k w f).pages q = s.pages q := Function.update_of_ne h ..

/-- Frame numbers of a bitmap for at most 4 GB fit into an entry. -/
theorem firstFrame_lt {frames : Nat → Nat} {nframes : Nat} (hn : nframes ≤ 0x100000) :
    firstFrame frames nframes < 0x100000 := by
  rcases firstFrame_cases frames nframes with ⟨-, -, hlt⟩ | ⟨-, hnone⟩ <;> omega

/-- The numbers of the frames that `first_frame` searches and finds clear. -/
def unusedFrames (frames : Nat → Nat) (nframes : Nat) : Set Nat :=
  {f | f < 32 * (nframes / 32) ∧ testAt 32 frames f = false}

/-- **`first_frame` returns the least clear frame**, when there is one. -/
theorem firstFrame_isLeast {frames : Nat → Nat} {nframes f : Nat} (hf : f ∈ unusedFrames frames nframes) :
    IsLeast (unusedFrames frames nframes) (firstFrame frames nframes) := by
  obtain ⟨hlt, hclear⟩ := hf
  rcases firstFrame_cases frames nframes with ⟨hfind, hfirst, -⟩ | ⟨hfull, -⟩
  · have hbelow := (firstClear_clear hfind).2
    unfold indexFromBit at hbelow
    refine ⟨⟨by omega, hfirst⟩, ?_⟩
    rintro g ⟨-, hg⟩
    apply Nat.le_of_not_lt
    intro hless
    rw [firstClear_least hfind hless] at hg
    cases hg
  · rw [hfull f (by unfold indexFromBit; omega)] at hclear
    cases hclear

/-- **`first_frame` and `set_frame` go through the clear frames upwards.** When a frame is clear,
    `first_frame` returns the least one, `set_frame` of its address changes its bit and no other, and the
    next `first_frame` returns a larger one, or no frame is clear any more. -/
theorem firstFrame_setFrame {frames : Nat → Nat} {nframes : Nat} (hn : nframes ≤ 0x100000)
    (hclear : (unusedFrames frames nframes).Nonempty) :
    let idx := firstFrame frames nframes
    let frames' := setFrame frames (word (idx * 0x1000))
    IsLeast (unusedFrames frames nframes) idx ∧
    (∀ g, testAt 32 frames' g ≠ testAt 32 frames g ↔ g = idx) ∧
    (idx < firstFrame frames' nframes ∨ unusedFrames frames' nframes = ∅) := by
  intro idx frames'
  obtain ⟨f, hf⟩ := hclear
  have hleast : IsLeast (unusedFrames frames nframes) idx := firstFrame_isLeast hf
  have hset : ∀ g, testAt 32 frames' g = (decide (g = idx) || testAt 32 frames g) := by
    intro g
    rw [show frames' = setAt 32 frames idx from setFrame_eq frames (firstFrame_lt hn), testAt_setAt]
  have hbit : testAt 32 frames idx = false := hleast.1.2
  refine ⟨hleast, ?_, ?_⟩
  · intro g
    rw [hset]
    by_cases hg : g = idx
    · simp [hg, hbit]
    · simp [hg]
  · rcases Set.eq_empty_or_nonempty (unusedFrames frames' nframes) with hnone | ⟨g, hg⟩
    · exact Or.inr hnone
    · left
      obtain ⟨hnext, hnextclear⟩ := (firstFrame_isLeast hg).1
      rw [hset, Bool.or_eq_false_iff, decide_eq_false_iff_not] at hnextclear
      have hle : idx ≤ firstFrame frames' nframes := hleast.2 ⟨hnext, hnextclear.2⟩
      omega

/-- Two words, all ones but for the bits 40 and 50. -/
theorem firstFrame_setFrame_two :
    let frames := fun i => if i = 1 then 0xfffbfeff else 0xffffffff
    IsLeast (unusedFrames frames 64) (firstFrame frames 64) ∧ firstFrame frames 64 = 40 ∧
      firstFrame (setFrame frames (word (40 * 0x1000))) 64 = 50 := by
  intro frames
  have hclear : (unusedFrames frames 64).Nonempty := ⟨40, by decide, by decide⟩
  exact ⟨(firstFrame_setFrame (by decide) hclear).1, by decide +kernel, by decide +kernel⟩

/-- **`alloc_frame`** of an entry without a frame takes what `first_frame` returns, whatever that is. -/
theorem allocFrame_of_zero (hlt : firstFrame s.frames s.nframes < 0x100000)
    (hzero : (s.pages p).frame = 0) :
    allocFrame s p k w = .ok (s.take p k w (firstFrame s.frames s.nframes)) := by
  have hidx : firstFrame s.frames s.nframes ≠ 0xffffffff := by omega
  rw [allocFrame, if_neg (not_not_intro hzero)]
  simp only [hidx, ne_eq, not_false_eq_true, decide_true, assert_true, ok_bind, pure_eq_ok]
  rw [setFrame_eq _ hlt, Nat.mod_eq_of_lt hlt]
  rfl

/-! ## Giving a frame back -/

/-- **What `free_frame` does** to an entry that `alloc_frame` gave frame `f`: the entry stays present, the
    bit of `f` stays set, and the bit that is cleared instead is `f / 0x1000`. -/
theorem freeFrame_taken {f rw' user : Nat} (hpage : s.pages p = ⟨1, rw', user, f⟩)
    (htaken : testAt 32 s.frames f = true) :
    (freeFrame s p).pages p = ⟨1, rw', user, 0⟩ ∧ testAt 32 (freeFrame s p).frames f = true ∧
      (f ≠ 0 → testAt 32 (freeFrame s p).frames (f / 0x1000) = false) := by
  unfold freeFrame
  simp only [hpage]
  by_cases hf : f = 0
  · rw [if_pos hf, hpage, hf]
    exact ⟨rfl, hf ▸ htaken, fun h => absurd rfl h⟩
  · have hother : f ≠ f / 0x1000 := by omega
    rw [if_neg hf, clearFrame_eq]
    refine ⟨Function.update_self .., ?_, ?_⟩
    · rw [testAt_clearAt (by decide), decide_eq_false hother, htaken]
      rfl
    · intro _
      rw [testAt_clearAt (by decide), decide_eq_true rfl]
      rfl

/-- **No frame is ever given back.** When `alloc_frame` takes a frame for an entry and `free_frame` is
    called on the entry: the bit of the frame, clear before, is set; another bit is cleared, for a frame
    below `0x1000` that of frame 0; and the entry is still present. -/
theorem allocFrame_freeFrame (hn : s.nframes ≤ 0x100000) (hzero : (s.pages p).frame = 0)
    (hclear : ∃ f < indexFromBit s.nframes * 32, testAt 32 s.frames f = false) :
    ∃ s', allocFrame s p k w = .ok s' ∧
      ¬ ((freeFrame s' p).frames = s.frames ∧ ((freeFrame s' p).pages p).present = 0) ∧
      ((freeFrame s' p).pages p).present = 1 ∧
      testAt 32 s.frames (firstFrame s.frames s.nframes) = false ∧
      testAt 32 (freeFrame s' p).frames (firstFrame s.frames s.nframes) = true ∧
      (firstFrame s.frames s.nframes ≠ 0 →
        testAt 32 (freeFrame s' p).frames (firstFrame s.frames s.nframes / 0x1000) = false) := by
  obtain ⟨g, hg, hgclear⟩ := hclear
  rcases firstFrame_cases s.frames s.nframes with ⟨-, hfirst, -⟩ | ⟨hfull, -⟩
  · refine ⟨_, allocFrame_of_zero (firstFrame_lt hn) hzero, ?_⟩
    obtain ⟨hpage, hset, hcleared⟩ := freeFrame_taken
      (s.take_pages (p := p) (k := k) (w := w) (firstFrame s.frames s.nframes))
      (by rw [Paging.take_frames, testAt_setAt, decide_eq_true rfl]; rfl)
    have hpresent := congrArg Page.present hpage
    refine ⟨?_, hpresent, hfirst, hset, hcleared⟩
    intro h
    rw [hpresent] at h
    cases h.2
  · rw [hfull g hg] at hgclear
    cases hgclear

/-- The first frame ever taken is not given back. -/
theorem allocFrame_freeFrame_first :
    ∃ s s', initialisePaging (fun _ => 0) (fun _ => Page.zero) [] = .ok s ∧ allocFrame s 0 0 1 = .ok s' ∧
      ¬ ((freeFrame s' 0).frames = s.frames ∧ ((freeFrame s' 0).pages 0).present = 0) := by
  obtain ⟨s, hs, hn, hpages, -, -, hbits⟩ := initialisePaging_spec (fun _ => 0) (fun _ => Page.zero) []
  have hclear : testAt 32 s.frames 2048 = false := hbits (fun _ _ _ => rfl) 2048 (by decide)
  obtain ⟨s', hs', hnot, -⟩ := allocFrame_freeFrame (s := s) (p := 0) (k := 0) (w := 1) (by rw [hn]; decide)
    (by rw [hpages]; rfl) ⟨2048, by rw [hn]; decide, hclear⟩
  exact ⟨s, s', hs, hs', hnot⟩

/-- **A reserved frame becomes available** instead of the one that was taken: frame 0 for frame 2048. -/
theorem freeFrame_reserved :
    ∃ s s', initialisePaging (fun _ => 0) (fun _ => Page.zero) [] = .ok s ∧
      testAt 32 s.frames 2048 = false ∧ (s.pages 0).frame = 0 ∧ allocFrame s 0 0 1 = .ok s' ∧
      testAt 32 s.frames 0 = true ∧ testAt 32 (freeFrame s' 0).frames 0 = false ∧
      testAt 32 (freeFrame s' 0).frames 2048 = true ∧ ((freeFrame s' 0).pages 0).present = 1 := by
  have hrun : ((initialisePaging (fun _ => 0) (fun _ => Page.zero) []).toOption.bind fun s =>
      (allocFrame s 0 0 1).toOption.map fun s' =>
        (testAt 32 s.frames 2048, (s.pages 0).frame, testAt 32 s.frames 0,
          testAt 32 (freeFrame s' 0).frames 0, testAt 32 (freeFrame s' 0).frames 2048,
          ((freeFrame s' 0).pages 0).present)) = some (false, 0, true, false, true, 1) := by
    decide +kernel
  obtain ⟨s, hs, hrest⟩ := Option.bind_eq_some_iff.mp hrun
  obtain ⟨s', hs', hvalues⟩ := Option.map_eq_some_iff.mp hrest
  simp only [Prod.mk.injEq] at hvalues
  obtain ⟨h1, h2, h3, h4, h5, h6⟩ := hvalues
  exact ⟨s, s', toOption_eq_some.mp hs, h1, h2, toOption_eq_some.mp hs', h3, h4, h5, h6⟩

/-! ## Running out -/

/-- **A full bitmap goes unnoticed.** When every bit that `first_frame` searches is set, `alloc_frame`
    returns for every entry without a frame: the assertion does not fail, the entry is present with frame
    0, whose bit was set. -/
theorem allocFrame_full (hfull : ∀ f < indexFromBit s.nframes * 32, testAt 32 s.frames f = true)
    (hzero : (s.pages p).frame = 0) :
    ∃ s', allocFrame s p k w = .ok s' ∧ (s'.pages p).present = 1 ∧ (s'.pages p).frame = 0 ∧
      (0 < indexFromBit s.nframes → testAt 32 s.frames 0 = true ∧ s'.frames = s.frames) := by
  have hfirst : firstFrame s.frames s.nframes = 0 := by
    rcases firstFrame_cases s.frames s.nframes with ⟨hfound, -, -⟩ | ⟨-, hnone⟩
    · rw [firstClear_eq_none.mpr hfull] at hfound
      cases hfound
    · exact hnone
  refine ⟨_, allocFrame_of_zero (hfirst ▸ by decide) hzero, ?_⟩
  rw [hfirst, Paging.take_pages]
  refine ⟨rfl, rfl, ?_⟩
  intro hsome
  have hbit := hfull 0 (by omega)
  exact ⟨hbit, setAt_of_testAt hbit⟩

/-- A bitmap without a clear bit. -/
def fullPaging : Paging where
  frames := fun _ => 0xffffffff
  nframes := 0x4000
  pages := fun _ => Page.zero
  dirs := fun _ => PageDirectory.zero
  kernelDirectory := 0
  kheap := none
  placementAddress := 0

theorem fullPaging_full {n f : Nat} (_ : f < n) : testAt 32 fullPaging.frames f = true := by
  show (2 ^ 32 - 1).testBit (f % 32) = true
  rw [Nat.testBit_two_pow_sub_one]
  exact decide_eq_true (Nat.mod_lt f (by decide))

/-- The next entry after the last frame. -/
theorem allocFrame_full_next : ∃ s', allocFrame fullPaging 0 0 1 = .ok s' ∧
    (s'.pages 0).present = 1 ∧ (s'.pages 0).frame = 0 ∧ (0 < indexFromBit fullPaging.nframes →
      testAt 32 fullPaging.frames 0 = true ∧ s'.frames = fullPaging.frames) :=
  allocFrame_full (fun _ => fullPaging_full) rfl

/-- **Frame 0 is handed out** when there is none left. -/
theorem allocFrame_zero_frame :
    (∀ f < indexFromBit fullPaging.nframes * 32, testAt 32 fullPaging.frames f = true) ∧
      (fullPaging.pages 0).frame = 0 ∧
      (allocFrame fullPaging 0 0 1).toOption.map (fun s' => s'.pages 0) = some ⟨1, 1, 1, 0⟩ :=
  ⟨fun _ => fullPaging_full, rfl, by decide +kernel⟩

/-! ## The words of the bitmap -/

/-- The bytes `initialise_paging` gets from `kmalloc` for the bitmap, and zeroes. -/
def bitmapBytes : Nat := indexFromBit (0x4000000 / 0x1000)

/-- Word `i` of the bitmap lies in these bytes. -/
def WordInside (i : Nat) : Prop := 4 * i + 4 ≤ bitmapBytes

/-- The words that the loop which locks the low pages writes. -/
def lockedWords : List Nat := List.range (indexFromBit 0x800)

/-- The words that `first_frame` reads. -/
def firstFrameWords (frames : Nat → Nat) (nframes : Nat) : List Nat :=
  searched 32 frames (indexFromBit nframes)

/-- The words that `alloc_frame` reads and writes: those of `first_frame`, and that of `set_frame`. -/
def allocFrameWords (s : Paging) (page : Nat) : List Nat :=
  if (s.pages page).frame ≠ 0 then []
  else firstFrameWords s.frames s.nframes ++
    [indexFromBit (word (firstFrame s.frames s.nframes * 0x1000) / 0x1000)]

/-- One call of `alloc_frame`: on an entry, or on the entry of a page as `allocate` makes it. -/
inductive FrameStep where
  | alloc (page isKernel isWriteable : Nat)
  | map (dir : Nat) (r : PageRequest)

def frameStep (s : Paging) : FrameStep → Exec Paging
  | .alloc page isKernel isWriteable => allocFrame s page isKernel isWriteable
  | .map dir r => mapPage dir s r

/-- With which entry, and in which state, a step gets to `alloc_frame`. -/
def FrameStep.entry (s : Paging) : FrameStep → Option (Nat × Paging)
  | .alloc page _ _ => some (page, s)
  | .map dir r =>
    match getPage s r.address true dir with
    | .ok (some page, s) => some (page, s)
    | _ => none

/-- The words that a step reads and writes. -/
def FrameStep.words (s : Paging) (o : FrameStep) : List Nat :=
  match o.entry s with
  | some (page, s) => allocFrameWords s page
  | none => []

/-- The frames that a step takes: none, if the entry has one already. -/
def FrameStep.taken (s : Paging) (o : FrameStep) : List Nat :=
  match o.entry s with
  | some (page, s) => if (s.pages page).frame ≠ 0 then [] else [firstFrame s.frames s.nframes]
  | none => []

/-- A call of `alloc_frame` or of `page_allocator::allocate`. -/
inductive FrameCall where
  | allocFrame (page isKernel isWriteable : Nat)
  | allocate (directory : Nat) (call : AllocateCall)

def frameCall (s : Paging) : FrameCall → Exec Paging
  | .allocFrame page isKernel isWriteable => WeirdOs.allocFrame s page isKernel isWriteable
  | .allocate dir c =>
    WeirdOs.allocate s dir c.virtAddr.toNat c.size.toNat c.isKernel.toNat c.isWritable.toNat

def FrameCall.steps : FrameCall → List FrameStep
  | .allocFrame page isKernel isWriteable => [.alloc page isKernel isWriteable]
  | .allocate dir c => c.requests.map (.map dir)

/-- A run of calls is a run of their steps. -/
theorem run_frameCall (s : Paging) (calls : List FrameCall) :
    run frameCall s calls = run frameStep s (calls.flatMap FrameCall.steps) := by
  apply run_flatMap
  intro s call
  cases call with
  | allocFrame page k w =>
      show WeirdOs.allocFrame s page k w = WeirdOs.allocFrame s page k w >>= fun t => .ok t
      cases WeirdOs.allocFrame s page k w <;> rfl
  | allocate dir c =>
      apply (allocate_eq c.virtAddr.toNat_lt c.size.toNat_lt s).trans
      show run (mapPage dir) s c.requests = run frameStep s (c.requests.map (FrameStep.map dir))
      apply run_map
      intro s r
      rfl

theorem wordInside_iff {i : Nat} : WordInside i ↔ i < 128 := by
  show 4 * i + 4 ≤ 512 ↔ i < 128
  omega

/-- The first clear frame is among the first 4096 if one of them is clear. -/
theorem firstFrame_low {frames : Nat → Nat} (h : ∃ f < 4096, testAt 32 frames f = false) :
    testAt 32 frames (firstFrame frames 0x4000) = false ∧ firstFrame frames 0x4000 < 4096 := by
  obtain ⟨f, hf, hclear⟩ := h
  obtain ⟨g, hg⟩ := firstClear_isSome (w := 32) (n := 128) hf hclear
  have hfirst : firstClear 32 frames (indexFromBit 0x4000) = some g := firstClear_mono (by decide) hg
  rw [firstFrame_eq, hfirst]
  exact firstClear_clear hg

/-- **Where the words of `alloc_frame` are**: inside the bytes of the bitmap exactly when one of the frames
    that these bytes have a bit for is clear. -/
theorem allocFrameWords_inside (hn : s.nframes = 0x4000) (hzero : (s.pages p).frame = 0) :
    (∀ i ∈ allocFrameWords s p, WordInside i) ↔ ∃ f < 4096, testAt 32 s.frames f = false := by
  rw [allocFrameWords, if_neg (not_not_intro hzero), hn]
  simp only [List.forall_mem_append, List.forall_mem_singleton, wordInside_iff]
  rw [firstFrameWords, searched_lt_iff]
  constructor
  · rintro ⟨hle | hclear, -⟩
    · exact absurd hle (by decide)
    · exact hclear
  · intro hclear
    refine ⟨Or.inr hclear, ?_⟩
    have hlow := (firstFrame_low hclear).2
    rw [word_of_lt (by omega), Nat.mul_div_cancel _ (by decide)]
    exact Nat.div_lt_of_lt_mul hlow

/-! ## Steps -/

variable {o : FrameStep}

/-- A step that gets to `alloc_frame` is a call of it, with the bitmap as it was. -/
theorem frameStep_of_entry {t : Paging} (h : o.entry s = some (p, t)) :
    t.frames = s.frames ∧ t.nframes = s.nframes ∧ ∃ k w, frameStep s o = allocFrame t p k w := by
  cases o with
  | alloc page k w =>
      cases h
      exact ⟨rfl, rfl, k, w, rfl⟩
  | map dir r =>
      rw [FrameStep.entry] at h
      split at h
      · rename_i page u hget
        cases h
        obtain ⟨hframes, hnframes⟩ := getPage_frames hget
        refine ⟨hframes, hnframes, r.isKernel, r.isWritable, ?_⟩
        rw [frameStep, mapPage, hget]
        rfl
      · cases h

/-- Any other step fails. -/
theorem frameStep_of_none (h : o.entry s = none) : ∃ e, frameStep s o = .error e := by
  cases o with
  | alloc page k w => cases h
  | map dir r =>
      cases hget : getPage s r.address true dir with
      | error e => exact ⟨e, by rw [frameStep, mapPage, hget]; rfl⟩
      | ok found =>
          obtain ⟨page, t⟩ := found
          cases page with
          | none => exact ⟨.null "page", by rw [frameStep, mapPage, hget]; rfl⟩
          | some page =>
              rw [FrameStep.entry, hget] at h
              cases h

/-- **What a step does to the bitmap.** Either it neither touches nor changes it, or it takes the first
    clear frame: it stays inside the bitmap if that frame is among the first 4096, and returns. -/
theorem frameStep_cases (hn : s.nframes = 0x4000) (o : FrameStep) :
    (o.words s = [] ∧ o.taken s = [] ∧
      ∀ t, frameStep s o = .ok t → t.frames = s.frames ∧ t.nframes = s.nframes) ∨
    (((∀ i ∈ o.words s, WordInside i) ↔ ∃ f < 4096, testAt 32 s.frames f = false) ∧
      o.taken s = [firstFrame s.frames 0x4000] ∧
      ∃ t, frameStep s o = .ok t ∧ t.frames = setAt 32 s.frames (firstFrame s.frames 0x4000) ∧
        t.nframes = s.nframes) := by
  unfold FrameStep.words FrameStep.taken
  cases hentry : o.entry s with
  | none =>
      obtain ⟨e, herror⟩ := frameStep_of_none hentry
      refine Or.inl ⟨rfl, rfl, ?_⟩
      intro t ht
      rw [herror] at ht
      cases ht
  | some found =>
      obtain ⟨p, u⟩ := found
      obtain ⟨hframes, hnframes, k, w, hstep⟩ := frameStep_of_entry hentry
      have hn' : u.nframes = 0x4000 := hnframes.trans hn
      rw [← hframes, ← hnframes]
      dsimp only
      by_cases hzero : (u.pages p).frame = 0
      · right
        rw [if_neg (not_not_intro hzero), ← hn']
        exact ⟨allocFrameWords_inside hn' hzero, rfl, _,
          hstep.trans (allocFrame_of_zero (firstFrame_lt (by omega)) hzero), rfl, rfl⟩
      · left
        rw [allocFrameWords, if_pos hzero, if_pos hzero]
        refine ⟨rfl, rfl, ?_⟩
        intro t ht
        rw [hstep] at ht
        rcases allocFrame_cases ht with ⟨-, rfl⟩ | ⟨h, -⟩
        · exact ⟨rfl, rfl⟩
        · exact absurd h hzero

/-- The size of the bitmap is fixed. -/
theorem frameStep_nframes {t : Paging} (hn : s.nframes = 0x4000) (hstep : frameStep s o = .ok t) :
    t.nframes = 0x4000 := by
  rcases frameStep_cases hn o with ⟨-, -, hsame⟩ | ⟨-, -, u, hu, -, hnframes⟩
  · exact (hsame t hstep).2.trans hn
  · obtain rfl := Except.ok.inj (hstep.symm.trans hu)
    exact hnframes.trans hn

/-! ## Runs -/

/-- The clear bits among the first `n`. -/
def clearBelow (n : Nat) (s : Paging) : Finset Nat :=
  (Finset.range n).filter fun f => testAt 32 s.frames f = false

theorem mem_clearBelow {n f : Nat} : f ∈ clearBelow n s ↔ f < n ∧ testAt 32 s.frames f = false := by
  rw [clearBelow, Finset.mem_filter, Finset.mem_range]

theorem clearBelow_nonempty {n : Nat} :
    (∃ f < n, testAt 32 s.frames f = false) ↔ 0 < (clearBelow n s).card := by
  rw [Finset.card_pos]
  constructor
  · rintro ⟨f, hf, hclear⟩
    exact ⟨f, mem_clearBelow.mpr ⟨hf, hclear⟩⟩
  · rintro ⟨f, hf⟩
    exact ⟨f, mem_clearBelow.mp hf⟩

/-- Taking a frame removes its bit. -/
theorem clearBelow_take {t : Paging} {n f : Nat} (h : t.frames = setAt 32 s.frames f) :
    clearBelow n t = (clearBelow n s).erase f := by
  ext g
  rw [Finset.mem_erase, mem_clearBelow, mem_clearBelow, h, testAt_setAt, Bool.or_eq_false_iff,
    decide_eq_false_iff_not]
  exact and_left_comm

/-- Taking the first clear frame leaves one clear bit less among the first 4096. -/
theorem lowClear_take {t : Paging} (h : t.frames = setAt 32 s.frames (firstFrame s.frames 0x4000)) :
    (clearBelow 4096 t).card = (clearBelow 4096 s).card - 1 := by
  rw [clearBelow_take h]
  by_cases hnone : ∃ f < 4096, testAt 32 s.frames f = false
  · obtain ⟨hclear, hlt⟩ := firstFrame_low hnone
    exact Finset.card_erase_of_mem (mem_clearBelow.mpr ⟨hlt, hclear⟩)
  · rw [clearBelow_nonempty, Nat.not_lt, Nat.le_zero] at hnone
    have hempty : clearBelow 4096 s = ∅ := Finset.card_eq_zero.mp hnone
    rw [hempty]
    rfl

/-- A request takes one frame at most. -/
theorem run_clearBelow {dir n : Nat} {rs : List PageRequest} (hn : s.nframes = 0x4000)
    (hrun : run (mapPage dir) s rs = .ok s') :
    (clearBelow n s).card ≤ (clearBelow n s').card + rs.length := by
  induction rs generalizing s with
  | nil =>
      cases hrun
      rw [List.length_nil, Nat.add_zero]
  | cons r rs ih =>
      obtain ⟨t, hstep, hrest⟩ := run_cons.mp hrun
      have hone : (clearBelow n s).card ≤ (clearBelow n t).card + 1 := by
        rcases frameStep_cases hn (.map dir r) with ⟨-, -, hsame⟩ | ⟨-, -, t', ht', hframes, -⟩
        · rw [clearBelow, ← (hsame t hstep).1, ← clearBelow]
          exact Nat.le_succ _
        · obtain rfl := Except.ok.inj (ht'.symm.trans hstep)
          rw [clearBelow_take hframes, ← Nat.sub_le_iff_le_add]
          exact Finset.pred_card_le_card_erase
      have hle := ih (frameStep_nframes (o := .map dir r) hn hstep) hrest
      rw [List.length_cons]
      omega

/-- **There are frames for as many requests as there are clear bits.** -/
theorem clearBefore_of_length {dir : Nat} {rs : List PageRequest} (hn : s.nframes = 0x4000)
    (hlen : rs.length ≤ (clearBelow 0x4000 s).card) : ClearBefore dir s rs := by
  intro xs r ys t hsplit ht _
  have hle := run_clearBelow (n := 0x4000) hn ht
  rw [hsplit, List.length_append, List.length_cons] at hlen
  exact clearBelow_nonempty.mpr (by omega)

/-- The words that a run reads and writes. -/
def touched (s : Paging) (steps : List FrameStep) : List Nat := trace FrameStep.words frameStep s steps

/-- The frames that a run takes. -/
def framesTaken (s : Paging) (steps : List FrameStep) : List Nat := trace FrameStep.taken frameStep s steps

/-- **A run stays inside the bitmap** exactly when it takes no more frames than there are clear bits among
    the first 4096. -/
theorem touched_inside_iff (hn : s.nframes = 0x4000) (steps : List FrameStep) :
    (∀ i ∈ touched s steps, WordInside i) ↔ (framesTaken s steps).length ≤ (clearBelow 4096 s).card := by
  unfold touched framesTaken
  induction steps generalizing s with
  | nil => simp [trace]
  | cons o os ih =>
      rcases frameStep_cases hn o with ⟨hwords, htaken, hsame⟩ | ⟨hwords, htaken, t, ht, hframes, hnframes⟩
      · cases hstep : frameStep s o with
        | error e =>
            rw [trace_error hstep, trace_error hstep, hwords, htaken]
            simp
        | ok t =>
            obtain ⟨hframes, hnframes⟩ := hsame t hstep
            rw [trace_ok hstep, trace_ok hstep, hwords, htaken, List.nil_append, List.nil_append,
              ih (hnframes.trans hn)]
            rw [clearBelow, hframes, ← clearBelow]
      · rw [trace_ok ht, trace_ok ht, List.forall_mem_append, hwords, htaken, ih (hnframes.trans hn),
          lowClear_take hframes, clearBelow_nonempty, List.singleton_append, List.length_cons]
        omega

/-- Where only the first `k` frames are taken, the others are clear. -/
theorem card_clearBelow {n k : Nat} (h : ∀ f < n, testAt 32 s.frames f = decide (f < k)) :
    (clearBelow n s).card = n - k := by
  have hbits : clearBelow n s = Finset.Ico k n := by
    ext f
    rw [mem_clearBelow, Finset.mem_Ico, and_comm]
    apply and_congr_left
    intro hf
    rw [h f hf, decide_eq_false_iff_not, Nat.not_lt]
  rw [hbits, Nat.card_Ico]

/-- After `initialise_paging` there are 2048 of them. -/
theorem lowClear_init {frames : Nat → Nat} {pages : Nat → Page} {heap : List Nat}
    (h : initialisePaging frames pages heap = .ok s) : (clearBelow 4096 s).card = 2048 := by
  have hframes := initialisePaging_frames h
  have hbits : ∀ f < 4096, testAt 32 s.frames f = decide (f < 2048) := by
    intro f hf
    exact testAt_locked (fun i hi => by rw [hframes, if_pos hi])
      (fun hhigh => by rw [hframes, if_neg (by omega), if_pos (by omega)])
  rw [card_clearBelow hbits]

/-- **Which runs stay inside the bitmap.** After `initialise_paging`, for every sequence of calls of
    `alloc_frame` and `allocate`: all the words that the locking loop, `first_frame` and `set_frame` access
    lie inside the bytes of the bitmap if and only if the calls take at most 2048 frames; in other words, if
    one of the first 4096 bits is clear whenever a frame is taken. -/
theorem bitmap_words_iff (frames : Nat → Nat) (pages : Nat → Page) (heap : List Nat) :
    ∃ s, initialisePaging frames pages heap = .ok s ∧ ∀ calls : List FrameCall,
      run frameCall s calls = run frameStep s (calls.flatMap FrameCall.steps) ∧
      ((∀ i ∈ lockedWords ++ touched s (calls.flatMap FrameCall.steps), WordInside i) ↔
        (framesTaken s (calls.flatMap FrameCall.steps)).length ≤ 2048) ∧
      ((∀ i ∈ lockedWords ++ touched s (calls.flatMap FrameCall.steps), WordInside i) ↔
        ∀ pre o t, pre ++ [o] <+: calls.flatMap FrameCall.steps → run frameStep s pre = .ok t →
          o.taken t ≠ [] → ∃ f < 4096, testAt 32 t.frames f = false) := by
  obtain ⟨s, hs, hn, -⟩ := initialisePaging_spec frames pages heap
  have hlocked : ∀ i ∈ lockedWords, WordInside i := by
    intro i hi
    have hlt : i < indexFromBit 0x800 := List.mem_range.mp hi
    rw [wordInside_iff]
    exact Nat.lt_trans hlt (by decide)
  refine ⟨s, hs, fun calls => ⟨run_frameCall s calls, ?_, ?_⟩⟩
  · rw [List.forall_mem_append, and_iff_right hlocked, touched_inside_iff hn, lowClear_init hs]
  · rw [List.forall_mem_append, and_iff_right hlocked, touched, forall_trace_iff]
    have hkeep : ∀ pre t, run frameStep s pre = .ok t → t.nframes = 0x4000 := fun pre t hrun =>
      run_invariant (fun t : Paging => t.nframes = 0x4000) (fun _ _ _ => frameStep_nframes) hn hrun
    have hstep : ∀ pre (o : FrameStep) t, run frameStep s pre = .ok t →
        ((∀ i ∈ o.words t, WordInside i) ↔
          (o.taken t ≠ [] → ∃ f < 4096, testAt 32 t.frames f = false)) := by
      intro pre o t hrun
      rcases frameStep_cases (hkeep pre t hrun) o with ⟨hwords, htaken, -⟩ | ⟨hwords, htaken, -⟩
      · rw [hwords, htaken]
        simp
      · rw [hwords, htaken]
        simp
    constructor
    · exact fun h pre o t hpre hrun => (hstep pre o t hrun).mp (h pre o t hpre hrun)
    · exact fun h pre o t hpre hrun => (hstep pre o t hrun).mpr (h pre o t hpre hrun)

/-- A run of `alloc_frame` on entries without a frame takes one for each. -/
theorem framesTaken_alloc (hn : s.nframes = 0x4000) {ps : List Nat} (hnodup : ps.Nodup)
    (hzero : ∀ p ∈ ps, (s.pages p).frame = 0) :
    (framesTaken s (ps.map fun p => .alloc p 0 1)).length = ps.length := by
  unfold framesTaken
  induction ps generalizing s with
  | nil => rfl
  | cons p ps ih =>
      obtain ⟨hnotin, hnodup'⟩ := List.nodup_cons.mp hnodup
      obtain ⟨hp, hps⟩ := List.forall_mem_cons.mp hzero
      have hstep : frameStep s (.alloc p 0 1) = .ok (s.take p 0 1 (firstFrame s.frames s.nframes)) :=
        allocFrame_of_zero (firstFrame_lt (by omega)) hp
      have htaken : (FrameStep.alloc p 0 1).taken s = [firstFrame s.frames s.nframes] :=
        if_neg (not_not_intro hp)
      rw [List.map_cons, trace_ok hstep, htaken, List.singleton_append, List.length_cons, List.length_cons]
      refine congrArg (· + 1) (ih (s := s.take p 0 1 _) hn hnodup' ?_)
      intro q hq
      have hqp : q ≠ p := by
        rintro rfl
        exact hnotin hq
      rw [Paging.take_pages_of_ne _ hqp]
      exact hps q hq

theorem steps_allocFrame (ps : List Nat) :
    (ps.map fun p => FrameCall.allocFrame p 0 1).flatMap FrameCall.steps = ps.map fun p => .alloc p 0 1 := by
  induction ps with
  | nil => rfl
  | cons p ps ih =>
      rw [List.map_cons, List.flatMap_cons, ih]
      rfl

/-- **The 2049th frame** is looked for, and marked, outside the bitmap. -/
theorem bitmap_words_outside :
    ∃ s, initialisePaging (fun _ => 0) (fun _ => Page.zero) [] = .ok s ∧
      ¬ ∀ i ∈ lockedWords ++ touched s (((List.range 2049).map fun p =>
        FrameCall.allocFrame p 0 1).flatMap FrameCall.steps), WordInside i := by
  obtain ⟨s, hs, hn, hpages, -⟩ := initialisePaging_spec (fun _ => 0) (fun _ => Page.zero) []
  refine ⟨s, hs, ?_⟩
  intro hinside
  rw [List.forall_mem_append, steps_allocFrame, touched_inside_iff hn, lowClear_init hs,
    framesTaken_alloc hn List.nodup_range (fun p _ => by rw [hpages]; rfl), List.length_range] at hinside
  exact absurd hinside.2 (by decide)

end WeirdOs
