import WeirdOs.Paging.Correctness.Table

/-!
# `Paging.Correctness.Frames` — the frame bitmap and the page entries agree

`FrameInv dir s` is what runs of `allocate` on one directory keep true: entries hold distinct frames
past the 2048 reserved ones, and the bits of the bitmap are those of the reserved and of the held
frames. What makes it inductive is `fresh`: the memory `kmalloc_ap` has still to hand out holds no
entry in use, so zeroing a new table forgets no frame.

`alloc_frame` takes frame 0 when no bit is clear, without noticing. The invariant therefore needs a
clear bit before each frame taken; `ClearBefore` says so of a whole run.
-/

namespace WeirdOs

open Lib

variable {s s' : Paging} {dir a p q : Nat}

/-! ## The bitmap -/

/-- `set_frame` of frame number `idx` sets bit `idx`. -/
theorem setFrame_eq {idx : Nat} (frames : Nat → Nat) (h : idx < 1048576) :
    setFrame frames (word (idx * 0x1000)) = setAt 32 frames idx := by
  unfold setFrame setAt indexFromBit offsetFromBit
  simp only [word_of_lt (show idx * 0x1000 < 4294967296 from by omega), Nat.mul_div_cancel _
    (show 0 < 0x1000 from by decide)]

/-- `first_frame` is the search of `Lib.Bitmap`. -/
theorem firstFrame_eq (frames : Nat → Nat) (nframes : Nat) :
    firstFrame frames nframes = (firstClear 32 frames (indexFromBit nframes)).getD 0 := rfl

/-- **`first_frame`** finds a clear bit when there is one. -/
theorem firstFrame_spec {frames : Nat → Nat} (h : ∃ f < 0x4000, testAt 32 frames f = false) :
    testAt 32 frames (firstFrame frames 0x4000) = false ∧ firstFrame frames 0x4000 < 0x4000 := by
  obtain ⟨f, hf, hclear⟩ := h
  obtain ⟨g, hg⟩ := firstClear_isSome (w := 32) (n := indexFromBit 0x4000) hf hclear
  rw [firstFrame_eq, hg]
  exact firstClear_clear hg

/-! ## The invariant -/

/-- Two page tables do not overlap. -/
def Apart (a b : Nat) : Prop := a + 0x1000 ≤ b ∨ b + 0x1000 ≤ a

/-- The memory still to be handed out: no null pointer, pieces apart from each other and from the
    tables of the directory. -/
structure Fresh (dir : Nat) (s : Paging) (heap : List Nat) : Prop where
  kheap : s.kheap = some heap
  apart : heap.Pairwise Apart
  nonnull : ∀ a ∈ heap, a ≠ 0
  tables : ∀ a ∈ heap, ∀ k, (s.dirs dir).tables k ≠ 0 → Apart a ((s.dirs dir).tables k)

/-- **The frame invariant.** -/
structure FrameInv (dir : Nat) (s : Paging) : Prop where
  nframes : s.nframes = 0x4000
  present : ∀ p, (s.pages p).present ≠ 0 → (s.pages p).frame ≠ 0
  held : ∀ p, (s.pages p).frame ≠ 0 →
    (s.pages p).present = 1 ∧ 2048 ≤ (s.pages p).frame ∧ (s.pages p).frame < 0x4000
  inj : ∀ p q, (s.pages p).frame ≠ 0 → (s.pages p).frame = (s.pages q).frame → p = q
  bits : ∀ f < 0x4000, testAt 32 s.frames f = true ↔ f < 2048 ∨ ∃ p, (s.pages p).frame = f
  fresh : ∃ heap, Fresh dir s heap ∧
    ∀ a ∈ heap, ∀ p, (s.pages p).frame ≠ 0 → p < a ∨ a + 0x1000 ≤ p

/-- The address is mapped: its entry exists, is present and holds a frame. -/
def Mapped (s : Paging) (dir a : Nat) : Prop :=
  ∃ p, entry s dir a = some p ∧ (s.pages p).present = 1 ∧ (s.pages p).frame ≠ 0

/-! ## One page -/

/-- The first piece of fresh memory becomes a table; the rest stays fresh. -/
theorem Fresh.addTable {heap : List Nat} {i table addr : Nat} (h : Fresh dir s (table :: heap)) :
    Fresh dir (addTable { s with kheap := some heap } dir i table addr) heap := by
  obtain ⟨hfirst, hrest⟩ := List.pairwise_cons.mp h.apart
  refine ⟨rfl, hrest, fun b hb => h.nonnull b (List.mem_cons_of_mem _ hb), ?_⟩
  intro b hb k hk
  rw [tables_addTable] at hk ⊢
  by_cases hki : k = i
  · rw [if_pos hki]
    exact (hfirst b hb).symm
  · rw [if_neg hki] at hk ⊢
    exact h.tables b (List.mem_cons_of_mem _ hb) k hk

/-- An entry of a table is apart from fresh memory. -/
theorem Fresh.entry_apart {heap : List Nat} {b : Nat} (h : Fresh dir s heap) (hb : b ∈ heap)
    (hentry : entry s dir a = some p) : p < b ∨ b + 0x1000 ≤ p := by
  obtain ⟨ht, rfl⟩ := entry_eq_some.mp hentry
  have hap := h.tables b hb _ ht
  unfold Apart at hap
  omega

/-- **A table in fresh memory** keeps the invariant: its entries are zero, and that memory held no frame. -/
theorem FrameInv.addTable {rest : List Nat} {table addr : Nat} (h : FrameInv dir s) (i : Nat)
    (hfresh : Fresh dir s (table :: rest))
    (hunused : ∀ b ∈ table :: rest, ∀ q, (s.pages q).frame ≠ 0 → q < b ∨ b + 0x1000 ≤ q) :
    FrameInv dir (addTable { s with kheap := some rest } dir i table addr) := by
  let u : Paging := { s with kheap := some rest }
  let t := WeirdOs.addTable u dir i table addr
  have hfree : ∀ q, (s.pages q).frame ≠ 0 → q < table ∨ table + 0x1000 ≤ q :=
    hunused table List.mem_cons_self
  have hframe : ∀ q, (t.pages q).frame = (s.pages q).frame := frame_addTable (s := u) hfree
  have hused : ∀ q, (s.pages q).frame ≠ 0 → t.pages q = s.pages q := fun q hq =>
    pages_addTable_used (s := u) hfree hq
  refine ⟨h.nframes, ?_, ?_, ?_, ?_, rest, hfresh.addTable, ?_⟩
  · intro q hq
    show (t.pages q).frame ≠ 0
    change (t.pages q).present ≠ 0 at hq
    rw [hframe]
    by_cases hin : table ≤ q ∧ q < table + 0x1000
    · have hzero : t.pages q = Page.zero := pages_addTable_new hin
      rw [hzero] at hq
      exact absurd rfl hq
    · have hsame : t.pages q = s.pages q := if_neg hin
      rw [hsame] at hq
      exact h.present q hq
  · intro q hq
    change (t.pages q).frame ≠ 0 at hq
    show (t.pages q).present = 1 ∧ 2048 ≤ (t.pages q).frame ∧ (t.pages q).frame < 0x4000
    rw [hframe] at hq
    rw [hused q hq]
    exact h.held q hq
  · intro q r hq hqr
    change (t.pages q).frame ≠ 0 at hq
    change (t.pages q).frame = (t.pages r).frame at hqr
    rw [hframe] at hq hqr
    rw [hframe] at hqr
    exact h.inj q r hq hqr
  · intro f hf
    show _ ↔ f < 2048 ∨ ∃ q, (t.pages q).frame = f
    simp only [hframe]
    exact h.bits f hf
  · intro b hb q hq
    change (t.pages q).frame ≠ 0 at hq
    rw [hframe] at hq
    exact hunused b (List.mem_cons_of_mem _ hb) q hq

/-- **Getting an entry** keeps the invariant, every frame and every entry. -/
theorem FrameInv.getPage (h : FrameInv dir s) (hget : getPage s a true dir = .ok (some p, s')) :
    FrameInv dir s' ∧ s'.frames = s.frames ∧ (∀ q, (s'.pages q).frame = (s.pages q).frame) ∧
      entry s' dir a = some p ∧ (∀ b q, entry s dir b = some q → entry s' dir b = some q) ∧
      (s'.pages p).frame = frameAt s dir a := by
  rcases getPage_cases hget with ⟨p', hp, hr, rfl⟩ | ⟨hnone, table, addr, s₁, hk, _, hr, rfl⟩
  · cases hr
    exact ⟨h, rfl, fun _ => rfl, hp, fun _ _ hb => hb, by simp [frameAt, hp]⟩
  · cases hr
    obtain ⟨heap, hfresh, hunused⟩ := h.fresh
    obtain ⟨rest, rfl, _, rfl⟩ := kmallocAp_cases hfresh.kheap hk
    have hslot : (s.dirs dir).tables (slot a) = 0 := entry_eq_none.mp hnone
    refine ⟨h.addTable (slot a) hfresh hunused, rfl,
      frame_addTable (s := { s with kheap := some rest }) (hunused table List.mem_cons_self),
      entry_addTable_self (hfresh.nonnull table List.mem_cons_self),
      fun b q hb => entry_addTable_keep hslot hb, ?_⟩
    rw [frameAt, hnone, pages_addTable_new ⟨Nat.le_add_right _ _, by omega⟩]
    rfl

/-- The frames held after one more is taken. -/
theorem exists_frame_update {pages : Nat → Page} {page : Page} {g : Nat} (hzero : (pages p).frame = 0)
    (hg : g ≠ 0) : (∃ q, (Function.update pages p page q).frame = g) ↔
      page.frame = g ∨ ∃ q, (pages q).frame = g := by
  constructor
  · rintro ⟨q, hq⟩
    by_cases hqp : q = p
    · rw [hqp, Function.update_self] at hq
      exact Or.inl hq
    · rw [Function.update_of_ne hqp] at hq
      exact Or.inr ⟨q, hq⟩
  · rintro (hnew | ⟨q, hq⟩)
    · exact ⟨p, by rw [Function.update_self, hnew]⟩
    · have hqp : q ≠ p := by
        rintro rfl
        exact hg (hq.symm.trans hzero)
      exact ⟨q, by rw [Function.update_of_ne hqp, hq]⟩

/-- **Taking a frame** that is neither reserved nor held, for an entry that has none, keeps the
    invariant. -/
theorem FrameInv.take {f : Nat} (rw' user : Nat) (h : FrameInv dir s) (hentry : entry s dir a = some p)
    (hzero : (s.pages p).frame = 0) (hbit : testAt 32 s.frames f = false) (hlt : f < 0x4000) :
    f ≠ 0 ∧ FrameInv dir { s with
      frames := setAt 32 s.frames f
      pages := Function.update s.pages p ⟨1, rw', user, f⟩ } := by
  have hfree : ¬ (f < 2048 ∨ ∃ q, (s.pages q).frame = f) := by
    intro hor
    rw [(h.bits f hlt).mpr hor] at hbit
    cases hbit
  have hf2048 : 2048 ≤ f := Nat.le_of_not_lt fun hlt' => hfree (Or.inl hlt')
  have hf0 : f ≠ 0 := Nat.ne_of_gt (Nat.lt_of_lt_of_le (by decide) hf2048)
  let pages := Function.update s.pages p ⟨1, rw', user, f⟩
  -- every field below is the entry `p` on its own, and the others by the invariant
  have hcases : ∀ q, (q = p ∧ pages q = ⟨1, rw', user, f⟩) ∨ (q ≠ p ∧ pages q = s.pages q) := by
    intro q
    by_cases hqp : q = p
    · exact Or.inl ⟨hqp, hqp ▸ Function.update_self ..⟩
    · exact Or.inr ⟨hqp, Function.update_of_ne hqp ..⟩
  obtain ⟨heap, hfresh, hunused⟩ := h.fresh
  refine ⟨hf0, ⟨h.nframes, ?_, ?_, ?_, ?_,
    heap, ⟨hfresh.kheap, hfresh.apart, hfresh.nonnull, hfresh.tables⟩, ?_⟩⟩
  · intro q hq
    change (pages q).present ≠ 0 at hq
    show (pages q).frame ≠ 0
    rcases hcases q with ⟨-, heq⟩ | ⟨-, heq⟩
    · rw [heq]
      exact hf0
    · rw [heq] at hq ⊢
      exact h.present q hq
  · intro q hq
    change (pages q).frame ≠ 0 at hq
    show (pages q).present = 1 ∧ 2048 ≤ (pages q).frame ∧ (pages q).frame < 0x4000
    rcases hcases q with ⟨-, heq⟩ | ⟨-, heq⟩
    · rw [heq]
      exact ⟨rfl, hf2048, hlt⟩
    · rw [heq] at hq ⊢
      exact h.held q hq
  · intro q r hq hqr
    change (pages q).frame ≠ 0 at hq
    change (pages q).frame = (pages r).frame at hqr
    rcases hcases q with ⟨hqp, heq⟩ | ⟨-, heq⟩ <;> rcases hcases r with ⟨hrp, heq'⟩ | ⟨-, heq'⟩
    · rw [hqp, hrp]
    · rw [heq, heq'] at hqr
      exact absurd (Or.inr ⟨r, hqr.symm⟩) hfree
    · rw [heq, heq'] at hqr
      exact absurd (Or.inr ⟨q, hqr⟩) hfree
    · rw [heq] at hq
      rw [heq, heq'] at hqr
      exact h.inj q r hq hqr
  · intro g hg
    show testAt 32 (setAt 32 s.frames f) g = true ↔ g < 2048 ∨ ∃ q, (pages q).frame = g
    rw [testAt_setAt, Bool.or_eq_true, decide_eq_true_eq, h.bits g hg]
    by_cases hlow : g < 2048
    · simp only [hlow, true_or, or_true]
    · rw [exists_frame_update hzero (by omega), or_left_comm]
      show _ ↔ _ ∨ f = g ∨ _
      rw [eq_comm (a := f)]
  · intro b hb q hq
    change (pages q).frame ≠ 0 at hq
    rcases hcases q with ⟨hqp, -⟩ | ⟨-, heq⟩
    · rw [hqp]
      exact hfresh.entry_apart hb hentry
    · rw [heq] at hq
      exact hunused b hb q hq

/-- **Allocating a frame** for an entry keeps the invariant, as long as a bit is clear when a frame is
    taken. -/
theorem FrameInv.allocFrame {k w : Nat} (h : FrameInv dir s) (hentry : entry s dir a = some p)
    (hclear : (s.pages p).frame = 0 → ∃ f < 0x4000, testAt 32 s.frames f = false)
    (halloc : allocFrame s p k w = .ok s') :
    FrameInv dir s' ∧ s'.dirs = s.dirs ∧ (s'.pages p).frame ≠ 0 ∧
      ∀ q, (s.pages q).frame ≠ 0 → s'.pages q = s.pages q := by
  rcases allocFrame_cases halloc with ⟨hf, rfl⟩ | ⟨hzero, rfl⟩
  · exact ⟨h, rfl, hf, fun _ _ => rfl⟩
  · obtain ⟨hbit, hlt⟩ := firstFrame_spec (hclear hzero)
    rw [← h.nframes] at hbit hlt
    generalize firstFrame s.frames s.nframes = f at hbit hlt
    rw [h.nframes] at hlt
    rw [Nat.mod_eq_of_lt (show f < 1048576 by omega), setFrame_eq _ (by omega)]
    obtain ⟨hf0, hinv⟩ := h.take _ _ hentry hzero hbit hlt
    refine ⟨hinv, rfl, ?_, ?_⟩
    · show (Function.update s.pages p _ p).frame ≠ 0
      rw [Function.update_self]
      exact hf0
    · intro q hq
      have hne : q ≠ p := by
        rintro rfl
        exact hq hzero
      exact Function.update_of_ne hne ..

/-- **Mapping one page** keeps the invariant, maps the page and keeps every page mapped. -/
theorem FrameInv.mapPage {r : PageRequest} (h : FrameInv dir s)
    (hclear : frameAt s dir r.address = 0 → ∃ f < 0x4000, testAt 32 s.frames f = false)
    (hmap : mapPage dir s r = .ok s') :
    FrameInv dir s' ∧ Mapped s' dir r.address ∧ ∀ b, Mapped s dir b → Mapped s' dir b := by
  obtain ⟨p, s₁, hget, halloc⟩ := mapPage_eq_ok.mp hmap
  obtain ⟨h₁, hframes, hsame, hentry, hentries, hat⟩ := h.getPage hget
  obtain ⟨h', hdirs, hp, hkeep⟩ := h₁.allocFrame hentry (fun hz => by
    rw [hframes]
    exact hclear (hat ▸ hz)) halloc
  have hentry' : ∀ b q, entry s₁ dir b = some q → entry s' dir b = some q := fun b q hb => by
    rw [entry_congr hdirs, hb]
  refine ⟨h', ⟨p, hentry' _ _ hentry, (h'.held p hp).1, hp⟩, fun b ⟨q, hq, _, hf⟩ => ?_⟩
  have hf₁ : (s₁.pages q).frame ≠ 0 := by
    rw [hsame]
    exact hf
  have hf' : (s'.pages q).frame ≠ 0 := by
    rw [hkeep q hf₁]
    exact hf₁
  exact ⟨q, hentry' _ _ (hentries b q hq), (h'.held q hf').1, hf'⟩

/-! ## Runs -/

/-- A call of `allocate`; every argument is a 32-bit value. -/
structure AllocateCall where
  virtAddr : UInt32
  size : UInt32
  isKernel : UInt32
  isWritable : UInt32
deriving DecidableEq, Repr

/-- The pages that the call maps. -/
def AllocateCall.pages (c : AllocateCall) : List Nat := allocatePages c.virtAddr.toNat c.size.toNat

def AllocateCall.requests (c : AllocateCall) : List PageRequest :=
  c.pages.map fun a => ⟨a, c.isKernel.toNat, c.isWritable.toNat⟩

/-- The calls one after the other, on one directory. -/
def runAllocate (dir : Nat) : Paging → List AllocateCall → Exec Paging :=
  run fun s c => allocate s dir c.virtAddr.toNat c.size.toNat c.isKernel.toNat c.isWritable.toNat

/-- A run of calls is a run of single pages. -/
theorem runAllocate_eq (dir : Nat) (s : Paging) (calls : List AllocateCall) :
    runAllocate dir s calls = run (mapPage dir) s (calls.flatMap AllocateCall.requests) :=
  run_flatMap (f := AllocateCall.requests) (fun s c => by
    have hv : c.virtAddr.toNat < 4294967296 := c.virtAddr.toNat_lt
    have hsize : c.size.toNat < 4294967296 := c.size.toNat_lt
    exact allocate_eq hv hsize s) s calls

/-- Whenever the requests, executed in order, get to a page that has no frame yet, a bit of the bitmap
    is clear. -/
def ClearBefore (dir : Nat) (s : Paging) (rs : List PageRequest) : Prop :=
  ∀ xs r ys t, rs = xs ++ r :: ys → run (mapPage dir) s xs = .ok t → frameAt t dir r.address = 0 →
    ∃ f < 0x4000, testAt 32 t.frames f = false

theorem ClearBefore.nil : ClearBefore dir s [] := by
  intro xs r ys t hsplit
  cases xs <;> cases hsplit

theorem ClearBefore.cons {r : PageRequest} {rs : List PageRequest}
    (h : ∃ f < 0x4000, testAt 32 s.frames f = false)
    (hrest : ∀ t, WeirdOs.mapPage dir s r = .ok t → ClearBefore dir t rs) : ClearBefore dir s (r :: rs) := by
  intro xs r' ys t hsplit ht hzero
  cases xs with
  | nil =>
      cases ht
      exact h
  | cons x xs =>
      obtain ⟨rfl, rfl⟩ := List.cons.inj hsplit
      obtain ⟨u, hu, hxs⟩ := run_cons.mp ht
      exact hrest u hu xs r' ys t rfl hxs hzero

/-- What holds of two runs in a row holds of each. -/
theorem ClearBefore.append {rs rs' : List PageRequest} (h : ClearBefore dir s (rs ++ rs'))
    (hrun : run (WeirdOs.mapPage dir) s rs = .ok s') : ClearBefore dir s rs ∧ ClearBefore dir s' rs' := by
  constructor
  · intro xs r ys t hsplit ht
    exact h xs r (ys ++ rs') t (by rw [hsplit, List.append_assoc, List.cons_append]) ht
  · intro xs r ys t hsplit ht
    exact h (rs ++ xs) r ys t (by rw [hsplit, List.append_assoc]) (run_append.mpr ⟨s', hrun, ht⟩)

theorem FrameInv.run {rs : List PageRequest} (h : FrameInv dir s) (hclear : ClearBefore dir s rs)
    (hrun : run (WeirdOs.mapPage dir) s rs = .ok s') :
    FrameInv dir s' ∧ (∀ r ∈ rs, Mapped s' dir r.address) ∧ ∀ b, Mapped s dir b → Mapped s' dir b := by
  induction rs generalizing s with
  | nil =>
      cases hrun
      exact ⟨h, by simp, fun _ hb => hb⟩
  | cons r rs ih =>
      obtain ⟨t, ht, hrest⟩ := run_cons.mp hrun
      obtain ⟨h', hmapped, hkeep⟩ := h.mapPage (hclear [] r rs s rfl rfl) ht
      obtain ⟨h'', hall, hkeep'⟩ := ih h' (fun xs r' ys u hsplit hu hzero =>
        hclear (r :: xs) r' ys u (by rw [hsplit]; rfl) (run_cons.mpr ⟨t, ht, hu⟩) hzero) hrest
      refine ⟨h'', ?_, fun b hb => hkeep' b (hkeep b hb)⟩
      intro r' hr'
      rcases List.mem_cons.mp hr' with rfl | hr'
      · exact hkeep' _ hmapped
      · exact hall r' hr'

/-- The invariant holds at the start: no entry is in use, and the low 2048 bits are set. -/
theorem FrameInv.init {heap : List Nat} (hn : s.nframes = 0x4000)
    (hbits : ∀ f < 0x4000, testAt 32 s.frames f = decide (f < 2048))
    (hzero : ∀ p, s.pages p = Page.zero) (hfresh : Fresh dir s heap) : FrameInv dir s := by
  have hframe : ∀ p, (s.pages p).frame = 0 := fun p => by rw [hzero]; rfl
  refine ⟨hn, ?_, fun p hp => absurd (hframe p) hp, fun p q hp => absurd (hframe p) hp,
    ?_, heap, hfresh, fun a _ p hp => absurd (hframe p) hp⟩
  · intro p hp
    rw [hzero] at hp
    exact absurd rfl hp
  · intro f hf
    rw [hbits f hf, decide_eq_true_eq]
    constructor
    · exact Or.inl
    · rintro (hlow | ⟨p, hp⟩)
      · exact hlow
      · rw [hframe] at hp
        omega

/-- The bitmap that `initialise_paging` leaves: the low 64 words are locked, 64 more are zeroed, and the
    others are as memory was. -/
theorem initialisePaging_frames {frames : Nat → Nat} {pages : Nat → Page} {heap : List Nat}
    (h : initialisePaging frames pages heap = .ok s) (i : Nat) :
    s.frames i = if i < 64 then 0xffffffff else if i < 128 then 0 else frames i := by
  obtain rfl := Except.ok.inj h
  rfl

/-- A bit of a bitmap whose low 64 words are locked. -/
theorem testAt_locked {f : Nat} (hlow : ∀ i < 64, s.frames i = 0xffffffff)
    (hclear : 2048 ≤ f → s.frames (f / 32) = 0) : testAt 32 s.frames f = decide (f < 2048) := by
  unfold testAt
  by_cases hf : f < 2048
  · rw [hlow _ (by omega), show (0xffffffff : Nat) = 2 ^ 32 - 1 from rfl, Nat.testBit_two_pow_sub_one]
    simp [hf, Nat.mod_lt]
  · rw [hclear (by omega)]
    simp [hf]

/-- What `initialise_paging` leaves: the kernel directory is forked, the heap is ready, and the low
    2048 bits of the bitmap are set. The other words are clear if memory was, for only the first 512
    bytes of the bitmap are zeroed. -/
theorem initialisePaging_spec (frames : Nat → Nat) (pages : Nat → Page) (heap : List Nat) :
    ∃ s, initialisePaging frames pages heap = .ok s ∧ s.nframes = 0x4000 ∧ s.pages = pages ∧
      s.kheap = some heap ∧ s.dirs s.kernelDirectory = forkedDirectory 0x201000 ∧
      ((∀ i, 128 ≤ i → i < 512 → frames i = 0) →
        ∀ f < 0x4000, testAt 32 s.frames f = decide (f < 2048)) := by
  refine ⟨_, rfl, rfl, rfl, rfl, ?_, ?_⟩
  · -- the directory comes from the placement address, rounded up to a page
    refine (Function.update_self ..).trans (congrArg forkedDirectory ?_)
    show sub32 (if add32 0xc0200000 512 &&& 0xfffff000 ≠ 0 then
      add32 (add32 0xc0200000 512 &&& 0xfffff000) 0x1000 else add32 0xc0200000 512) 0xc0000000 = 0x201000
    decide
  · intro hmem f hf
    have hframes := initialisePaging_frames (rfl : initialisePaging frames pages heap = .ok _)
    refine testAt_locked ?_ ?_
    · intro i hi
      rw [hframes, if_pos hi]
    · intro hhigh
      rw [hframes, if_neg (by omega)]
      split
      · rfl
      · exact hmem _ (by omega) (by omega)

/-- **Every run of `allocate` hands out frames without fault.** Starting with no entry in use and the
    low 2048 frames reserved, and as long as a bit is clear whenever a frame is taken: the pages of all
    ranges are mapped, to distinct frames past the reserved ones, and the bitmap marks exactly the
    reserved frames and those held by one entry. -/
theorem allocate_run_frames {heap : List Nat} {calls : List AllocateCall} (hn : s.nframes = 0x4000)
    (hbits : ∀ f < 0x4000, testAt 32 s.frames f = decide (f < 2048))
    (hzero : ∀ p, s.pages p = Page.zero) (hfresh : Fresh dir s heap)
    (hclear : ClearBefore dir s (calls.flatMap AllocateCall.requests))
    (hrun : runAllocate dir s calls = .ok s') :
    (∀ c ∈ calls, ∀ a ∈ c.pages, Mapped s' dir a) ∧
      (∀ p, (s'.pages p).present ≠ 0 → (s'.pages p).frame ≠ 0) ∧
      (∀ p q, (s'.pages p).frame ≠ 0 → (s'.pages p).frame = (s'.pages q).frame → p = q) ∧
      (∀ p, (s'.pages p).frame ≠ 0 → 2048 ≤ (s'.pages p).frame) ∧
      ∀ f < 0x4000, testAt 32 s'.frames f = true ↔ f < 2048 ∨ ∃! p, (s'.pages p).frame = f := by
  rw [runAllocate_eq] at hrun
  obtain ⟨h, hmapped, _⟩ := (FrameInv.init hn hbits hzero hfresh).run hclear hrun
  refine ⟨?_, h.present, h.inj, fun p hp => (h.held p hp).2.1, ?_⟩
  · intro c hc a ha
    exact hmapped ⟨a, _, _⟩ (List.mem_flatMap.mpr ⟨c, hc, List.mem_map.mpr ⟨a, ha, rfl⟩⟩)
  · intro f hf
    rw [h.bits f hf]
    constructor
    · rintro (hlow | ⟨p, hp⟩)
      · exact Or.inl hlow
      · rcases Nat.lt_or_ge f 2048 with hlow | hhigh
        · exact Or.inl hlow
        · exact Or.inr ⟨p, hp, fun q hq => (h.inj p q (by omega) (hp.trans hq.symm)).symm⟩
    · rintro (hlow | ⟨p, hp, _⟩)
      · exact Or.inl hlow
      · exact Or.inr ⟨p, hp⟩

/-- Two calls that share a page, the first ones on the kernel directory: the shared page keeps its frame, and
    the other one gets a frame of its own. -/
theorem allocate_run_frames_shared :
    ∃ s s', initialisePaging (fun _ => 0) (fun _ => Page.zero) [0xd0001000] = .ok s ∧
      runAllocate s.kernelDirectory s [⟨0x1000, 0x1000, 0, 1⟩, ⟨0x1000, 0x2000, 0, 1⟩] = .ok s' ∧
      Mapped s' s.kernelDirectory 0x1000 ∧ Mapped s' s.kernelDirectory 0x2000 ∧
      ∀ p q, (s'.pages p).frame ≠ 0 → (s'.pages p).frame = (s'.pages q).frame → p = q := by
  obtain ⟨s, hs, hn, hpages, hheap, hdir, hbits⟩ :=
    initialisePaging_spec (fun _ => 0) (fun _ => Page.zero) [0xd0001000]
  have hbits := hbits fun _ _ _ => rfl
  -- the second frame is free until the last request
  have hrun : ((initialisePaging (fun _ => 0) (fun _ => Page.zero) [0xd0001000]).toOption.bind fun s =>
      (mapPage s.kernelDirectory s ⟨0x1000, 0, 1⟩).toOption.bind fun t₁ =>
        (mapPage s.kernelDirectory t₁ ⟨0x1000, 0, 1⟩).toOption.bind fun t₂ =>
          (runAllocate s.kernelDirectory s
            [⟨0x1000, 0x1000, 0, 1⟩, ⟨0x1000, 0x2000, 0, 1⟩]).toOption.map fun _ =>
              (testAt 32 t₁.frames 2049, testAt 32 t₂.frames 2049)) = some (false, false) := by
    decide +kernel
  obtain ⟨s₁, hs₁, hrun⟩ := Option.bind_eq_some_iff.mp hrun
  obtain rfl := Except.ok.inj (hs.symm.trans (toOption_eq_some.mp hs₁))
  obtain ⟨t₁, ht₁, hrun⟩ := Option.bind_eq_some_iff.mp hrun
  obtain ⟨t₂, ht₂, hrun⟩ := Option.bind_eq_some_iff.mp hrun
  obtain ⟨s', hs', hfree⟩ := Option.map_eq_some_iff.mp hrun
  obtain ⟨hfree₁, hfree₂⟩ := Prod.mk.inj hfree
  have hrun := toOption_eq_some.mp hs'
  have hfresh : Fresh s.kernelDirectory s [0xd0001000] :=
    ⟨hheap, List.pairwise_singleton .., by simp, fun a _ k hk => absurd (by rw [hdir]; rfl) hk⟩
  have hclear : ClearBefore s.kernelDirectory s
      ([⟨0x1000, 0x1000, 0, 1⟩, ⟨0x1000, 0x2000, 0, 1⟩].flatMap AllocateCall.requests) := by
    refine .cons ⟨2048, by decide, hbits 2048 (by decide)⟩ fun t ht => ?_
    obtain rfl := Except.ok.inj (ht.symm.trans (toOption_eq_some.mp ht₁))
    refine .cons ⟨2049, by decide, hfree₁⟩ fun u hu => ?_
    obtain rfl := Except.ok.inj (hu.symm.trans (toOption_eq_some.mp ht₂))
    exact .cons ⟨2049, by decide, hfree₂⟩ fun _ _ => .nil
  obtain ⟨hmapped, -, hinj, -⟩ := allocate_run_frames hn hbits (fun p => by rw [hpages]) hfresh hclear hrun
  exact ⟨s, s', hs, hrun, hmapped ⟨0x1000, 0x2000, 0, 1⟩ (by simp) 0x1000 (by decide),
    hmapped ⟨0x1000, 0x2000, 0, 1⟩ (by simp) 0x2000 (by decide), hinj⟩

end WeirdOs
