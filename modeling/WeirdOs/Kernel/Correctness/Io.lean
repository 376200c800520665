import WeirdOs.Fs.Correctness.Fifo
import WeirdOs.Kernel.Correctness.Syscall
import WeirdOs.Kernel.Io

/-!
# `Kernel.Correctness.Io` — the kernel is what programs see

`Refines` relates the kernel to the reference: the screen shows its terminal, the bytes in use of every fifo
are its queue, the table is its table, memory for programs is the same and mapped, and the heap is in order and
has room for as many files. The kernel never fails on what the reference allows, and keeps the relation
(`Refines.step`).

What an operation leaves alone carries the proof: the screen is written on the screen only, a fifo writes in
its own buffer and in that of the caller, `new file` in what is the heap's own. The rest is `ShowsTerminal` for
the screen and the lemmas about a queue for the fifo.
-/

namespace WeirdOs

open Lib

variable {s : IoSetup} {io : Io} {k k' : Kernel} {t : Terminal UInt8}

/-! ## Memory -/

/-- Memory that is the same off a range, and known in it. -/
theorem writeBytes_eq {m m' : Mem} {a x : Nat} {bytes : List UInt8}
    (hin : bytesAt m' a bytes.length = bytes) (hout : x < a ∨ a + bytes.length ≤ x → m' x = m x) :
    writeBytes m a bytes x = m' x := by
  unfold writeBytes
  by_cases hx : a ≤ x
  · rw [if_pos hx]
    by_cases hlt : x - a < bytes.length
    · have hbyte : (bytesAt m' a bytes.length)[x - a]? = some (m' x) := by
        unfold bytesAt
        rw [List.getElem?_map, List.getElem?_range hlt, Option.map_some, Nat.add_sub_cancel' hx]
      rw [hin] at hbyte
      rw [hbyte, Option.getD_some]
    · rw [List.getElem?_eq_none (Nat.not_lt.mp hlt), Option.getD_none]
      exact (hout (.inr (by omega))).symm
  · rw [if_neg hx]
    exact (hout (.inl (Nat.not_le.mp hx))).symm

/-- The same bytes, written into memories that agree. -/
theorem writeBytes_congr {m m' : Mem} {a x : Nat} {bytes : List UInt8} (h : m x = m' x) :
    writeBytes m a bytes x = writeBytes m' a bytes x := by
  unfold writeBytes
  rw [h]

/-! ## The screen -/

/-- The screen shows the same after memory has changed off the screen. -/
theorem ShowsTerminal.setMem {scr : Screen} {m : Mem} (h : ShowsTerminal scr t)
    (hsame : ∀ x, VIDEO_BUFFER ≤ x → x < VIDEO_BUFFER + screenSize → m x = scr.mem x) :
    ShowsTerminal { scr with mem := m } t := by
  refine ⟨?_, h.line, h.column, h.cursor, h.vbuf⟩
  intro i j hi hj
  rw [← h.cells i j hi hj]
  unfold cellAt
  dsimp only
  unfold screenSize at hsame
  rw [hsame _ (by omega) (by omega), hsame _ (by omega) (by omega)]

/-- **`fputs`** on the screen: NULs are not printed. -/
theorem fputs_eq (scr : Screen) (text : List UInt8) :
    fputs Screen.fputc scr text = scr.kputchars (text.filter (· ≠ 0)) := by
  have hchar : ∀ (scr : Screen) (c : UInt8), scr.fputc c = scr.kputchars ([c].takeWhile (· ≠ 0)) :=
    fun _ _ => rfl
  have hfilter : ∀ text : List UInt8,
      (text.flatMap fun c => [c].takeWhile (· ≠ 0)) = text.filter (· ≠ 0) := by
    intro text
    induction text with
    | nil => rfl
    | cons c text ih =>
        rw [List.flatMap_cons, ih, List.filter_cons]
        by_cases hc : c = 0
        · simp [hc]
        · simp [hc]
  rw [← hfilter]
  exact run_flatMap hchar scr text

/-- `fputs` sends them to the terminal. -/
theorem fputs_shows {scr : Screen} (text : List UInt8) (h : ShowsTerminal scr t) :
    ∃ scr', fputs Screen.fputc scr text = .ok scr' ∧
      ShowsTerminal scr' (typed t (text.filter (· ≠ 0))) ∧ ∀ a, OffScreen a → scr'.mem a = scr.mem a := by
  rw [fputs_eq]
  exact kputchars_shows h

/-- **`vga_dev::write`** sends the bytes of a buffer that is not on the screen. -/
theorem write_shows {scr : Screen} {buf n : Nat} (h : ShowsTerminal scr t) (hfits : buf + n ≤ 4294967296)
    (hoff : ∀ x, buf ≤ x → x < buf + n → OffScreen x) :
    ∃ scr', scr.write buf n = .ok scr' ∧ ShowsTerminal scr' (typed t (bytesAt scr.mem buf n)) ∧
      ∀ a, OffScreen a → scr'.mem a = scr.mem a := by
  induction n with
  | zero => exact ⟨scr, rfl, h, fun _ _ => rfl⟩
  | succ n ih =>
      obtain ⟨s₁, hrun, h₁, hkeep₁⟩ := ih (by omega) fun x hle hlt => hoff x hle (by omega)
      have hbyte : s₁.mem (add32 buf n) = scr.mem (buf + n) := by
        rw [add32_of_lt (by omega)]
        exact hkeep₁ _ (hoff _ (Nat.le_add_right buf n) (by omega))
      obtain ⟨s₂, hstep, h₂, hkeep₂⟩ := kputchar_shows (c := scr.mem (buf + n)) h₁
      refine ⟨s₂, ?_, ?_, fun a ha => (hkeep₂ a ha).trans (hkeep₁ a ha)⟩
      · refine bind_eq_ok.mpr ⟨s₁, hrun, ?_⟩
        rw [hbyte]
        exact hstep
      · unfold typed at h₂ ⊢
        rw [bytesAt_add, List.foldl_append]
        exact h₂

/-! ## The relation -/

/-- A fifo holds a queue. -/
structure HoldsQueue (s : IoSetup) (m : Mem) (i : Nat) (f : Fifo) (q : List UInt8) : Prop where
  buffer : f.buffer = s.buffer i
  room : f.bufferIndex ≤ fifoSize
  contents : bytesAt m (s.buffer i) f.bufferIndex = q

/-- A free block with room for so many files, each with its counter, and for the headers in between. -/
def RoomForFiles (room : Nat) (bs : List Block) : Prop :=
  room = 0 ∨ ∃ b ∈ bs, b.used = false ∧ 60 * room ≤ b.size

/-- The blocks found in memory have it. -/
def HeapState.RoomForFiles (s : HeapState) (room : Nat) : Prop :=
  ∃ bs, s.blocks = some (entries 0 bs) ∧ WeirdOs.RoomForFiles room bs

/-- **The kernel shows its users the reference.** -/
structure Refines (s : IoSetup) (k : Kernel) (io : Io) : Prop where
  files : k.files = s.files
  fifos : ∀ i, s.kind i = .fifo → HoldsQueue s k.mem i (k.fifos i) (io.queue i)
  table : ∀ d, (k.fdtable.data d).bind File.inode = io.file d
  last : k.fdtable.lastDesc = io.next
  screen : ShowsTerminal k.screen io.terminal
  mem : ∀ a, s.user a → k.mem a = io.mem a
  mapped : s.Mapped k.mapped
  dataAt : k.dataAt = s.dataAt
  live : ∀ i, s.kind i = .fifo → ∃ p r, k.live p = some r ∧ p ≤ s.buffer i ∧ s.buffer i + 260 ≤ p + r
  heap : ∃ bs, HeapInv KHEAP_START (KHEAP_START + KHEAP_SIZE) k.heap bs ∧ RoomForFiles io.room bs

theorem HoldsQueue.length {m : Mem} {i : Nat} {f : Fifo} {q : List UInt8} (h : HoldsQueue s m i f q) :
    q.length = f.bufferIndex := by
  rw [← h.contents, bytesAt_length]

/-- What is held stays where memory stays. -/
theorem HoldsQueue.frame {m m' : Mem} {i : Nat} {f : Fifo} {q : List UInt8} (h : HoldsQueue s m i f q)
    (hsame : ∀ x, s.buffer i ≤ x → x < s.buffer i + 260 → m' x = m x) : HoldsQueue s m' i f q := by
  have hroom := h.room
  unfold fifoSize at hroom
  refine ⟨h.buffer, h.room, ?_⟩
  rw [← h.contents]
  exact bytesAt_same fun x hle hlt => hsame x hle (by omega)

/-! ## Whose memory it is -/

/-- What is on the screen, -/
theorem kernelMemory_screen {x : Nat} (hle : VIDEO_BUFFER ≤ x) (hlt : x < VIDEO_BUFFER + screenSize) :
    KernelMemory x := by
  unfold VIDEO_BUFFER screenSize at *
  exact .inl (by omega)

/-- in a fifo, or behind it, -/
theorem IoSetup.kernelMemory_fifo {i x : Nat} (hi : s.kind i = .fifo) (hle : s.buffer i ≤ x)
    (hlt : x < s.buffer i + 2 * fifoSize) : KernelMemory x := by
  have hheap := s.fifos i hi
  exact .inr (by omega)

/-- or the heap's own is the kernel's. -/
theorem Kernel.HeapOwn.kernelMemory {x : Nat} (h : k.HeapOwn x) : KernelMemory x := .inr ⟨h.1, h.2.1⟩

/-- A byte for programs is off the screen. -/
theorem IoSetup.offScreen {x : Nat} (h : s.user x) : OffScreen x := by
  by_contra hon
  unfold OffScreen at hon
  exact s.outside x h (kernelMemory_screen (by omega) (by omega))

/-- So are the fifos. -/
theorem IoSetup.offScreen_fifo {i x : Nat} (hi : s.kind i = .fifo) (hle : s.buffer i ≤ x) : OffScreen x := by
  have hheap := (s.fifos i hi).1
  unfold KHEAP_START at hheap
  unfold OffScreen VIDEO_BUFFER screenSize
  omega

/-- A byte of a fifo is not for programs. -/
theorem IoSetup.off_fifo {i x : Nat} (hi : s.kind i = .fifo) (h : s.user x) :
    x < s.buffer i ∨ s.buffer i + 260 ≤ x := by
  by_contra hin
  refine s.outside x h (IoSetup.kernelMemory_fifo hi (by omega) ?_)
  unfold fifoSize
  omega

/-- The part of a range. -/
theorem IoSetup.UserRange.part {a n m : Nat} (h : s.UserRange a n) (hle : m ≤ n) : s.UserRange a m :=
  ⟨by have := h.fits; omega, fun x hx hlt => h.user x hx (by omega)⟩

/-- A range of the memory for programs is a valid buffer. -/
theorem Refines.userBuffer {a n : Nat} (h : Refines s k io) (hrange : s.UserRange a n) (write : Bool) :
    k.Buffer write a n where
  fits := hrange.fits
  mapped x hle hlt := h.mapped write x (.inr (hrange.user x hle hlt))
  apart x hle hlt hown := s.outside x (hrange.user x hle hlt) (Kernel.HeapOwn.kernelMemory hown)
  outside _ x hle hlt := s.outside x (hrange.user x hle hlt)

/-- The kernel can access its own memory. -/
theorem Refines.canAccess {a n : Nat} (h : Refines s k io) (hfits : a + n ≤ 4294967296)
    (hkernel : ∀ x, a ≤ x → x < a + n → KernelMemory x) (write : Bool) : k.canAccess write a n = true :=
  Kernel.canAccess_range hfits fun x hle hlt => h.mapped write x (.inl (hkernel x hle hlt))

/-- The same bytes are there for a program. -/
theorem Refines.bytesAt (h : Refines s k io) {a n : Nat} (hrange : s.UserRange a n) :
    bytesAt k.mem a n = WeirdOs.bytesAt io.mem a n :=
  bytesAt_same fun x hle hlt => h.mem x (hrange.user x hle hlt)

/-- A byte of a fifo is not the heap's own. -/
theorem Refines.fifo_not_own {i x : Nat} (h : Refines s k io) (hi : s.kind i = .fifo) (hown : k.HeapOwn x) :
    x < s.buffer i ∨ s.buffer i + 260 ≤ x := by
  obtain ⟨p, r, hp, hle, hend⟩ := h.live i hi
  have hout := hown.2.2 p r hp
  omega

/-! ## What a change of memory keeps -/

/-- **Memory for programs changes**, and none of the kernel's. -/
theorem Refines.setMem {m mem' : Mem} (h : Refines s k io) (hframe : ∀ x, KernelMemory x → m x = k.mem x)
    (hmem : ∀ x, s.user x → m x = mem' x) : Refines s (k.setMem m) { io with mem := mem' } where
  files := h.files
  fifos i hi := (h.fifos i hi).frame fun x hle hlt =>
    hframe x (IoSetup.kernelMemory_fifo hi hle (by unfold fifoSize; omega))
  table := h.table
  last := h.last
  screen := h.screen.setMem fun x hle hlt => hframe x (kernelMemory_screen hle hlt)
  mem := hmem
  mapped := h.mapped
  dataAt := h.dataAt
  live := h.live
  heap := by
    obtain ⟨bs, hinv, hroom⟩ := h.heap
    exact ⟨bs, hinv.setOther fun x hx => hframe x (Kernel.HeapOwn.kernelMemory hx), hroom⟩

/-- **A fifo changes**, in its own memory and in that of programs. -/
theorem Refines.setFifo {i : Nat} {f : Fifo} {q : List UInt8} {m mem' : Mem} (h : Refines s k io)
    (hi : s.kind i = .fifo) (hholds : HoldsQueue s m i f q)
    (hframe : ∀ x, KernelMemory x → x < s.buffer i ∨ s.buffer i + 260 ≤ x → m x = k.mem x)
    (hmem : ∀ x, s.user x → m x = mem' x) :
    Refines s ({ k with fifos := Function.update k.fifos i f }.setMem m)
      { io with queue := Function.update io.queue i q, mem := mem' } where
  files := h.files
  fifos j hj := by
    show HoldsQueue s m j (Function.update k.fifos i f j) (Function.update io.queue i q j)
    by_cases hij : j = i
    · subst hij
      rw [Function.update_self, Function.update_self]
      exact hholds
    · rw [Function.update_of_ne hij, Function.update_of_ne hij]
      have hapart := s.apart i j hi hj (Ne.symm hij)
      refine (h.fifos j hj).frame fun x hle hlt => hframe x ?_ (by omega)
      exact IoSetup.kernelMemory_fifo hj hle (by unfold fifoSize; omega)
  table := h.table
  last := h.last
  screen := by
    refine h.screen.setMem fun x hle hlt => hframe x (kernelMemory_screen hle hlt) ?_
    have hheap := (s.fifos i hi).1
    unfold KHEAP_START at hheap
    unfold VIDEO_BUFFER screenSize at hlt
    omega
  mem := hmem
  mapped := h.mapped
  dataAt := h.dataAt
  live := h.live
  heap := by
    obtain ⟨bs, hinv, hroom⟩ := h.heap
    exact ⟨bs, hinv.setOther fun x hx => hframe x (Kernel.HeapOwn.kernelMemory hx) (h.fifo_not_own hi hx), hroom⟩

/-- **The screen changes.** -/
theorem Refines.setScreen {scr : Screen} (h : Refines s k io) (hshows : ShowsTerminal scr t)
    (hframe : ∀ a, OffScreen a → scr.mem a = k.mem a) :
    Refines s { k with screen := scr } { io with terminal := t } where
  files := h.files
  fifos i hi := (h.fifos i hi).frame fun x hle _ => hframe x (IoSetup.offScreen_fifo hi hle)
  table := h.table
  last := h.last
  screen := hshows
  mem a ha := (hframe a (IoSetup.offScreen ha)).trans (h.mem a ha)
  mapped := h.mapped
  dataAt := h.dataAt
  live := h.live
  heap := by
    obtain ⟨bs, hinv, hroom⟩ := h.heap
    exact ⟨bs, hinv.setOther fun x hx => hframe x (Kernel.HeapOwn.offScreen hx), hroom⟩

/-- **The heap is used.** -/
theorem Refines.setHeap {heap : HeapState} {bs : List Block} {room : Nat} (h : Refines s k io)
    (hkept : HeapKept KHEAP_START (KHEAP_START + KHEAP_SIZE) k.heap heap)
    (hinv : HeapInv KHEAP_START (KHEAP_START + KHEAP_SIZE) heap bs) (hroom : RoomForFiles room bs) :
    Refines s (k.setHeap heap) { io with room := room } where
  files := h.files
  fifos i hi := by
    refine (h.fifos i hi).frame fun x hle hlt => hkept.mem x fun hown => ?_
    have hout := h.fifo_not_own hi hown
    omega
  table := h.table
  last := h.last
  screen := by
    refine h.screen.setMem fun x hle hlt => hkept.mem x fun hown => ?_
    have hoff := Kernel.HeapOwn.offScreen (k := k) hown
    unfold OffScreen at hoff
    omega
  mem a ha := (hkept.mem a fun hown => s.outside a ha (Kernel.HeapOwn.kernelMemory (k := k) hown)).trans (h.mem a ha)
  mapped := h.mapped
  dataAt := h.dataAt
  live i hi := by
    obtain ⟨p, r, hp, hle, hend⟩ := h.live i hi
    exact ⟨p, r, hkept.live p r hp, hle, hend⟩
  heap := ⟨bs, hinv, hroom⟩

/-! ## The operations -/

/-- **A file more.** -/
theorem HeapInv.newFile_room {lo hi room : Nat} {heap : HeapState} {bs : List Block}
    (h : HeapInv lo hi heap bs) (hlo : 0 < lo) (hroom : RoomForFiles (room + 1) bs) :
    ∃ heap' bs', heap.newFile = .ok heap' ∧ HeapInv lo hi heap' bs' ∧ RoomForFiles room bs' := by
  obtain hzero | ⟨b, hb, hfree, hsize⟩ := hroom
  · cases hzero
  obtain ⟨p, s₁, bs₁, hfirst, h₁, c, hc, hcfree, hcsize⟩ :=
    h.malloc_room hlo hb hfree (show 20 + 16 + (60 * room + 24) ≤ b.size by omega) (by omega)
  have hnew : ∀ q s₂, s₁.malloc 8 = .ok (q, s₂) → heap.newFile = .ok s₂ := fun q s₂ hsecond =>
    bind_eq_ok.mpr ⟨_, (h.new_eq (by decide)).trans hfirst,
      bind_eq_ok.mpr ⟨(q, s₂), (h₁.new_eq (by decide)).trans hsecond, rfl⟩⟩
  by_cases hlast : room = 0
  · obtain ⟨q, s₂, hsecond⟩ := (h₁.malloc_iff (n := 8) hlo).mpr ⟨c, hc, hcfree, by omega⟩
    obtain ⟨xs, d, ys, -, -, -, -, h₂, -⟩ := h₁.malloc_keeps hsecond
    exact ⟨s₂, _, hnew q s₂ hsecond, h₂, .inl hlast⟩
  · obtain ⟨q, s₂, bs₂, hsecond, h₂, hrest⟩ :=
      h₁.malloc_room hlo hc hcfree (show 8 + 16 + 60 * room ≤ c.size by omega) (by omega)
    exact ⟨s₂, bs₂, hnew q s₂ hsecond, h₂, .inr hrest⟩

/-- **`new file`**, while there is room. -/
theorem Refines.newFile (h : Refines s k io) (hroom : 0 < io.room) : ∃ heap, k.newFile = .ok (k.setHeap heap) ∧
    HeapKept KHEAP_START (KHEAP_START + KHEAP_SIZE) k.heap heap ∧
    Refines s (k.setHeap heap) { io with room := io.room - 1 } := by
  obtain ⟨bs, hinv, hfits⟩ := h.heap
  rw [← Nat.sub_add_cancel hroom] at hfits
  obtain ⟨heap, bs', hnew, hinv', hfits'⟩ := hinv.newFile_room (by decide) hfits
  have hkept := hinv.newFile_kept hnew
  exact ⟨heap, bind_eq_ok.mpr ⟨heap, hnew, rfl⟩, hkept, h.setHeap hkept hinv' hfits'⟩

/-- A path that can be opened is opened. -/
theorem Refines.opened {path : List UInt8} (h : Refines s k io) (hpath : io.CanOpen s path) :
    ∃ heap dir, k.newFile = .ok (k.setHeap heap) ∧ HeapKept KHEAP_START (KHEAP_START + KHEAP_SIZE) k.heap heap ∧
      resolvePath k.files.fs k.files.vfs path = .ok (some dir) ∧ ∀ place last oflag,
      Refines s { k.setHeap heap with fdtable := ⟨Function.update k.fdtable.data place
          (some ⟨1, (k.files.fs.dirents dir).inode, oflag, 0⟩), last⟩ }
        { io.opened s place path with next := last } := by
  obtain ⟨hroom, hhead, hnames, dir, hdir⟩ := hpath
  obtain ⟨heap, hnew, hkept, h'⟩ := h.newFile hroom
  refine ⟨heap, dir, hnew, hkept, ?_, fun place last oflag => ?_⟩
  · rw [h.files, s.mounted]
    exact resolvePath_eq_some.mpr ⟨hhead, hnames, hdir⟩
  · unfold Io.opened
    rw [hdir]
    refine ⟨h'.files, h'.fifos, fun d => ?_, rfl, h'.screen, h'.mem, h'.mapped, h'.dataAt, h'.live, h'.heap⟩
    rw [h.files]
    dsimp only
    by_cases hd : d = place
    · rw [hd, Function.update_self, Function.update_self]
      rfl
    · rw [Function.update_of_ne hd, Function.update_of_ne hd]
      exact h.table d

/-- A descriptor leads to the same inode. -/
theorem Refines.fileInode {fildes : UInt32} {i : Nat} (h : Refines s k io) (hi : io.inode fildes = some i) :
    k.fileInode (toInt32 fildes.toNat) = .ok i := by
  unfold Io.inode at hi
  by_cases hlt : fildes.toNat < FD_MAX
  · rw [if_pos hlt, ← h.table] at hi
    obtain ⟨f, hf, hinode⟩ := Option.bind_eq_some_iff.mp hi
    exact Kernel.fileInode_iff.mpr ⟨hlt, f, hf, hinode⟩
  · rw [if_neg hlt] at hi
    cases hi

theorem Refines.kind (h : Refines s k io) (i : Nat) : (k.files.fs.inodes i).kind = s.kind i := by
  rw [h.files]
  rfl

/-- The buffer of a program is apart from that of a fifo, and an empty one might be anywhere. -/
theorem IoSetup.UserRange.bufferApart {i a n : Nat} {f : Fifo} (hrange : s.UserRange a n)
    (hi : s.kind i = .fifo) (hbuffer : f.buffer = s.buffer i) : ∃ b, (n = 0 ∨ b = a) ∧ BufferApart f b n := by
  rcases Nat.eq_zero_or_pos n with rfl | hpos
  · exact ⟨0, .inl rfl, Nat.zero_le _, .inl (Nat.zero_le _)⟩
  · refine ⟨a, .inr rfl, hrange.fits, ?_⟩
    rw [hbuffer]
    unfold fifoSize
    -- ranges that meet have the later of their starts in common
    by_contra hmeet
    have hfar := IoSetup.off_fifo hi (hrange.user (max a (s.buffer i)) (by omega) (by omega))
    omega

theorem Fifo.read_congr {f : Fifo} {m : Mem} {a b n : Nat} (h : n = 0 ∨ b = a) :
    f.read m b n = f.read m a n := by
  rcases h with rfl | rfl <;> rfl

theorem Fifo.write_congr {f : Fifo} {m : Mem} {a b n : Nat} (h : n = 0 ∨ b = a) :
    f.write m b n = f.write m a n := by
  rcases h with rfl | rfl <;> rfl

theorem bytesAt_zero_or {m : Mem} {a b n : Nat} (h : n = 0 ∨ b = a) : bytesAt m b n = bytesAt m a n := by
  rcases h with rfl | rfl <;> rfl

/-- A fifo is in memory. -/
theorem HoldsQueue.placed {m : Mem} {i : Nat} {f : Fifo} {q : List UInt8} (h : HoldsQueue s m i f q)
    (hi : s.kind i = .fifo) : f.Placed := by
  have hheap := (s.fifos i hi).2
  unfold KHEAP_START KHEAP_SIZE fifoSize at hheap
  unfold Fifo.Placed
  rw [h.buffer]
  omega

/-- What the contents of a fifo are, in the terms of a fifo by itself. -/
theorem HoldsQueue.contents_eq {m : Mem} {i : Nat} {f : Fifo} {q : List UInt8} (h : HoldsQueue s m i f q) :
    (FifoState.mk m f).contents = q := by
  unfold FifoState.contents
  rw [h.buffer]
  exact h.contents

/-- The shift of a fifo reads no further than the memory of the kernel. -/
theorem Refines.fifoReadAccess {i buf n : Nat} (h : Refines s k io) (hi : s.kind i = .fifo)
    (hrange : s.UserRange buf n) : k.fifoReadAccess (k.fifos i) buf n = .ok () := by
  have hroom := (h.fifos i hi).room
  have hheap := (s.fifos i hi).2
  unfold KHEAP_START KHEAP_SIZE at hheap
  refine (Kernel.fifoReadAccess_iff (h.userBuffer hrange true)).mpr fun hle => ⟨hroom, ?_⟩
  rw [(h.fifos i hi).buffer, add32_of_lt (by unfold fifoSize at hroom hheap; omega)]
  refine h.canAccess (by omega) (fun x hx hlt => IoSetup.kernelMemory_fifo hi (by omega) (by omega)) false

/-- **`fifo::read`** takes the front of the queue. -/
theorem Refines.fifoRead {i buf n : Nat} (h : Refines s k io) (hi : s.kind i = .fifo)
    (hle : n ≤ (io.queue i).length) (hrange : s.UserRange buf n) (offset : Nat) :
    ∃ k' count, k.inodeRead i buf n offset = .ok (k', count) ∧ Refines s k'
      { io with
        mem := writeBytes io.mem buf ((io.queue i).take n)
        queue := Function.update io.queue i ((io.queue i).drop n) } := by
  have hholds := h.fifos i hi
  have hbuffer := hholds.buffer
  have hroom := hholds.room
  have hstored : n ≤ (k.fifos i).bufferIndex := Nat.le_trans hle (Nat.le_of_eq hholds.length)
  have hplaced := hholds.placed hi
  obtain ⟨b, hb, hapart⟩ := hrange.bufferApart hi hbuffer
  have hread : k.inodeRead i buf n offset = .ok
      ({ k with fifos := Function.update k.fifos i ((k.fifos i).read k.mem buf n).2.1 }.setMem
        ((k.fifos i).read k.mem buf n).1, ((k.fifos i).read k.mem buf n).2.2) := by
    unfold Kernel.inodeRead
    rw [h.kind, hi]
    exact bind_eq_ok.mpr ⟨(), h.fifoReadAccess hi hrange, rfl⟩
  obtain ⟨hfifo, hcontents, hbytes⟩ := next_read (s := ⟨k.mem, k.fifos i⟩) hplaced hapart hroom hstored
  unfold FifoState.next at hfifo hcontents hbytes
  rw [hholds.contents_eq] at hcontents hbytes
  dsimp only at hfifo hcontents hbytes
  rw [bytesAt_zero_or hb] at hbytes
  rw [Fifo.read_congr hb] at hfifo hcontents hbytes
  -- nothing but the two buffers is written
  have hframe : ∀ x, (x < buf ∨ buf + n ≤ x) → (x < s.buffer i ∨ s.buffer i + 260 ≤ x) →
      ((k.fifos i).read k.mem buf n).1 x = k.mem x := fun x hbuf hfar =>
    Fifo.read_out (fun _ => hroom) hplaced hrange.fits hbuf (hbuffer ▸ hfar)
  refine ⟨_, _, hread, h.setFifo hi ⟨?_, ?_, ?_⟩ ?_ ?_⟩
  · exact (congrArg Fifo.buffer hfifo).trans hbuffer
  · rw [hfifo]
    exact Nat.le_trans (Nat.sub_le _ _) hroom
  · rw [← hcontents, ← hbuffer]
    exact congrArg (fun a => WeirdOs.bytesAt ((k.fifos i).read k.mem buf n).1 a _)
      (congrArg Fifo.buffer hfifo).symm
  · intro x hx hfar
    refine hframe x ?_ hfar
    by_contra hin
    exact s.outside x (hrange.user x (by omega) (by omega)) hx
  · intro x hx
    have hfar := IoSetup.off_fifo hi hx
    have hlength : ((io.queue i).take n).length = n := by
      rw [List.length_take]
      omega
    have hsame : writeBytes k.mem buf ((io.queue i).take n) x = ((k.fifos i).read k.mem buf n).1 x :=
      writeBytes_eq (by rw [hlength]; exact hbytes) fun hout => hframe x (by omega) hfar
    rw [← hsame]
    exact writeBytes_congr (h.mem x hx)

/-- **`fifo::write`** puts bytes at the end of the queue. -/
theorem Refines.fifoWrite {i buf n : Nat} (h : Refines s k io) (hi : s.kind i = .fifo)
    (hroom : (io.queue i).length + n ≤ fifoSize) (hrange : s.UserRange buf n) :
    ∃ k' count, k.inodeWrite i buf n = .ok (k', count) ∧
      Refines s k' { io with
        queue := Function.update io.queue i (io.queue i ++ WeirdOs.bytesAt io.mem buf n) } := by
  have hholds := h.fifos i hi
  have hbuffer := hholds.buffer
  have hplaced := hholds.placed hi
  obtain ⟨b, hb, hapart⟩ := hrange.bufferApart hi hbuffer
  rw [hholds.length] at hroom
  have haccess : k.fifoWriteAccess (k.fifos i) buf n = .ok () :=
    (Kernel.fifoWriteAccess_iff (h.userBuffer hrange false)).mpr (.inr hroom)
  have hwrite : k.inodeWrite i buf n = .ok
      ({ k with fifos := Function.update k.fifos i ((k.fifos i).write k.mem buf n).2.1 }.setMem
        ((k.fifos i).write k.mem buf n).1, ((k.fifos i).write k.mem buf n).2.2) := by
    unfold Kernel.inodeWrite
    rw [h.kind, hi]
    exact bind_eq_ok.mpr ⟨(), haccess, rfl⟩
  obtain ⟨hfifo, hcontents⟩ := next_write (s := ⟨k.mem, k.fifos i⟩) hplaced hapart hroom
  unfold FifoState.next at hfifo hcontents
  rw [hholds.contents_eq] at hcontents
  dsimp only at hfifo hcontents
  rw [bytesAt_zero_or hb] at hcontents
  rw [Fifo.write_congr hb] at hfifo hcontents
  have hframe : ∀ x, (x < s.buffer i ∨ s.buffer i + 260 ≤ x) →
      ((k.fifos i).write k.mem buf n).1 x = k.mem x := fun x hfar =>
    Fifo.write_out (.inr hroom) hplaced (hbuffer ▸ hfar)
  refine ⟨_, _, hwrite, h.setFifo hi ⟨?_, ?_, ?_⟩ (fun x _ hfar => hframe x hfar) ?_⟩
  · exact (congrArg Fifo.buffer hfifo).trans hbuffer
  · rw [hfifo]
    exact hroom
  · rw [← h.bytesAt hrange, ← hcontents, ← hbuffer]
    exact congrArg (fun a => WeirdOs.bytesAt ((k.fifos i).write k.mem buf n).1 a _)
      (congrArg Fifo.buffer hfifo).symm
  · intro x hx
    exact (hframe x (IoSetup.off_fifo hi hx)).trans (h.mem x hx)

/-- **Bytes are copied to a program.** -/
theorem Refines.copyOut {buf n : Nat} {bytes : List UInt8} (h : Refines s k io) (hlen : bytes.length ≤ n)
    (hrange : s.UserRange buf n) :
    Refines s (k.setMem (copyOut k.mem buf bytes)) { io with mem := writeBytes io.mem buf bytes } := by
  have hfits := hrange.fits
  refine h.setMem (fun x hx => copyOut_out hlen hfits ?_) fun x hx => ?_
  · by_contra hin
    exact s.outside x (hrange.user x (by omega) (by omega)) hx
  · rw [copyOut_eq (by omega)]
    exact writeBytes_congr (h.mem x hx)

/-- **`rdfs_inode::read`** gives a range of the file that it does not leave. -/
theorem rdfsRead_eq {size n offset : Nat} (data : Nat → UInt8)
    (hinside : offset = 0 ∨ offset + n ≤ size) :
    rdfsRead size data n offset = (min size n, (((List.range size).map data).drop offset).take n) := by
  have hcount : min size n = min n (size - offset) := by omega
  unfold rdfsRead
  rw [← List.map_drop, List.range_eq_range', List.drop_range', Nat.zero_add, Nat.mul_one,
    List.range'_eq_map_range, List.map_map, ← List.map_take, List.take_range, hcount]
  rfl

/-- The kernel can access the data of a file. -/
theorem Refines.diskAccess {i offset n : Nat} (h : Refines s k io) (hdisk : s.OnDisk i offset n) :
    k.access false (add32 (s.dataAt i) offset) (min (s.files.fs.inodes i).size n) = .ok () :=
  Kernel.access_iff.mpr (Kernel.canAccess_iff.mpr fun j hj => h.mapped false _ (.inl (hdisk j hj)))

/-- **What the methods of inodes read.** -/
theorem Refines.inodeRead {i buf n offset : Nat} (h : Refines s k io)
    (hallowed : io.AllowsRead s i buf n offset) :
    ∃ k' count, k.inodeRead i buf n offset = .ok (k', count) ∧ Refines s k' (io.readInto s i buf n offset) := by
  unfold Io.AllowsRead at hallowed
  unfold Io.readInto
  cases hkind : s.kind i with
  | directoryLike => exact ⟨k, 0, by unfold Kernel.inodeRead; rw [h.kind, hkind], h⟩
  | other => exact ⟨k, 0, by unfold Kernel.inodeRead; rw [h.kind, hkind], h⟩
  | rdfs data =>
      rw [hkind] at hallowed
      obtain ⟨hinside, hdisk, hrange⟩ := hallowed
      have hdata := h.diskAccess hdisk
      refine ⟨_, min (s.files.fs.inodes i).size n, ?_, h.copyOut ?_ hrange⟩
      · unfold Kernel.inodeRead
        rw [h.kind, hkind, h.files, h.dataAt]
        dsimp only
        rw [rdfsRead_eq data hinside]
        dsimp only
        rw [hdata, ok_bind, (h.userBuffer hrange true).access (Nat.min_le_right _ _), ok_bind]
        rfl
      · rw [List.length_take]
        exact Nat.min_le_left _ _
  | fifo =>
      rw [hkind] at hallowed
      dsimp only at hallowed ⊢
      by_cases hle : n ≤ (io.queue i).length
      · rw [if_pos hle]
        exact h.fifoRead hkind hle (hallowed hle) offset
      · have hshort : (k.fifos i).bufferIndex < n := by
          rw [← (h.fifos i hkind).length]
          exact Nat.not_le.mp hle
        have hread : (k.fifos i).read k.mem buf n = (k.mem, k.fifos i, 0) :=
          read_short (s := ⟨k.mem, k.fifos i⟩) buf hshort
        have haccess : k.fifoReadAccess (k.fifos i) buf n = .ok () := if_pos hshort
        rw [if_neg hle]
        refine ⟨k, 0, ?_, h⟩
        unfold Kernel.inodeRead
        rw [h.kind, hkind]
        dsimp only
        rw [haccess, ok_bind, hread, Function.update_eq_self]
        rfl

/-- **What they write.** -/
theorem Refines.inodeWrite {i buf n : Nat} (h : Refines s k io) (hallowed : io.AllowsWrite s i buf n) :
    ∃ k' count, k.inodeWrite i buf n = .ok (k', count) ∧ Refines s k' (io.writeFrom s i buf n) := by
  unfold Io.AllowsWrite at hallowed
  unfold Io.writeFrom
  cases hkind : s.kind i with
  | directoryLike => exact ⟨k, 0, by unfold Kernel.inodeWrite; rw [h.kind, hkind], h⟩
  | rdfs data => exact ⟨k, 0, by unfold Kernel.inodeWrite; rw [h.kind, hkind], h⟩
  | fifo =>
      rw [hkind] at hallowed
      exact h.fifoWrite hkind hallowed.1 hallowed.2
  | other =>
      rw [hkind] at hallowed
      obtain ⟨scr, hwrite, hshows, hframe⟩ :=
        write_shows h.screen hallowed.fits fun x hle hlt => IoSetup.offScreen (hallowed.user x hle hlt)
      refine ⟨{ k with screen := scr }, n, ?_, ?_⟩
      · unfold Kernel.inodeWrite
        rw [h.kind, hkind]
        dsimp only
        rw [(h.userBuffer hallowed false).access (Nat.le_refl n), ok_bind]
        exact bind_eq_ok.mpr ⟨scr, hwrite, rfl⟩
      · rw [← h.bytesAt hallowed]
        exact h.setScreen hshows hframe

/-- Text is printed. -/
theorem Refines.fputs (h : Refines s k io) (text : List UInt8) :
    ∃ scr, WeirdOs.fputs Screen.fputc k.screen text = .ok scr ∧
      Refines s { k with screen := scr } (io.print text) := by
  obtain ⟨scr, hprint, hshows, hframe⟩ := fputs_shows text h.screen
  exact ⟨scr, hprint, h.setScreen hshows hframe⟩

/-- The path in a program's buffer. -/
theorem Refines.textAt {a len : Nat} (h : Refines s k io) (hrange : s.UserRange a (len + 1))
    (hnul : io.mem (a + len) = 0) : k.mem (a + len) = 0 ∧
    WeirdOs.textAt k.mem a = .ok ((WeirdOs.bytesAt io.mem a len).takeWhile (· ≠ 0)) ∧
      WeirdOs.textAt io.mem a = .ok ((WeirdOs.bytesAt io.mem a len).takeWhile (· ≠ 0)) := by
  have hfits : a + len < 4294967296 := hrange.fits
  have hsame : WeirdOs.bytesAt k.mem a len = WeirdOs.bytesAt io.mem a len :=
    h.bytesAt (hrange.part (Nat.le_succ len))
  have hnul' : k.mem (a + len) = 0 :=
    (h.mem _ (hrange.user _ (Nat.le_add_right a len) (Nat.lt_succ_self _))).trans hnul
  rw [← hsame]
  refine ⟨hnul', cstring_bytesAt (by omega) hfits hnul', ?_⟩
  rw [hsame]
  exact cstring_bytesAt (by omega) hfits hnul

/-- The message about a number that is no system call. -/
theorem printf_invalid_eq (k : Kernel) (n : Nat) : k.printf Kernel.invalidSyscall [.word n] = do
    let screen ← fputs Screen.fputc k.screen (invalidMessage n)
    return { k with screen } := by
  have hformat : Kernel.invalidSyscall = Kernel.invalidSyscall.take 16 ++ [37, 100] := rfl
  have hprint : vfprintf Screen.fputc k.screen Kernel.invalidSyscall [.word n] =
      fputs Screen.fputc k.screen (invalidMessage n) := by
    rw [hformat, vfprintf_text (by decide), invalidMessage]
    unfold fputs
    rw [run_append_eq]
    refine congrArg _ (funext fun scr => ?_)
    rw [vfprintf_d]
    exact bind_pure _
  unfold Kernel.printf
  rw [hprint]

/-- **A system call** that is allowed returns, and does what the reference says. -/
theorem Refines.syscall {r : Regs} (h : Refines s k io) (hallowed : io.Allows s (.syscall r)) :
    ∃ k', k.syscallHandler r = .ok k' ∧ Refines s k' (io.step s (.syscall r)) := by
  unfold Kernel.syscallHandler
  unfold Io.Allows at hallowed
  unfold Io.step
  dsimp only at hallowed ⊢
  generalize r.eax.toNat = n at hallowed ⊢
  match n with
  | 0 =>
      obtain ⟨hroom, len, hrange, hnul, hpath⟩ := hallowed
      obtain ⟨hnul', htext, htext'⟩ := h.textAt hrange hnul
      obtain ⟨heap, dir, hnew, hkept, hres, hopened⟩ := h.opened hpath
      obtain ⟨path, hpath, hread⟩ := (h.userBuffer hrange false).text hnul' hkept
      obtain rfl := Except.ok.inj (hpath.symm.trans htext)
      have hlast : k.fdtable.lastDesc < FD_MAX := by
        rw [h.last]
        exact hroom
      have hopen : WeirdOs.syscallOpen k.files.fs k.files.vfs k.fdtable _ (toInt32 r.ecx.toNat) = .ok _ :=
        (syscallOpen_eq_ok (Nat.le_of_lt hlast)).mpr ⟨hlast, dir, hres, rfl, rfl⟩
      refine ⟨_, bind_eq_ok.mpr ⟨_, bind_eq_ok.mpr ⟨_, hnew, bind_eq_ok.mpr ⟨_, hread,
        bind_eq_ok.mpr ⟨_, hopen, rfl⟩⟩⟩, rfl⟩, ?_⟩
      rw [htext']
      dsimp only
      rw [← h.last]
      exact hopened _ _ _
  | 1 => exact ⟨k, rfl, h⟩
  | 2 =>
      obtain ⟨i, hi, hread⟩ := hallowed
      obtain ⟨k', count, hmethod, h'⟩ := h.inodeRead hread
      rw [hi]
      refine ⟨k', bind_eq_ok.mpr ⟨(k', 0), ?_, rfl⟩, h'⟩
      exact bind_eq_ok.mpr ⟨i, h.fileInode hi, bind_eq_ok.mpr ⟨_, hmethod, rfl⟩⟩
  | 3 =>
      obtain ⟨i, hi, hwrite⟩ := hallowed
      obtain ⟨k', count, hmethod, h'⟩ := h.inodeWrite hwrite
      rw [hi]
      refine ⟨k', bind_eq_ok.mpr ⟨(k', 0), ?_, rfl⟩, h'⟩
      exact bind_eq_ok.mpr ⟨i, h.fileInode hi, bind_eq_ok.mpr ⟨_, hmethod, rfl⟩⟩
  | n + 4 =>
      obtain ⟨scr, hprint, h'⟩ := h.fputs (invalidMessage (n + 4))
      refine ⟨_, ?_, h'⟩
      show k.printf Kernel.invalidSyscall [.word (n + 4)] = _
      rw [printf_invalid_eq]
      exact bind_eq_ok.mpr ⟨scr, hprint, rfl⟩

/-- **What is allowed** is done. -/
theorem Refines.step {op : IoOp} (h : Refines s k io) (hallowed : io.Allows s op) :
    ∃ k', k.ioStep op = .ok k' ∧ Refines s k' (io.step s op) := by
  cases op with
  | store a v =>
      have huser : s.user a := hallowed.user a (Nat.le_refl a) (Nat.lt_succ_self a)
      refine ⟨_, rfl, h.setMem (fun x hx => store8_out ?_) fun x hx => ?_⟩
      · rintro rfl
        exact s.outside x huser hx
      · unfold store8
        rw [h.mem x hx]
  | syscall r => exact h.syscall hallowed
  | openAt fd path oflag =>
      obtain ⟨hle, hlt, hpath⟩ := hallowed
      obtain ⟨heap, dir, hnew, -, hres, hopened⟩ := h.opened hpath
      have hfd : fd = (fd.toNat : Int) := (Int.toNat_of_nonneg hle).symm
      have hplace : fd.toNat < FD_MAX := by omega
      have hopen : WeirdOs.syscallOpenAt k.files.fs k.files.vfs k.fdtable fd path oflag = .ok _ :=
        syscallOpenAt_eq_ok.mpr ⟨fd.toNat, dir, hfd, hplace, hres, rfl, rfl⟩
      refine ⟨_, bind_eq_ok.mpr ⟨_, bind_eq_ok.mpr ⟨_, hnew, bind_eq_ok.mpr ⟨_, hopen, rfl⟩⟩, rfl⟩, ?_⟩
      have hsame : { io.opened s fd.toNat path with next := k.fdtable.lastDesc } =
          io.opened s fd.toNat path := by
        rw [h.last]
        unfold Io.opened
        split <;> rfl
      rw [Io.step, ← hsame]
      exact hopened _ _ _
  | printk text =>
      obtain ⟨scr, hprint, h'⟩ := h.fputs text
      exact ⟨_, bind_eq_ok.mpr ⟨scr, hprint, rfl⟩, h'⟩

end WeirdOs
