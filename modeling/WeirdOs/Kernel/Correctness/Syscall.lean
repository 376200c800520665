import WeirdOs.Drivers.Correctness.Vga
import WeirdOs.Fs.Correctness.Fifo
import WeirdOs.Fs.Correctness.Inodes
import WeirdOs.Fs.Correctness.Resolve
import WeirdOs.Fs.Correctness.Syscall
import WeirdOs.Heap.Correctness.New
import WeirdOs.Kernel.Syscall

/-!
# `Kernel.Correctness.Syscall` — which system calls return

`KernelOk` holds in every state that is reached: open files have inodes, `last_desc` is at most 512, the cursor
is in place, and the heap is in order. So what is printed cannot fail, and `new file` only for lack of room.
What else can fail is the way to a file and what its method accesses: a path or a descriptor that is not good
ends in an assertion or outside the table, an offset past the mapped memory in a page fault, and bytes that
the buffer of a fifo does not hold outside of it. `syscall_handler_iff` says for which arguments a call returns.
-/

namespace WeirdOs

open Lib

variable {k k' : Kernel} {op : KernelOp} {r : Regs} {buf n m offset inode count : Nat} {write : Bool}

/-! ## Memory -/

/-- Bytes that are copied out one after the other, and do not reach the end of memory. -/
theorem copyOut_eq {m : Mem} {dest : Nat} {bytes : List UInt8} (hfits : dest + bytes.length ≤ 4294967296) :
    copyOut m dest bytes = writeBytes m dest bytes := by
  induction bytes generalizing m dest with
  | nil => exact writeBytes_nil.symm
  | cons byte bytes ih =>
      rw [List.length_cons] at hfits
      rw [copyOut, writeBytes_cons]
      cases bytes with
      | nil => rw [writeBytes_nil, copyOut]
      | cons next bytes =>
          rw [List.length_cons] at hfits ih
          rw [add32_of_lt (by omega)]
          exact ih (by omega)

/-- Nothing is copied past a buffer that they fit. -/
theorem copyOut_out {m : Mem} {bytes : List UInt8} {x : Nat} (hlen : bytes.length ≤ n)
    (hfits : buf + n ≤ 4294967296) (hx : x < buf ∨ buf + n ≤ x) : copyOut m buf bytes x = m x := by
  rw [copyOut_eq (by omega)]
  exact writeBytes_out (by omega)

/-- Bytes of memory that is the same there. -/
theorem bytesAt_same {m m' : Mem} {a n : Nat} (h : ∀ x, a ≤ x → x < a + n → m x = m' x) :
    bytesAt m a n = bytesAt m' a n :=
  bytesAt_congr fun i hi => h (a + i) (Nat.le_add_right a i) (Nat.add_lt_add_left hi a)

/-- What a fifo writes when it is read: the buffer of the caller, and its own. -/
theorem Fifo.read_out {f : Fifo} {m : Mem} {x : Nat} (hroom : n ≤ f.bufferIndex → f.bufferIndex ≤ fifoSize)
    (hplace : f.Placed) (hfits : buf + n ≤ 4294967296) (hbuf : x < buf ∨ buf + n ≤ x)
    (hown : x < f.buffer ∨ f.buffer + 260 ≤ x) : (f.read m buf n).1 x = m x := by
  unfold Fifo.Placed at hplace
  unfold fifoSize at hroom
  by_cases hle : n ≤ f.bufferIndex
  · have hstored := hroom hle
    rw [read_served hle]
    dsimp only
    rw [memcpy_out (by omega) (by omega), memcpy_out hfits hbuf]
  · rw [read_short (s := ⟨m, f⟩) buf (Nat.not_le.mp hle)]

/-- What it writes when it is written to. -/
theorem Fifo.write_out {f : Fifo} {m : Mem} {x : Nat} (hroom : n = 0 ∨ f.bufferIndex + n ≤ fifoSize)
    (hplace : f.Placed) (hown : x < f.buffer ∨ f.buffer + 260 ≤ x) : (f.write m buf n).1 x = m x := by
  unfold Fifo.Placed at hplace
  unfold fifoSize at hroom
  unfold Fifo.write
  dsimp only
  rcases hroom with rfl | hroom
  · rfl
  · rw [add32_of_lt (by omega), memcpy_out (by omega) (by omega)]

/-! ## Accesses -/

theorem Kernel.canAccess_iff :
    k.canAccess write buf n = true ↔ ∀ i < n, k.mapped ⟨false, write⟩ (add32 buf i) = true := by
  unfold Kernel.canAccess
  simp only [List.all_eq_true, List.mem_range]

theorem Kernel.canAccess_range (hfits : buf + n ≤ 4294967296)
    (h : ∀ x, buf ≤ x → x < buf + n → k.mapped ⟨false, write⟩ x = true) : k.canAccess write buf n = true := by
  refine Kernel.canAccess_iff.mpr fun i hi => ?_
  rw [add32_of_lt (by omega)]
  exact h _ (Nat.le_add_right _ _) (by omega)

/-- An access returns iff the memory is mapped. -/
theorem Kernel.access_iff : k.access write buf n = .ok () ↔ k.canAccess write buf n = true := by
  unfold Kernel.access
  split
  · next h => exact iff_of_true rfl h
  · next h => exact iff_of_false (fun h' => by cases h') h

/-- A valid buffer can be accessed. -/
theorem Kernel.Buffer.access (h : k.Buffer write buf n) (hle : m ≤ n) : k.access write buf m = .ok () := by
  have hfits := h.fits
  exact Kernel.access_iff.mpr (Kernel.canAccess_range (by omega) fun x hle hlt => h.mapped x hle (by omega))

/-- What a read accesses besides the buffer of the caller: the data of the file, from the offset on, or what is
    behind the bytes that are taken from a fifo. -/
def Kernel.CanRead (k : Kernel) (inode n offset : Nat) : Prop :=
  match (k.files.fs.inodes inode).kind with
  | .rdfs _        =>
    k.canAccess false (add32 (k.dataAt inode) offset) (min (k.files.fs.inodes inode).size n) = true
  | .fifo          => n ≤ (k.fifos inode).bufferIndex → (k.fifos inode).bufferIndex ≤ fifoSize ∧
    k.canAccess false (add32 (k.fifos inode).buffer n) (k.fifos inode).bufferIndex = true
  | .directoryLike => True
  | .other         => True

/-- A write has room in the buffer of a fifo. -/
def Kernel.CanWrite (k : Kernel) (inode n : Nat) : Prop :=
  match (k.files.fs.inodes inode).kind with
  | .fifo          => n = 0 ∨ (k.fifos inode).bufferIndex + n ≤ fifoSize
  | .rdfs _        => True
  | .directoryLike => True
  | .other         => True

theorem Kernel.fifoReadAccess_iff {f : Fifo} (hbuf : k.Buffer true buf n) :
    k.fifoReadAccess f buf n = .ok () ↔ (n ≤ f.bufferIndex → f.bufferIndex ≤ fifoSize ∧
      k.canAccess false (add32 f.buffer n) f.bufferIndex = true) := by
  unfold Kernel.fifoReadAccess
  by_cases hshort : f.bufferIndex < n
  · rw [if_pos hshort]
    exact iff_of_true rfl fun hle => absurd hle (Nat.not_le.mpr hshort)
  · have hle := Nat.not_lt.mp hshort
    rw [if_neg hshort, hbuf.access (Nat.le_refl n), ok_bind]
    by_cases hroom : f.bufferIndex ≤ fifoSize
    · rw [if_pos hroom, Kernel.access_iff]
      exact ⟨fun h _ => ⟨hroom, h⟩, fun h => (h hle).2⟩
    · rw [if_neg hroom]
      exact iff_of_false (fun h => by cases h) fun h => hroom (h hle).1

theorem Kernel.fifoWriteAccess_iff {f : Fifo} (hbuf : k.Buffer false buf n) :
    k.fifoWriteAccess f buf n = .ok () ↔ (n = 0 ∨ f.bufferIndex + n ≤ fifoSize) := by
  unfold Kernel.fifoWriteAccess
  rw [hbuf.access (Nat.le_refl n), ok_bind]
  split
  · next h => exact iff_of_true rfl h
  · next h => exact iff_of_false (fun h' => by cases h') h

/-- **The method that reads** returns iff what it accesses is there. -/
theorem Kernel.inodeRead_iff (hbuf : k.Buffer true buf n) :
    (∃ k' count, k.inodeRead inode buf n offset = .ok (k', count)) ↔ k.CanRead inode n offset := by
  unfold Kernel.inodeRead Kernel.CanRead
  cases (k.files.fs.inodes inode).kind with
  | directoryLike => exact iff_of_true ⟨k, 0, rfl⟩ trivial
  | other => exact iff_of_true ⟨k, 0, rfl⟩ trivial
  | rdfs data =>
      dsimp only [rdfsRead]
      rw [← Kernel.access_iff]
      constructor
      · rintro ⟨k', count, hread⟩
        obtain ⟨_, haccess, -⟩ := bind_eq_ok.mp hread
        exact haccess
      · intro haccess
        rw [haccess, ok_bind, hbuf.access (Nat.min_le_right _ _), ok_bind]
        exact ⟨_, _, rfl⟩
  | fifo =>
      dsimp only
      rw [← Kernel.fifoReadAccess_iff hbuf]
      constructor
      · rintro ⟨k', count, hread⟩
        obtain ⟨_, haccess, -⟩ := bind_eq_ok.mp hread
        exact haccess
      · intro haccess
        rw [haccess, ok_bind]
        exact ⟨_, _, rfl⟩

/-! ## The invariant -/

/-- **The invariant of the kernel.** -/
structure KernelOk (k : Kernel) : Prop where
  files : FilesInode k.files
  table : ∀ place f, k.fdtable.data place = some f → ∃ i, f.inode = some i
  last : k.fdtable.lastDesc ≤ FD_MAX
  placed : Placed k.screen
  heap : ∃ bs, HeapInv KHEAP_START (KHEAP_START + KHEAP_SIZE) k.heap bs

theorem kernelOk_start {before : Kernel} (h : before.start = .ok k) : KernelOk k := by
  obtain ⟨screen, hclear, hshows, -⟩ := cleark_shows before.screen
  unfold Kernel.start at h
  rw [hclear] at h
  cases h
  have hplaced := hshows.placed (Nat.zero_le _)
  exact ⟨filesInode_empty, fun _ _ hf => (by cases hf), Nat.zero_le _,
    ⟨hplaced.line, hplaced.column, hplaced.vbuf⟩, _, HeapInv.init _ (by decide) (by decide)⟩

/-- Fifos change, and memory that is not the heap's own. -/
theorem KernelOk.setMem {m : Mem} (h : KernelOk k) (fifos : Nat → Fifo)
    (hm : ∀ x, k.HeapOwn x → m x = k.mem x) : KernelOk ({ k with fifos }.setMem m) := by
  obtain ⟨bs, hinv⟩ := h.heap
  exact ⟨h.files, h.table, h.last, ⟨h.placed.line, h.placed.column, h.placed.vbuf⟩, bs, hinv.setOther hm⟩

/-- The heap is off the screen. -/
theorem Kernel.HeapOwn.offScreen {x : Nat} (h : k.HeapOwn x) : OffScreen x := by
  have hle : 0xd0000000 ≤ x := h.1
  unfold OffScreen VIDEO_BUFFER screenSize
  omega

theorem KernelOk.setScreen {screen : Screen} (h : KernelOk k) (hplaced : Placed screen)
    (hkeep : ∀ a, OffScreen a → screen.mem a = k.mem a) : KernelOk { k with screen } := by
  obtain ⟨bs, hinv⟩ := h.heap
  exact ⟨h.files, h.table, h.last, hplaced, bs, hinv.setOther fun x hx => hkeep x (Kernel.HeapOwn.offScreen hx)⟩

/-- The heap has been used. -/
theorem KernelOk.setHeap {s : HeapState} {bs : List Block} (h : KernelOk k)
    (hinv : HeapInv KHEAP_START (KHEAP_START + KHEAP_SIZE) s bs) : KernelOk (k.setHeap s) :=
  ⟨h.files, h.table, h.last, ⟨h.placed.line, h.placed.column, h.placed.vbuf⟩, bs, hinv⟩

/-- A fifo on the heap is in memory, and none of it is the heap's own. -/
theorem KernelOk.fifo_placed (h : KernelOk k) (hlive : k.FifosLive)
    (hkind : (k.files.fs.inodes inode).kind = .fifo) : (k.fifos inode).Placed ∧
      ∀ x, k.HeapOwn x → x < (k.fifos inode).buffer ∨ (k.fifos inode).buffer + 260 ≤ x := by
  obtain ⟨bs, hinv⟩ := h.heap
  obtain ⟨p, size, hp, hle, hend⟩ := hlive inode hkind
  obtain ⟨b, hb, -, rfl, hsize, -⟩ := hinv.block_of_live hp
  have hbound := hinv.layout.bound hb
  have hpay := Block.payload_eq b
  refine ⟨?_, fun x hx => ?_⟩
  · unfold Fifo.Placed
    omega
  · have hout := hx.2.2 _ _ hp
    omega

/-! ## Opening -/

/-- **What `new file` takes from the heap** can be had iff there is room for the file and its counter. -/
theorem HeapInv.newFile_iff {lo hi : Nat} {s : HeapState} {bs : List Block} (h : HeapInv lo hi s bs)
    (hlo : 0 < lo) : (∃ s', s.newFile = .ok s') ↔ s.RoomForTwo 20 8 := by
  rw [← h.new_new_iff hlo (by decide) (by decide)]
  constructor
  · rintro ⟨s', hnew⟩
    obtain ⟨⟨p, s₁⟩, hfirst, hnew⟩ := bind_eq_ok.mp hnew
    obtain ⟨⟨q, s₂⟩, hsecond, -⟩ := bind_eq_ok.mp hnew
    exact ⟨p, s₁, q, s₂, hfirst, hsecond⟩
  · rintro ⟨p, s₁, q, s₂, hfirst, hsecond⟩
    exact ⟨s₂, bind_eq_ok.mpr ⟨_, hfirst, bind_eq_ok.mpr ⟨_, hsecond, rfl⟩⟩⟩

theorem HeapInv.newFile_kept {lo hi : Nat} {s s' : HeapState} {bs : List Block} (h : HeapInv lo hi s bs)
    (hnew : s.newFile = .ok s') : HeapKept lo hi s s' := by
  obtain ⟨⟨p, s₁⟩, hfirst, hnew⟩ := bind_eq_ok.mp hnew
  obtain ⟨⟨q, s₂⟩, hsecond, hret⟩ := bind_eq_ok.mp hnew
  cases hret
  have hkept := h.new_kept (by decide) hfirst
  obtain ⟨bs₁, h₁⟩ := hkept.inv
  exact hkept.trans (h₁.new_kept (by decide) hsecond)

/-- **`new file`** returns iff there is that room. -/
theorem KernelOk.newFile_iff (h : KernelOk k) : (∃ k', k.newFile = .ok k') ↔ k.heap.RoomForTwo 20 8 := by
  obtain ⟨bs, hinv⟩ := h.heap
  rw [← hinv.newFile_iff (by decide)]
  constructor
  · rintro ⟨k', hnew⟩
    obtain ⟨s, hs, -⟩ := bind_eq_ok.mp hnew
    exact ⟨s, hs⟩
  · rintro ⟨s, hs⟩
    exact ⟨_, bind_eq_ok.mpr ⟨s, hs, rfl⟩⟩

/-- It changes nothing but the heap. -/
theorem KernelOk.newFile (h : KernelOk k) (hnew : k.newFile = .ok k') :
    ∃ s, k' = k.setHeap s ∧ HeapKept KHEAP_START (KHEAP_START + KHEAP_SIZE) k.heap s := by
  obtain ⟨bs, hinv⟩ := h.heap
  obtain ⟨s, hs, hret⟩ := bind_eq_ok.mp hnew
  cases hret
  exact ⟨s, rfl, hinv.newFile_kept hs⟩

theorem KernelOk.kept {s : HeapState} (h : KernelOk k)
    (hkept : HeapKept KHEAP_START (KHEAP_START + KHEAP_SIZE) k.heap s) : KernelOk (k.setHeap s) := by
  obtain ⟨bs, hinv⟩ := hkept.inv
  exact h.setHeap hinv

/-- **The text of a caller** is read, also after the heap has been used. -/
theorem Kernel.Buffer.text {a len : Nat} {s : HeapState} (h : k.Buffer false a (len + 1))
    (hnul : k.mem (a + len) = 0) (hkept : HeapKept KHEAP_START (KHEAP_START + KHEAP_SIZE) k.heap s) :
    ∃ path, textAt k.mem a = .ok path ∧ (k.setHeap s).text a = .ok path := by
  have hfits : a + len < 4294967296 := h.fits
  have hmem : ∀ x, a ≤ x → x < a + (len + 1) → s.heap.mem x = k.mem x := fun x hle hlt =>
    hkept.mem x (h.apart x hle hlt)
  refine ⟨_, cstring_bytesAt (by omega) hfits hnul, ?_⟩
  have hnul' : s.heap.mem (a + len) = 0 := (hmem _ (by omega) (by omega)).trans hnul
  have htext : textAt (k.setHeap s).mem a = .ok ((bytesAt s.heap.mem a len).takeWhile (· ≠ 0)) :=
    cstring_bytesAt (by omega) hfits hnul'
  have hsame : bytesAt s.heap.mem a len = bytesAt k.mem a len :=
    bytesAt_same fun x hle hlt => hmem x hle (by omega)
  have hlen : ((bytesAt k.mem a len).takeWhile (· ≠ 0)).length ≤ len :=
    Nat.le_trans (List.takeWhile_prefix _).length_le (Nat.le_of_eq (bytesAt_length ..))
  refine bind_eq_ok.mpr ⟨_, htext, ?_⟩
  rw [hsame]
  exact bind_eq_ok.mpr ⟨(), h.access (Nat.succ_le_succ hlen), rfl⟩

/-- A file that is opened has an inode. -/
theorem KernelOk.setFile {vfs : Vfs} {path : List UInt8} {dir place last : Nat} {oflag : Int} (h : KernelOk k)
    (hres : resolvePath k.files.fs vfs path = .ok (some dir)) (hlast : last ≤ FD_MAX) :
    KernelOk { k with fdtable := ⟨Function.update k.fdtable.data place
      (some ⟨1, (k.files.fs.dirents dir).inode, oflag, 0⟩), last⟩ } := by
  refine ⟨h.files, ?_, hlast, h.placed, h.heap⟩
  intro place' f hf
  dsimp only at hf
  by_cases hplace : place' = place
  · rw [hplace, Function.update_self] at hf
    cases hf
    exact h.files.resolved hres
  · rw [Function.update_of_ne hplace] at hf
    exact h.table place' f hf

/-- **`syscall_open_at`** keeps the invariant. -/
theorem KernelOk.openAt {fildes fd : Int} {path : List UInt8} {oflag : Int} (h : KernelOk k)
    (hopen : k.syscallOpenAt fildes path oflag = .ok (k', fd)) : KernelOk k' := by
  obtain ⟨k₁, hnew, hopen⟩ := bind_eq_ok.mp hopen
  obtain ⟨⟨table, fd'⟩, htable, hret⟩ := bind_eq_ok.mp hopen
  cases hret
  obtain ⟨s, rfl, hkept⟩ := h.newFile hnew
  obtain ⟨place, dir, -, -, hres, rfl, -⟩ := syscallOpenAt_eq_ok.mp htable
  exact (h.kept hkept).setFile hres h.last

/-- **`syscall_open`** keeps it too. -/
theorem KernelOk.open {path : Nat} {oflag fd : Int} (h : KernelOk k)
    (hopen : k.syscallOpen path oflag = .ok (k', fd)) : KernelOk k' := by
  obtain ⟨k₁, hnew, hopen⟩ := bind_eq_ok.mp hopen
  obtain ⟨text, -, hopen⟩ := bind_eq_ok.mp hopen
  obtain ⟨⟨table, fd'⟩, htable, hret⟩ := bind_eq_ok.mp hopen
  cases hret
  obtain ⟨s, rfl, hkept⟩ := h.newFile hnew
  obtain ⟨hlt, dir, hres, rfl, -⟩ := (syscallOpen_eq_ok h.last).mp htable
  exact (h.kept hkept).setFile hres hlt

/-- It returns iff there is room in the table and in the heap, and the path resolves. -/
theorem KernelOk.open_iff {a len : Nat} {oflag : Int} (h : KernelOk k) (hbuf : k.Buffer false a (len + 1))
    (hnul : k.mem (a + len) = 0) : (∃ k' fd, k.syscallOpen a oflag = .ok (k', fd)) ↔
      k.fdtable.lastDesc < FD_MAX ∧ k.heap.RoomForTwo 20 8 ∧
        ∃ path dir, textAt k.mem a = .ok path ∧ resolvePath k.files.fs k.files.vfs path = .ok (some dir) := by
  rw [← h.newFile_iff]
  constructor
  · rintro ⟨k', fd, hopen⟩
    obtain ⟨k₁, hnew, hopen⟩ := bind_eq_ok.mp hopen
    obtain ⟨text, htext, hopen⟩ := bind_eq_ok.mp hopen
    obtain ⟨⟨table, fd'⟩, htable, -⟩ := bind_eq_ok.mp hopen
    obtain ⟨s, rfl, hkept⟩ := h.newFile hnew
    obtain ⟨path, hpath, hread⟩ := hbuf.text hnul hkept
    obtain rfl := Except.ok.inj (htext.symm.trans hread)
    obtain ⟨hlt, dir, hres⟩ := (syscallOpen_iff h.last).mp ⟨table, fd', htable⟩
    exact ⟨hlt, ⟨_, hnew⟩, text, dir, hpath, hres⟩
  · rintro ⟨hlt, ⟨k₁, hnew⟩, path, dir, hpath, hres⟩
    obtain ⟨s, rfl, hkept⟩ := h.newFile hnew
    obtain ⟨text, htext, hread⟩ := hbuf.text hnul hkept
    obtain rfl := Except.ok.inj (hpath.symm.trans htext)
    obtain ⟨table, fd, htable⟩ : ∃ table fd,
        WeirdOs.syscallOpen k.files.fs k.files.vfs k.fdtable path oflag = .ok (table, fd) :=
      (syscallOpen_iff h.last).mpr ⟨hlt, dir, hres⟩
    exact ⟨_, fd, bind_eq_ok.mpr ⟨_, hnew, bind_eq_ok.mpr ⟨path, hread, bind_eq_ok.mpr ⟨_, htable, rfl⟩⟩⟩⟩

/-! ## Reading and writing -/

/-- What is read goes to the buffer of the caller. -/
theorem KernelOk.inodeRead (h : KernelOk k) (hbuf : k.Buffer true buf n) (hlive : k.FifosLive)
    (hread : k.inodeRead inode buf n offset = .ok (k', count)) : KernelOk k' := by
  have hfits := hbuf.fits
  have hapart : ∀ x, k.HeapOwn x → x < buf ∨ buf + n ≤ x := fun x hx => by
    by_contra hin
    exact hbuf.apart x (by omega) (by omega) hx
  unfold Kernel.inodeRead at hread
  cases hkind : (k.files.fs.inodes inode).kind with
  | directoryLike =>
      rw [hkind] at hread
      cases hread
      exact h
  | other =>
      rw [hkind] at hread
      cases hread
      exact h
  | rdfs data =>
      rw [hkind] at hread
      obtain ⟨_, -, hread⟩ := bind_eq_ok.mp hread
      obtain ⟨_, -, hread⟩ := bind_eq_ok.mp hread
      cases hread
      refine h.setMem k.fifos fun x hx => ?_
      have hlen : (rdfsRead (k.files.fs.inodes inode).size data n offset).2.length ≤ n := by
        unfold rdfsRead
        rw [List.length_map, List.length_range]
        exact Nat.min_le_right _ _
      exact copyOut_out hlen hfits (hapart x hx)
  | fifo =>
      rw [hkind] at hread
      obtain ⟨_, haccess, hread⟩ := bind_eq_ok.mp hread
      have hstored := (Kernel.fifoReadAccess_iff hbuf).mp haccess
      obtain ⟨hplace, hown⟩ := h.fifo_placed hlive hkind
      obtain ⟨rfl, -⟩ := Prod.mk.inj (Except.ok.inj hread)
      exact h.setMem _ fun x hx => Fifo.read_out (fun hle => (hstored hle).1) hplace hfits (hapart x hx) (hown x hx)

/-- What is written goes to a fifo or to the screen, if there is room. -/
theorem KernelOk.inodeWrite_iff (h : KernelOk k) (hbuf : k.Buffer false buf n) :
    (∃ k' count, k.inodeWrite inode buf n = .ok (k', count)) ↔ k.CanWrite inode n := by
  unfold Kernel.inodeWrite Kernel.CanWrite
  cases (k.files.fs.inodes inode).kind with
  | directoryLike => exact iff_of_true ⟨k, 0, rfl⟩ trivial
  | rdfs data => exact iff_of_true ⟨k, 0, rfl⟩ trivial
  | fifo =>
      dsimp only
      rw [← Kernel.fifoWriteAccess_iff hbuf]
      constructor
      · rintro ⟨k', count, hwrite⟩
        obtain ⟨_, haccess, -⟩ := bind_eq_ok.mp hwrite
        exact haccess
      · intro haccess
        rw [haccess, ok_bind]
        exact ⟨_, _, rfl⟩
  | other =>
      obtain ⟨screen, hwrite, -, -⟩ := write_placed buf n h.placed
      dsimp only
      rw [hbuf.access (Nat.le_refl n), hwrite]
      exact iff_of_true ⟨_, _, rfl⟩ trivial

theorem KernelOk.inodeWrite (h : KernelOk k) (hbuf : k.Buffer false buf n) (hlive : k.FifosLive)
    (hwrite : k.inodeWrite inode buf n = .ok (k', count)) : KernelOk k' := by
  unfold Kernel.inodeWrite at hwrite
  cases hkind : (k.files.fs.inodes inode).kind with
  | directoryLike =>
      rw [hkind] at hwrite
      cases hwrite
      exact h
  | rdfs data =>
      rw [hkind] at hwrite
      cases hwrite
      exact h
  | fifo =>
      rw [hkind] at hwrite
      obtain ⟨_, haccess, hwrite⟩ := bind_eq_ok.mp hwrite
      have hroom := (Kernel.fifoWriteAccess_iff hbuf).mp haccess
      obtain ⟨hplace, hown⟩ := h.fifo_placed hlive hkind
      obtain ⟨rfl, -⟩ := Prod.mk.inj (Except.ok.inj hwrite)
      exact h.setMem _ fun x hx => Fifo.write_out hroom hplace (hown x hx)
  | other =>
      rw [hkind] at hwrite
      obtain ⟨_, -, hwrite⟩ := bind_eq_ok.mp hwrite
      obtain ⟨screen, hscreen, hret⟩ := bind_eq_ok.mp hwrite
      cases hret
      obtain ⟨screen', hscreen', hplaced, hkeep⟩ := write_placed buf n h.placed
      cases hscreen.symm.trans hscreen'
      exact h.setScreen hplaced hkeep

/-- The number of a place in the table, among all 32-bit values. -/
theorem toInt32_eq_place {n : UInt32} {place : Nat} (hplace : place < FD_MAX) :
    toInt32 n.toNat = place ↔ n.toNat = place := by
  have hn := n.toNat_lt
  unfold FD_MAX at hplace
  unfold toInt32
  split <;> omega

/-- **A descriptor leads to an inode** iff it is in the table and has been opened. -/
theorem Kernel.fileInode_iff {fildes : UInt32} : k.fileInode (toInt32 fildes.toNat) = .ok inode ↔
    fildes.toNat < FD_MAX ∧ ∃ f, k.fdtable.data fildes.toNat = some f ∧ f.inode = some inode := by
  unfold Kernel.fileInode
  constructor
  · intro hi
    obtain ⟨place, hplace, hi⟩ := bind_eq_ok.mp hi
    obtain ⟨hfildes, hlt⟩ := checkFildes_eq_ok.mp hplace
    obtain rfl := (toInt32_eq_place hlt).mp hfildes
    refine ⟨hlt, ?_⟩
    cases hf : k.fdtable.data fildes.toNat with
    | none => simp [hf] at hi
    | some f =>
        rw [hf] at hi
        exact ⟨f, rfl, deref_eq_ok.mp hi⟩
  · rintro ⟨hlt, f, hf, hi⟩
    refine bind_eq_ok.mpr ⟨fildes.toNat, checkFildes_eq_ok.mpr ⟨(toInt32_eq_place hlt).mpr rfl, hlt⟩, ?_⟩
    rw [hf]
    exact deref_eq_ok.mpr hi

/-- `syscall_read` returns iff the descriptor leads to an inode that can be read. -/
theorem Kernel.syscallRead_iff {fildes : UInt32} (hbuf : k.Buffer true buf n) :
    (∃ k' res, k.syscallRead (toInt32 fildes.toNat) buf n offset = .ok (k', res)) ↔
      fildes.toNat < FD_MAX ∧ ∃ f i, k.fdtable.data fildes.toNat = some f ∧ f.inode = some i ∧
        k.CanRead i n offset := by
  constructor
  · rintro ⟨k', res, hread⟩
    obtain ⟨i, hi, hread⟩ := bind_eq_ok.mp hread
    obtain ⟨⟨k₁, count⟩, hread, -⟩ := bind_eq_ok.mp hread
    obtain ⟨hlt, f, hf, hi⟩ := Kernel.fileInode_iff.mp hi
    exact ⟨hlt, f, i, hf, hi, (Kernel.inodeRead_iff hbuf).mp ⟨k₁, count, hread⟩⟩
  · rintro ⟨hlt, f, i, hf, hi, hread⟩
    obtain ⟨k₁, count, hread⟩ := (Kernel.inodeRead_iff hbuf).mpr hread
    exact ⟨k₁, 0, bind_eq_ok.mpr ⟨i, Kernel.fileInode_iff.mpr ⟨hlt, f, hf, hi⟩,
      bind_eq_ok.mpr ⟨_, hread, rfl⟩⟩⟩

theorem KernelOk.syscallWrite_iff {fildes : UInt32} (h : KernelOk k) (hbuf : k.Buffer false buf n) :
    (∃ k' res, k.syscallWrite (toInt32 fildes.toNat) buf n offset = .ok (k', res)) ↔
      fildes.toNat < FD_MAX ∧ ∃ f i, k.fdtable.data fildes.toNat = some f ∧ f.inode = some i ∧
        k.CanWrite i n := by
  constructor
  · rintro ⟨k', res, hwrite⟩
    obtain ⟨i, hi, hwrite⟩ := bind_eq_ok.mp hwrite
    obtain ⟨⟨k₁, count⟩, hwrite, -⟩ := bind_eq_ok.mp hwrite
    obtain ⟨hlt, f, hf, hi⟩ := Kernel.fileInode_iff.mp hi
    exact ⟨hlt, f, i, hf, hi, (h.inodeWrite_iff hbuf).mp ⟨k₁, count, hwrite⟩⟩
  · rintro ⟨hlt, f, i, hf, hi, hwrite⟩
    obtain ⟨k₁, count, hwrite⟩ := (h.inodeWrite_iff hbuf).mpr hwrite
    exact ⟨k₁, 0, bind_eq_ok.mpr ⟨i, Kernel.fileInode_iff.mpr ⟨hlt, f, hf, hi⟩,
      bind_eq_ok.mpr ⟨_, hwrite, rfl⟩⟩⟩

/-- The message about a number that is no system call is printed. -/
theorem KernelOk.printf_invalid (h : KernelOk k) (n : Nat) :
    ∃ k', k.printf Kernel.invalidSyscall [.word n] = .ok k' ∧ KernelOk k' := by
  obtain ⟨s₁, htext, h₁, hkeep₁⟩ := fputs_placed (Kernel.invalidSyscall.take 16) h.placed
  obtain ⟨s₂, hnumber, h₂, hkeep₂⟩ := fputs_placed (itoa (toInt32 n) 10) h₁
  have hprint : vfprintf Screen.fputc k.screen Kernel.invalidSyscall [.word n] = .ok s₂ := by
    have hformat : Kernel.invalidSyscall = Kernel.invalidSyscall.take 16 ++ [37, 100] := rfl
    rw [hformat, vfprintf_text (by decide), htext, ok_bind, vfprintf_d, hnumber]
    rfl
  exact ⟨{ k with screen := s₂ }, bind_eq_ok.mpr ⟨s₂, hprint, rfl⟩,
    h.setScreen h₂ fun a ha => (hkeep₂ a ha).trans (hkeep₁ a ha)⟩

/-! ## The handler -/

/-- **What keeps a system call from failing.** For opening, room in the table and in the heap, and a path from
    the root that can be followed; for reading and writing, the number of a file, and an inode whose method
    stays in mapped memory and inside of its buffer. -/
def SyscallOk (k : Kernel) (root : Nat) (r : Regs) : Prop :=
  match r.eax.toNat with
  | 0 => k.fdtable.lastDesc < FD_MAX ∧ k.heap.RoomForTwo 20 8 ∧ ∃ path, textAt k.mem r.ebx.toNat = .ok path ∧
      path.head? = some slash ∧ (∀ name ∈ components path, name.length ≤ 254) ∧
      ∃ dir, k.files.fs.graph.descend root (components path) = some dir
  | 2 => r.ebx.toNat < FD_MAX ∧ ∃ f i, k.fdtable.data r.ebx.toNat = some f ∧ f.inode = some i ∧
      k.CanRead i r.edx.toNat r.esi.toNat
  | 3 => r.ebx.toNat < FD_MAX ∧ ∃ f i, k.fdtable.data r.ebx.toNat = some f ∧ f.inode = some i ∧
      k.CanWrite i r.edx.toNat
  | _ => True

/-- A path resolves iff it starts at the root, its components fit the buffer, and they lead somewhere. -/
theorem resolvePath_eq_some {fs : Fs} {root d : Nat} {path : List UInt8} :
    resolvePath fs ⟨some root⟩ path = .ok (some d) ↔ path.head? = some slash ∧
      (∀ name ∈ components path, name.length ≤ 254) ∧ fs.graph.descend root (components path) = some d := by
  rw [resolvePath_eq]
  by_cases hhead : path.head? = some slash
  · rw [if_pos hhead, walkPath_eq_some]
    simp only [hhead, true_and, Nat.lt_succ_iff]
  · rw [if_neg hhead]
    exact iff_of_false (fun h => by cases h) fun h => hhead h.1

/-- A call that returns what another one leaves. -/
theorem exists_bind_fst {α : Type} {x : Exec (Kernel × α)} :
    (∃ k', (x >>= fun r => pure r.1) = Except.ok (ε := Fault) k') ↔ ∃ k' a, x = .ok (k', a) := by
  constructor
  · rintro ⟨k', h⟩
    obtain ⟨⟨k₁, a⟩, hx, -⟩ := bind_eq_ok.mp h
    exact ⟨k₁, a, hx⟩
  · rintro ⟨k', a, hx⟩
    exact ⟨k', bind_eq_ok.mpr ⟨_, hx, rfl⟩⟩

/-- **A call returns** exactly then. -/
theorem KernelOk.handler_iff {root : Nat} (h : KernelOk k) (hroot : k.files.vfs = ⟨some root⟩)
    (hargs : k.ValidArgs r) : (∃ k', k.syscallHandler r = .ok k') ↔ SyscallOk k root r := by
  unfold Kernel.ValidArgs at hargs
  unfold Kernel.syscallHandler SyscallOk
  generalize r.eax.toNat = n at hargs
  match n with
  | 0 =>
      obtain ⟨len, hbuf, hnul⟩ := hargs
      refine exists_bind_fst.trans ((h.open_iff hbuf hnul).trans ?_)
      rw [hroot]
      simp only [resolvePath_eq_some]
      constructor
      · rintro ⟨hlt, hroom, path, dir, htext, hhead, hnames, hdir⟩
        exact ⟨hlt, hroom, path, htext, hhead, hnames, dir, hdir⟩
      · rintro ⟨hlt, hroom, path, htext, hhead, hnames, dir, hdir⟩
        exact ⟨hlt, hroom, path, dir, htext, hhead, hnames, hdir⟩
  | 1 => exact iff_of_true ⟨_, rfl⟩ trivial
  | 2 => exact exists_bind_fst.trans (Kernel.syscallRead_iff hargs)
  | 3 => exact exists_bind_fst.trans (h.syscallWrite_iff hargs)
  | n + 4 =>
      obtain ⟨k', hprint, -⟩ := h.printf_invalid (n + 4)
      exact iff_of_true ⟨k', hprint⟩ trivial

/-- A call that returns keeps the invariant. -/
theorem KernelOk.handler (h : KernelOk k) (hargs : k.ValidArgs r) (hlive : k.FifosLive)
    (hcall : k.syscallHandler r = .ok k') : KernelOk k' := by
  unfold Kernel.ValidArgs at hargs
  unfold Kernel.syscallHandler at hcall
  generalize r.eax.toNat = n at hargs hcall
  match n with
  | 0 =>
      obtain ⟨⟨k₁, fd⟩, hopen, hret⟩ := bind_eq_ok.mp hcall
      cases hret
      exact h.open hopen
  | 1 =>
      cases hcall
      exact h
  | 2 =>
      obtain ⟨⟨k₁, res⟩, hread, hret⟩ := bind_eq_ok.mp hcall
      cases hret
      obtain ⟨i, -, hmethod⟩ := bind_eq_ok.mp hread
      obtain ⟨⟨k₂, count⟩, hmethod', hret⟩ := bind_eq_ok.mp hmethod
      cases hret
      exact h.inodeRead hargs hlive hmethod'
  | 3 =>
      obtain ⟨⟨k₁, res⟩, hwrite, hret⟩ := bind_eq_ok.mp hcall
      cases hret
      obtain ⟨i, -, hmethod⟩ := bind_eq_ok.mp hwrite
      obtain ⟨⟨k₂, count⟩, hmethod', hret⟩ := bind_eq_ok.mp hmethod
      cases hret
      exact h.inodeWrite hargs hlive hmethod'
  | n + 4 =>
      obtain ⟨k₁, hprint, h₁⟩ := h.printf_invalid (n + 4)
      cases hprint.symm.trans hcall
      exact h₁

/-! ## Reachable states -/

/-- **Everything that happens** keeps the invariant. -/
theorem KernelOk.step (h : KernelOk k) (hvalid : k.Valid op) (hstep : k.step op = .ok k') : KernelOk k' := by
  cases op with
  | files op =>
      obtain ⟨files, hfiles, hrest⟩ := bind_eq_ok.mp hstep
      cases hrest
      exact ⟨h.files.step hfiles, h.table, h.last, h.placed, h.heap⟩
  | openAt fildes path oflag =>
      obtain ⟨⟨k₁, fd⟩, hopen, hret⟩ := bind_eq_ok.mp hstep
      cases hret
      exact h.openAt hopen
  | printk text =>
      obtain ⟨screen, hprint, hrest⟩ := bind_eq_ok.mp hstep
      cases hrest
      obtain ⟨screen', hprint', hplaced, hkeep⟩ := fputs_placed text h.placed
      cases hprint.symm.trans hprint'
      exact h.setScreen hplaced hkeep
  | memory m fifos =>
      cases hstep
      exact h.setMem fifos hvalid
  | heap op =>
      obtain ⟨s, hheap, hrest⟩ := bind_eq_ok.mp hstep
      cases hrest
      obtain ⟨bs, hinv⟩ := h.heap
      obtain ⟨bs', -, hinv'⟩ := hinv.step hheap
      exact h.setHeap hinv'
  | mapping mapped =>
      cases hstep
      exact ⟨h.files, h.table, h.last, h.placed, h.heap⟩
  | syscall r => exact h.handler hvalid.1 hvalid.2 hstep

theorem Kernel.Reachable.ok (h : k.Reachable) : KernelOk k := by
  induction h with
  | start _ hstart => exact kernelOk_start hstart
  | step _ hvalid hstep ih => exact ih.step hvalid hstep

/-- **Which system calls return**: in every state that is reached, with a device mounted at `"/"`, for every
    number and all arguments whose pointers are valid. The others end in an assertion, outside the table or the
    buffer of a fifo, at a null pointer, or in a page fault. -/
theorem syscall_handler_iff {root : Nat} (hreach : k.Reachable) (hroot : k.files.vfs = ⟨some root⟩)
    (r : Regs) (hargs : k.ValidArgs r) : (∃ k', k.syscallHandler r = .ok k') ↔ SyscallOk k root r :=
  hreach.ok.handler_iff hroot hargs

/-! ## After boot -/

/-- What is done to files is done to the files of the kernel. -/
theorem run_files (k : Kernel) (ops : List FsOp) : Lib.run Kernel.step k (ops.map .files) = do
    let files ← FsState.run k.files ops
    return { k with files } := by
  refine run_part (fun files : FsState => ({ k with files } : Kernel)) ?_ k.files ops
  exact fun _ _ => rfl

/-- A run of operations that nobody has to be careful with. -/
theorem Kernel.Reachable.run {ops : List KernelOp} (h : k.Reachable)
    (hvalid : ∀ (k : Kernel) (op : KernelOp), op ∈ ops → k.Valid op)
    (hrun : Lib.run Kernel.step k ops = .ok k') : k'.Reachable := by
  induction ops generalizing k with
  | nil =>
      cases hrun
      exact h
  | cons op ops ih =>
      obtain ⟨k₁, hstep, hrun⟩ := run_cons.mp hrun
      exact ih (h.step (hvalid k op List.mem_cons_self) hstep)
        (fun k op hop => hvalid k op (List.mem_cons_of_mem _ hop)) hrun

/-- A new heap has room for a file. -/
theorem roomForTwo_init (k : KernelHeap) : (HeapState.init k KHEAP_SIZE KHEAP_START).RoomForTwo 20 8 := by
  have hinv := HeapInv.init k (show 16 ≤ KHEAP_SIZE by decide) (show KHEAP_START + KHEAP_SIZE < 4294967296 by decide)
  exact hinv.roomForTwo_iff.mpr (Or.inl ⟨_, List.mem_singleton_self _, rfl, by decide⟩)

/-- A state in which all memory is mapped, and the console is open as descriptor 0, and nothing else. -/
structure ConsoleOpen (k : Kernel) (root : Nat) : Prop where
  reachable : k.Reachable
  mounted : k.files.vfs = ⟨some root⟩
  console : ∃ f i, k.fdtable.data 0 = some f ∧ f.inode = some i ∧ (k.files.fs.inodes i).kind = .other
  only : k.fdtable.data 1 = none
  mapped : ∀ acc a, k.mapped acc a = true

/-- A kernel before its start, with memory full of zeros: where the fifos and the ram disk are going to be, and what
    is mapped. -/
def Kernel.blank (fifo dataAt : Nat) (mapped : Access → Nat → Bool) : Kernel where
  files := .empty
  fifos _ := ⟨fifo, 0⟩
  fdtable := .empty
  screen := ⟨fun _ => 0, 0, 0, VIDEO_BUFFER, 0, fun _ => 0⟩
  kheap := none
  placementAddress := 0
  live _ := none
  dataAt _ := dataAt
  mapped

/-- With a directory `dev` in the image, there is a console after boot. -/
theorem devImage_boots : ∃ files, FsState.run .empty (bootOps devImage) = .ok files ∧ ∃ dir ino,
    resolvePath files.fs files.vfs consolePath = .ok (some dir) ∧
    (files.fs.dirents dir).inode = some ino ∧ (files.fs.inodes ino).kind = .other :=
  ⟨_, rfl, _, _, rfl, rfl, rfl⟩

/-- **After boot** the kernel is in such a state. -/
theorem boot_reachable : ∃ (k : Kernel) (root : Nat), ConsoleOpen k root := by
  obtain ⟨files, hboot, dir, ino, hres, hino, hkind⟩ := devImage_boots
  obtain ⟨root, hroot⟩ := resolvePath_root hres
  let before : Kernel := .blank 0 0 fun _ _ => true
  obtain ⟨screen, hclear, -⟩ := cleark_shows before.screen
  let k₀ := Kernel.setHeap { before with screen }
    (.init (Kernel.heap { before with screen }).heap KHEAP_SIZE KHEAP_START)
  have hstart : before.start = .ok k₀ := by
    unfold Kernel.start
    rw [hclear]
    rfl
  have hfiles : Lib.run Kernel.step k₀ ((bootOps devImage).map .files) = .ok { k₀ with files } := by
    rw [run_files]
    exact bind_eq_ok.mpr ⟨files, hboot, rfl⟩
  have hreach : ({ k₀ with files } : Kernel).Reachable := by
    refine (Kernel.Reachable.start (fun _ _ _ => rfl) hstart).run (fun k op hop => ?_) hfiles
    obtain ⟨fsOp, -, rfl⟩ := List.mem_map.mp hop
    trivial
  -- the console is opened
  obtain ⟨k₁, hnew⟩ := hreach.ok.newFile_iff.mpr (roomForTwo_init _)
  obtain ⟨s, rfl, -⟩ := hreach.ok.newFile hnew
  let f : File := ⟨1, (files.fs.dirents dir).inode, O_WRONLY, 0⟩
  have htable : syscallOpenAt files.fs files.vfs .empty 0 consolePath O_WRONLY =
      .ok (⟨Function.update Fdtable.empty.data 0 (some f), 0⟩, 0) :=
    syscallOpenAt_eq_ok.mpr ⟨0, dir, rfl, by decide, hres, rfl, rfl⟩
  have hopen : ({ k₀ with files } : Kernel).step (.openAt 0 consolePath O_WRONLY) =
      .ok { Kernel.setHeap { k₀ with files } s with
        fdtable := ⟨Function.update Fdtable.empty.data 0 (some f), 0⟩ } :=
    bind_eq_ok.mpr ⟨_, bind_eq_ok.mpr ⟨_, hnew, bind_eq_ok.mpr ⟨_, htable, rfl⟩⟩, rfl⟩
  have hvalid : ({ k₀ with files } : Kernel).Valid (.openAt 0 consolePath O_WRONLY) := trivial
  exact ⟨_, root, hreach.step hvalid hopen, hroot, ⟨f, ino, rfl, hino, hkind⟩, rfl, fun _ _ => rfl⟩

/-- Where all memory is mapped, a buffer below the kernel is valid. -/
theorem ConsoleOpen.buffer {root : Nat} (h : ConsoleOpen k root) {a : Nat} (hbelow : a + n ≤ 0xc0000000) :
    k.Buffer write a n where
  fits := Nat.le_trans hbelow (by decide)
  mapped _ _ _ := h.mapped _ _
  apart x _ hlt hown := by
    have hle := hown.1
    unfold KHEAP_START at hle
    omega
  outside _ x _ hlt := by
    unfold KernelMemory KHEAP_START
    omega

/-- Writing a byte to the console returns. -/
theorem syscall_handler_iff_console : ∃ (k : Kernel) (root : Nat), k.Reachable ∧
    k.files.vfs = ⟨some root⟩ ∧ k.ValidArgs ⟨3, 0, 0, 1, 0, 0, 0⟩ ∧
    ∃ k', k.syscallHandler ⟨3, 0, 0, 1, 0, 0, 0⟩ = .ok k' := by
  obtain ⟨k, root, h⟩ := boot_reachable
  obtain ⟨f, i, hf, hi, hkind⟩ := h.console
  have hargs : k.ValidArgs ⟨3, 0, 0, 1, 0, 0, 0⟩ := h.buffer (n := 1) (by decide)
  have hwrite : k.CanWrite i 1 := by
    unfold Kernel.CanWrite
    rw [hkind]
    trivial
  exact ⟨k, root, h.reachable, h.mounted, hargs,
    (syscall_handler_iff h.reachable h.mounted _ hargs).mpr ⟨by decide, f, i, hf, hi, hwrite⟩⟩

/-- **Reading from descriptor 1**, which nothing has opened, does not. -/
theorem syscall_read_absent : ∃ (k : Kernel) (root : Nat), k.Reachable ∧ k.files.vfs = ⟨some root⟩ ∧
    k.ValidArgs ⟨2, 1, 0, 0, 0, 0, 0⟩ ∧
    k.syscallHandler ⟨2, 1, 0, 0, 0, 0, 0⟩ = .error (.null "fdtable.data[fildes]") := by
  obtain ⟨k, root, h⟩ := boot_reachable
  refine ⟨k, root, h.reachable, h.mounted, h.buffer (n := 0) (by decide), ?_⟩
  have hinode : k.fileInode (toInt32 (1 : UInt32).toNat) = .error (.null "fdtable.data[fildes]") := by
    have hplace : checkFildes (toInt32 (1 : UInt32).toNat) = .ok 1 := rfl
    unfold Kernel.fileInode
    rw [hplace, ok_bind, h.only]
  have hcall : k.syscallHandler ⟨2, 1, 0, 0, 0, 0, 0⟩ =
      k.syscallRead (toInt32 (1 : UInt32).toNat) 0 0 0 >>= fun r => pure r.1 := rfl
  rw [hcall]
  unfold Kernel.syscallRead
  rw [hinode]
  rfl

end WeirdOs
