import WeirdOs.Fs.Correctness.Mount
import WeirdOs.Fs.Correctness.Parents

/-!
# `Fs.Correctness.Runs` — parent links over whole runs

`StateOk` is what every operation keeps, except for one: a mount away from `"/"` of a device that is not
itself the root. Such a mount leaves a dirent in a child list whose parent link says nothing, so the
parents are in order all along a run iff there is no such mount in it (`parents_run_iff`). `init_fs`
mounts `udev` at `"/dev"`.
-/

namespace WeirdOs

open Lib

variable {s s' t : FsState} {fs fs' : Fs} {op : FsOp} {ops : List FsOp}

/-- The parents below the root directory of the virtual file system, if it has one, are in order. -/
def FsState.ParentsOk (s : FsState) : Prop :=
  ∀ root, s.vfs.rootDirent = some root → WeirdOs.ParentsOk s.fs root

/-- A mount that is at `"/"`, or of the device whose root is the root directory already. -/
def MountsAtRoot (s : FsState) (path : List UInt8) (dev : Nat) : Prop :=
  ∀ device, s.devices[dev]? = some device →
    path = [slash] ∨ s.vfs.rootDirent = some device.rootDirent

/-- The invariant of the state. -/
structure StateOk (s : FsState) : Prop where
  store : StoreOk s.fs
  devices : ∀ device ∈ s.devices,
    device.rootDirent < s.fs.nextDirent ∧ Parentless s.fs device.rootDirent
  root : ∀ r, s.vfs.rootDirent = some r → r < s.fs.nextDirent ∧ (s.fs.dirents r).parent = none

theorem stateOk_empty : StateOk .empty where
  store := ⟨fun _ _ he => (by cases he), fun _ _ => rfl⟩
  devices _ hd := by cases hd
  root _ hr := by cases hr

theorem StateOk.parentsOk (h : StateOk s) : s.ParentsOk :=
  fun root hroot => h.store.parentsOk (h.root root hroot).2

/-! ## What a step does -/

theorem udev_eq_ok {dev : Nat} {udev : Udev} (h : s.udev dev = .ok udev) :
    s.devices[dev]? = some (.udev udev) := by
  unfold FsState.udev at h
  split at h
  · next heq =>
      cases h
      exact heq
  · cases h

theorem device_eq_ok {dev : Nat} {device : FsDevice} (h : s.device dev = .ok device) :
    s.devices[dev]? = some device := by
  unfold FsState.device at h
  split at h
  · next heq =>
      cases h
      exact heq
  · cases h

/-- What an operation does to the state, when it returns. -/
inductive FsStep (s : FsState) : FsOp → FsState → Prop where
  | newInitrd {image : InitrdImage} {fs : Fs} {root : Nat} (hnew : initrd image s.fs = .ok (fs, root)) :
      FsStep s (.newInitrd image) ⟨fs, s.vfs, s.devices ++ [.initrd root]⟩
  | newUdev {fs : Fs} {udev : Udev} (hnew : newUdev s.fs = .ok (fs, udev)) :
      FsStep s .newUdev ⟨fs, s.vfs, s.devices ++ [.udev udev]⟩
  | createTty {dev inode : Nat} {num : Int} {udev udev' : Udev} {fs : Fs}
      (hudev : s.devices[dev]? = some (.udev udev))
      (hmade : createTty s.fs udev num = .ok (fs, udev', inode)) :
      FsStep s (.createTty dev num) ⟨fs, s.vfs, s.devices.set dev (.udev udev')⟩
  | makeFile {dev mode : Nat} {name : List UInt8} {udev : Udev}
      (hudev : s.devices[dev]? = some (.udev udev)) :
      FsStep s (.makeFile dev name mode)
        ⟨(makeFile s.fs udev name mode).1, s.vfs,
          s.devices.set dev (.udev (makeFile s.fs udev name mode).2.1)⟩
  | mountDevice {path : List UInt8} {dev : Nat} {device : FsDevice} {fs : Fs} {vfs : Vfs}
      (hdev : s.devices[dev]? = some device) (hmount : mountDevice s.fs s.vfs path device = .ok (fs, vfs)) :
      FsStep s (.mountDevice path dev) ⟨fs, vfs, s.devices⟩

theorem FsState.step_cases (hstep : s.step op = .ok t) : FsStep s op t := by
  cases op with
  | newInitrd image =>
      obtain ⟨⟨fs, root⟩, hnew, hrest⟩ := bind_eq_ok.mp hstep
      cases hrest
      exact .newInitrd hnew
  | newUdev =>
      obtain ⟨⟨fs, udev⟩, hnew, hrest⟩ := bind_eq_ok.mp hstep
      cases hrest
      exact .newUdev hnew
  | createTty dev num =>
      obtain ⟨udev, hudev, hrest⟩ := bind_eq_ok.mp hstep
      obtain ⟨⟨fs, udev', inode⟩, hmade, hrest⟩ := bind_eq_ok.mp hrest
      cases hrest
      exact .createTty (udev_eq_ok hudev) hmade
  | makeFile dev name mode =>
      obtain ⟨udev, hudev, hrest⟩ := bind_eq_ok.mp hstep
      cases hrest
      exact .makeFile (udev_eq_ok hudev)
  | mountDevice path dev =>
      obtain ⟨device, hdevice, hrest⟩ := bind_eq_ok.mp hstep
      obtain ⟨⟨fs, vfs⟩, hmount, hrest⟩ := bind_eq_ok.mp hrest
      cases hrest
      exact .mountDevice (device_eq_ok hdevice) hmount

/-- A new device among the others. -/
theorem mem_append_device {devices : List FsDevice} {new device : FsDevice}
    (hmem : device ∈ devices ++ [new]) :
    (∃ old ∈ devices, device.rootDirent = old.rootDirent) ∨ device = new := by
  rcases List.mem_append.mp hmem with hmem | hmem
  · exact .inl ⟨device, hmem, rfl⟩
  · exact .inr (List.mem_singleton.mp hmem)

/-- A change of one `udev` among the devices keeps the roots. -/
theorem mem_set_udev {devices : List FsDevice} {dev : Nat} {udev udev' : Udev} {device : FsDevice}
    (hold : devices[dev]? = some (.udev udev)) (hroot : udev'.rootDirent = udev.rootDirent)
    (hmem : device ∈ devices.set dev (.udev udev')) :
    ∃ old ∈ devices, device.rootDirent = old.rootDirent := by
  rcases List.mem_or_eq_of_mem_set hmem with hmem | rfl
  · exact ⟨device, hmem, rfl⟩
  · exact ⟨_, List.mem_of_getElem? hold, hroot⟩

/-! ## Steps that keep the invariant -/

theorem parentless_of_eq {d : Nat} (h : Parentless fs d)
    (hpar : (fs'.dirents d).parent = (fs.dirents d).parent) : Parentless fs' d := fun p hp =>
  h p (hpar ▸ hp)

/-- Making dirents keeps the invariant, with the devices there were or new ones whose root has no
    parent. -/
theorem StateOk.grow {devices : List FsDevice} (h : StateOk s) (hgrows : Grows s.fs fs')
    (hdev : ∀ device ∈ devices, (∃ old ∈ s.devices, device.rootDirent = old.rootDirent) ∨
      device.rootDirent < fs'.nextDirent ∧ Parentless fs' device.rootDirent) :
    StateOk { s with fs := fs', devices } where
  store := hgrows.ok h.store
  devices device hmem := by
    rcases hdev device hmem with ⟨old, hold, heq⟩ | hnew
    · obtain ⟨hlt, hless⟩ := h.devices old hold
      rw [heq]
      exact ⟨Nat.lt_of_lt_of_le hlt hgrows.next, parentless_of_eq hless (hgrows.parent _ hlt)⟩
    · exact hnew
  root r hr := by
    obtain ⟨hlt, hpar⟩ := h.root r hr
    exact ⟨Nat.lt_of_lt_of_le hlt hgrows.next, (hgrows.parent r hlt).trans hpar⟩

/-- Mounting at `"/"` keeps the invariant. -/
theorem StateOk.mountRoot {r : Nat} (h : StateOk s) (hr : r < s.fs.nextDirent)
    (hless : Parentless s.fs r) (path : List UInt8) :
    StateOk { s with fs := (s.fs.setIdent r path).clearParent r, vfs := ⟨some r⟩ } := by
  have hpar : ∀ d, (((s.fs.setIdent r path).clearParent r).dirents d).parent =
      if d = r then none else (s.fs.dirents d).parent := fun d => by
    rw [Fs.clearParent_parent, Fs.setIdent_parent]
  have hlinks : SameLinks s.fs ((s.fs.setIdent r path).clearParent r) := by
    intro d _ p
    rw [hpar]
    by_cases hd : d = r
    · subst hd
      rw [if_pos rfl]
      exact ⟨fun hp => (by cases hp), fun hp => absurd hp (hless p)⟩
    · rw [if_neg hd]
  refine ⟨h.store.mono (Nat.le_refl _) hlinks (fun d e he => .inl ?_) ?_, ?_, ?_⟩
  · simpa using he
  · intro d hd
    rw [hpar, h.store.fresh d hd, ite_self]
  · intro device hdev
    obtain ⟨hlt, hless'⟩ := h.devices device hdev
    exact ⟨hlt, fun p hp => hless' p ((hlinks _ hlt p).mp hp)⟩
  · intro r' hr'
    obtain rfl := Option.some.inj hr'
    exact ⟨hr, by rw [hpar, if_pos rfl]⟩

/-- Mounting the device whose root is the root directory inside itself keeps the invariant. -/
theorem StateOk.mountInside {d p i r u : Nat} (h : StateOk s) (hroot : s.vfs.rootDirent = some r)
    (hu : s.fs.graph.Reaches r u) (hd : d ∈ (s.fs.dirents u).children)
    (hpar : (s.fs.dirents d).parent = some (some p)) (path : List UInt8) :
    StateOk { s with fs := ((s.fs.setIdent r path).setIdent r path.tail).setChild p i r } := by
  obtain ⟨hlt, htop⟩ := h.root r hroot
  have hsame : ∀ x, ((((s.fs.setIdent r path).setIdent r path.tail).setChild p i r).dirents x).parent =
      (s.fs.dirents x).parent := fun x => by simp
  have hless : Parentless s.fs r := fun q hq => by rw [htop] at hq; cases hq
  have hlinks : SameLinks s.fs (((s.fs.setIdent r path).setIdent r path.tail).setChild p i r) :=
    fun x _ q => by rw [hsame]
  -- the parent of a dirent below the root is below the root, or is it
  have hasc : Ascends s.fs p r := by
    cases (h.store.parentsOk htop).ends d (hu.child hd) with
    | here => exact absurd hpar (hless p)
    | up hp hasc =>
        rw [hpar] at hp
        obtain rfl : p = _ := Option.some.inj (Option.some.inj hp)
        exact hasc
  refine ⟨h.store.mono (Nat.le_refl _) hlinks ?_ ?_, ?_, ?_⟩
  · intro x e he
    rw [Fs.setChild_children] at he
    by_cases hx : x = p
    · subst hx
      rw [if_pos rfl] at he
      rcases List.mem_or_eq_of_mem_set he with he | rfl
      · exact .inl (by simpa using he)
      · exact .inr ⟨hlt, .inr ⟨parentless_of_eq hless (hsame _), h.store.ascends hlinks hasc⟩⟩
    · rw [if_neg hx] at he
      exact .inl (by simpa using he)
  · intro x hx
    rw [hsame, h.store.fresh x hx]
  · intro device hdev
    obtain ⟨hlt', hless'⟩ := h.devices device hdev
    exact ⟨hlt', parentless_of_eq hless' (hsame _)⟩
  · intro r' hr'
    obtain ⟨hlt', hpar'⟩ := h.root r' hr'
    exact ⟨hlt', (hsame r').trans hpar'⟩

/-- **Every operation keeps the invariant**, if a mount is at `"/"` or of the root's own device. -/
theorem StateOk.step (h : StateOk s)
    (hgood : ∀ path dev, op = .mountDevice path dev → MountsAtRoot s path dev)
    (hstep : s.step op = .ok t) : StateOk t := by
  cases FsState.step_cases hstep with
  | newInitrd hnew =>
      obtain ⟨hgrows, hlt, hpar⟩ := grows_cache hnew
      have hless : Parentless _ _ := fun p hp => by cases hpar.symm.trans hp
      refine h.grow hgrows fun device hmem => (mem_append_device hmem).imp_right ?_
      rintro rfl
      exact ⟨hlt, hless⟩
  | newUdev hnew =>
      obtain ⟨hgrows, _, hlt, hless⟩ := grows_newUdev hnew
      refine h.grow hgrows fun device hmem => (mem_append_device hmem).imp_right ?_
      rintro rfl
      exact ⟨hlt, hless⟩
  | createTty hudev hmade =>
      obtain ⟨hgrows, hroot⟩ := grows_createTty hmade
      exact h.grow hgrows fun device hmem => .inl (mem_set_udev hudev hroot hmem)
  | makeFile hudev =>
      obtain ⟨hgrows, hroot⟩ := grows_addFile s.fs _ _ _
      exact h.grow hgrows fun device hmem => .inl (mem_set_udev hudev hroot hmem)
  | @mountDevice path dev device fs vfs hdev hmount =>
      obtain ⟨hlt, hless⟩ := h.devices device (List.mem_of_getElem? hdev)
      rcases mountDevice_cases hmount rfl with
        ⟨_, rfl, rfl⟩ | ⟨hne, rfl, root, d, p, i, hvfs, ⟨u, hu, hd⟩, hpar, _, rfl⟩
      · exact h.mountRoot hlt hless path
      · have hroot := (hgood path dev rfl device hdev).resolve_left hne
        obtain rfl : root = device.rootDirent := by
          rw [hvfs] at hroot
          exact Option.some.inj hroot
        exact h.mountInside hroot hu hd hpar path

/-! ## The step that breaks it -/

/-- **A mount away from `"/"` breaks the parents**, unless it is of the root's own device: the root of
    the device is below the root directory now and has no parent. -/
theorem StateOk.not_parentsOk {path : List UInt8} {dev : Nat} (h : StateOk s)
    (hstep : s.step (.mountDevice path dev) = .ok t) (hbad : ¬ MountsAtRoot s path dev) :
    ¬ t.ParentsOk := by
  cases FsState.step_cases hstep with
  | @mountDevice _ _ device fs vfs hdev hmount =>
      have hnot : path ≠ [slash] ∧ s.vfs.rootDirent ≠ some device.rootDirent := by
        rw [← not_or]
        intro hor
        apply hbad
        intro device' hdev'
        obtain rfl : device = device' := Option.some.inj (hdev.symm.trans hdev')
        exact hor
      obtain ⟨_, hless⟩ := h.devices device (List.mem_of_getElem? hdev)
      rcases mountDevice_cases hmount rfl with
        ⟨heq, _⟩ | ⟨_, rfl, root, d, p, i, hvfs, ⟨u, hu, hd⟩, hpar, hi, rfl⟩
      · exact absurd heq hnot.1
      · intro hok
        have hroot : s.vfs.rootDirent = some root := by rw [hvfs]
        have hparents := h.parentsOk root hroot
        -- the parent of the dirent found is its container, and still reachable
        have hne : d ≠ root := by
          rintro rfl
          rw [hparents.top] at hpar
          cases hpar
        obtain rfl : p = u := by
          have hcontainer := hparents.container u d hu hd hne
          rw [hpar] at hcontainer
          exact Option.some.inj (Option.some.inj hcontainer)
        have hsame : ∀ x, x ≠ p → (((s.fs.setIdent device.rootDirent path).setIdent device.rootDirent
            path.tail).setChild p i device.rootDirent).graph.children x = s.fs.graph.children x := by
          intro x hx
          simp [Fs.setChild_children, hx]
        have hreach := hu.of_children_eq hsame
        -- its new child is the root of the device, whose parent link is the one it was made with
        have hcell : device.rootDirent ∈ ((((s.fs.setIdent device.rootDirent path).setIdent
            device.rootDirent path.tail).setChild p i device.rootDirent).dirents p).children := by
          rw [Fs.setChild_children, if_pos rfl]
          exact List.mem_set (by simpa using hi) _
        have hlink := (hok root hroot).container p device.rootDirent hreach hcell fun heq =>
          hnot.2 (heq ▸ hroot)
        exact hless p (by simpa using hlink)

/-! ## Whole runs -/

/-- From a state in order, the parents are in order all along a run iff its mounts are at the root. -/
theorem StateOk.run_iff (h : StateOk s) (hrun : FsState.run s ops = .ok t) :
    (∀ pre u, pre <+: ops → FsState.run s pre = .ok u → u.ParentsOk) ↔
    ∀ pre path dev u, pre ++ [.mountDevice path dev] <+: ops → FsState.run s pre = .ok u →
      MountsAtRoot u path dev := by
  have hiff := run_holds_iff (P := FsState.ParentsOk)
    (fun _ hs => hs.parentsOk) (fun _ _ _ hs hgood hstep => hs.step hgood hstep)
    (fun s op t hs hbad hstep => ?_) h hrun
  · refine hiff.trans ⟨?_, ?_⟩
    · intro hgood pre path dev u hpre hu
      exact hgood pre _ u hpre hu path dev rfl
    · intro hmounts pre op u hpre hu
      rintro path dev rfl
      exact hmounts pre path dev u hpre hu
  · -- a step that is not good is a mount
    simp only [not_forall] at hbad
    obtain ⟨path, dev, rfl, hbad⟩ := hbad
    exact hs.not_parentsOk hstep hbad

/-- **`init_fs` leaves the parents out of order**: the root of `udev` is below the root directory. -/
theorem not_parentsOk_initFs {image : InitrdImage} (hinit : initFs image = .ok t) : ¬ t.ParentsOk := by
  obtain ⟨s₁, hinitrd, hinit⟩ := run_cons.mp hinit
  obtain ⟨s₂, hudev, hinit⟩ := run_cons.mp hinit
  obtain ⟨s₃, hroot, hinit⟩ := run_cons.mp hinit
  obtain ⟨s₄, hdev, hinit⟩ := run_cons.mp hinit
  cases hinit
  have h₁ : StateOk s₁ := stateOk_empty.step (fun _ _ h => by cases h) hinitrd
  have h₂ : StateOk s₂ := h₁.step (fun _ _ h => by cases h) hudev
  have hgood : ∀ path dev, FsOp.mountDevice [47] 0 = .mountDevice path dev → MountsAtRoot s₂ path dev := by
    rintro path dev hop
    cases hop
    exact fun _ _ => .inl rfl
  have h₃ : StateOk s₃ := h₂.step hgood hroot
  apply h₃.not_parentsOk hdev
  intro hbad
  -- the root directory is that of the initrd, and that of `udev` was made later
  obtain ⟨⟨fs₁, root⟩, hcache, hrest⟩ := bind_eq_ok.mp hinitrd
  cases hrest
  obtain ⟨⟨fs₂, udev⟩, hnew, hrest⟩ := bind_eq_ok.mp hudev
  cases hrest
  obtain ⟨device, hdevice, hrest⟩ := bind_eq_ok.mp hroot
  obtain ⟨⟨fs₃, vfs⟩, hmount, hrest⟩ := bind_eq_ok.mp hrest
  cases hrest
  obtain rfl : FsDevice.initrd root = device := Option.some.inj (device_eq_ok hdevice)
  obtain ⟨_, hlt, _⟩ := grows_cache hcache
  obtain ⟨_, heq, _⟩ := grows_newUdev hnew
  rcases mountDevice_cases hmount rfl with ⟨_, _, rfl⟩ | ⟨hne, _⟩
  · rcases hbad (.udev udev) rfl with hpath | hsame
    · cases hpath
    · obtain rfl : root = udev.rootDirent := Option.some.inj hsame
      exact absurd hlt (by rw [heq]; exact Nat.lt_irrefl _)
  · exact hne rfl

/-- **Parents over whole runs.** In a run that starts with no devices and returns, child lists and
    parents agree below the root directory in every state iff every mount is at `"/"` or of the device
    whose root is the root directory already. `init_fs` is not such a run: in the state it leaves they
    do not agree. -/
theorem parents_run_iff (hrun : FsState.run .empty ops = .ok t) :
    ((∀ pre u, pre <+: ops → FsState.run .empty pre = .ok u → u.ParentsOk) ↔
      ∀ pre path dev u, pre ++ [.mountDevice path dev] <+: ops → FsState.run .empty pre = .ok u →
        MountsAtRoot u path dev) ∧
    ∀ image u, initFs image = .ok u → ¬ u.ParentsOk :=
  ⟨stateOk_empty.run_iff hrun, fun _ _ hinit => not_parentsOk_initFs hinit⟩

/-- A `udev` mounted at `"/"`, with a second terminal and a file `vga`. -/
def udevOps : List FsOp :=
  [.newUdev, .mountDevice [47] 0, .createTty 0 1, .makeFile 0 [118, 103, 97] 0o20777]

/-- All along that run the parents are in order. -/
theorem parents_run_iff_udev :
    ∃ t, FsState.run .empty udevOps = .ok t ∧
      ∀ pre u, pre <+: udevOps → FsState.run .empty pre = .ok u → u.ParentsOk := by
  obtain ⟨t, hrun⟩ : ∃ t, FsState.run .empty udevOps = .ok t := ⟨_, rfl⟩
  refine ⟨t, hrun, (parents_run_iff hrun).1.mpr ?_⟩
  intro pre path dev u hpre _
  have hmem : FsOp.mountDevice path dev ∈ udevOps := hpre.subset (by simp)
  obtain ⟨rfl, rfl⟩ : path = [47] ∧ dev = 0 := by simpa [udevOps] using hmem
  exact fun _ _ => .inl rfl

/-- An image with one directory, `dev`. -/
def devImage : InitrdImage where
  header :=
    { numDirent := 2
      dirents := fun i => if i = 0 then ⟨[47], 0, 0, 1, 0⟩ else ⟨[100, 101, 118], 1, 0, 0, 0⟩
      inodes := fun i => if i = 0 then ⟨0, 0o777, 0, 0, 0, 0⟩ else ⟨1, 0o40755, 0, 0, 0, 0⟩ }
  fileData _ := 0

/-- With that image `init_fs` returns, and the parents are out of order at once. -/
theorem initFs_devImage : ∃ u, initFs devImage = .ok u ∧ ¬ u.ParentsOk := by
  obtain ⟨u, hinit⟩ : ∃ u, initFs devImage = .ok u := ⟨_, rfl⟩
  exact ⟨u, hinit, not_parentsOk_initFs hinit⟩

end WeirdOs
