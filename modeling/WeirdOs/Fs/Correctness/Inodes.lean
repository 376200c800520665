import WeirdOs.Fs.Correctness.Mount
import WeirdOs.Fs.Correctness.Runs

/-!
# `Fs.Correctness.Inodes` — every dirent that a path leads to has an inode

A dirent gets its inode right after it is made, and is put into a child list or mounted only then. So no
child list ever holds a dirent whose `m_inode` is null, in no state that is reached from the empty one, and
what `resolve_path` returns has an inode (`FilesInode.resolved`).
-/

namespace WeirdOs

open Lib

variable {fs fs' fs'' : Fs} {d e p r : Nat} {s t : FsState} {op : FsOp}

/-- The dirent has an inode. -/
def HasInode (fs : Fs) (d : Nat) : Prop := ∃ i, (fs.dirents d).inode = some i

/-- All children have inodes. -/
def ChildrenHave (fs : Fs) : Prop := ∀ d e, e ∈ (fs.dirents d).children → HasInode fs e

/-- What the operations keep: no inode is lost, and all children have inodes. -/
structure KeepsInodes (fs fs' : Fs) : Prop where
  inode : ∀ d, HasInode fs d → HasInode fs' d
  children : ChildrenHave fs → ChildrenHave fs'

theorem KeepsInodes.refl (fs : Fs) : KeepsInodes fs fs := ⟨fun _ => id, id⟩

theorem KeepsInodes.trans (h : KeepsInodes fs fs') (h' : KeepsInodes fs' fs'') : KeepsInodes fs fs'' :=
  ⟨fun d hd => h'.inode d (h.inode d hd), fun hc => h'.children (h.children hc)⟩

/-! ## The operations on dirents -/

/-- A change of dirents that keeps inodes, and adds only children that have one. -/
theorem keepsInodes_of_eq (hinode : ∀ d, (fs'.dirents d).inode = (fs.dirents d).inode)
    (hchildren : ∀ d e, e ∈ (fs'.dirents d).children → e ∈ (fs.dirents d).children ∨ HasInode fs e) :
    KeepsInodes fs fs' := by
  have hkeep : ∀ d, HasInode fs d → HasInode fs' d := fun d ⟨i, hi⟩ => ⟨i, (hinode d).trans hi⟩
  refine ⟨hkeep, fun hc d e he => hkeep e ?_⟩
  rcases hchildren d e he with hold | hnew
  · exact hc d e hold
  · exact hnew

/-- A new dirent has an inode and no children. -/
theorem keepsInodes_makeDirent (fs : Fs) (ident : List UInt8) (parent : Option (Option Nat))
    (make : Nat → Inode) : KeepsInodes fs (fs.makeDirent ident parent make).1 ∧
      HasInode (fs.makeDirent ident parent make).1 fs.nextDirent := by
  have hself : HasInode (fs.makeDirent ident parent make).1 fs.nextDirent :=
    ⟨fs.nextInode, by rw [Fs.makeDirent_self]⟩
  have hkeep : ∀ d, HasInode fs d → HasInode (fs.makeDirent ident parent make).1 d := by
    intro d hd
    by_cases hnew : d = fs.nextDirent
    · rw [hnew]
      exact hself
    · unfold HasInode
      rw [Fs.makeDirent_of_ne fs hnew]
      exact hd
  refine ⟨⟨hkeep, fun hc d e he => hkeep e ?_⟩, hself⟩
  by_cases hnew : d = fs.nextDirent
  · rw [hnew, Fs.makeDirent_self] at he
    cases he
  · rw [Fs.makeDirent_of_ne fs hnew] at he
    exact hc d e he

theorem keepsInodes_addChild (he : HasInode fs e) : KeepsInodes fs (fs.addChild d e) := by
  refine keepsInodes_of_eq (fun x => Fs.modifyDirent_field fs Dirent.inode fun _ => rfl) ?_
  intro x c hc
  rw [Fs.addChild_children] at hc
  by_cases hx : x = d
  · rw [if_pos hx] at hc
    rcases List.mem_append.mp hc with hold | hnew
    · exact .inl hold
    · rw [List.mem_singleton.mp hnew]
      exact .inr he
  · rw [if_neg hx] at hc
    exact .inl hc

theorem keepsInodes_setChild {i : Nat} (he : HasInode fs e) : KeepsInodes fs (fs.setChild d i e) := by
  refine keepsInodes_of_eq (fun x => Fs.modifyDirent_field fs Dirent.inode fun _ => rfl) ?_
  intro x c hc
  rw [Fs.setChild_children] at hc
  by_cases hx : x = d
  · rw [if_pos hx] at hc
    rcases List.mem_or_eq_of_mem_set hc with hold | rfl
    · exact .inl hold
    · exact .inr he
  · rw [if_neg hx] at hc
    exact .inl hc

theorem keepsInodes_setIdent (fs : Fs) (d : Nat) (ident : List UInt8) :
    KeepsInodes fs (fs.setIdent d ident) := by
  refine keepsInodes_of_eq (fun x => Fs.modifyDirent_field fs Dirent.inode fun _ => rfl) ?_
  intro x c hc
  rw [Fs.setIdent_children] at hc
  exact .inl hc

theorem keepsInodes_clearParent (fs : Fs) (d : Nat) : KeepsInodes fs (fs.clearParent d) := by
  refine keepsInodes_of_eq (fun x => Fs.modifyDirent_field fs Dirent.inode fun _ => rfl) ?_
  intro x c hc
  rw [Fs.clearParent_children] at hc
  exact .inl hc

/-! ## Devices -/

/-- A dirent that is made and then added to its parent. -/
theorem keepsInodes_makeChild (fs : Fs) (ident : List UInt8) (p : Nat) (make : Nat → Inode) :
    KeepsInodes fs ((fs.makeDirent ident (some (some p)) make).1.addChild p fs.nextDirent) ∧
      HasInode ((fs.makeDirent ident (some (some p)) make).1.addChild p fs.nextDirent) fs.nextDirent := by
  obtain ⟨hmade, hself⟩ := keepsInodes_makeDirent fs ident (some (some p)) make
  have hadd := keepsInodes_addChild (d := p) hself
  exact ⟨hmade.trans hadd, hadd.inode _ hself⟩

theorem keepsInodes_addFile (fs : Fs) (udev : Udev) (name : List UInt8) (make : Nat → Nat → Inode) :
    KeepsInodes fs (addFile fs udev name make).1 := by
  rw [addFile_eq]
  exact (keepsInodes_makeChild fs name udev.rootDirent fun dir => make dir udev.inodeCounter).1

theorem keepsInodes_createTty {udev udev' : Udev} {num : Int} {inode : Nat}
    (h : createTty fs udev num = .ok (fs', udev', inode)) : KeepsInodes fs fs' := by
  unfold createTty at h
  split at h
  · have hfile := keepsInodes_addFile fs udev (ttyName num) fun dir id => fifo dir id S_IRWXA
    rwa [Except.ok.inj h] at hfile
  · cases h

theorem keepsInodes_newUdev {udev : Udev} (h : newUdev fs = .ok (fs', udev)) :
    KeepsInodes fs fs' ∧ HasInode fs' udev.rootDirent := by
  obtain ⟨⟨fs₁, udev₁, inode⟩, hcreate, hrest⟩ := bind_eq_ok.mp h
  cases hrest
  obtain ⟨hmade, hself⟩ := keepsInodes_makeDirent fs [] none fun dir => directoryLike dir 0 S_IRWXA
  have htty := keepsInodes_createTty hcreate
  have hroot := (grows_createTty hcreate).2
  dsimp only
  rw [hroot]
  exact ⟨hmade.trans htty, htty.inode _ hself⟩

theorem keepsInodes_cacheDirent (image : InitrdImage) (fs : Fs) (parent : Option Nat)
    (rdDirent : InitrdDirent) (rdInode : InitrdInode) :
    KeepsInodes fs (cacheDirent image fs parent rdDirent rdInode).1 ∧
      HasInode (cacheDirent image fs parent rdDirent rdInode).1
        (cacheDirent image fs parent rdDirent rdInode).2 := by
  cases parent with
  | none =>
      rw [cacheDirent_none]
      exact keepsInodes_makeDirent fs rdDirent.name (some none) fun dir => cacheInode image dir rdInode
  | some p =>
      rw [cacheDirent_some]
      exact keepsInodes_makeChild fs rdDirent.name p fun dir => cacheInode image dir rdInode

/-- **`cache` keeps inodes**, and what it returns has one. -/
theorem keepsInodes_cache {image : InitrdImage} {fuel i dir : Nat} {parent : Option Nat}
    (h : cache image fuel fs parent i = .ok (fs', dir)) : KeepsInodes fs fs' ∧ HasInode fs' dir := by
  obtain ⟨rdDirent, j, _, rfl, hrest⟩ := cache_keeps KeepsInodes.refl KeepsInodes.trans
    (fun fs parent rdDirent j _ => (keepsInodes_cacheDirent image fs parent rdDirent _).1) h
  obtain ⟨hmade, hself⟩ := keepsInodes_cacheDirent image fs parent rdDirent (image.header.inodes j)
  exact ⟨hmade.trans hrest, hrest.inode _ hself⟩

/-! ## Runs -/

/-- **All dirents in use have inodes**: those in child lists, and the roots of the devices. -/
structure FilesInode (s : FsState) : Prop where
  children : ChildrenHave s.fs
  devices : ∀ device ∈ s.devices, HasInode s.fs device.rootDirent

theorem filesInode_empty : FilesInode .empty :=
  ⟨fun _ _ he => absurd he List.not_mem_nil, fun _ hd => absurd hd List.not_mem_nil⟩

/-- What keeps inodes keeps the state in order, with the devices there were or new ones. -/
theorem FilesInode.keep {vfs : Vfs} {devices : List FsDevice} (h : FilesInode s) (hk : KeepsInodes s.fs fs')
    (hdev : ∀ device ∈ devices, (∃ old ∈ s.devices, device.rootDirent = old.rootDirent) ∨
      HasInode fs' device.rootDirent) : FilesInode ⟨fs', vfs, devices⟩ where
  children := hk.children h.children
  devices device hmem := by
    rcases hdev device hmem with ⟨old, hold, heq⟩ | hnew
    · exact hk.inode _ (heq ▸ h.devices old hold)
    · exact hnew

/-- **Every operation** keeps the state in order. -/
theorem FilesInode.step (h : FilesInode s) (hstep : s.step op = .ok t) : FilesInode t := by
  cases FsState.step_cases hstep with
  | newInitrd hnew =>
      obtain ⟨hk, hroot⟩ := keepsInodes_cache hnew
      refine h.keep hk fun device hmem => (mem_append_device hmem).imp_right ?_
      rintro rfl
      exact hroot
  | newUdev hnew =>
      obtain ⟨hk, hroot⟩ := keepsInodes_newUdev hnew
      refine h.keep hk fun device hmem => (mem_append_device hmem).imp_right ?_
      rintro rfl
      exact hroot
  | createTty hudev hmade =>
      have hroot := (grows_createTty hmade).2
      exact h.keep (keepsInodes_createTty hmade) fun device hmem => .inl (mem_set_udev hudev hroot hmem)
  | @makeFile dev mode name udev hudev =>
      have hroot : (makeFile s.fs udev name mode).2.1.rootDirent = udev.rootDirent := (grows_addFile ..).2
      exact h.keep (keepsInodes_addFile ..) fun device hmem => .inl (mem_set_udev hudev hroot hmem)
  | @mountDevice path dev device fs vfs hdev hmount =>
      have hroot := h.devices device (List.mem_of_getElem? hdev)
      have hsame : ∀ device ∈ s.devices, ∃ old ∈ s.devices, device.rootDirent = old.rootDirent :=
        fun device hmem => ⟨device, hmem, rfl⟩
      have hident := keepsInodes_setIdent s.fs device.rootDirent path
      rcases mountDevice_cases hmount rfl with ⟨_, rfl, rfl⟩ | ⟨_, rfl, root, d, p, i, _, _, _, _, rfl⟩
      · exact h.keep (hident.trans (keepsInodes_clearParent _ _)) fun device hmem => .inl (hsame device hmem)
      · have hident' := hident.trans (keepsInodes_setIdent _ device.rootDirent path.tail)
        exact h.keep (hident'.trans (keepsInodes_setChild (hident'.inode _ hroot))) fun device hmem =>
          .inl (hsame device hmem)

/-- **What a path resolves to** has an inode. -/
theorem FilesInode.resolved {vfs : Vfs} {path : List UInt8} (h : FilesInode s)
    (hres : resolvePath s.fs vfs path = .ok (some d)) : HasInode s.fs d := by
  obtain ⟨root, rfl⟩ := resolvePath_root hres
  obtain ⟨u, _, hmem⟩ := resolvePath_container hres
  exact h.children u d hmem

end WeirdOs
