import WeirdOs.Fs.Run

/-!
# `Fs.Correctness.Parents` — child lists and parent links

A dirent is put into a child list by `add_child`, right after it was made with that parent, and by
`mount_device`, which does not touch the parent of what it puts there. So all cells of child lists agree
with the parent links until the first device is mounted away from `"/"`.

`StoreOk` is the invariant: every cell agrees with the parent link, or holds the top of its own tree (a
device mounted inside itself). `Grows` collects what making dirents keeps. The result about whole runs
is `parents_run_iff`.
-/

namespace WeirdOs

open Lib

variable {fs fs' fs'' : Fs} {d e p r : Nat}

/-! ## Following parents -/

/-- Following parents leads from `d` to `e`. -/
inductive Ascends (fs : Fs) : Nat → Nat → Prop where
  | here (d : Nat) : Ascends fs d d
  | up {d p e : Nat} : (fs.dirents d).parent = some (some p) → Ascends fs p e → Ascends fs d e

/-- The dirent has no parent to follow: there is none, or it is a null handle. -/
def Parentless (fs : Fs) (d : Nat) : Prop := ∀ p, (fs.dirents d).parent ≠ some (some p)

/-- **Child lists and parents agree below `root`**: everything reachable but the root has as its parent
    the dirent whose child list contains it, and following parents ends at the root. -/
structure ParentsOk (fs : Fs) (root : Nat) : Prop where
  container : ∀ d e, fs.graph.Reaches root d → e ∈ (fs.dirents d).children → e ≠ root →
    (fs.dirents e).parent = some (some d)
  ends : ∀ d, fs.graph.Reaches root d → Ascends fs d root
  top : (fs.dirents root).parent = none

/-- Following parents ends at one dirent only. -/
theorem Ascends.top_unique (h : Ascends fs d e) (h' : Ascends fs d r) (he : Parentless fs e)
    (hr : Parentless fs r) : e = r := by
  induction h with
  | here d =>
      cases h' with
      | here => rfl
      | up hp _ => exact absurd hp (he _)
  | up hp _ ih =>
      cases h' with
      | here => exact absurd hp (hr _)
      | up hp' h' =>
          rw [hp'] at hp
          obtain rfl : _ = _ := Option.some.inj (Option.some.inj hp)
          exact ih h' he

/-! ## The invariant of the store -/

/-- A cell that holds `e` among the children of `d` agrees with the parent links, or `e` is the top of
    the tree `d` is in. -/
def CellOk (fs : Fs) (d e : Nat) : Prop :=
  (fs.dirents e).parent = some (some d) ∨ Parentless fs e ∧ Ascends fs d e

/-- Every cell is in order and holds a dirent that was made; what was not made has no parent. -/
structure StoreOk (fs : Fs) : Prop where
  cells : ∀ d e, e ∈ (fs.dirents d).children → e < fs.nextDirent ∧ CellOk fs d e
  fresh : ∀ d, fs.nextDirent ≤ d → (fs.dirents d).parent = none

/-- The links of the dirents made so far are the same in both stores. -/
def SameLinks (fs fs' : Fs) : Prop :=
  ∀ d, d < fs.nextDirent → ∀ p, (fs'.dirents d).parent = some (some p) ↔ (fs.dirents d).parent = some (some p)

theorem StoreOk.ascends (h : StoreOk fs) (hlinks : SameLinks fs fs') (ha : Ascends fs d e) :
    Ascends fs' d e := by
  induction ha with
  | here d => exact .here d
  | @up d p e hp _ ih =>
      have hd : d < fs.nextDirent := by
        apply Nat.lt_of_not_le
        intro hle
        rw [h.fresh d hle] at hp
        cases hp
      exact .up ((hlinks d hd p).mpr hp) ih

/-- **What keeps the invariant**: links stay, and new cells are in order. -/
theorem StoreOk.mono (h : StoreOk fs) (hnext : fs.nextDirent ≤ fs'.nextDirent) (hlinks : SameLinks fs fs')
    (hcells : ∀ d e, e ∈ (fs'.dirents d).children →
      e ∈ (fs.dirents d).children ∨ e < fs'.nextDirent ∧ CellOk fs' d e)
    (hfresh : ∀ d, fs'.nextDirent ≤ d → (fs'.dirents d).parent = none) : StoreOk fs' where
  cells d e he := by
    rcases hcells d e he with hold | hnew
    · obtain ⟨hlt, hcell⟩ := h.cells d e hold
      refine ⟨by omega, ?_⟩
      rcases hcell with hpar | ⟨hless, hasc⟩
      · exact .inl ((hlinks e hlt d).mpr hpar)
      · exact .inr ⟨fun p hp => hless p ((hlinks e hlt p).mp hp), h.ascends hlinks hasc⟩
    · exact hnew
  fresh := hfresh

/-- **In a store in order, child lists and parents agree below every dirent without a parent.** -/
theorem StoreOk.parentsOk (h : StoreOk fs) (htop : (fs.dirents r).parent = none) : ParentsOk fs r := by
  have hless : Parentless fs r := by
    intro p hp
    rw [htop] at hp
    cases hp
  have hends : ∀ d, fs.graph.Reaches r d → Ascends fs d r := by
    intro d hd
    apply hd.rec_on (P := fun d => Ascends fs d r) (.here r)
    intro d e _ hdr he
    rcases (h.cells d e he).2 with hpar | ⟨hless', hasc⟩
    · exact .up hpar hdr
    · -- the top of the tree that `d` is in is `r`
      rw [hasc.top_unique hdr hless' hless]
      exact .here r
  refine ⟨?_, hends, htop⟩
  intro d e hd he hne
  rcases (h.cells d e he).2 with hpar | ⟨hless', hasc⟩
  · exact hpar
  · exact absurd (hasc.top_unique (hends d hd) hless' hless) hne

/-! ## Making dirents -/

/-- What the operations that make dirents keep: the invariant, and the parents of what was there. -/
structure Grows (fs fs' : Fs) : Prop where
  next : fs.nextDirent ≤ fs'.nextDirent
  parent : ∀ d, d < fs.nextDirent → (fs'.dirents d).parent = (fs.dirents d).parent
  ok : StoreOk fs → StoreOk fs'

theorem Grows.refl (fs : Fs) : Grows fs fs := ⟨Nat.le_refl _, fun _ _ => rfl, id⟩

theorem Grows.trans (h : Grows fs fs') (h' : Grows fs' fs'') : Grows fs fs'' where
  next := Nat.le_trans h.next h'.next
  parent d hd := (h'.parent d (Nat.lt_of_lt_of_le hd h.next)).trans (h.parent d hd)
  ok hok := h'.ok (h.ok hok)

theorem grows_makeDirent (fs : Fs) (ident : List UInt8) (parent : Option (Option Nat))
    (make : Nat → Inode) : Grows fs (fs.makeDirent ident parent make).1 := by
  have hpar : ∀ d, d < fs.nextDirent →
      ((fs.makeDirent ident parent make).1.dirents d).parent = (fs.dirents d).parent := fun d hd => by
    rw [Fs.makeDirent_of_ne fs (by omega)]
  refine ⟨Nat.le_succ _, hpar, fun hok => hok.mono (Nat.le_succ _) (fun d hd p => by rw [hpar d hd])
    ?_ ?_⟩
  · intro d e he
    by_cases hd : d = fs.nextDirent
    · rw [hd, Fs.makeDirent_self] at he
      cases he
    · rw [Fs.makeDirent_of_ne fs hd] at he
      exact .inl he
  · intro d hd
    have hlt : fs.nextDirent < d := hd
    rw [Fs.makeDirent_of_ne fs (by omega), hok.fresh d (by omega)]

/-- A child that already has `d` as its parent may be added to `d`. -/
theorem grows_addChild (hpar : (fs.dirents e).parent = some (some d)) (he : e < fs.nextDirent) :
    Grows fs (fs.addChild d e) := by
  have hsame : ∀ x, ((fs.addChild d e).dirents x).parent = (fs.dirents x).parent := fun _ =>
    Fs.modifyDirent_field fs Dirent.parent fun _ => rfl
  refine ⟨Nat.le_refl _, fun x _ => hsame x, fun hok => hok.mono (Nat.le_refl _)
    (fun x _ p => by rw [hsame]) ?_ fun x hx => by rw [hsame, hok.fresh x hx]⟩
  intro x c hc
  rw [Fs.addChild_children] at hc
  by_cases hx : x = d
  · rw [if_pos hx, List.mem_append, List.mem_singleton] at hc
    rcases hc with hold | rfl
    · exact .inl hold
    · exact .inr ⟨he, .inl (by rw [hsame, hpar, hx])⟩
  · rw [if_neg hx] at hc
    exact .inl hc

/-- A dirent that is made and then added to its parent. -/
theorem grows_makeChild (fs : Fs) (ident : List UInt8) (p : Nat) (make : Nat → Inode) :
    Grows fs ((fs.makeDirent ident (some (some p)) make).1.addChild p fs.nextDirent) :=
  (grows_makeDirent fs ident (some (some p)) make).trans
    (grows_addChild (by rw [Fs.makeDirent_self]) (Nat.lt_succ_self _))

theorem grows_addFile (fs : Fs) (udev : Udev) (name : List UInt8) (make : Nat → Nat → Inode) :
    Grows fs (addFile fs udev name make).1 ∧
      (addFile fs udev name make).2.1.rootDirent = udev.rootDirent := by
  rw [addFile_eq]
  exact ⟨grows_makeChild fs name udev.rootDirent _, rfl⟩

theorem grows_createTty {udev udev' : Udev} {num : Int} {inode : Nat}
    (h : createTty fs udev num = .ok (fs', udev', inode)) :
    Grows fs fs' ∧ udev'.rootDirent = udev.rootDirent := by
  unfold createTty at h
  split at h
  · have hfile := grows_addFile fs udev (ttyName num) fun dir id => fifo dir id S_IRWXA
    rwa [Except.ok.inj h] at hfile
  · cases h

/-- The root directory of a new `udev` is new and has no parent. -/
theorem grows_newUdev {udev : Udev} (h : newUdev fs = .ok (fs', udev)) :
    Grows fs fs' ∧ udev.rootDirent = fs.nextDirent ∧ udev.rootDirent < fs'.nextDirent ∧
      Parentless fs' udev.rootDirent := by
  obtain ⟨⟨fs₁, udev₁, inode⟩, hcreate, hrest⟩ := bind_eq_ok.mp h
  cases hrest
  obtain ⟨htty, hroot⟩ := grows_createTty hcreate
  have hmade := grows_makeDirent fs [] none fun dir => directoryLike dir 0 S_IRWXA
  have hless : ((fs.makeDirent [] none fun dir => directoryLike dir 0 S_IRWXA).1.dirents
      fs.nextDirent).parent = none := by
    rw [Fs.makeDirent_self]
  dsimp only
  rw [hroot]
  refine ⟨hmade.trans htty, rfl, Nat.lt_of_lt_of_le (Nat.lt_succ_self _) htty.next, ?_⟩
  intro p hp
  rw [htty.parent _ (Nat.lt_succ_self _)] at hp
  cases hp.symm.trans hless

theorem grows_cacheDirent (image : InitrdImage) (fs : Fs) (parent : Option Nat) (rdDirent : InitrdDirent)
    (rdInode : InitrdInode) :
    Grows fs (cacheDirent image fs parent rdDirent rdInode).1 ∧
    (cacheDirent image fs parent rdDirent rdInode).2 = fs.nextDirent ∧
    fs.nextDirent < (cacheDirent image fs parent rdDirent rdInode).1.nextDirent ∧
    ((cacheDirent image fs parent rdDirent rdInode).1.dirents fs.nextDirent).parent = some parent := by
  cases parent with
  | none =>
      rw [cacheDirent_none]
      have hmade := grows_makeDirent fs rdDirent.name (some none) fun dir => cacheInode image dir rdInode
      exact ⟨hmade, rfl, Nat.lt_succ_self _, by rw [Fs.makeDirent_self]⟩
  | some p =>
      rw [cacheDirent_some]
      have hmade := grows_makeChild fs rdDirent.name p fun dir => cacheInode image dir rdInode
      refine ⟨hmade, rfl, Nat.lt_succ_self _, ?_⟩
      rw [Fs.addChild_parent, Fs.makeDirent_self]

/-- **`cache` keeps the invariant**, whatever the image holds; the dirent it returns is new and has the
    given parent. -/
theorem grows_cache {image : InitrdImage} {fuel i dir : Nat} {parent : Option Nat}
    (h : cache image fuel fs parent i = .ok (fs', dir)) :
    Grows fs fs' ∧ dir < fs'.nextDirent ∧ (fs'.dirents dir).parent = some parent := by
  obtain ⟨rdDirent, j, _, rfl, hrest⟩ := cache_keeps Grows.refl Grows.trans
    (fun fs parent rdDirent j _ => (grows_cacheDirent image fs parent rdDirent _).1) h
  obtain ⟨hgrows, hdir, hlt, hpar⟩ := grows_cacheDirent image fs parent rdDirent (image.header.inodes j)
  refine ⟨hgrows.trans hrest, ?_, ?_⟩
  · rw [hdir]
    exact Nat.lt_of_lt_of_le hlt hrest.next
  · rw [hdir, hrest.parent _ hlt, hpar]

end WeirdOs
