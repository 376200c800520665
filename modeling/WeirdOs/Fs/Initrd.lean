import WeirdOs.Fs.Dirent
import WeirdOs.Lib.Exec

/-!
# `Fs.Initrd` — the initial ram disk (`kernel/fs/initrd.cpp`)

The image is a header with 255 dirents and 255 inodes that refer to each other by index, followed by the
bytes of the files. `cache` turns it into dirents: one call makes the dirent of one entry, then handles
the entry's sibling and its first child.
-/

namespace WeirdOs

open Lib

/-- `struct initrd_dirent`; the name is the text in the field, before its NUL. -/
structure InitrdDirent where
  name : List UInt8
  inodeId : Nat
  parent : Nat
  firstChild : Nat
  sibling : Nat
deriving DecidableEq, Repr

/-- `struct initrd_inode`. -/
structure InitrdInode where
  id : Nat
  mode : Nat
  uid : Nat
  gid : Nat
  size : Nat
  data : Nat
deriving DecidableEq, Repr

/-- `struct initrd_header`. -/
structure InitrdHeader where
  numDirent : Nat
  dirents : Nat → InitrdDirent
  inodes : Nat → InitrdInode

/-- The image in memory: the header at `initrd_location`, and the bytes that follow it. -/
structure InitrdImage where
  header : InitrdHeader
  fileData : Nat → UInt8

/-- `header->dirents[i]`. -/
def InitrdHeader.dirent (header : InitrdHeader) (i : Nat) : Exec InitrdDirent :=
  if i < 0xff then .ok (header.dirents i) else .error (.bounds "dirents")

/-- `header->inodes[i]`. -/
def InitrdHeader.inode (header : InitrdHeader) (i : Nat) : Exec InitrdInode :=
  if i < 0xff then .ok (header.inodes i) else .error (.bounds "inodes")

theorem InitrdHeader.inode_eq_ok {header : InitrdHeader} {i : Nat} {rdInode : InitrdInode} :
    header.inode i = .ok rdInode ↔ i < 0xff ∧ header.inodes i = rdInode := by
  unfold InitrdHeader.inode
  by_cases h : i < 0xff
  · rw [if_pos h, Except.ok.injEq, and_iff_right h]
  · rw [if_neg h]
    exact iff_of_false nofun fun h' => h h'.1

/-- The inode that `cache` makes for the dirent `dir`. -/
def cacheInode (image : InitrdImage) (dir : Nat) (rdInode : InitrdInode) : Inode :=
  let inode :=
    if S_ISDIR rdInode.mode then directoryLike dir rdInode.id rdInode.mode
    else rdfsInode dir rdInode.id rdInode.mode fun i => image.fileData (rdInode.data + i)
  { inode with uid := rdInode.uid, gid := rdInode.gid, size := rdInode.size }

@[simp] theorem cacheInode_id (image : InitrdImage) (dir : Nat) (rdInode : InitrdInode) :
    (cacheInode image dir rdInode).id = rdInode.id := by
  unfold cacheInode
  split <;> rfl

@[simp] theorem cacheInode_size (image : InitrdImage) (dir : Nat) (rdInode : InitrdInode) :
    (cacheInode image dir rdInode).size = rdInode.size := rfl

theorem cacheInode_dir (image : InitrdImage) (fs : Fs) (dir : Nat) {rdInode : InitrdInode}
    (hdir : S_ISDIR rdInode.mode = true) :
    (cacheInode image dir rdInode).kind = .directoryLike ∧
      (cacheInode image dir rdInode).opendir fs = (fs.dirents dir).children := by
  unfold cacheInode
  rw [if_pos hdir]
  exact ⟨rfl, rfl⟩

theorem cacheInode_file (image : InitrdImage) (fs : Fs) (dir : Nat) {rdInode : InitrdInode}
    (hfile : S_ISDIR rdInode.mode = false) :
    (cacheInode image dir rdInode).kind = .rdfs (fun i => image.fileData (rdInode.data + i)) ∧
      (cacheInode image dir rdInode).opendir fs = [] := by
  unfold cacheInode
  rw [if_neg (Bool.eq_false_iff.mp hfile)]
  exact ⟨rfl, rfl⟩

/-- The part of `cache` before its recursive calls: make the dirent and its inode, and add it to the
    parent. -/
def cacheDirent (image : InitrdImage) (fs : Fs) (parent : Option Nat) (rdDirent : InitrdDirent)
    (rdInode : InitrdInode) : Fs × Nat :=
  let (fs, dir) := fs.makeDirent rdDirent.name (some parent) fun dir => cacheInode image dir rdInode
  match parent with
  | some p => (fs.addChild p dir, dir)
  | none   => (fs, dir)

theorem cacheDirent_none (image : InitrdImage) (fs : Fs) (rdDirent : InitrdDirent)
    (rdInode : InitrdInode) : cacheDirent image fs none rdDirent rdInode =
      ((fs.makeDirent rdDirent.name (some none) fun dir => cacheInode image dir rdInode).1,
        fs.nextDirent) := rfl

theorem cacheDirent_some (image : InitrdImage) (fs : Fs) (p : Nat) (rdDirent : InitrdDirent)
    (rdInode : InitrdInode) : cacheDirent image fs (some p) rdDirent rdInode =
      ((fs.makeDirent rdDirent.name (some (some p)) fun dir => cacheInode image dir rdInode).1.addChild p
        fs.nextDirent, fs.nextDirent) := rfl

/-- `initrd::cache(parent, header->dirents[i])`. The calls below each other are for different entries
    unless they never end, so 256 nested ones are enough. -/
def cache (image : InitrdImage) : Nat → Fs → Option Nat → Nat → Exec (Fs × Nat)
  | 0, _, _, _ => .error .fuel
  | fuel + 1, fs, parent, i => do
    let rdDirent ← image.header.dirent i
    let rdInode ← image.header.inode rdDirent.inodeId
    let (fs, dir) := cacheDirent image fs parent rdDirent rdInode
    -- a link to entry 0 means that there is none
    let fs ← (if rdDirent.sibling = 0 then pure fs
      else Prod.fst <$> cache image fuel fs parent rdDirent.sibling)
    let fs ← (if rdDirent.firstChild = 0 then pure fs
      else Prod.fst <$> cache image fuel fs (some dir) rdDirent.firstChild)
    return (fs, dir)

/-- **What is kept whenever a dirent is made, `cache` keeps.** It makes its own dirent first, and the rest of
    the call keeps what it keeps; by induction on the nesting of the calls, for a reflexive and transitive
    relation. -/
theorem cache_keeps {image : InitrdImage} {R : Fs → Fs → Prop} (hrefl : ∀ fs, R fs fs)
    (htrans : ∀ {fs fs' fs'' : Fs}, R fs fs' → R fs' fs'' → R fs fs'')
    (hmade : ∀ fs parent rdDirent i, i < 0xff →
      R fs (cacheDirent image fs parent rdDirent (image.header.inodes i)).1)
    {fuel i dir : Nat} {fs fs' : Fs} {parent : Option Nat}
    (h : cache image fuel fs parent i = .ok (fs', dir)) :
    ∃ rdDirent j, j < 0xff ∧ dir = (cacheDirent image fs parent rdDirent (image.header.inodes j)).2 ∧
      R (cacheDirent image fs parent rdDirent (image.header.inodes j)).1 fs' := by
  induction fuel generalizing fs fs' parent i dir with
  | zero => cases h
  | succ fuel ih =>
      -- the two recursive calls, each behind a test for a null link
      have hlink : ∀ {fs fs' : Fs} {parent : Option Nat} {j : Nat},
          (if j = 0 then pure fs else Prod.fst <$> cache image fuel fs parent j) = .ok fs' → R fs fs' := by
        intro fs fs' parent j hj
        by_cases hj0 : j = 0
        · rw [if_pos hj0] at hj
          cases hj
          exact hrefl fs
        · rw [if_neg hj0] at hj
          cases hc : cache image fuel fs parent j with
          | error e =>
              rw [hc] at hj
              cases hj
          | ok made =>
              rw [hc] at hj
              cases hj
              obtain ⟨rdDirent, k, hk, -, hrest⟩ := ih hc
              exact htrans (hmade fs parent rdDirent k hk) hrest
      rw [cache] at h
      obtain ⟨rdDirent, _, h⟩ := bind_eq_ok.mp h
      obtain ⟨rdInode, hinode, h⟩ := bind_eq_ok.mp h
      obtain ⟨fs₁, hsibling, h⟩ := bind_eq_ok.mp h
      obtain ⟨fs₂, hchild, h⟩ := bind_eq_ok.mp h
      cases h
      obtain ⟨hid, rfl⟩ := InitrdHeader.inode_eq_ok.mp hinode
      exact ⟨rdDirent, rdDirent.inodeId, hid, rfl, htrans (hlink hsibling) (hlink hchild)⟩

/-- The constructor `initrd::initrd`: the root directory it caches. -/
def initrd (image : InitrdImage) (fs : Fs) : Exec (Fs × Nat) := cache image 256 fs none 0

end WeirdOs
