import WeirdOs.Machine
import WeirdOs.Clib.String
import WeirdOs.Lib.NameTree
import Mathlib.Logic.Function.Basic

/-!
# `Fs.Dirent` — directory entries and inodes (`kernel/fs/fs.h`)

The objects of the file system live in a store and are known by reference, since they point to each
other: a `dirent` holds its children and its parent, and an inode the `dirent` it was made for. A handle
(`rc`, `weak`) is a reference or null. Nothing is ever freed here, so reference counts are left out.

The `parent` of a dirent is an `optional<rc<dirent>>`: there may be none, and one that is there may
still be a null handle.
-/

namespace WeirdOs

open Lib

/-! ## The store -/

/-- `class dirent`. -/
structure Dirent where
  ident : List UInt8
  inodeId : Nat
  inode : Option Nat
  parent : Option (Option Nat)
  children : List Nat
deriving DecidableEq, Repr

/-- The class of an inode, with the data of its own that reads use. -/
inductive InodeKind where
  /-- `directory_like`. -/
  | directoryLike
  /-- `rdfs_inode`: the bytes from its `data` pointer on. -/
  | rdfs (data : Nat → UInt8)
  /-- `fifo`. -/
  | fifo
  /-- The class `make_file` was instantiated with. -/
  | other

/-- `class inode`: the fields the file systems set. -/
structure Inode where
  id : Nat
  mode : Nat
  uid : Nat
  gid : Nat
  size : Nat
  dirent : Nat
  kind : InodeKind

/-- The store: what every reference refers to, and the next fresh ones. -/
structure Fs where
  dirents : Nat → Dirent
  inodes : Nat → Inode
  nextDirent : Nat
  nextInode : Nat

/-- The store before anything is made. -/
def Fs.empty : Fs where
  dirents _ := ⟨[], 0, none, none, []⟩
  inodes _ := ⟨0, 0, 0, 0, 0, 0, .other⟩
  nextDirent := 0
  nextInode := 0

/-- Dereference a handle. -/
def deref (what : String) : Option Nat → Exec Nat
  | none   => .error (.null what)
  | some r => .ok r

/-- `optional::value`. -/
def value {α : Type} : Option α → Exec α
  | none   => .error (.assertion "this->_has_value && \"Illegal optional access\"")
  | some a => .ok a

theorem deref_eq_ok {what : String} {h : Option Nat} {r : Nat} :
    deref what h = .ok r ↔ h = some r := by
  cases h <;> simp [deref]

theorem value_eq_ok {α : Type} {o : Option α} {a : α} : value o = .ok a ↔ o = some a := by
  cases o <;> simp [value]

namespace Fs

/-- Change one dirent. -/
def modifyDirent (fs : Fs) (d : Nat) (f : Dirent → Dirent) : Fs :=
  { fs with dirents := Function.update fs.dirents d (f (fs.dirents d)) }

/-- `make_rc<dirent>(ident, m_inode, parent)`: the children are empty. -/
def newDirent (fs : Fs) (ident : List UInt8) (inode : Option Nat) (parent : Option (Option Nat)) :
    Fs × Nat :=
  ({ fs with
      dirents := Function.update fs.dirents fs.nextDirent ⟨ident, 0, inode, parent, []⟩
      nextDirent := fs.nextDirent + 1 }, fs.nextDirent)

/-- `make_rc` of an inode. -/
def newInode (fs : Fs) (inode : Inode) : Fs × Nat :=
  ({ fs with
      inodes := Function.update fs.inodes fs.nextInode inode
      nextInode := fs.nextInode + 1 }, fs.nextInode)

/-- `d->ident = ident`. -/
def setIdent (fs : Fs) (d : Nat) (ident : List UInt8) : Fs :=
  fs.modifyDirent d fun dir => { dir with ident }

/-- `d->parent = nullopt`. -/
def clearParent (fs : Fs) (d : Nat) : Fs :=
  fs.modifyDirent d fun dir => { dir with parent := none }

/-- `d->m_inode = inode` and `d->inode_id = inode->id`. -/
def setInode (fs : Fs) (d inode : Nat) : Fs :=
  fs.modifyDirent d fun dir => { dir with inode := some inode, inodeId := (fs.inodes inode).id }

/-- A dirent with its inode: `make_rc<dirent>` of that ident and parent, the inode that `make` constructs
    for it, and the assignments of `m_inode` and `inode_id`. Every dirent is made like this. -/
def makeDirent (fs : Fs) (ident : List UInt8) (parent : Option (Option Nat)) (make : Nat → Inode) :
    Fs × Nat :=
  let (fs, dir) := fs.newDirent ident none parent
  let (fs, inode) := fs.newInode (make dir)
  (fs.setInode dir inode, dir)

/-- `dirent::add_child`. -/
def addChild (fs : Fs) (d child : Nat) : Fs :=
  fs.modifyDirent d fun dir => { dir with children := dir.children ++ [child] }

/-- `it.p->value = child`, for the iterator at position `i` of the children of `d`. -/
def setChild (fs : Fs) (d i child : Nat) : Fs :=
  fs.modifyDirent d fun dir => { dir with children := dir.children.set i child }

/-- `dirent::get_child_iter`: the position of the first child of that name. -/
def getChildIter (fs : Fs) (d : Nat) (name : List UInt8) : Option Nat :=
  (fs.dirents d).children.findIdx? fun c => strcmp name (fs.dirents c).ident

/-- `dirent::get_child`: the first child of that name. -/
def getChild (fs : Fs) (d : Nat) (name : List UInt8) : Option Nat :=
  (fs.dirents d).children.find? fun c => strcmp name (fs.dirents c).ident

/-- The dirents as a graph of named nodes. -/
def graph (fs : Fs) : NameGraph Nat (List UInt8) where
  name d := (fs.dirents d).ident
  children d := (fs.dirents d).children

@[simp] theorem graph_name (fs : Fs) (d : Nat) : fs.graph.name d = (fs.dirents d).ident := rfl

@[simp] theorem graph_children (fs : Fs) (d : Nat) :
    fs.graph.children d = (fs.dirents d).children := rfl

/-- `get_child` finds the first child of the name. -/
theorem getChild_eq (fs : Fs) (d : Nat) (name : List UInt8) :
    fs.getChild d name = fs.graph.child d name := by
  unfold getChild NameGraph.child
  congr
  funext c
  rw [Bool.eq_iff_iff, strcmp_iff, decide_eq_true_iff]
  exact eq_comm

/-! ## What the operations change -/

variable (fs : Fs) {d e i c : Nat} {ident : List UInt8} {f : Dirent → Dirent}

@[simp] theorem modifyDirent_self : (fs.modifyDirent d f).dirents d = f (fs.dirents d) :=
  Function.update_self _ _ _

theorem modifyDirent_of_ne (h : e ≠ d) : (fs.modifyDirent d f).dirents e = fs.dirents e :=
  Function.update_of_ne h _ _

/-- A field that `f` keeps is kept everywhere. -/
theorem modifyDirent_field {β : Type} (field : Dirent → β) (h : ∀ x, field (f x) = field x) :
    field ((fs.modifyDirent d f).dirents e) = field (fs.dirents e) := by
  by_cases he : e = d
  · subst he
    rw [modifyDirent_self, h]
  · rw [modifyDirent_of_ne fs he]

/-- A field that `f` changes is changed at `d`. -/
theorem modifyDirent_field_at {β : Type} (field : Dirent → β) :
    field ((fs.modifyDirent d f).dirents e) =
      if e = d then field (f (fs.dirents e)) else field (fs.dirents e) := by
  by_cases he : e = d
  · subst he
    rw [if_pos rfl, modifyDirent_self]
  · rw [if_neg he, modifyDirent_of_ne fs he]

variable {parent : Option (Option Nat)} {make : Nat → Inode}

/-- The new dirent. -/
theorem makeDirent_self : (fs.makeDirent ident parent make).1.dirents fs.nextDirent =
    ⟨ident, (make fs.nextDirent).id, some fs.nextInode, parent, []⟩ := by
  simp [makeDirent, setInode, modifyDirent, newInode, newDirent]

/-- The other dirents are kept. -/
theorem makeDirent_of_ne (h : d ≠ fs.nextDirent) :
    (fs.makeDirent ident parent make).1.dirents d = fs.dirents d := by
  simp [makeDirent, setInode, modifyDirent, newInode, newDirent, h]

/-- The new inode. -/
theorem makeDirent_inode :
    (fs.makeDirent ident parent make).1.inodes fs.nextInode = make fs.nextDirent :=
  Function.update_self _ _ _

/-- The other inodes are kept. -/
theorem makeDirent_inode_of_ne (h : i ≠ fs.nextInode) :
    (fs.makeDirent ident parent make).1.inodes i = fs.inodes i :=
  Function.update_of_ne h _ _

@[simp] theorem addChild_inodes : (fs.addChild d c).inodes = fs.inodes := rfl

@[simp] theorem setIdent_children :
    ((fs.setIdent d ident).dirents e).children = (fs.dirents e).children :=
  modifyDirent_field fs Dirent.children fun _ => rfl

@[simp] theorem setIdent_parent :
    ((fs.setIdent d ident).dirents e).parent = (fs.dirents e).parent :=
  modifyDirent_field fs Dirent.parent fun _ => rfl

theorem setIdent_ident :
    ((fs.setIdent d ident).dirents e).ident = if e = d then ident else (fs.dirents e).ident :=
  modifyDirent_field_at fs Dirent.ident

@[simp] theorem setIdent_inode : ((fs.setIdent d ident).dirents e).inode = (fs.dirents e).inode :=
  modifyDirent_field fs Dirent.inode fun _ => rfl

@[simp] theorem clearParent_children :
    ((fs.clearParent d).dirents e).children = (fs.dirents e).children :=
  modifyDirent_field fs Dirent.children fun _ => rfl

@[simp] theorem clearParent_inode : ((fs.clearParent d).dirents e).inode = (fs.dirents e).inode :=
  modifyDirent_field fs Dirent.inode fun _ => rfl

theorem clearParent_parent :
    ((fs.clearParent d).dirents e).parent = if e = d then none else (fs.dirents e).parent :=
  modifyDirent_field_at fs Dirent.parent

@[simp] theorem addChild_parent :
    ((fs.addChild d c).dirents e).parent = (fs.dirents e).parent :=
  modifyDirent_field fs Dirent.parent fun _ => rfl

theorem addChild_children :
    ((fs.addChild d c).dirents e).children =
      if e = d then (fs.dirents e).children ++ [c] else (fs.dirents e).children :=
  modifyDirent_field_at fs Dirent.children

@[simp] theorem setChild_ident :
    ((fs.setChild d i c).dirents e).ident = (fs.dirents e).ident :=
  modifyDirent_field fs Dirent.ident fun _ => rfl

@[simp] theorem setChild_inode : ((fs.setChild d i c).dirents e).inode = (fs.dirents e).inode :=
  modifyDirent_field fs Dirent.inode fun _ => rfl

@[simp] theorem setChild_parent :
    ((fs.setChild d i c).dirents e).parent = (fs.dirents e).parent :=
  modifyDirent_field fs Dirent.parent fun _ => rfl

theorem setChild_children :
    ((fs.setChild d i c).dirents e).children =
      if e = d then (fs.dirents e).children.set i c else (fs.dirents e).children :=
  modifyDirent_field_at fs Dirent.children

end Fs

/-! ## Inodes -/

/-- The directory bit of a mode. -/
def S_IFDIR : Nat := 0o40000

/-- `S_ISDIR`. -/
def S_ISDIR (mode : Nat) : Bool := mode &&& S_IFDIR == S_IFDIR

/-- The constructor of `directory_like`. -/
def directoryLike (dirent id mode : Nat) : Inode := ⟨id, mode ||| S_IFDIR, 0, 0, 0, dirent, .directoryLike⟩

/-- The constructor of `rdfs_inode`. -/
def rdfsInode (dirent id mode : Nat) (data : Nat → UInt8) : Inode := ⟨id, mode, 0, 0, 0, dirent, .rdfs data⟩

/-- The constructor of `fifo`: its `mode |= S_IFIFO` changes the parameter, not the field. -/
def fifo (dirent id mode : Nat) : Inode := ⟨id, mode, 0, 0, 0, dirent, .fifo⟩

/-- `rdfs_inode::read`: the number of bytes copied, and the bytes. -/
def rdfsRead (size : Nat) (data : Nat → UInt8) (nbyte offset : Nat) : Nat × List UInt8 :=
  let actual := min size nbyte
  (actual, (List.range actual).map fun i => data (offset + i))

/-- `inode->read(buf, nbyte, offset)`: `rdfs_inode` has its own, `directory_like` inherits the default
    that reads nothing. The other classes read from state that is not kept here. -/
def Inode.read (ino : Inode) (nbyte offset : Nat) : Option (Nat × List UInt8) :=
  match ino.kind with
  | .rdfs data     => some (rdfsRead ino.size data nbyte offset)
  | .directoryLike => some (0, [])
  | .fifo          => none
  | .other         => none

/-- `inode->opendir()`: the dirents that the iterator runs over. `directory_like` asks its dirent, the other
    classes return the iterator `nullptr`. -/
def Inode.opendir (ino : Inode) (fs : Fs) : List Nat :=
  match ino.kind with
  | .directoryLike => (fs.dirents ino.dirent).children
  | .rdfs _        => []
  | .fifo          => []
  | .other         => []

end WeirdOs
