import WeirdOs.Fs.Vfs
import WeirdOs.Lib.Split

/-!
# `Fs.Correctness.Resolve` — what a path resolves to

`resolve_path` collects characters and looks a component up whenever it meets a `'/'`, and once more at
the end of the path. `resolveLoop_eq` takes the two apart: the loop is a walk over the components of the
path (`walkPath`), empty ones included.

On a tree of dirents (`DirentTree`) a walk that finds something goes along a trail of the tree, so a
path resolves to a dirent iff it spells the way down to it (`resolvePath_iff`).
-/

namespace WeirdOs

open Lib

/-- The components of a path: the texts between the slashes after the leading one. -/
abbrev components (path : List UInt8) : List (List UInt8) := path.tail.splitOn slash

/-- The absolute path that spells `names`. -/
def absolutePath (names : List (List UInt8)) : List UInt8 := slash :: [slash].intercalate names

/-- Look the names up one below the other. A name that does not fit `buf` faults when it is reached. -/
def walkPath (fs : Fs) : List (List UInt8) → Nat → Exec (Option Nat)
  | [], cur            => .ok (some cur)
  | name :: names, cur =>
    if name.length < 0xff then
      match fs.getChild cur name with
      | some next => walkPath fs names next
      | none      => .ok none
    else .error (.bounds "buf")

variable {fs : Fs} {root d cur : Nat} {path buf : List UInt8} {names : List (List UInt8)}

/-! ## The loop is a walk over components -/

theorem walkPath_overlong {name : List UInt8} (h : ¬ name.length < 0xff) :
    walkPath fs (name :: names) cur = .error (.bounds "buf") := by rw [walkPath, if_neg h]

/-- **The character loop looks up the components of the path**, the first one continuing what `buf`
    already holds. -/
theorem resolveLoop_eq (fs : Fs) (path buf : List UInt8) (cur : Nat) :
    resolveLoop fs path buf (some cur) =
      walkPath fs ((path.splitOn slash).modifyHead (buf ++ ·)) cur := by
  induction path generalizing buf cur with
  | nil =>
      -- the component in `buf` is the last one
      rw [resolveLoop, List.splitOn_nil, List.modifyHead_cons, List.append_nil, walkPath]
      unfold checkBuf
      by_cases hbuf : buf.length < 0xff
      · rw [if_pos hbuf, if_pos hbuf]
        cases hchild : fs.getChild cur buf with
        | none => simp [deref, hchild]
        | some next => simp [deref, hchild, walkPath]
      · rw [if_neg hbuf, if_neg hbuf]
        rfl
  | cons c path ih =>
      rw [resolveLoop]
      unfold checkBuf
      by_cases hc : c = slash
      · -- the component is complete
        rw [if_pos hc, hc, splitOn_self, List.modifyHead_cons, List.append_nil, walkPath]
        by_cases hbuf : buf.length < 0xff
        · rw [if_pos hbuf, if_pos hbuf, ok_bind, deref, ok_bind]
          cases fs.getChild cur buf with
          | none => rfl
          | some next =>
              show resolveLoop fs path [] (some next) = _
              rw [ih, modifyHead_nil_append]
        · rw [if_neg hbuf, if_neg hbuf]
          rfl
      · rw [if_neg hc, modifyHead_splitOn_cons hc]
        by_cases hbuf : buf.length < 0xff
        · rw [if_pos hbuf, ok_bind, ih]
        · -- the buffer is full already, and the component is longer still
          obtain ⟨name, names, hrest⟩ := List.exists_cons_of_ne_nil (List.splitOn_ne_nil slash path)
          have hlong : ¬ (buf ++ [c] ++ name).length < 0xff := by
            simp only [List.length_append]
            omega
          rw [if_neg hbuf, hrest, List.modifyHead_cons, walkPath_overlong hlong]
          rfl

/-- **`resolve_path` walks down the components of an absolute path.** -/
theorem resolvePath_eq (fs : Fs) (root : Nat) (path : List UInt8) :
    resolvePath fs ⟨some root⟩ path =
      if path.head? = some slash then walkPath fs (components path) root
      else .error (.assertion "path[0] == '/' && \"Path names must be relative to root dir\"") := by
  unfold resolvePath components
  by_cases h : path.head? = some slash
  · rw [if_pos h, decide_eq_true h, assert_true, ok_bind, resolveLoop_eq]
    cases path.tail.splitOn slash <;> rfl
  · rw [if_neg h, decide_eq_false h]
    rfl

/-- The same for a path that is given by its text after the slash. -/
theorem resolvePath_slash (fs : Fs) (root : Nat) (text : List UInt8) :
    resolvePath fs ⟨some root⟩ (slash :: text) = walkPath fs (text.splitOn slash) root := by
  rw [resolvePath_eq, if_pos List.head?_cons, components, List.tail_cons]

/-! ## What a walk finds -/

/-- Components that fit the buffer are followed to the end. -/
theorem walkPath_eq_ok (h : ∀ name ∈ names, name.length < 0xff) :
    walkPath fs names cur = .ok (fs.graph.descend cur names) := by
  induction names generalizing cur with
  | nil => rfl
  | cons name names ih =>
      rw [walkPath, if_pos (h name List.mem_cons_self), Fs.getChild_eq, NameGraph.descend]
      cases fs.graph.child cur name with
      | none => rfl
      | some next => exact ih fun n hn => h n (List.mem_cons_of_mem _ hn)

/-- A walk that finds something has met no overlong component. -/
theorem walkPath_eq_some :
    walkPath fs names cur = .ok (some d) ↔
      (∀ name ∈ names, name.length < 0xff) ∧ fs.graph.descend cur names = some d := by
  constructor
  · intro h
    suffices hfit : ∀ name ∈ names, name.length < 0xff by
      rw [walkPath_eq_ok hfit] at h
      exact ⟨hfit, Except.ok.inj h⟩
    induction names generalizing cur with
    | nil => simp
    | cons name names ih =>
        by_cases hname : name.length < 0xff
        · rw [walkPath, if_pos hname] at h
          cases hchild : fs.getChild cur name with
          | none => simp [hchild] at h
          | some next =>
              rw [hchild] at h
              exact List.forall_mem_cons.mpr ⟨hname, ih h⟩
        · rw [walkPath_overlong hname] at h
          cases h
  · rintro ⟨hfit, h⟩
    rw [walkPath_eq_ok hfit, h]

/-! ## Resolution on a tree -/

/-- A tree of dirents below `root`, with usable names: not empty, without `'/'`, distinct among
    siblings. -/
structure DirentTree (fs : Fs) (root : Nat) : Prop where
  tree : fs.graph.IsTree root
  named : ∀ d, fs.graph.Reaches root d → d ≠ root →
    (fs.dirents d).ident ≠ [] ∧ slash ∉ (fs.dirents d).ident

/-- The names along a trail are idents of dirents below the root. -/
theorem DirentTree.trail_names (h : DirentTree fs root) (ht : fs.graph.Trail root names d) :
    ∀ name ∈ names, ∃ e, fs.graph.Reaches root e ∧ e ≠ root ∧ name = (fs.dirents e).ident := by
  induction hn : names.length generalizing names d with
  | zero =>
      rw [List.length_eq_zero_iff] at hn
      subst hn
      simp
  | succ n ih =>
      rcases ht.last with ⟨rfl, _⟩ | ⟨u, names', hu, hmem, rfl⟩
      · cases hn
      · have hne : d ≠ root := by
          rintro rfl
          exact h.tree.top u ⟨_, hu⟩ hmem
        rw [List.forall_mem_append]
        exact ⟨ih hu (by simpa using hn), by simpa using ⟨d, ⟨_, ht⟩, hne, rfl⟩⟩

/-- The path that spells a trail has the names of the trail as its components. -/
theorem DirentTree.components_absolutePath (h : DirentTree fs root)
    (ht : fs.graph.Trail root names d) (hne : d ≠ root) : components (absolutePath names) = names := by
  have hnil : names ≠ [] := by
    rintro rfl
    exact hne (NameGraph.trail_nil.mp ht).symm
  refine List.splitOn_intercalate slash ?_ hnil
  intro name hname
  obtain ⟨e, he, hne', rfl⟩ := h.trail_names ht name hname
  exact (h.named e he hne').2

/-- A path that starts with `'/'` is spelled by its components. -/
theorem absolutePath_components (h : path.head? = some slash) :
    absolutePath (components path) = path := by
  cases path with
  | nil => cases h
  | cons c path =>
      obtain rfl : c = slash := by simpa using h
      simp [absolutePath, components]

/-- **Resolution spells trails.** A path resolves to `d` iff its components fit the buffer, it is the
    absolute path of a trail that leads to `d`, and `d` is not the root. -/
theorem resolvePath_iff (h : DirentTree fs root) :
    resolvePath fs ⟨some root⟩ path = .ok (some d) ↔
      (∀ name ∈ components path, name.length ≤ 254) ∧
      d ≠ root ∧ ∃ names, fs.graph.Trail root names d ∧ path = absolutePath names := by
  rw [resolvePath_eq]
  constructor
  · intro hres
    by_cases hhead : path.head? = some slash
    · rw [if_pos hhead, walkPath_eq_some] at hres
      have ht := NameGraph.descend_trail hres.2
      refine ⟨fun name hname => Nat.le_of_lt_succ (hres.1 name hname), ?_, _, ht,
        (absolutePath_components hhead).symm⟩
      rintro rfl
      exact List.splitOn_ne_nil slash path.tail (h.tree.trail_root ht)
    · rw [if_neg hhead] at hres
      cases hres
  · rintro ⟨hfit, hne, names, ht, rfl⟩
    rw [h.components_absolutePath ht hne] at hfit ⊢
    rw [if_pos (by simp [absolutePath]), walkPath_eq_some]
    exact ⟨fun name hname => Nat.lt_succ_of_le (hfit name hname), h.tree.descend_iff.mpr ht⟩

/-- **Resolution is a bijection between the dirents below the root and their absolute paths**, when the
    idents fit the buffer. On every absolute path whose components fit it returns; it returns `d`
    exactly on the path that spells the idents from the root's child down to `d`; and every dirent below
    the root has one path. -/
theorem resolvePath_bijection (h : DirentTree fs root)
    (hshort : ∀ d, fs.graph.Reaches root d → d ≠ root → (fs.dirents d).ident.length ≤ 254) :
    (∀ path, path.head? = some slash → (∀ name ∈ components path, name.length ≤ 254) →
      (∃ r, resolvePath fs ⟨some root⟩ path = .ok r) ∧
      ∀ d, resolvePath fs ⟨some root⟩ path = .ok (some d) ↔
        d ≠ root ∧ ∃ names, fs.graph.Trail root names d ∧ path = absolutePath names) ∧
    ∀ d, fs.graph.Reaches root d → d ≠ root →
      ∃! path, resolvePath fs ⟨some root⟩ path = .ok (some d) := by
  refine ⟨fun path hhead hfit => ⟨?_, ?_⟩, ?_⟩
  · refine ⟨fs.graph.descend root (components path), ?_⟩
    rw [resolvePath_eq, if_pos hhead]
    exact walkPath_eq_ok fun name hname => Nat.lt_succ_of_le (hfit name hname)
  · intro d
    rw [resolvePath_iff h, and_iff_right hfit]
  · intro d hd hne
    obtain ⟨names, ht⟩ := hd
    have hfit : ∀ name ∈ components (absolutePath names), name.length ≤ 254 := by
      rw [h.components_absolutePath ht hne]
      intro name hname
      obtain ⟨e, he, hne', rfl⟩ := h.trail_names ht name hname
      exact hshort e he hne'
    refine ⟨absolutePath names, (resolvePath_iff h).mpr ⟨hfit, hne, names, ht, rfl⟩, ?_⟩
    intro path hpath
    obtain ⟨_, _, names', ht', rfl⟩ := (resolvePath_iff h).mp hpath
    rw [h.tree.trail_unique ht ht']

/-! ## A small tree

`/dev/tty0` and `/test.txt` below dirent 0, and a device that is not mounted, with `vga` below
dirent 4. -/

/-- The dirents of the small tree. -/
def smallFs : Fs where
  dirents
    | 0 => ⟨[slash], 0, none, none, [3, 1]⟩
    | 1 => ⟨[100, 101, 118], 1, none, some (some 0), [2]⟩
    | 2 => ⟨[116, 116, 121, 48], 2, none, some (some 1), []⟩
    | 3 => ⟨[116, 101, 115, 116, 46, 116, 120, 116], 3, none, some (some 0), []⟩
    | 4 => ⟨[], 0, none, none, [5]⟩
    | 5 => ⟨[118, 103, 97], 1, none, some (some 4), []⟩
    | _ => ⟨[], 0, none, none, []⟩
  inodes _ := ⟨0, 0, 0, 0, 0, 0, .other⟩
  nextDirent := 6
  nextInode := 0

theorem smallFs_reaches (h : smallFs.graph.Reaches 0 d) : d ∈ [0, 1, 2, 3] :=
  h.mem_of_closed (by decide) (by decide)

theorem smallFs_tree : DirentTree smallFs 0 where
  tree := NameGraph.isTree_of_closed [0, 1, 2, 3] (by decide) (by decide) (by decide) (by decide)
    (by decide)
  named d hd hne := by
    have hnames : ∀ d ∈ [0, 1, 2, 3], d ≠ 0 →
        (smallFs.dirents d).ident ≠ [] ∧ slash ∉ (smallFs.dirents d).ident := by decide
    exact hnames d (smallFs_reaches hd) hne

/-- In the small tree `/dev/tty0` resolves to dirent 2, and no other path does. -/
theorem resolvePath_bijection_small :
    (∃ names, smallFs.graph.Trail 0 names 2 ∧
      [47, 100, 101, 118, 47, 116, 116, 121, 48] = absolutePath names) ∧
    ∃! path, resolvePath smallFs ⟨some 0⟩ path = .ok (some 2) := by
  have hshort : ∀ d ∈ [0, 1, 2, 3], (smallFs.dirents d).ident.length ≤ 254 := by decide
  have hbij := resolvePath_bijection smallFs_tree fun d hd _ => hshort d (smallFs_reaches hd)
  refine ⟨?_, hbij.2 2 ?_ (by decide)⟩
  · have hfit : ∀ name ∈ components [47, 100, 101, 118, 47, 116, 116, 121, 48], name.length ≤ 254 := by
      simp [components, List.splitOn_cons_eq_if_modifyHead, slash]
    exact (((hbij.1 _ rfl hfit).2 2).mp rfl).2
  · have hdev : smallFs.graph.Reaches 0 1 := (NameGraph.Reaches.refl 0).child (by decide)
    exact hdev.child (by decide)

end WeirdOs
