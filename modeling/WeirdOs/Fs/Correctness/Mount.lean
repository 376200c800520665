import WeirdOs.Fs.Correctness.Resolve

/-!
# `Fs.Correctness.Mount` — what mounting does to the other paths

Away from `"/"`, `mount_device` renames the root directory of the device to the path without its leading
slash and puts it in the place of the dirent that the path resolved to: on the graph of dirents it is a
`graft` (`mountDevice_graft`).

A path of one component is its own last component, so the device is found there. A longer path leaves
the device under a name with a slash in it, which no component ever equals: `mount_device` is correct
exactly at paths of one component (`mountDevice_iff`).
-/

namespace WeirdOs

open Lib

variable {fs fs' : Fs} {root d e p r cur : Nat} {path k : List UInt8} {names : List (List UInt8)}

/-- A well-formed mounted tree: a dirent below the root that has a parent is in the child list of it. -/
structure MountedTree (fs : Fs) (root : Nat) : Prop extends DirentTree fs root where
  parents : ∀ d p, fs.graph.Reaches root d → (fs.dirents d).parent = some (some p) →
    fs.graph.Reaches root p ∧ d ∈ (fs.dirents p).children

/-- The dirent `r` is the root of a device that is not mounted: neither at `"/"` nor in a child list. -/
def Unmounted (fs : Fs) (root r : Nat) : Prop := r ≠ root ∧ ∀ d, r ∉ (fs.dirents d).children

/-- What mounting the device with root `r` at `path` should do: the path leads to `r`, a name below the
    path to the child of `r` of that name (one that does not fit the buffer faults, as on every path),
    and every other path where it led before. -/
structure MountSpec (fs fs' : Fs) (root r : Nat) (path : List UInt8) : Prop where
  here : resolvePath fs' ⟨some root⟩ path = .ok (some r)
  below : ∀ name, slash ∉ name → resolvePath fs' ⟨some root⟩ (path ++ slash :: name) =
    if name.length ≤ 254 then .ok (fs.getChild r name) else .error (.bounds "buf")
  elsewhere : ∀ q, q ≠ path → ¬ (path ++ [slash]) <+: q →
    resolvePath fs' ⟨some root⟩ q = resolvePath fs ⟨some root⟩ q

/-! ## Renaming a dirent that is in no child list -/

theorem Unmounted.not_reaches (h : Unmounted fs root r) : ¬ fs.graph.Reaches root r := by
  rintro ⟨ks, ht⟩
  rcases ht.last with ⟨_, hroot⟩ | ⟨u, _, _, hmem, _⟩
  · exact h.1 hroot.symm
  · exact h.2 u hmem

/-- Lookups that agree wherever a walk can come make the walk agree. -/
theorem walkPath_congr
    (h : ∀ e name, fs.graph.Reaches cur e → fs'.getChild e name = fs.getChild e name) :
    walkPath fs' names cur = walkPath fs names cur := by
  induction names generalizing cur with
  | nil => rfl
  | cons name names ih =>
      rw [walkPath, walkPath, h cur name (.refl cur)]
      cases hchild : fs.getChild cur name with
      | none => rfl
      | some next =>
          rw [Fs.getChild_eq] at hchild
          have hnext := (NameGraph.Reaches.refl cur).child (NameGraph.child_mem hchild).1
          simp only [ih fun e name he => h e name (hnext.trans he)]

theorem getChild_rename {name : List UInt8} (h : r ∉ (fs.dirents e).children) :
    (fs.setIdent r k).getChild e name = fs.getChild e name := by
  unfold Fs.getChild
  rw [Fs.setIdent_children]
  refine List.find?_congr fun c hc => ?_
  rw [Fs.setIdent_ident, if_neg]
  rintro rfl
  exact h hc

/-- The renaming that `device->mount` begins with is not seen by resolution. -/
theorem resolvePath_rename (h : Unmounted fs root r) :
    resolvePath (fs.setIdent r k) ⟨some root⟩ path =
      resolvePath fs ⟨some root⟩ path := by
  rw [resolvePath_eq, resolvePath_eq, walkPath_congr fun e _ _ => getChild_rename (h.2 e)]

/-! ## What a mount that returns has done -/

/-- A path that resolves to `d` has found `d` among the children of something reachable. -/
theorem resolvePath_container (hres : resolvePath fs ⟨some root⟩ path = .ok (some d)) :
    ∃ u, fs.graph.Reaches root u ∧ d ∈ (fs.dirents u).children := by
  rw [resolvePath_eq] at hres
  by_cases hhead : path.head? = some slash
  · rw [if_pos hhead, walkPath_eq_some] at hres
    rcases (NameGraph.descend_trail hres.2).last with ⟨hnil, _⟩ | ⟨u, names, hu, hmem, _⟩
    · exact absurd hnil (List.splitOn_ne_nil slash path.tail)
    · exact ⟨u, ⟨names, hu⟩, hmem⟩
  · rw [if_neg hhead] at hres
    cases hres

/-- Without a root directory no path resolves. -/
theorem resolveLoop_null (fs : Fs) (path buf : List UInt8) (o : Option Nat) :
    resolveLoop fs path buf none ≠ .ok o := by
  induction path generalizing buf with
  | nil =>
      unfold resolveLoop checkBuf
      split <;> exact fun h => by cases h
  | cons c path ih =>
      unfold resolveLoop checkBuf
      by_cases hc : c = slash
      · rw [if_pos hc]
        split <;> exact fun h => by cases h
      · rw [if_neg hc]
        split
        · exact ih (buf ++ [c])
        · exact fun h => by cases h

/-- A path that resolves does so because a device is mounted at `"/"`. -/
theorem resolvePath_root {vfs : Vfs} {o : Option Nat} (hres : resolvePath fs vfs path = .ok o) :
    ∃ root, vfs = ⟨some root⟩ := by
  obtain ⟨rootDirent⟩ := vfs
  cases rootDirent with
  | none =>
      obtain ⟨_, _, hloop⟩ := bind_eq_ok.mp hres
      exact absurd hloop (resolveLoop_null _ _ _ _)
  | some root => exact ⟨root, rfl⟩

/-- **What a mount that returns has done.** At `"/"` it made the root of the device, now without a
    parent, the root directory. Elsewhere it found a dirent with a parent, and replaced one child of that
    parent. -/
theorem mountDevice_cases {vfs vfs' : Vfs} {device : FsDevice}
    (h : mountDevice fs vfs path device = .ok (fs', vfs')) (hr : device.rootDirent = r) :
    (path = [slash] ∧ fs' = (fs.setIdent r path).clearParent r ∧ vfs' = ⟨some r⟩) ∨
    (path ≠ [slash] ∧ vfs' = vfs ∧ ∃ root d p i, vfs = ⟨some root⟩ ∧
      (∃ u, fs.graph.Reaches root u ∧ d ∈ (fs.dirents u).children) ∧
      (fs.dirents d).parent = some (some p) ∧ i < (fs.dirents p).children.length ∧
      fs' = ((fs.setIdent r path).setIdent r path.tail).setChild p i r) := by
  have hslash : (path.head? = some slash ∧ strlen path = 1) ↔ path = [slash] := by
    constructor
    · rintro ⟨hhead, hlen⟩
      obtain ⟨c, rfl⟩ := List.length_eq_one_iff.mp hlen
      rw [Option.some.inj hhead]
    · rintro rfl
      exact ⟨rfl, rfl⟩
  unfold mountDevice at h
  rw [FsDevice.mount_eq, mountRoot, hr] at h
  by_cases hroot : path = [slash]
  · rw [hroot] at h ⊢
    left
    obtain ⟨rfl, rfl⟩ := Prod.mk.inj (Except.ok.inj h)
    exact ⟨rfl, rfl, rfl⟩
  · right
    simp only [hslash, hroot, if_false] at h
    obtain ⟨direntOpt, hres, h⟩ := bind_eq_ok.mp h
    obtain ⟨_, _, h⟩ := bind_eq_ok.mp h
    obtain ⟨d, hd, h⟩ := bind_eq_ok.mp h
    obtain ⟨_, _, h⟩ := bind_eq_ok.mp h
    obtain ⟨handle, hhandle, h⟩ := bind_eq_ok.mp h
    obtain ⟨p, hp, h⟩ := bind_eq_ok.mp h
    obtain ⟨i, hi, h⟩ := bind_eq_ok.mp h
    obtain ⟨rfl, rfl⟩ := Prod.mk.inj (Except.ok.inj h)
    rw [value_eq_ok] at hd hhandle hi
    rw [deref_eq_ok] at hp
    subst hd hp
    simp only [Fs.setIdent_parent] at hhandle
    refine ⟨hroot, rfl, ?_⟩
    obtain ⟨root, rfl⟩ := resolvePath_root hres
    obtain ⟨u, hu, hmem⟩ := resolvePath_container hres
    rw [Fs.setIdent_children] at hmem
    have hsame : ∀ x, x ≠ u → fs.graph.children x = (fs.setIdent r path).graph.children x :=
      fun x _ => (Fs.setIdent_children fs).symm
    have hlt := (List.findIdx?_eq_some_iff_getElem.mp hi).1
    simp only [Fs.setIdent_children] at hlt
    exact ⟨root, d, p, i, rfl, ⟨u, hu.of_children_eq hsame, hmem⟩, hhandle, hlt, rfl⟩

/-! ## Mounting is a graft -/

/-- A path that resolves on a tree is not `"/"`. -/
theorem DirentTree.path_ne_root (h : DirentTree fs root)
    (hres : resolvePath fs ⟨some root⟩ path = .ok (some d)) : path.length ≠ 1 := by
  obtain ⟨_, hne, names, ht, rfl⟩ := (resolvePath_iff h).mp hres
  intro hlen
  rcases ht.last with ⟨rfl, hroot⟩ | ⟨u, names', hu, hmem, rfl⟩
  · exact hne hroot.symm
  · have hident := (h.named d ⟨_, ht⟩ hne).1
    cases names' with
    | nil => simp [absolutePath, hident] at hlen
    | cons name names' =>
        rw [absolutePath, List.cons_append, List.intercalate_cons_of_ne_nil (by simp)] at hlen
        simp at hlen

/-- `get_child_iter` finds the place of the child that `get_child` finds. -/
theorem getChildIter_of_getChild {name : List UInt8} (h : fs.getChild p name = some d) :
    ∃ i, fs.getChildIter p name = some i ∧ (fs.dirents p).children[i]? = some d := by
  unfold Fs.getChild at h
  rw [List.find?_eq_bind_findIdx?_getElem?] at h
  exact Option.bind_eq_some_iff.mp h

/-- The three assignments of `mount_device`, on the graph. -/
theorem graph_setChild {i : Nat} {k' : List UInt8} :
    (((fs.setIdent r k').setIdent r k).setChild p i r).graph = fs.graph.graft p i r k := by
  unfold Fs.graph NameGraph.graft
  congr
  · funext x
    rw [Fs.setChild_ident, Fs.setIdent_ident, Fs.setIdent_ident, Function.update_apply]
    by_cases hx : x = r
    · rw [if_pos hx, if_pos hx]
    · rw [if_neg hx, if_neg hx, if_neg hx]
  · funext x
    rw [Fs.setChild_children, Fs.setIdent_children, Fs.setIdent_children, Function.update_apply]
    by_cases hx : x = p
    · rw [if_pos hx, if_pos hx, hx]
    · rw [if_neg hx, if_neg hx]

/-- **Mounting grafts.** At a path that resolves to a dirent with a parent, `mount_device` returns; the
    root of the device has replaced that dirent among the children of its parent, under the name of the
    path without its leading slash. -/
theorem mountDevice_graft {device : FsDevice} (h : MountedTree fs root)
    (hres : resolvePath fs ⟨some root⟩ path = .ok (some d))
    (hpar : (fs.dirents d).parent = some (some p)) (hdev : Unmounted fs root device.rootDirent) :
    ∃ fs' i, mountDevice fs ⟨some root⟩ path device = .ok (fs', ⟨some root⟩) ∧
      (fs.dirents p).children[i]? = some d ∧
      fs'.graph = fs.graph.graft p i device.rootDirent path.tail := by
  have hd := (resolvePath_iff h.toDirentTree).mp hres
  have hdreach : fs.graph.Reaches root d := hd.2.2.elim fun names ht => ⟨names, ht.1⟩
  obtain ⟨hpreach, hmem⟩ := h.parents d p hdreach hpar
  have hpath : ¬ (path.head? = some slash ∧ strlen path = 1) := fun hp => h.path_ne_root hres hp.2
  generalize hr : device.rootDirent = r at hdev ⊢
  have hdr : d ≠ r := by
    rintro rfl
    exact hdev.not_reaches hdreach
  -- the second lookup, under the old ident, in the store with the device renamed
  have hident : (((fs.setIdent r path).setIdent r path.tail).dirents d).ident = (fs.dirents d).ident := by
    rw [Fs.setIdent_ident, if_neg hdr, Fs.setIdent_ident, if_neg hdr]
  have hfind : ((fs.setIdent r path).setIdent r path.tail).getChild p (fs.dirents d).ident = some d := by
    rw [getChild_rename (by simpa using hdev.2 p), getChild_rename (hdev.2 p), Fs.getChild_eq]
    exact (NameGraph.child_eq_some (h.tree.distinct p hpreach)).mpr ⟨hmem, rfl⟩
  obtain ⟨i, hiter, hi⟩ := getChildIter_of_getChild hfind
  refine ⟨((fs.setIdent r path).setIdent r path.tail).setChild p i r, i, ?_, by simpa using hi,
    graph_setChild⟩
  unfold mountDevice
  rw [FsDevice.mount_eq, mountRoot]
  simp only [hpath, if_false, hr, resolvePath_rename hdev, hres, ok_bind, Option.isSome_some,
    assert_true, value, Fs.setIdent_parent, hpar, deref, hident, hiter]
  rfl

/-! ## Paths below and elsewhere -/

/-- Paths compose. -/
theorem absolutePath_append {names names' : List (List UInt8)} (h : names ≠ []) (h' : names' ≠ []) :
    absolutePath (names ++ names') = absolutePath names ++ absolutePath names' := by
  unfold absolutePath
  rw [List.cons_append]
  congr 1
  induction names with
  | nil => exact absurd rfl h
  | cons name names ih =>
      rw [List.cons_append, List.intercalate_cons_of_ne_nil (by simp [h'])]
      cases names with
      | nil => simp
      | cons name' names =>
          rw [ih (by simp), List.intercalate_cons_cons]
          simp only [List.append_assoc]

/-- A path whose components begin with `names` is the path of `names` or below it. -/
theorem path_of_prefix {q : List UInt8} (hq : q.head? = some slash) (hnames : names ≠ [])
    (h : names <+: components q) : q = absolutePath names ∨ absolutePath names ++ [slash] <+: q := by
  obtain ⟨rest, hrest⟩ := h
  have hq' := absolutePath_components hq
  rw [← hrest] at hq'
  by_cases hr : rest = []
  · rw [hr, List.append_nil] at hq'
    exact .inl hq'.symm
  · right
    rw [← hq', absolutePath_append hnames hr]
    refine ⟨[slash].intercalate rest, ?_⟩
    simp [absolutePath]

/-! ## After mounting -/

variable {i : Nat}

/-- **Walks that do not pass the mount point are as before.** The invariant: `e` is where the names in
    front of `rest` lead in the old tree. -/
theorem walkPath_elsewhere (h : DirentTree fs root) (hdev : Unmounted fs root r)
    (hg : fs'.graph = fs.graph.graft p i r k) (hi : (fs.dirents p).children[i]? = some d)
    (hp : fs.graph.Reaches root p) (hd : fs.graph.Trail root names d)
    (hk : k = (fs.dirents d).ident ∨ slash ∈ k) {pre rest : List (List UInt8)}
    (he : fs.graph.Trail root pre e) (hrest : ∀ name ∈ rest, slash ∉ name)
    (hnot : ¬ names <+: pre ++ rest) : walkPath fs' rest e = walkPath fs rest e := by
  induction rest generalizing pre e with
  | nil => rfl
  | cons name rest ih =>
      have hchild : fs'.getChild e name = fs.getChild e name := by
        rw [Fs.getChild_eq, Fs.getChild_eq, hg]
        by_cases hep : e = p
        · subst hep
          have hslash : slash ∉ name := hrest name List.mem_cons_self
          -- the trail to the mount point is the one to its container and its own name
          obtain ⟨pre', hpre', hnames⟩ := h.tree.trail_container hd hp (List.mem_of_getElem? hi)
          obtain rfl := h.tree.trail_unique he hpre'
          have hne : fs.graph.name d ≠ name := by
            rintro rfl
            exact hnot ⟨rest, by simp [hnames]⟩
          apply NameGraph.graft_child_other hi (hdev.2 e) hne
          rintro rfl
          rcases hk with rfl | hk
          · exact hne rfl
          · exact hslash hk
        · exact NameGraph.graft_child_of_ne hep (hdev.2 e)
      rw [walkPath, walkPath, hchild]
      cases hnext : fs.getChild e name with
      | none => rfl
      | some next =>
          rw [Fs.getChild_eq] at hnext
          obtain ⟨hmem, rfl⟩ := NameGraph.child_mem hnext
          have := ih (he.concat hmem) (fun n hn => hrest n (List.mem_cons_of_mem _ hn)) (by simpa using hnot)
          simp only [this]

/-- The names of a path without a slash in it are the path itself. -/
theorem names_of_slash_notMem (h : DirentTree fs root) (hd : fs.graph.Trail root names d)
    (hne : d ≠ root) (hs : slash ∉ (absolutePath names).tail) :
    names = [(fs.dirents d).ident] := by
  have hnames := h.components_absolutePath hd hne
  rw [components, List.splitOn_eq_singleton hs] at hnames
  rcases hd.last with ⟨rfl, _⟩ | ⟨u, names', _, _, rfl⟩
  · cases hnames
  · cases names' with
    | nil => rfl
    | cons _ names' => simp at hnames

/-- The other paths resolve as before, wherever the device was mounted. -/
theorem resolvePath_elsewhere (h : DirentTree fs root) (hdev : Unmounted fs root r)
    (hg : fs'.graph = fs.graph.graft p i r k) (hi : (fs.dirents p).children[i]? = some d)
    (hp : fs.graph.Reaches root p) (hd : fs.graph.Trail root names d)
    (hk : k = (fs.dirents d).ident ∨ slash ∈ k) {q : List UInt8} (hq : q ≠ absolutePath names)
    (hbelow : ¬ (absolutePath names ++ [slash]) <+: q) :
    resolvePath fs' ⟨some root⟩ q = resolvePath fs ⟨some root⟩ q := by
  rw [resolvePath_eq, resolvePath_eq]
  by_cases hhead : q.head? = some slash
  · rw [if_pos hhead, if_pos hhead]
    have hnil : names ≠ [] := by
      rintro rfl
      obtain rfl := NameGraph.trail_nil.mp hd
      exact h.tree.top p hp (List.mem_of_getElem? hi)
    refine walkPath_elsewhere h hdev hg hi hp hd hk (.here root)
      (fun name hname => notMem_splitOn hname) ?_
    intro hprefix
    rcases path_of_prefix hhead hnil hprefix with hq' | hq'
    · exact hq hq'
    · exact hbelow hq'
  · rw [if_neg hhead, if_neg hhead]

/-- Mounted at a child of the root, the device is found there, and its children below it. -/
theorem resolvePath_mounted (hdev : Unmounted fs root r)
    (hg : fs'.graph = fs.graph.graft root i r (fs.dirents d).ident)
    (hi : (fs.dirents root).children[i]? = some d)
    (hdist : (fs.graph.children root).Pairwise (fs.graph.name · ≠ fs.graph.name ·))
    (hslash : slash ∉ (fs.dirents d).ident) (hlen : (fs.dirents d).ident.length ≤ 254) :
    resolvePath fs' ⟨some root⟩ (slash :: (fs.dirents d).ident) = .ok (some r) ∧
    ∀ name, slash ∉ name →
      resolvePath fs' ⟨some root⟩ (slash :: (fs.dirents d).ident ++ slash :: name) =
        if name.length ≤ 254 then .ok (fs.getChild r name) else .error (.bounds "buf") := by
  have hroot : fs'.getChild root (fs.dirents d).ident = some r := by
    rw [Fs.getChild_eq, hg]
    exact NameGraph.graft_child_self hi (hdev.2 root) hdist
  have hr : ∀ name, fs'.getChild r name = fs.getChild r name := by
    intro name
    rw [Fs.getChild_eq, Fs.getChild_eq, hg]
    exact NameGraph.graft_child_of_ne hdev.1 (hdev.2 r)
  constructor
  · rw [resolvePath_slash, List.splitOn_eq_singleton hslash, walkPath, if_pos (by omega), hroot]
    rfl
  · intro name hname
    rw [List.cons_append, resolvePath_slash, List.splitOn_append_cons_self_of_not_mem hslash,
      List.splitOn_eq_singleton hname, walkPath, if_pos (by omega), hroot]
    show walkPath fs' [name] r = _
    by_cases hlen : name.length ≤ 254
    · rw [walkPath, if_pos (Nat.lt_succ_of_le hlen), if_pos hlen, hr]
      cases fs.getChild r name <;> rfl
    · rw [walkPath_overlong (by omega), if_neg hlen]

/-- Mounted deeper, the device is not found: its name has a slash in it. -/
theorem resolvePath_mounted_ne (hg : fs'.graph = fs.graph.graft p i r path.tail)
    (hs : slash ∈ path.tail) : resolvePath fs' ⟨some root⟩ path ≠ .ok (some r) := by
  intro hres
  rw [resolvePath_eq] at hres
  by_cases hhead : path.head? = some slash
  · rw [if_pos hhead, walkPath_eq_some] at hres
    rcases (NameGraph.descend_trail hres.2).last with ⟨hnil, _⟩ | ⟨u, names, _, _, hnames⟩
    · exact List.splitOn_ne_nil slash path.tail hnil
    · have hname : fs'.graph.name r = path.tail := by
        rw [hg]
        exact Function.update_self _ _ _
      have hmem : path.tail ∈ components path := by
        rw [hnames, hname]
        simp
      exact notMem_splitOn hmem hs
  · rw [if_neg hhead] at hres
    cases hres

/-- **Mounting is right exactly at paths of one component.** On a well-formed mounted tree, at a path
    that resolves to a dirent with a parent, and for a device that is not mounted, `mount_device`
    returns, and the paths that are neither the mount point nor below it resolve as before; all is as
    mounting should leave it iff the path has no slash but the leading one. -/
theorem mountDevice_iff {device : FsDevice} (h : MountedTree fs root)
    (hres : resolvePath fs ⟨some root⟩ path = .ok (some d))
    (hpar : (fs.dirents d).parent = some (some p)) (hdev : Unmounted fs root device.rootDirent) :
    ∃ fs', mountDevice fs ⟨some root⟩ path device = .ok (fs', ⟨some root⟩) ∧
      (∀ q, q ≠ path → ¬ (path ++ [slash]) <+: q →
        resolvePath fs' ⟨some root⟩ q = resolvePath fs ⟨some root⟩ q) ∧
      (MountSpec fs fs' root device.rootDirent path ↔ slash ∉ path.tail) := by
  obtain ⟨fs', i, hmount, hi, hg⟩ := mountDevice_graft h hres hpar hdev
  obtain ⟨hfit, hne, names, hd, rfl⟩ := (resolvePath_iff h.toDirentTree).mp hres
  obtain ⟨hp, hmem⟩ := h.parents d p ⟨names, hd⟩ hpar
  have hpath : slash ∉ (absolutePath names).tail → absolutePath names = slash :: (fs.dirents d).ident := by
    intro hs
    obtain rfl := names_of_slash_notMem h.toDirentTree hd hne hs
    rw [absolutePath, List.intercalate_singleton]
  have helse : ∀ q, q ≠ absolutePath names → ¬ (absolutePath names ++ [slash]) <+: q →
      resolvePath fs' ⟨some root⟩ q = resolvePath fs ⟨some root⟩ q := by
    intro q hq hbelow
    refine resolvePath_elsewhere h.toDirentTree hdev hg hi hp hd ?_ hq hbelow
    by_cases hs : slash ∈ (absolutePath names).tail
    · exact .inr hs
    · exact .inl (by rw [hpath hs, List.tail_cons])
  refine ⟨fs', hmount, helse, fun hspec hs => resolvePath_mounted_ne hg hs hspec.here, ?_⟩
  intro hs
  -- a path of one component: the container is the root, and the device gets the ident of `d`
  have hnames := names_of_slash_notMem h.toDirentTree hd hne hs
  obtain ⟨pre, hpre, hpre'⟩ := h.tree.trail_container hd hp hmem
  obtain rfl : pre = [] := by simpa [hnames] using congrArg List.length hpre'
  obtain rfl := NameGraph.trail_nil.mp hpre
  have hlen : (fs.dirents d).ident.length ≤ 254 := by
    rw [h.components_absolutePath hd hne, hnames] at hfit
    exact hfit _ List.mem_cons_self
  rw [hpath hs] at hg helse ⊢
  obtain ⟨hhere, hbelow⟩ := resolvePath_mounted hdev hg hi (h.tree.distinct root hp)
    (h.named d ⟨_, hd⟩ hne).2 hlen
  exact ⟨hhere, hbelow, helse⟩

/-! ## On the small tree -/

theorem smallFs_mounted : MountedTree smallFs 0 where
  toDirentTree := smallFs_tree
  parents d p hd hp := by
    have hcells : ∀ d ∈ [0, 1, 2, 3], ∀ p, (smallFs.dirents d).parent = some (some p) →
        (p = 0 ∨ p = 1) ∧ d ∈ (smallFs.dirents p).children := by
      simp [smallFs]
    obtain ⟨hp01, hmem⟩ := hcells d (smallFs_reaches hd) p hp
    have hroot := NameGraph.Reaches.refl (g := smallFs.graph) 0
    rcases hp01 with rfl | rfl
    · exact ⟨hroot, hmem⟩
    · exact ⟨hroot.child (by decide), hmem⟩

theorem smallFs_unmounted : Unmounted smallFs 0 4 := by
  refine ⟨by decide, ?_⟩
  intro d
  match d with
  | 0 | 1 | 2 | 3 | 4 | 5 | _ + 6 => simp [smallFs]

/-- The device whose root is 4. -/
def smallUdev : Udev := ⟨4, 0, .empty, 2⟩

/-- Mounting a device at `/dev` leaves the tree as it should. -/
theorem mountDevice_iff_dev :
    ∃ fs', mountDevice smallFs ⟨some 0⟩ [47, 100, 101, 118] (.udev smallUdev) = .ok (fs', ⟨some 0⟩) ∧
      MountSpec smallFs fs' 0 4 [47, 100, 101, 118] := by
  have hres : resolvePath smallFs ⟨some 0⟩ [47, 100, 101, 118] = .ok (some 1) := rfl
  obtain ⟨fs', hmount, -, hspec⟩ := mountDevice_iff smallFs_mounted hres rfl
    (show Unmounted smallFs 0 (FsDevice.udev smallUdev).rootDirent from smallFs_unmounted)
  exact ⟨fs', hmount, hspec.mpr (by decide)⟩

/-- Mounted at `/dev/tty0`, the device is not to be found there. -/
theorem mountDevice_deep :
    MountedTree smallFs 0 ∧
    resolvePath smallFs ⟨some 0⟩ [47, 100, 101, 118, 47, 116, 116, 121, 48] = .ok (some 2) ∧
    (smallFs.dirents 2).parent = some (some 1) ∧ Unmounted smallFs 0 4 ∧
    ∃ fs', mountDevice smallFs ⟨some 0⟩ [47, 100, 101, 118, 47, 116, 116, 121, 48] (.udev smallUdev) =
        .ok (fs', ⟨some 0⟩) ∧
      ¬ MountSpec smallFs fs' 0 4 [47, 100, 101, 118, 47, 116, 116, 121, 48] := by
  have hres : resolvePath smallFs ⟨some 0⟩ [47, 100, 101, 118, 47, 116, 116, 121, 48] = .ok (some 2) :=
    rfl
  obtain ⟨fs', i, hmount, -, hg⟩ := mountDevice_graft smallFs_mounted hres rfl
    (show Unmounted smallFs 0 (FsDevice.udev smallUdev).rootDirent from smallFs_unmounted)
  exact ⟨smallFs_mounted, hres, rfl, smallFs_unmounted, fs', hmount,
    fun hspec => resolvePath_mounted_ne hg (by decide) hspec.here⟩

end WeirdOs
