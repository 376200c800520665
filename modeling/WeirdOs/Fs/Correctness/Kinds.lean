import WeirdOs.Fs.Correctness.Image

/-!
# `Fs.Correctness.Kinds` — directories and files of the ram disk

The kind of an entry travels in its mode: `convert_dirent` copies what `fstat` says, and `cache` makes a
`directory_like` if the directory bit is set. That works for every entry of a listing. For the root, `main`
replaces the mode by `0777`, which has no such bit: the root is an `rdfs_inode` whose `opendir` iterates
over nothing, and the handle `root_inode` to a `directory_like` points to it (`makefs_kinds`).
-/

namespace WeirdOs

open Lib

variable {image : InitrdImage} {fs : Fs} {L : HostDir} {d root : Nat} {e : HostEntry}

/-! ## What stands for what -/

/-- The dirent represents a directory with this listing: its inode is a `directory_like`, whose `opendir`
    iterates over the dirents of the entries, from the last one to the first. -/
def RepresentsDir (fs : Fs) (d : Nat) (L : HostDir) : Prop :=
  ∃ ino, (fs.dirents d).inode = some ino ∧ (fs.inodes ino).kind = .directoryLike ∧
    Mirrors fs L ((fs.inodes ino).opendir fs).reverse

/-- The dirent represents a regular file: its inode is an `rdfs_inode`. -/
def RepresentsFile (fs : Fs) (d : Nat) : Prop :=
  ∃ ino data, (fs.dirents d).inode = some ino ∧ (fs.inodes ino).kind = .rdfs data

/-- The dirent represents the entry, which is one or the other. -/
def RepresentsEntry (fs : Fs) (d : Nat) (e : HostEntry) : Prop :=
  if hostIsDir e.stat.mode then RepresentsDir fs d e.entries else RepresentsFile fs d

/-- Every entry, at any depth, is represented by the dirent at the end of its path. -/
def EntriesRepresented (fs : Fs) (root : Nat) (L : HostDir) : Prop :=
  ∀ names e, L.EntryAt names e → ∃ d, fs.graph.Trail root names d ∧ RepresentsEntry fs d e

/-- So is every entry, and the root as well. -/
def TreeRepresented (fs : Fs) (root : Nat) (L : HostDir) : Prop :=
  RepresentsDir fs root L ∧ EntriesRepresented fs root L

/-- An `rdfs_inode` is no `directory_like`. -/
theorem RepresentsFile.not_dir (h : RepresentsFile fs d) : ¬ RepresentsDir fs d L := by
  obtain ⟨ino, data, hinode, hkind⟩ := h
  rintro ⟨ino', hinode', hkind', -⟩
  rw [hinode] at hinode'
  cases hinode'
  rw [hkind] at hkind'
  cases hkind'

/-- **A dirent made for an entry represents it**, when those below it mirror its listing. -/
theorem MadeFor.represents (h : MadeFor image fs d e)
    (hbelow : Mirrors fs e.entries (fs.dirents d).children.reverse) : RepresentsEntry fs d e := by
  obtain ⟨-, ino, rd, hinode, hino, hwritten⟩ := h
  have hkind := hwritten.kind
  unfold RepresentsEntry
  by_cases hdir : hostIsDir e.stat.mode
  · rw [if_pos hdir]
    obtain ⟨hlike, hopen⟩ := cacheInode_dir image fs d (hkind.trans hdir)
    refine ⟨ino, hinode, ?_, ?_⟩
    · rw [hino]
      exact hlike
    · rw [hino, hopen]
      exact hbelow
  · rw [if_neg hdir]
    obtain ⟨hrdfs, -⟩ := cacheInode_file image fs d (hkind.trans (Bool.eq_false_iff.mpr hdir))
    exact ⟨ino, _, hinode, by rw [hino]; exact hrdfs⟩

/-! ## The ram disk -/

/-- **Every entry of the listing is represented.** -/
theorem Loaded.represented {fs' : Fs} (h : Loaded image fs fs' L) (hok : L.Ok) :
    EntriesRepresented fs' fs.nextDirent L := by
  have hplaced := h.cached.rooted.placed h.encoded hok
  intro names e he
  obtain ⟨d, ht, hmade, hbelow⟩ := HostDir.Placed.trail he (fun _ _ hd => hd.1) hplaced
  apply Exists.intro d
  exact ⟨ht, hmade.represents (hbelow.mirrors fun _ _ => MadeFor.looksLike)⟩

/-- **The root is a file**: the mode it is given has no directory bit. -/
theorem Loaded.root_file {fs' : Fs} (h : Loaded image fs fs' L) : RepresentsFile fs' fs.nextDirent := by
  obtain ⟨⟨ino, -, hmade, hino⟩, -, -⟩ := h.cached.made
  have hfile : S_ISDIR (image.header.inodes (image.header.dirents 0).inodeId).mode = false := by
    rw [h.mode]
    rfl
  have hkind := (cacheInode_file image fs' fs.nextDirent hfile).1
  rw [← hino] at hkind
  exact ⟨ino, _, by rw [hmade], hkind⟩

/-- **The root is never a directory.** For a tree of regular files and directories of at most 255 entries
    with the root and less than `2^31` bytes, what `initrd` makes of the image that `makefs` builds has the
    right kind for every entry below the root, and the wrong one for the root. -/
theorem makefs_kinds (stat : Stat) (hok : L.Ok) (hcount : L.count + 1 ≤ 255)
    (hbytes : L.bytes < 2147483648) :
    ∃ file, makefs stat L = .ok file ∧ ∀ image : InitrdImage, image.Holds file → ∀ fs,
      ∃ fs' root, initrd image fs = .ok (fs', root) ∧ EntriesRepresented fs' root L ∧
        RepresentsFile fs' root ∧ ¬ TreeRepresented fs' root L := by
  obtain ⟨file, hmakefs, -, hread⟩ := makefs_loaded stat hok hcount hbytes
  refine ⟨file, hmakefs, ?_⟩
  intro image hholds fs
  obtain ⟨fs', hinitrd, hloaded⟩ := hread image hholds fs
  refine ⟨fs', fs.nextDirent, hinitrd, hloaded.represented hok, hloaded.root_file, ?_⟩
  intro htree
  exact hloaded.root_file.not_dir htree.1

/-- In the small directory `a` is represented as a directory, the root is not. -/
theorem makefs_kinds_small : ∃ file, makefs ⟨0o40755, 0, 0, 4096⟩ smallDir = .ok file ∧
    ∀ image : InitrdImage, image.Holds file → ∃ fs' root d, initrd image Fs.empty = .ok (fs', root) ∧
      fs'.graph.Trail root [[97]] d ∧ RepresentsDir fs' d smallSubdir ∧
        ¬ RepresentsDir fs' root smallDir := by
  have hok : smallDir.Ok := by simp [smallDir, smallSubdir, HostDir.Ok, HostDir.toList, slash]
  obtain ⟨file, hmakefs, hread⟩ := makefs_kinds ⟨0o40755, 0, 0, 4096⟩ hok (by decide) (by decide)
  refine ⟨file, hmakefs, ?_⟩
  intro image hholds
  obtain ⟨fs', root, hinitrd, hentries, hroot, -⟩ := hread image hholds Fs.empty
  have hdir : (⟨[97], ⟨0o40755, 0, 0, 4096⟩, [], smallSubdir⟩ : HostEntry) ∈ smallDir.toList :=
    List.mem_cons_self
  obtain ⟨d, ht, hd⟩ := hentries _ _ (.here hdir)
  exact ⟨fs', root, d, hinitrd, ht, hd, hroot.not_dir⟩

/-- **`opendir` of the root iterates over nothing**, though `a` is in it. -/
theorem makefs_root_empty : ∃ file fs' root ino, makefs ⟨0o40755, 0, 0, 4096⟩ smallDir = .ok file ∧
    initrd ⟨file.header, fun i => file.data.getD i 0⟩ Fs.empty = .ok (fs', root) ∧
    (fs'.dirents root).inode = some ino ∧ (fs'.inodes ino).opendir fs' = [] ∧
    ¬ TreeRepresented fs' root smallDir := by
  have hrun : ((makefs ⟨0o40755, 0, 0, 4096⟩ smallDir).toOption.bind fun file =>
      (initrd ⟨file.header, fun i => file.data.getD i 0⟩ Fs.empty).toOption.bind fun made =>
        (made.1.dirents made.2).inode.map fun ino => (made.1.inodes ino).opendir made.1) = some [] := by
    decide +kernel
  obtain ⟨file, hfile, hrest⟩ := Option.bind_eq_some_iff.mp hrun
  obtain ⟨⟨fs', root⟩, hmade, hrest⟩ := Option.bind_eq_some_iff.mp hrest
  obtain ⟨ino, hinode, hopen⟩ := Option.map_eq_some_iff.mp hrest
  refine ⟨file, fs', root, ino, toOption_eq_some.mp hfile, toOption_eq_some.mp hmade, hinode, hopen, ?_⟩
  rintro ⟨⟨ino', hinode', -, hmirrors⟩, -⟩
  dsimp only at hinode hopen
  rw [hinode] at hinode'
  cases hinode'
  rw [hopen] at hmirrors
  obtain ⟨d, ds', hnil, -⟩ := hmirrors
  cases hnil

end WeirdOs
