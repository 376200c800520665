import WeirdOs.Fs.Makefs

/-!
# `Fs.Correctness.Read` — reading the files of the ram disk

`rdfs_inode::read` takes the smaller one of the file's size and the number of bytes asked for, and copies
that many bytes from the offset on. The offset does not come into the number. So the read is right if it
starts at the start of the file, as in all tests, or ends inside; otherwise it runs over the end of the
file, into what follows in the image or behind it (`rdfs_read_iff`).
-/

namespace WeirdOs

open Lib

variable {image : InitrdImage} {fs fs' fs'' : Fs} {rd : InitrdInode} {d i nbyte offset : Nat}

/-! ## The inodes of the ram disk -/

/-- The inodes made meanwhile are those that `cache` makes for entries of the image. -/
structure FromImage (image : InitrdImage) (fs fs' : Fs) : Prop where
  next : fs.nextInode ≤ fs'.nextInode
  old : ∀ i < fs.nextInode, fs'.inodes i = fs.inodes i
  new : ∀ i, fs.nextInode ≤ i → i < fs'.nextInode →
    ∃ d j, j < 0xff ∧ fs'.inodes i = cacheInode image d (image.header.inodes j)

theorem FromImage.refl (fs : Fs) : FromImage image fs fs :=
  ⟨Nat.le_refl _, fun _ _ => rfl, fun _ hle hlt => absurd hlt (Nat.not_lt.mpr hle)⟩

theorem FromImage.trans (h : FromImage image fs fs') (h' : FromImage image fs' fs'') :
    FromImage image fs fs'' := by
  refine ⟨Nat.le_trans h.next h'.next, ?_, ?_⟩
  · intro i hi
    rw [h'.old i (Nat.lt_of_lt_of_le hi h.next), h.old i hi]
  · intro i hle hlt
    rcases Nat.lt_or_ge i fs'.nextInode with hi | hi
    · rw [h'.old i hi]
      exact h.new i hle hi
    · exact h'.new i hi hlt

theorem fromImage_makeDirent (fs : Fs) (ident : List UInt8) (parent : Option (Option Nat)) {j : Nat}
    (hj : j < 0xff) : FromImage image fs
      (fs.makeDirent ident parent fun dir => cacheInode image dir (image.header.inodes j)).1 where
  next := Nat.le_succ _
  old _ hi := Fs.makeDirent_inode_of_ne fs (Nat.ne_of_lt hi)
  new i hle hlt := by
    obtain rfl : i = fs.nextInode := Nat.le_antisymm (Nat.le_of_lt_succ hlt) hle
    exact ⟨fs.nextDirent, j, hj, Fs.makeDirent_inode fs⟩

theorem fromImage_cacheDirent (fs : Fs) (parent : Option Nat) (rdDirent : InitrdDirent) {j : Nat}
    (hj : j < 0xff) :
    FromImage image fs (cacheDirent image fs parent rdDirent (image.header.inodes j)).1 := by
  cases parent with
  | none =>
      rw [cacheDirent_none]
      exact fromImage_makeDirent fs rdDirent.name (some none) hj
  | some p =>
      rw [cacheDirent_some]
      have hmade : FromImage image fs _ := fromImage_makeDirent fs rdDirent.name (some (some p)) hj
      exact ⟨hmade.next, hmade.old, hmade.new⟩

/-- **Every inode of the ram disk** is made for an entry of the image, whatever the image holds. -/
theorem fromImage_initrd {root : Nat} (h : initrd image fs = .ok (fs', root)) : FromImage image fs fs' := by
  obtain ⟨rdDirent, j, hj, -, hrest⟩ := cache_keeps FromImage.refl FromImage.trans
    (fun fs parent rdDirent _ hj => fromImage_cacheDirent fs parent rdDirent hj) h
  exact (fromImage_cacheDirent fs none rdDirent hj).trans hrest

/-! ## What is read -/

/-- The bytes of a file of the image. -/
def InitrdImage.content (image : InitrdImage) (rd : InitrdInode) : List UInt8 :=
  (List.range rd.size).map fun k => image.fileData (rd.data + k)

@[simp] theorem content_length : (image.content rd).length = rd.size := by
  rw [InitrdImage.content, List.length_map, List.length_range]

/-- The bytes of a range of the file, cut off at its end. -/
theorem content_range : ((image.content rd).drop offset).take nbyte =
    (List.range (min nbyte (rd.size - offset))).map fun k => image.fileData (rd.data + (offset + k)) := by
  rw [InitrdImage.content, ← List.map_drop, List.range_eq_range', List.drop_range', Nat.zero_add, Nat.mul_one,
    List.range'_eq_map_range, List.map_map, ← List.map_take, List.take_range]
  rfl

/-- An inode whose mode has no directory bit was made for a file. -/
theorem file_of_cacheInode (hfile : S_ISDIR (cacheInode image d rd).mode = false) :
    S_ISDIR rd.mode = false := by
  by_contra hdir
  rw [Bool.not_eq_false] at hdir
  have hlike : S_ISDIR (rd.mode ||| S_IFDIR) = true := by
    rw [S_ISDIR, Nat.and_or_distrib_right, Nat.and_self]
    rw [S_ISDIR, beq_iff_eq] at hdir
    rw [hdir, Nat.or_self, beq_self_eq_true]
  unfold cacheInode at hfile
  rw [if_pos hdir] at hfile
  exact Bool.false_ne_true (hfile.symm.trans hlike)

/-- What `read` copies is a range of the bytes from the start of the file on. -/
theorem read_cacheInode (hfile : S_ISDIR rd.mode = false) : (cacheInode image d rd).read nbyte offset =
    some (min rd.size nbyte,
      (List.range (min rd.size nbyte)).map fun k => image.fileData (rd.data + (offset + k))) := by
  unfold Inode.read
  rw [(cacheInode_file image Fs.empty d hfile).1]
  rfl

/-- `read` is right for a file with these bytes: it copies those of the `nbyte` bytes from `offset` on that
    the file has, and returns their number as a `ssize_t`. -/
def ReadsContent (ino : Inode) (content : List UInt8) (nbyte offset : Nat) : Prop :=
  ∃ actual, ino.read nbyte offset = some (actual, (content.drop offset).take nbyte) ∧
    toInt32 actual = max 0 (min (nbyte : Int) ((content.length : Int) - offset))

/-- Where `read` reads, from the start of the file on: the offset is added to a pointer. -/
def readOffsets (size nbyte offset : Nat) : List Nat := (List.range (min size nbyte)).map (add32 offset)

/-- There is nothing to read, or it is read from the start on, or what is asked for ends in the file. -/
def RangeInFile (size nbyte offset : Nat) : Prop :=
  size = 0 ∨ nbyte = 0 ∨ offset = 0 ∨ offset + nbyte ≤ size

/-- **The number is right** when the range is in the file, and fits into a `ssize_t`. -/
theorem toInt32_read_iff {size : Nat} (hsize : size < 4294967296) :
    toInt32 (min size nbyte) = max 0 (min (nbyte : Int) ((size : Int) - offset)) ↔
      RangeInFile size nbyte offset ∧ min size nbyte < 2147483648 := by
  unfold RangeInFile toInt32
  by_cases hfits : min size nbyte < 2147483648
  · rw [if_pos hfits, and_iff_left hfits]
    omega
  · -- a number from `2^31` on is negative as a `ssize_t`
    rw [if_neg hfits]
    omega

/-- **Nothing but the file is read** when the range is in it. -/
theorem readOffsets_iff {size : Nat} (hsize : size < 4294967296) (hoffset : offset < 4294967296) :
    (∀ x ∈ readOffsets size nbyte offset, x < size) ↔ RangeInFile size nbyte offset := by
  unfold readOffsets RangeInFile
  simp only [List.forall_mem_map, List.mem_range, add32]
  constructor
  · intro h
    by_contra hnot
    -- the byte at the offset is read, and so is the one after the last byte of the file
    have hfirst := h 0 (by omega)
    have hend := h (size - offset) (by omega)
    omega
  · intro h k hk
    omega

/-- **Exactly which reads are right.** For every image, every file of the ram disk that `initrd` makes from
    it, and all arguments: `rdfs_inode::read` copies the bytes of the range that the file has and returns
    their number, if and only if the range is in the file and the number fits into a `ssize_t`; and it reads
    nothing but bytes of the file if and only if the range is in the file. -/
theorem rdfs_read_iff {root : Nat} (hinitrd : initrd image fs = .ok (fs', root)) (hle : fs.nextInode ≤ i)
    (hlt : i < fs'.nextInode) (hfile : S_ISDIR (fs'.inodes i).mode = false)
    (hsize : (fs'.inodes i).size < 4294967296) :
    ∃ j < 0xff, (fs'.inodes i).id = (image.header.inodes j).id ∧
      (fs'.inodes i).size = (image.header.inodes j).size ∧
      ∀ nbyte offset, offset < 4294967296 →
        (ReadsContent (fs'.inodes i) (image.content (image.header.inodes j)) nbyte offset ↔
          RangeInFile (fs'.inodes i).size nbyte offset ∧
            min (fs'.inodes i).size nbyte < 2147483648) ∧
        ((∀ x ∈ readOffsets (fs'.inodes i).size nbyte offset, x < (fs'.inodes i).size) ↔
          RangeInFile (fs'.inodes i).size nbyte offset) := by
  obtain ⟨d, j, hj, hino⟩ := (fromImage_initrd hinitrd).new i hle hlt
  rw [hino] at hfile hsize ⊢
  rw [cacheInode_size] at hsize ⊢
  refine ⟨j, hj, cacheInode_id .., rfl, fun nbyte offset hoffset => ⟨?_, readOffsets_iff hsize hoffset⟩⟩
  rw [← toInt32_read_iff hsize, ReadsContent, read_cacheInode (file_of_cacheInode hfile), content_range,
    content_length]
  constructor
  · rintro ⟨actual, hread, hcount⟩
    obtain ⟨rfl, -⟩ := Prod.mk.inj (Option.some.inj hread)
    exact hcount
  · intro hcount
    refine ⟨_, ?_, hcount⟩
    obtain ⟨hrange, -⟩ := (toInt32_read_iff hsize).mp hcount
    have hsame : min (image.header.inodes j).size nbyte =
        min nbyte ((image.header.inodes j).size - offset) := by
      unfold RangeInFile at hrange
      omega
    rw [hsame]

/-- The listing of a directory that holds two files, `f` and `g`, of three bytes each. -/
def twoFiles : HostDir :=
  .entry [102] ⟨0o100644, 0, 0, 3⟩ [104, 105, 10] .nil
    (.entry [103] ⟨0o100644, 0, 0, 3⟩ [97, 98, 99] .nil .nil)

/-- Their ram disk; the inode for `f` is number 2. -/
def twoFilesDisk : Exec Fs := do
  let file ← makefs ⟨0o40755, 0, 0, 4096⟩ twoFiles
  let (fs, _) ← initrd ⟨file.header, fun i => file.data.getD i 0⟩ Fs.empty
  return fs

/-- The last two bytes of `f` can be read. -/
theorem rdfs_read_iff_tail : ∃ (image : InitrdImage) (fs : Fs) (root j : Nat),
    initrd image Fs.empty = .ok (fs, root) ∧ (fs.inodes 2).id = (image.header.inodes j).id ∧
      ReadsContent (fs.inodes 2) (image.content (image.header.inodes j)) 2 1 := by
  have hdisk : (twoFilesDisk.toOption.map fun fs =>
      (fs.nextInode, S_ISDIR (fs.inodes 2).mode, (fs.inodes 2).size)) = some (3, false, 3) := by
    decide +kernel
  obtain ⟨fs, hfs, hdata⟩ := Option.map_eq_some_iff.mp hdisk
  obtain ⟨hnext, hrest⟩ := Prod.mk.inj hdata
  obtain ⟨hfile, hsize⟩ := Prod.mk.inj hrest
  obtain ⟨file, hmakefs, hrun⟩ := bind_eq_ok.mp (toOption_eq_some.mp hfs)
  obtain ⟨⟨fs', root⟩, hinitrd, hret⟩ := bind_eq_ok.mp hrun
  cases hret
  have hlt : 2 < fs.nextInode := by
    rw [hnext]
    decide
  obtain ⟨j, -, hid, -, hreads⟩ := rdfs_read_iff hinitrd (Nat.zero_le _) hlt hfile (by rw [hsize]; decide)
  refine ⟨_, fs, root, j, hinitrd, hid, (hreads 2 1 (by decide)).1.mpr ?_⟩
  rw [hsize]
  unfold RangeInFile
  decide

/-- **A read that runs into the next file.** Three bytes from offset 1 of `f` are its last two and the first
    one of `g`. -/
theorem rdfs_read_next_file : ∃ fs, twoFilesDisk = .ok fs ∧ (fs.inodes 2).id = 1 ∧
    (fs.inodes 2).read 3 1 = some (3, [105, 10, 97]) ∧ ¬ ReadsContent (fs.inodes 2) [104, 105, 10] 3 1 := by
  have hdisk : (twoFilesDisk.toOption.map fun fs => ((fs.inodes 2).id, (fs.inodes 2).read 3 1)) =
      some (1, some (3, [105, 10, 97])) := by
    decide +kernel
  obtain ⟨fs, hfs, hdata⟩ := Option.map_eq_some_iff.mp hdisk
  obtain ⟨hid, hread⟩ := Prod.mk.inj hdata
  refine ⟨fs, toOption_eq_some.mp hfs, hid, hread, ?_⟩
  rintro ⟨actual, hright, hcount⟩
  rw [hread] at hright
  cases hright

end WeirdOs
