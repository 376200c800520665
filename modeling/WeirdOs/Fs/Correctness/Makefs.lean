import WeirdOs.Fs.Makefs
import WeirdOs.Fs.Vfs

/-!
# `Fs.Correctness.Makefs` — what `makefs` writes

`traverse_dir` numbers the entries of a listing in the order in which it meets them, an entry before what
is in it. The first-child and sibling fields run through the siblings from the last one to the first.

`Encoded` says that a header and a data buffer hold a listing from a given number, sibling and data
offset on; it only looks at the entries and bytes in its range, so what is written later does not disturb
it (`Encoded.congr`). `traverseDir_spec` is the step from the program to it, by induction on the listing.
-/

namespace WeirdOs

open Lib

/-! ## Listings -/

/-- An entry of a listing. -/
structure HostEntry where
  name : List UInt8
  stat : Stat
  content : List UInt8
  entries : HostDir

namespace HostDir

/-- The entries of a listing but `"."` and `".."`. -/
def toList : HostDir → List HostEntry
  | nil                                  => []
  | dots _ rest                          => rest.toList
  | entry name stat content entries rest => ⟨name, stat, content, entries⟩ :: rest.toList

/-- The number of entries, at all depths. -/
def count : HostDir → Nat
  | nil                      => 0
  | dots _ rest              => rest.count
  | entry _ _ _ entries rest => entries.count + rest.count + 1

/-- The number of bytes in the files, at all depths. -/
def bytes : HostDir → Nat
  | nil                            => 0
  | dots _ rest                    => rest.bytes
  | entry _ _ content entries rest => content.length + entries.bytes + rest.bytes

/-- A directory tree of regular files and directories: names of 1 to 135 bytes without `'/'`, other than
    `"."` and `".."`, distinct among siblings; what `fstat` says is right. -/
def Ok : HostDir → Prop
  | nil                                  => True
  | dots _ rest                          => rest.Ok
  | entry name stat content entries rest =>
    (1 ≤ name.length ∧ name.length ≤ 135 ∧ slash ∉ name ∧ name ≠ [46] ∧ name ≠ [46, 46]) ∧
    (stat.mode &&& 0o170000 = 0o40000 ∧ content = [] ∨
      stat.mode &&& 0o170000 = 0o100000 ∧ stat.size = content.length ∧ entries = nil) ∧
    (∀ e ∈ rest.toList, e.name ≠ name) ∧ entries.Ok ∧ rest.Ok

/-- The number of the last entry at the top, or `last` when there is none; `k` is the next number. -/
def head : HostDir → Nat → Nat → Nat
  | nil, _, last                      => last
  | dots _ rest, k, last              => rest.head k last
  | entry _ _ _ entries rest, k, _    => rest.head (k + 1 + entries.count) k

end HostDir

/-! ## Encoded listings -/

/-- The header and the data hold the listing: its entries from number `k` on, the sibling of the first
    one being `last`, and the contents of its files from offset `off` on. -/
def Encoded (header : InitrdHeader) (data : Nat → UInt8) : HostDir → Nat → Nat → Nat → Prop
  | .nil, _, _, _ => True
  | .dots _ rest, k, last, off => Encoded header data rest k last off
  | .entry name stat content entries rest, k, last, off =>
    (∃ parent, header.dirents k = ⟨name, k, parent, entries.head (k + 1) 0, last⟩) ∧
    (∃ uid gid, header.inodes k = ⟨k, word stat.mode, uid, gid,
      if hostIsDir stat.mode then 0 else content.length, if hostIsDir stat.mode then 0 else off⟩) ∧
    (∀ i, i < content.length → some (data (off + i)) = content[i]?) ∧
    Encoded header data entries (k + 1) 0 (off + content.length) ∧
    Encoded header data rest (k + 1 + entries.count) k (off + content.length + entries.bytes)

/-- **What is outside its range does not matter.** -/
theorem Encoded.congr {header header' : InitrdHeader} {data data' : Nat → UInt8} {L : HostDir}
    {k last off : Nat} (h : Encoded header data L k last off)
    (hdirents : ∀ i, k ≤ i → i < k + L.count → header'.dirents i = header.dirents i)
    (hinodes : ∀ i, k ≤ i → i < k + L.count → header'.inodes i = header.inodes i)
    (hdata : ∀ x, off ≤ x → x < off + L.bytes → data' x = data x) : Encoded header' data' L k last off := by
  induction L generalizing k last off with
  | nil => trivial
  | dots b rest ih => exact ih h hdirents hinodes hdata
  | entry name stat content entries rest ihe ihr =>
      obtain ⟨hdirent, hinode, hcontent, hentries, hrest⟩ := h
      rw [HostDir.count] at hdirents hinodes
      rw [HostDir.bytes] at hdata
      -- number `k`, its content, then both listings in their parts of the range
      refine ⟨?_, ?_, ?_, ihe hentries ?_ ?_ ?_, ihr hrest ?_ ?_ ?_⟩
      · rwa [hdirents k (by omega) (by omega)]
      · rwa [hinodes k (by omega) (by omega)]
      · intro i hi
        rw [hdata _ (by omega) (by omega), hcontent i hi]
      · exact fun i h₁ h₂ => hdirents i (by omega) (by omega)
      · exact fun i h₁ h₂ => hinodes i (by omega) (by omega)
      · exact fun x h₁ h₂ => hdata x (by omega) (by omega)
      · exact fun i h₁ h₂ => hdirents i (by omega) (by omega)
      · exact fun i h₁ h₂ => hinodes i (by omega) (by omega)
      · exact fun x h₁ h₂ => hdata x (by omega) (by omega)

/-! ## The program -/

/-- What is kept by a part of the program that starts at `m`: dirents and inodes with smaller numbers,
    and the data in front of the offset. -/
structure Kept (m m' : Makefs) : Prop where
  dirents : ∀ i, i < m.id → m'.out.dirents i = m.out.dirents i
  inodes : ∀ i, i < m.id → m'.out.inodes i = m.out.inodes i
  data : ∀ x, x < m.outDataOffset → m'.outData x = m.outData x

/-- What `traverse_dir` does to the variables. -/
structure Traversed (L : HostDir) (last : Nat) (m m' : Makefs) : Prop extends Kept m m' where
  id : m'.id = m.id + L.count
  offset : m'.outDataOffset = m.outDataOffset + L.bytes
  encoded : Encoded m'.out m'.outData L m.id last m.outDataOffset

theorem Kept.refl (m : Makefs) : Kept m m := ⟨fun _ _ => rfl, fun _ _ => rfl, fun _ _ => rfl⟩

/-- The program may go on changing numbers it has given out. -/
theorem Kept.modifyDirent {m m' : Makefs} {i : Nat} {f : InitrdDirent → InitrdDirent} (h : Kept m m')
    (hi : m.id ≤ i) : Kept m (m'.modifyDirent i f) where
  dirents j hj := by
    rw [Makefs.modifyDirent_dirents, if_neg (by omega)]
    exact h.dirents j hj
  inodes := h.inodes
  data := h.data

theorem Kept.modifyInode {m m' : Makefs} {i : Nat} {f : InitrdInode → InitrdInode} (h : Kept m m')
    (hi : m.id ≤ i) : Kept m (m'.modifyInode i f) where
  dirents := h.dirents
  inodes j hj := by
    rw [Makefs.modifyInode_inodes, if_neg (by omega)]
    exact h.inodes j hj
  data := h.data

theorem Kept.trans {m m' m'' : Makefs} (h : Kept m m') (h' : Kept m' m'') (hid : m.id ≤ m'.id)
    (hoff : m.outDataOffset ≤ m'.outDataOffset) : Kept m m'' where
  dirents i hi := (h'.dirents i (by omega)).trans (h.dirents i hi)
  inodes i hi := (h'.inodes i (by omega)).trans (h.inodes i hi)
  data x hx := (h'.data x (by omega)).trans (h.data x hx)

/-- A new entry has its dirent and inode, except for the first child and the data. -/
structure Started (name : List UInt8) (stat : Stat) (last : Nat) (m m' : Makefs) : Prop
    extends Kept m m' where
  id : m'.id = m.id + 1
  offset : m'.outDataOffset = m.outDataOffset
  dirent : ∃ parent c, m'.out.dirents m.id = ⟨name, m.id, parent, c, last⟩
  inode : ∃ uid gid data, m'.out.inodes m.id = ⟨m.id, word stat.mode, uid, gid,
    if hostIsDir stat.mode then 0 else word stat.size, data⟩

theorem startEntry_spec (m : Makefs) (stat : Stat) {name : List UInt8} (parent last : Nat)
    (hid : m.id < 255) (hname : name.length ≤ 135) :
    ∃ m', startEntry m stat name parent last = .ok (m', m.id) ∧ Started name stat last m m' := by
  unfold startEntry convertDirent
  simp only [show ¬ ¬ m.id < 0xff from by omega, show ¬ ¬ name.length + 1 ≤ 0x88 from by omega, if_false,
    ok_bind]
  have hkept : Kept m { m with id := (m.id + 1) % 256 } := ⟨fun _ _ => rfl, fun _ _ => rfl, fun _ _ => rfl⟩
  have hle := Nat.le_refl m.id
  refine ⟨_, rfl, ((hkept.modifyDirent hle).modifyInode hle).modifyDirent hle,
    Nat.mod_eq_of_lt (by omega), rfl, ⟨parent, (m.out.dirents m.id).firstChild, ?_⟩,
    0xabcdef1, word stat.gid, 12341234, ?_⟩
  · simp
  · simp

/-- `load_data` of a whole file: its bytes are appended. -/
theorem loadData_eq (m : Makefs) (content : List UInt8)
    (hoff : m.outDataOffset + content.length < 2147483648) :
    ∃ m', loadData m content content.length = .ok (m', m.outDataOffset) ∧ m'.out = m.out ∧ m'.id = m.id ∧
      m'.outDataOffset = m.outDataOffset + content.length ∧
      (∀ x, x < m.outDataOffset → m'.outData x = m.outData x) ∧
      ∀ i, i < content.length → some (m'.outData (m.outDataOffset + i)) = content[i]? := by
  -- the buffer grown, if it has to be
  obtain ⟨cap, hcap, hfits⟩ : ∃ cap, (if m.outDataOffset + content.length > m.outDataCap then
        { m with outDataCap := word (m.outDataOffset + content.length + 0xff) } else m) =
      { m with outDataCap := cap } ∧ m.outDataOffset + content.length ≤ cap := by
    by_cases hgrow : m.outDataOffset + content.length > m.outDataCap
    · refine ⟨_, if_pos hgrow, ?_⟩
      rw [word_of_lt (by omega)]
      omega
    · exact ⟨m.outDataCap, if_neg hgrow, by omega⟩
  unfold loadData
  rw [hcap]
  by_cases hempty : content.length = 0
  · refine ⟨{ m with outDataCap := cap }, ?_, rfl, rfl, ?_, fun _ _ => rfl, fun i hi => by omega⟩
    · simp only [hempty, if_true]
    · rw [hempty, Nat.add_zero]
  · simp only [hempty, if_false, show ¬ ¬ m.outDataOffset + content.length ≤ cap from by omega]
    refine ⟨_, rfl, rfl, rfl, word_of_lt (by omega), fun x hx => writeBytes_out (.inl hx), ?_⟩
    intro i hi
    rw [List.take_length]
    exact writeBytes_in hi

/-- One entry of the listing: what the body of the loop does to the variables. -/
structure Entered (name : List UInt8) (stat : Stat) (content : List UInt8) (entries : HostDir)
    (last : Nat) (m m' : Makefs) : Prop extends Kept m m' where
  id : m'.id = m.id + 1 + entries.count
  offset : m'.outDataOffset = m.outDataOffset + content.length + entries.bytes
  dirent : ∃ parent, m'.out.dirents m.id = ⟨name, m.id, parent, entries.head (m.id + 1) 0, last⟩
  inode : ∃ uid gid, m'.out.inodes m.id = ⟨m.id, word stat.mode, uid, gid,
    if hostIsDir stat.mode then 0 else content.length,
    if hostIsDir stat.mode then 0 else m.outDataOffset⟩
  loaded : ∀ i, i < content.length → some (m'.outData (m.outDataOffset + i)) = content[i]?
  encoded : Encoded m'.out m'.outData entries (m.id + 1) 0 (m.outDataOffset + content.length)

/-- The entries after one that has been entered complete the listing. -/
theorem Entered.traversed {name : List UInt8} {stat : Stat} {content : List UInt8}
    {entries rest : HostDir} {last : Nat} {m m' m'' : Makefs}
    (h : Entered name stat content entries last m m') (h' : Traversed rest m.id m' m'') :
    Traversed (.entry name stat content entries rest) last m m'' := by
  have hid := h.id
  have hoff := h.offset
  refine ⟨h.toKept.trans h'.toKept (by omega) (by omega), ?_, ?_, ?_, ?_, ?_, ?_, ?_⟩
  · rw [h'.id, hid, HostDir.count]
    omega
  · rw [h'.offset, hoff, HostDir.bytes]
    omega
  · rw [h'.dirents _ (by omega)]
    exact h.dirent
  · rw [h'.inodes _ (by omega)]
    exact h.inode
  · intro i hi
    rw [h'.data _ (by omega)]
    exact h.loaded i hi
  · exact h.encoded.congr (fun i _ hi => h'.dirents i (by omega)) (fun i _ hi => h'.inodes i (by omega))
      fun x _ hx => h'.data x (by omega)
  · rw [← hid, ← hoff]
    exact h'.encoded

/-- **A file is entered**: it has no children, and its bytes are the next ones of the data. -/
theorem finishFile_spec {name : List UInt8} {stat : Stat} {content : List UInt8} {last : Nat}
    {m m₁ : Makefs} (h : Started name stat last m m₁) (hfile : hostIsDir stat.mode = false)
    (hsize : stat.size = content.length) (hroom : m.outDataOffset + content.length < 2147483648) :
    ∃ m', finishFile m₁ m.id content stat.size = .ok m' ∧
      Entered name stat content .nil last m m' := by
  obtain ⟨m₂, hload, hout, hid, hoff, hbefore, hloaded⟩ :=
    loadData_eq (m₁.modifyDirent m.id fun d => { d with firstChild := 0 }) content
      (by rw [← h.offset] at hroom; exact hroom)
  have hoff₁ : (m₁.modifyDirent m.id fun d => { d with firstChild := 0 }).outDataOffset = m.outDataOffset :=
    h.offset
  rw [hoff₁] at hload hoff hbefore hloaded
  obtain ⟨parent, c, hdirent⟩ := h.dirent
  obtain ⟨uid, gid, data, hinode⟩ := h.inode
  unfold finishFile
  rw [hsize, hload]
  have hstarted := h.toKept.modifyDirent (f := fun d => { d with firstChild := 0 }) (Nat.le_refl m.id)
  have hkept : Kept m m₂ :=
    ⟨fun i hi => by rw [hout]; exact hstarted.dirents i hi,
      fun i hi => by rw [hout]; exact hstarted.inodes i hi,
      fun x hx => (hbefore x hx).trans (h.data x hx)⟩
  refine ⟨_, rfl, hkept.modifyInode (Nat.le_refl _), hid.trans h.id, hoff, ⟨parent, ?_⟩, ⟨uid, gid, ?_⟩,
    hloaded, trivial⟩
  · simp [hout, hdirent, HostDir.head]
  · simp [hout, hinode, hfile, hsize,
      word_of_lt (show content.length < 4294967296 from by omega)]

/-- **A directory is entered**: its first child is the last of its entries. -/
theorem finishDir_spec {name : List UInt8} {stat : Stat} {entries : HostDir} {last : Nat}
    {m m₁ m₂ : Makefs} (h : Started name stat last m m₁) (hdir : hostIsDir stat.mode = true)
    (h' : Traversed entries 0 m₁ m₂) :
    Entered name stat [] entries last m (finishDir m₂ m.id (entries.head (m.id + 1) 0)) := by
  obtain ⟨parent, c, hdirent⟩ := h.dirent
  obtain ⟨uid, gid, data, hinode⟩ := h.inode
  have hid := h.id
  have hle := Nat.le_refl m.id
  have hkept := h.toKept.trans h'.toKept (by omega) (Nat.le_of_eq h.offset.symm)
  unfold finishDir
  refine ⟨(hkept.modifyDirent hle).modifyInode hle, ?_, ?_, ⟨parent, ?_⟩, ⟨uid, gid, ?_⟩,
    fun i hi => absurd hi (Nat.not_lt_zero i), ?_⟩
  · exact h'.id.trans (by rw [hid])
  · exact h'.offset.trans (by rw [h.offset]; rfl)
  · simp [h'.dirents m.id (by omega), hdirent]
  · simp [h'.inodes m.id (by omega), hinode, hdir]
  · have henc := h'.encoded
    rw [hid, h.offset] at henc
    refine henc.congr ?_ ?_ fun _ _ _ => rfl
    · intro i hi _
      simp [show i ≠ m.id from by omega]
    · intro i hi _
      simp [show i ≠ m.id from by omega]

/-- One turn of the loop of `traverse_dir`. -/
theorem traverseDir_entry {name : List UInt8} {stat : Stat} {content : List UInt8}
    {entries rest : HostDir} {parent last my : Nat} {m m₁ m₂ : Makefs}
    (hname : name ≠ [46] ∧ name ≠ [46, 46]) (hstart : startEntry m stat name parent last = .ok (m₁, my))
    (hentry : (if hostIsDir stat.mode then
        (traverseDir m₁ my 0 entries).map fun r => finishDir r.1 my r.2
      else finishFile m₁ my content stat.size) = .ok m₂) :
    traverseDir m parent last (.entry name stat content entries rest) = traverseDir m₂ parent my rest := by
  rw [traverseDir, if_neg (by simp [hname]), hstart, ok_bind]
  by_cases hdir : hostIsDir stat.mode
  · simp only [hdir, if_true] at hentry ⊢
    cases htrav : traverseDir m₁ my 0 entries with
    | error e =>
        rw [htrav] at hentry
        cases hentry
    | ok r =>
        rw [htrav] at hentry
        cases hentry
        rfl
  · simp only [hdir, if_false, Bool.false_eq_true] at hentry ⊢
    rw [hentry, ok_bind]

/-- **What `traverse_dir` does.** By induction on the listing: an entry is entered, its own listing
    before those after it. -/
theorem traverseDir_spec {L : HostDir} {m : Makefs} (parent last : Nat) (hok : L.Ok)
    (hid : m.id + L.count ≤ 255) (hoff : m.outDataOffset + L.bytes < 2147483648) :
    ∃ m', traverseDir m parent last L = .ok (m', L.head m.id last) ∧ Traversed L last m m' := by
  induction L generalizing m parent last with
  | nil => exact ⟨m, rfl, .refl m, rfl, rfl, trivial⟩
  | dots b rest ih =>
      obtain ⟨m', htrav, hspec⟩ := ih parent last hok hid hoff
      exact ⟨m', htrav, hspec.toKept, hspec.id, hspec.offset, hspec.encoded⟩
  | entry name stat content entries rest ihe ihr =>
      obtain ⟨⟨_, hlen, _, hdot, hdotdot⟩, hkind, _, hoke, hokr⟩ := hok
      rw [HostDir.count] at hid
      rw [HostDir.bytes] at hoff
      obtain ⟨m₁, hstart, hstarted⟩ := startEntry_spec m stat parent last (by omega) hlen
      have hid₁ := hstarted.id
      have hoff₁ := hstarted.offset
      -- the entry itself, with its own listing when it is a directory
      obtain ⟨m₂, hentry, hentered⟩ : ∃ m₂,
          (if hostIsDir stat.mode then
              (traverseDir m₁ m.id 0 entries).map fun r => finishDir r.1 m.id r.2
            else finishFile m₁ m.id content stat.size) = .ok m₂ ∧
          Entered name stat content entries last m m₂ := by
        rcases hkind with ⟨hmode, rfl⟩ | ⟨hmode, hsize, rfl⟩
        · have hdir : hostIsDir stat.mode = true := by simp [hostIsDir, hmode]
          obtain ⟨m₂, htrav, hspec⟩ := ihe m.id 0 hoke (m := m₁) (by omega) (by omega)
          refine ⟨_, ?_, finishDir_spec hstarted hdir hspec⟩
          rw [if_pos hdir, htrav, hid₁]
          rfl
        · have hfile : hostIsDir stat.mode = false := by simp [hostIsDir, hmode]
          obtain ⟨m₂, hfinish, hspec⟩ := finishFile_spec hstarted hfile hsize (by omega)
          exact ⟨m₂, by rw [if_neg (by simp [hfile]), hfinish], hspec⟩
      have hid₂ := hentered.id
      have hoff₂ := hentered.offset
      -- the entries after it; it is their first sibling
      obtain ⟨m₃, hrest, htrav⟩ := ihr parent m.id hokr (m := m₂) (by omega) (by omega)
      refine ⟨m₃, ?_, hentered.traversed htrav⟩
      rw [traverseDir_entry ⟨hdot, hdotdot⟩ hstart hentry, hrest, HostDir.head, hid₂]

/-! ## The image file -/

/-- **What `makefs` writes**: a root dirent without siblings whose first child is the last entry of the
    listing, an inode for it whose mode has no directory bit, and the listing encoded from number 1 on. -/
theorem makefs_spec (stat : Stat) {L : HostDir} (hok : L.Ok)
    (hcount : L.count + 1 ≤ 255) (hbytes : L.bytes < 2147483648) :
    ∃ file, makefs stat L = .ok file ∧ file.header.numDirent = L.count + 1 ∧
      (∃ parent, file.header.dirents 0 = ⟨[47], 0, parent, L.head 1 0, 0⟩) ∧
      (file.header.inodes 0).id = 0 ∧ (file.header.inodes 0).mode = 0o777 ∧ file.data.length = L.bytes ∧
      ∀ data, (∀ i, i < file.data.length → some (data i) = file.data[i]?) →
        Encoded file.header data L 1 0 0 := by
  obtain ⟨m₁, hconvert, hid₁, hoff₁, ⟨parent, c, s, hdirent⟩, hinode⟩ : ∃ m₁,
      convertDirent Makefs.init stat [47] = .ok (m₁, 0) ∧ m₁.id = 1 ∧ m₁.outDataOffset = 0 ∧
      (∃ parent c s, m₁.out.dirents 0 = ⟨[47], 0, parent, c, s⟩) ∧ (m₁.out.inodes 0).id = 0 :=
    ⟨_, rfl, rfl, rfl, ⟨_, _, _, rfl⟩, rfl⟩
  obtain ⟨m₂, htrav, hspec⟩ := traverseDir_spec 0 0 hok (m := m₁) (by omega) (by omega)
  have hdirents := hspec.dirents 0 (by omega)
  have hinodes := hspec.inodes 0 (by omega)
  have henc := hspec.encoded
  have hoff := hspec.offset
  have hid := hspec.id
  rw [hid₁] at htrav henc hid
  rw [hoff₁] at henc hoff
  unfold makefs
  rw [hconvert, ok_bind]
  simp only [decide_true, assert_true, ok_bind, htrav]
  refine ⟨_, rfl, ?_, ⟨parent, ?_⟩, ?_, rfl, ?_, ?_⟩
  · exact hid.trans (Nat.add_comm 1 _)
  · simp [hdirents, hdirent]
  · simp [hinodes, hinode]
  · simp [hoff]
  · -- what `main` writes last is entry 0, and the listing starts at 1
    intro data hdata
    refine henc.congr ?_ ?_ ?_
    · intro i hi _
      simp [show i ≠ 0 from by omega]
    · intro i hi _
      simp [show i ≠ 0 from by omega]
    · intro x _ hx
      have hlen : x < m₂.outDataOffset := by omega
      have hx' := hdata x (by simpa using hlen)
      simpa [hlen] using hx'

end WeirdOs
