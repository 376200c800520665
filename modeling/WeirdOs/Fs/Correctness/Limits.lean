import WeirdOs.Fs.Correctness.Makefs

/-!
# `Fs.Correctness.Limits` — where `makefs` writes

`makefs` has fields of 136 bytes for names, tables of 255 entries with an index of 8 bits, and a block for
the path of each entry. It compares nothing with these sizes. `makefsWrites` lists its writes to them for a
listing of any shape; the three limits are taken apart in `makefs_inside_iff`.

Names and numbers are right up to the sizes of the tables. The path is not: its block has room for 254 bytes
behind the slash, and 255 are copied, for every entry. `makefs` of `Fs.Makefs` makes the same writes: where it
returns, the names and the numbers were inside (`makefs_ok_inside`), and where they are inside, it returns or
stops for want of room for the contents of files (`makefs_of_inside`).
-/

namespace WeirdOs

open Lib

variable {beyond : Nat → List UInt8 → Nat} {len id n parent last : Nat} {L entries rest : HostDir}
  {m m' : Makefs} {name content : List UInt8} {stat : Stat}

/-! ## The writes -/

/-- A write whose place depends on the listing. -/
inductive HostWrite where
  /-- The first `count` bytes of the name of a dirent. -/
  | name (count : Nat)
  /-- The dirent and the inode with this index. -/
  | entry (index : Nat)
  /-- `count` bytes from `start` on in a `full_path` of `block` bytes. -/
  | path (block start count : Nat)
deriving DecidableEq, Repr

/-- The number of bytes of a name that is written. -/
def HostWrite.nameCount : HostWrite → Option Nat
  | .name count => some count
  | _           => none

/-- The index of an entry that is written. -/
def HostWrite.index : HostWrite → Option Nat
  | .entry index => some index
  | _            => none

/-- The writes of `convert_dirent`, where `id` is the number it takes. -/
def convertWrites (id : Nat) (name : List UInt8) : List HostWrite := [.name (strlen name + 1), .entry id]

/-- The writes that compose the path of an entry, in a directory whose path has `len` bytes. -/
def pathWrites (len : Nat) : List HostWrite :=
  [.path (len + 0xff) 0 len, .path (len + 0xff) len 1, .path (len + 0xff) (len + 1) 0xff]

/-- `strlen` of the composed path. A name of 255 bytes is copied without its NUL; what is found `beyond` it
    is not known. -/
def fullPathLen (beyond : Nat → List UInt8 → Nat) (len : Nat) (name : List UInt8) : Nat :=
  if strlen name < 0xff then len + 1 + strlen name else len + 0x100 + beyond len name

/-- What `id` is after `traverse_dir`. -/
def idAfter (id : Nat) : HostDir → Nat
  | .nil         => id
  | .dots _ rest => idAfter id rest
  | .entry name stat _ entries rest =>
    if name = [46] ∨ name = [46, 46] then idAfter id rest
    else
      let id := (id + 1) % 256
      idAfter (if hostIsDir stat.mode then idAfter id entries else id) rest

/-- The writes of `traverse_dir`. -/
def traverseWrites (beyond : Nat → List UInt8 → Nat) : (len id : Nat) → HostDir → List HostWrite
  | _, _, .nil => []
  | len, id, .dots _ rest => traverseWrites beyond len id rest
  | len, id, .entry name stat _ entries rest =>
    if name = [46] ∨ name = [46, 46] then traverseWrites beyond len id rest
    else
      let next := (id + 1) % 256
      pathWrites len ++ convertWrites id name ++
      if hostIsDir stat.mode then
        traverseWrites beyond (fullPathLen beyond len name) next entries ++
          traverseWrites beyond len (idAfter next entries) rest
      else traverseWrites beyond len next rest

/-- The writes of `main`, for an input directory whose path has `len` bytes. -/
def makefsWrites (beyond : Nat → List UInt8 → Nat) (len : Nat) (listing : HostDir) : List HostWrite :=
  convertWrites 0 [47] ++ traverseWrites beyond len 1 listing

/-! ## The limits -/

/-- Names stay in their fields. -/
def NamesInside (writes : List HostWrite) : Prop :=
  ∀ count ∈ writes.filterMap HostWrite.nameCount, count ≤ 0x88

/-- Indices stay in the tables and count the entries: they have not wrapped round. -/
def EntriesInside (writes : List HostWrite) : Prop :=
  (∀ index ∈ writes.filterMap HostWrite.index, index < 0xff) ∧
    writes.filterMap HostWrite.index = List.range (writes.filterMap HostWrite.index).length

/-- Paths stay in their blocks. -/
def PathsInside (writes : List HostWrite) : Prop :=
  ∀ block start count, .path block start count ∈ writes → start + count ≤ block

/-- **All writes are inside.** -/
structure InsideBuffers (writes : List HostWrite) : Prop where
  names : NamesInside writes
  entries : EntriesInside writes
  paths : PathsInside writes

/-! ## What is visited -/

/-- The names of the entries that are converted, in order: all but `"."` and `".."`, and what is in them if
    they are directories. -/
def HostDir.visited : HostDir → List (List UInt8)
  | .nil         => []
  | .dots _ rest => rest.visited
  | .entry name stat _ entries rest =>
    if name = [46] ∨ name = [46, 46] then rest.visited
    else name :: ((if hostIsDir stat.mode then entries.visited else []) ++ rest.visited)

/-- The `n` values of a counter of 8 bits from `id` on. -/
def ids (id n : Nat) : List Nat := (List.range n).map fun i => (id + i) % 256

theorem ids_mod (id n : Nat) : ids (id % 256) n = ids id n :=
  List.map_congr_left fun i _ => by simp

theorem ids_succ (hid : id < 256) (n : Nat) : ids id (n + 1) = id :: ids (id + 1) n := by
  unfold ids
  rw [List.range_succ_eq_map, List.map_cons, List.map_map, Nat.add_zero, Nat.mod_eq_of_lt hid]
  congr 1
  apply List.map_congr_left
  intro i _
  show (id + (i + 1)) % 256 = (id + 1 + i) % 256
  rw [Nat.add_assoc, Nat.add_comm 1 i]

theorem ids_add (id n k : Nat) : ids id (n + k) = ids id n ++ ids (id + n) k := by
  unfold ids
  rw [List.range_add, List.map_append, List.map_map]
  congr 1
  apply List.map_congr_left
  intro i _
  show (id + (n + i)) % 256 = (id + n + i) % 256
  rw [Nat.add_assoc]

/-- A counter from 0 on is below 255, and has not wrapped round, as long as it has given 255 numbers. -/
theorem ids_inside_iff : ((∀ i ∈ ids 0 n, i < 0xff) ∧ ids 0 n = List.range (ids 0 n).length) ↔ n ≤ 255 := by
  constructor
  · rintro ⟨h, -⟩
    apply Nat.le_of_not_lt
    intro hn
    -- otherwise 255 is among the numbers
    have h255 : 255 ∈ ids 0 n := List.mem_map.mpr ⟨255, List.mem_range.mpr hn, rfl⟩
    exact absurd (h 255 h255) (by decide)
  · intro hn
    have hids : ids 0 n = List.range n := by
      unfold ids
      conv_rhs => rw [← List.map_id (List.range n)]
      apply List.map_congr_left
      intro i hi
      have := List.mem_range.mp hi
      simp only [id_eq]
      omega
    rw [hids, List.length_range]
    refine ⟨fun i hi => ?_, rfl⟩
    have := List.mem_range.mp hi
    omega

theorem idAfter_eq (hid : id < 256) : idAfter id L = (id + L.visited.length) % 256 := by
  induction L generalizing id with
  | nil => exact (Nat.mod_eq_of_lt hid).symm
  | dots b rest ih => exact ih hid
  | entry name stat content entries rest ihe ihr =>
      rw [idAfter, HostDir.visited]
      by_cases hdots : name = [46] ∨ name = [46, 46]
      · rw [if_pos hdots, if_pos hdots]
        exact ihr hid
      · rw [if_neg hdots, if_neg hdots, List.length_cons, List.length_append]
        have hnext : (id + 1) % 256 < 256 := Nat.mod_lt _ (by decide)
        by_cases hdir : hostIsDir stat.mode
        · simp only [hdir, if_true]
          rw [ihe hnext, ihr (Nat.mod_lt _ (by decide))]
          omega
        · simp only [hdir, if_false, Bool.false_eq_true, List.length_nil]
          rw [ihr hnext]
          omega

/-! ## What is written -/

/-- What the writes before those of the directory itself say of an entry. -/
theorem entryWrites_filterMap (len id : Nat) (name : List UInt8) :
    (pathWrites len ++ convertWrites id name).filterMap HostWrite.nameCount = [strlen name + 1] ∧
      (pathWrites len ++ convertWrites id name).filterMap HostWrite.index = [id] := ⟨rfl, rfl⟩

theorem nameCounts_traverse :
    (traverseWrites beyond len id L).filterMap HostWrite.nameCount = L.visited.map (strlen · + 1) := by
  induction L generalizing len id with
  | nil => rfl
  | dots b rest ih => exact ih
  | entry name stat content entries rest ihe ihr =>
      rw [traverseWrites, HostDir.visited]
      by_cases hdots : name = [46] ∨ name = [46, 46]
      · rw [if_pos hdots, if_pos hdots]
        exact ihr
      · rw [if_neg hdots, if_neg hdots, List.filterMap_append, (entryWrites_filterMap len id name).1]
        by_cases hdir : hostIsDir stat.mode
        · simp [hdir, ihe, ihr]
        · simp [hdir, ihr]

theorem indices_traverse (hid : id < 256) :
    (traverseWrites beyond len id L).filterMap HostWrite.index = ids id L.visited.length := by
  induction L generalizing len id with
  | nil => rfl
  | dots b rest ih => exact ih hid
  | entry name stat content entries rest ihe ihr =>
      rw [traverseWrites, HostDir.visited]
      by_cases hdots : name = [46] ∨ name = [46, 46]
      · rw [if_pos hdots, if_pos hdots]
        exact ihr hid
      · have hnext : (id + 1) % 256 < 256 := Nat.mod_lt _ (by decide)
        rw [if_neg hdots, if_neg hdots, List.length_cons, ids_succ hid, List.length_append,
          List.filterMap_append, (entryWrites_filterMap len id name).2]
        by_cases hdir : hostIsDir stat.mode
        · have hrest : (traverseWrites beyond len (idAfter ((id + 1) % 256) entries) rest).filterMap
              HostWrite.index = ids (id + 1 + entries.visited.length) rest.visited.length := by
            rw [idAfter_eq hnext, ihr (Nat.mod_lt _ (by decide)), Nat.mod_add_mod, ids_mod]
          simp [hdir, ihe hnext, hrest, ids_mod, ids_add]
        · simp [hdir, ihr hnext, ids_mod]

/-- **The path of an entry** takes one byte more than its block has. -/
theorem not_pathsInside (len : Nat) (writes : List HostWrite) : ¬ PathsInside (pathWrites len ++ writes) := by
  intro h
  have := h (len + 0xff) (len + 1) 0xff (by simp [pathWrites])
  omega

theorem pathsInside_traverse : PathsInside (traverseWrites beyond len id L) ↔ L.visited = [] := by
  induction L generalizing len id with
  | nil => simp [PathsInside, traverseWrites, HostDir.visited]
  | dots b rest ih => exact ih
  | entry name stat content entries rest ihe ihr =>
      rw [traverseWrites, HostDir.visited]
      by_cases hdots : name = [46] ∨ name = [46, 46]
      · rw [if_pos hdots, if_pos hdots]
        exact ihr
      · rw [if_neg hdots, if_neg hdots]
        refine iff_of_false ?_ (by simp)
        rw [List.append_assoc]
        exact not_pathsInside len _

/-! ## The program -/

theorem namesInside_makefs :
    NamesInside (makefsWrites beyond len L) ↔ ∀ name ∈ L.visited, name.length ≤ 135 := by
  have hroot : (convertWrites 0 [47]).filterMap HostWrite.nameCount = [2] := rfl
  unfold NamesInside makefsWrites
  rw [List.filterMap_append, hroot, nameCounts_traverse, List.singleton_append, List.forall_mem_cons,
    List.forall_mem_map]
  constructor
  · rintro ⟨-, h⟩ name hname
    have := h name hname
    unfold strlen at this
    omega
  · intro h
    refine ⟨by decide, fun name hname => ?_⟩
    have := h name hname
    unfold strlen
    omega

theorem indices_makefs :
    (makefsWrites beyond len L).filterMap HostWrite.index = ids 0 (L.visited.length + 1) := by
  have hroot : (convertWrites 0 [47]).filterMap HostWrite.index = [0] := rfl
  rw [makefsWrites, List.filterMap_append, hroot, indices_traverse (by decide), ids_succ (by decide),
    List.singleton_append]

theorem entriesInside_makefs :
    EntriesInside (makefsWrites beyond len L) ↔ L.visited.length + 1 ≤ 255 := by
  rw [EntriesInside, indices_makefs]
  exact ids_inside_iff

theorem pathsInside_makefs : PathsInside (makefsWrites beyond len L) ↔ L.visited = [] := by
  have htraverse : PathsInside (traverseWrites beyond len 1 L) ↔ L.visited = [] := pathsInside_traverse
  rw [← htraverse]
  unfold PathsInside makefsWrites
  simp [convertWrites]

/-! ## The checks of the model -/

/-- An entry that is started had its name and its number inside. -/
theorem startEntry_cases {my : Nat} (h : startEntry m stat name parent last = .ok (m', my)) :
    m.id < 0xff ∧ name.length ≤ 135 ∧ m'.id = m.id + 1 := by
  obtain ⟨⟨m₁, my₁⟩, hconvert, hret⟩ := bind_eq_ok.mp h
  obtain ⟨rfl, rfl⟩ := Prod.mk.inj (Except.ok.inj hret)
  unfold convertDirent at hconvert
  by_cases hid : m.id < 0xff
  · by_cases hname : name.length + 1 ≤ 0x88
    · simp only [hid, hname, not_true, if_false] at hconvert
      obtain ⟨rfl, rfl⟩ := Prod.mk.inj (Except.ok.inj hconvert)
      exact ⟨hid, by omega, Nat.mod_eq_of_lt (by omega)⟩
    · simp only [hid, hname, not_true, not_false_eq_true, if_false, if_true] at hconvert
      cases hconvert
  · simp only [hid, not_false_eq_true, if_true] at hconvert
    cases hconvert

theorem loadData_id {size data : Nat} (h : loadData m content size = .ok (m', data)) : m'.id = m.id := by
  unfold loadData at h
  dsimp only at h
  -- the buffer may have grown
  generalize hgrown : (if m.outDataOffset + size > m.outDataCap then _ else m) = grown at h
  have hid : grown.id = m.id := by
    rw [← hgrown]
    split <;> rfl
  rw [← hid]
  split at h
  · cases h
    rfl
  · split at h
    · cases h
    · cases h
      rfl

theorem finishFile_id {my size : Nat} (h : finishFile m my content size = .ok m') : m'.id = m.id := by
  obtain ⟨⟨m₁, data⟩, hload, hret⟩ := bind_eq_ok.mp h
  cases hret
  have hid : m₁.id = (m.modifyDirent my fun d => { d with firstChild := 0 }).id := loadData_id hload
  exact hid

/-- **Where `traverse_dir` returns**, names and numbers were inside. -/
theorem traverseDir_inside {child : Nat} (hid : m.id ≤ 255)
    (h : traverseDir m parent last L = .ok (m', child)) :
    m'.id = m.id + L.visited.length ∧ m'.id ≤ 255 ∧ ∀ name ∈ L.visited, name.length ≤ 135 := by
  induction L generalizing m parent last m' child with
  | nil =>
      cases h
      exact ⟨rfl, hid, by simp [HostDir.visited]⟩
  | dots b rest ih => exact ih hid h
  | entry name stat content entries rest ihe ihr =>
      rw [traverseDir] at h
      rw [HostDir.visited]
      by_cases hdots : name = [46] ∨ name = [46, 46]
      · rw [if_pos hdots] at h ⊢
        exact ihr hid h
      · rw [if_neg hdots] at h ⊢
        obtain ⟨⟨m₁, my⟩, hstart, h⟩ := bind_eq_ok.mp h
        obtain ⟨hlt, hname, hid₁⟩ := startEntry_cases hstart
        obtain ⟨m₂, hentry, hrest⟩ := bind_eq_ok.mp h
        have hbelow : m₂.id = m₁.id + (if hostIsDir stat.mode then entries.visited else []).length ∧
            m₂.id ≤ 255 ∧
            ∀ name ∈ (if hostIsDir stat.mode then entries.visited else []), name.length ≤ 135 := by
          by_cases hdir : hostIsDir stat.mode
          · simp only [hdir, if_true] at hentry ⊢
            obtain ⟨⟨m₃, below⟩, htrav, hret⟩ := bind_eq_ok.mp hentry
            cases hret
            have hwalk : m₃.id = m₁.id + entries.visited.length ∧ m₃.id ≤ 255 ∧
                ∀ name ∈ entries.visited, name.length ≤ 135 := ihe (by omega) htrav
            exact hwalk
          · simp only [hdir, if_false, Bool.false_eq_true] at hentry ⊢
            have hid₂ := finishFile_id hentry
            exact ⟨hid₂, by omega, List.forall_mem_nil _⟩
        obtain ⟨hid₂, hle₂, hnames₂⟩ := hbelow
        obtain ⟨hid', hle', hnames'⟩ := ihr hle₂ hrest
        refine ⟨?_, hle', ?_⟩
        · rw [hid', hid₂, hid₁, List.length_cons, List.length_append]
          omega
        · rw [List.forall_mem_cons, List.forall_mem_append]
          exact ⟨hname, hnames₂, hnames'⟩

/-- **Where `makefs` returns**, names and numbers were inside. -/
theorem makefs_ok_inside {file : ImageFile} (h : makefs stat L = .ok file) (beyond : Nat → List UInt8 → Nat)
    (len : Nat) : NamesInside (makefsWrites beyond len L) ∧ EntriesInside (makefsWrites beyond len L) := by
  obtain ⟨⟨m₁, dirId⟩, hconvert, h⟩ := bind_eq_ok.mp h
  obtain ⟨_, -, h⟩ := bind_eq_ok.mp h
  obtain ⟨⟨m₂, firstChild⟩, htrav, -⟩ := bind_eq_ok.mp h
  have hid₁ : m₁.id = 1 := by
    cases hconvert
    rfl
  obtain ⟨hid, hle, hnames⟩ := traverseDir_inside (by omega) htrav
  exact ⟨namesInside_makefs.mpr hnames, entriesInside_makefs.mpr (by omega)⟩

/-- An entry whose name and number are inside is started. -/
theorem startEntry_ok (stat : Stat) (parent last : Nat) (hid : m.id < 0xff) (hname : name.length ≤ 135) :
    ∃ m', startEntry m stat name parent last = .ok (m', m.id) ∧ m'.id = m.id + 1 := by
  have hle : name.length + 1 ≤ 0x88 := by omega
  have hconvert : ∃ m₁, convertDirent m stat name = .ok (m₁, m.id) ∧ m₁.id = m.id + 1 := by
    unfold convertDirent
    simp only [hid, hle, not_true, if_false]
    exact ⟨_, rfl, Nat.mod_eq_of_lt (by omega)⟩
  obtain ⟨m₁, hm₁, hid₁⟩ := hconvert
  exact ⟨_, bind_eq_ok.mpr ⟨_, hm₁, rfl⟩, hid₁⟩

/-- The contents of a file are kept, or there is no room for them. -/
theorem finishFile_total (m : Makefs) (my : Nat) (content : List UInt8) (size : Nat) :
    (∃ m', finishFile m my content size = .ok m') ∨
      finishFile m my content size = .error (.bounds "out_data") := by
  have hload : ∀ m : Makefs, (∃ m' data, loadData m content size = .ok (m', data)) ∨
      loadData m content size = .error (.bounds "out_data") := by
    intro m
    unfold loadData
    dsimp only
    generalize (if m.outDataOffset + size > m.outDataCap then _ else m) = grown
    split
    · exact .inl ⟨_, _, rfl⟩
    · split
      · exact .inr rfl
      · exact .inl ⟨_, _, rfl⟩
  unfold finishFile
  obtain ⟨m', data, h⟩ | h := hload (m.modifyDirent my fun d => { d with firstChild := 0 })
  · rw [h]
    exact .inl ⟨_, rfl⟩
  · rw [h]
    exact .inr rfl

/-- **Where names and numbers are inside**, `traverse_dir` returns, or there is no room for the contents. -/
theorem traverseDir_total (parent last : Nat) (hid : m.id + L.visited.length ≤ 255)
    (hnames : ∀ name ∈ L.visited, name.length ≤ 135) :
    (∃ m' child, traverseDir m parent last L = .ok (m', child)) ∨
      traverseDir m parent last L = .error (.bounds "out_data") := by
  induction L generalizing m parent last with
  | nil => exact .inl ⟨m, last, rfl⟩
  | dots b rest ih => exact ih parent last hid hnames
  | entry name stat content entries rest ihe ihr =>
      rw [HostDir.visited] at hid hnames
      rw [traverseDir]
      by_cases hdots : name = [46] ∨ name = [46, 46]
      · rw [if_pos hdots] at hid hnames ⊢
        exact ihr parent last hid hnames
      · rw [if_neg hdots] at hid hnames ⊢
        rw [List.length_cons, List.length_append] at hid
        rw [List.forall_mem_cons, List.forall_mem_append] at hnames
        obtain ⟨hname, hbelow, hrest⟩ := hnames
        obtain ⟨m₁, hstart, hid₁⟩ := startEntry_ok stat parent last (show m.id < 0xff by omega) hname
        rw [hstart, ok_bind]
        dsimp only
        by_cases hdir : hostIsDir stat.mode
        · simp only [hdir, if_true] at hid hbelow ⊢
          obtain ⟨m₂, child, hwalk⟩ | hstop := ihe m.id 0 (show m₁.id + _ ≤ 255 by omega) hbelow
          · obtain ⟨hid₂, -, -⟩ := traverseDir_inside (by omega) hwalk
            have hid₃ : (finishDir m₂ m.id child).id = m₂.id := rfl
            have hcount : (finishDir m₂ m.id child).id + rest.visited.length ≤ 255 := by omega
            rw [hwalk]
            exact ihr parent m.id hcount hrest
          · rw [hstop]
            exact .inr rfl
        · simp only [hdir, if_false, Bool.false_eq_true, List.length_nil] at hid ⊢
          obtain ⟨m₂, hfile⟩ | hstop := finishFile_total m₁ m.id content stat.size
          · have hid₂ := finishFile_id hfile
            rw [hfile]
            exact ihr parent m.id (by omega) hrest
          · rw [hstop]
            exact .inr rfl

/-- **Where names and numbers are inside**, `makefs` returns, or there is no room for the contents. -/
theorem makefs_of_inside (hnames : NamesInside (makefsWrites beyond len L))
    (hentries : EntriesInside (makefsWrites beyond len L)) :
    (∃ file, makefs stat L = .ok file) ∨ makefs stat L = .error (.bounds "out_data") := by
  have hroot : ∃ m, convertDirent Makefs.init stat [47] = .ok (m, 0) ∧ m.id = 1 := ⟨_, rfl, rfl⟩
  obtain ⟨m, hroot, hid⟩ := hroot
  have hcount := entriesInside_makefs.mp hentries
  have hwalk := traverseDir_total 0 0 (show m.id + L.visited.length ≤ 255 by omega)
    (namesInside_makefs.mp hnames)
  have hassert : assert (0 = 0) "dir_id == 0 && \"Root dir must be zero\"" = .ok () := rfl
  unfold makefs
  rw [hroot, ok_bind]
  dsimp only
  rw [hassert, ok_bind]
  obtain ⟨m', child, hwalk⟩ | hstop := hwalk
  · rw [hwalk]
    exact .inl ⟨_, rfl⟩
  · rw [hstop]
    exact .inr rfl

/-! ## Where the writes are inside -/

/-- **All writes of `makefs` are inside its buffers iff** there is no entry to write. The names alone are iff
    none has more than 135 bytes, the entries alone iff there are 255 with the root, and the paths alone iff
    there are none. -/
theorem makefs_inside_iff (beyond : Nat → List UInt8 → Nat) (len : Nat) (L : HostDir) :
    (InsideBuffers (makefsWrites beyond len L) ↔ L.visited = []) ∧
      (NamesInside (makefsWrites beyond len L) ↔ ∀ name ∈ L.visited, name.length ≤ 135) ∧
      (EntriesInside (makefsWrites beyond len L) ↔ L.visited.length + 1 ≤ 255) ∧
      (PathsInside (makefsWrites beyond len L) ↔ L.visited = []) := by
  refine ⟨⟨fun h => pathsInside_makefs.mp h.paths, ?_⟩, namesInside_makefs, entriesInside_makefs,
    pathsInside_makefs⟩
  intro hnone
  refine ⟨namesInside_makefs.mpr ?_, entriesInside_makefs.mpr ?_, pathsInside_makefs.mpr hnone⟩
  · simp [hnone]
  · simp [hnone]

/-- **One file** `a`: the last byte of its path is written behind the block. -/
theorem makefs_path_outside :
    .path (6 + 0xff) (6 + 1) 0xff ∈
        makefsWrites (fun _ _ => 0) 6 (.entry [97] ⟨0o100644, 0, 0, 1⟩ [97] .nil .nil) ∧
      ¬ InsideBuffers (makefsWrites (fun _ _ => 0) 6 (.entry [97] ⟨0o100644, 0, 0, 1⟩ [97] .nil .nil)) := by
  refine ⟨by decide, fun h => ?_⟩
  exact absurd (h.paths (6 + 0xff) (6 + 1) 0xff (by decide)) (by decide)

end WeirdOs
