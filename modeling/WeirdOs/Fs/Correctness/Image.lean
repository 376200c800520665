import WeirdOs.Fs.Correctness.Makefs
import WeirdOs.Fs.Correctness.Read
import WeirdOs.Fs.Correctness.Cache
import WeirdOs.Fs.Correctness.Mount
import Mathlib.Data.List.Perm.Basic
import Mathlib.Data.Nat.Bitwise

/-!
# `Fs.Correctness.Image` — from a host directory to dirents and back

The writer and the reader of the ram disk are put together. An encoded listing unfolds to a forest of
entry numbers (`HostDir.toForest`), with the siblings in reverse; `cache` makes one dirent for each node
of it; and the dirents made from an encoded listing mirror it (`Mirrors`): names, kinds, contents and what
is below them. Paths then lead to the dirents of the entries of the listing (`makefs_initrd`).
-/

namespace WeirdOs

open Lib

variable {image : InitrdImage} {fs : Fs} {L : HostDir} {G : Forest Nat} {p : Option Nat}
variable {k last off b d v root : Nat} {names : List (List UInt8)} {e : HostEntry}

/-! ## The forest of an encoded listing -/

/-- The forest of the numbers of a listing whose first entry is number `k`: the last entry first, then
    those in front of it, then `siblings`. -/
def HostDir.toForest : HostDir → Nat → Forest Nat → Forest Nat
  | nil, _, siblings                      => siblings
  | dots _ rest, k, siblings              => rest.toForest k siblings
  | entry _ _ _ entries rest, k, siblings =>
    rest.toForest (k + 1 + entries.count) (.node k (entries.toForest (k + 1) .nil) siblings)

theorem HostDir.size_toForest (L : HostDir) (k : Nat) (G : Forest Nat) :
    (L.toForest k G).size = L.count + G.size := by
  induction L generalizing k G with
  | nil => rw [toForest, count, Nat.zero_add]
  | dots b rest ih => exact ih k G
  | entry name stat content entries rest ihe ihr =>
      rw [toForest, ihr, Forest.size, ihe, Forest.size, count]
      omega

/-- The links of an encoded listing unfold to its forest. -/
theorem chain_of_encoded {header : InitrdHeader} {data : Nat → UInt8}
    (h : Encoded header data L k last off) (hG : Chain header G last) (hk : 1 ≤ k)
    (hroom : k + L.count ≤ 255) : Chain header (L.toForest k G) (L.head k last) := by
  induction L generalizing k last off G with
  | nil => exact hG
  | dots b rest ih => exact ih h hG hk hroom
  | entry name stat content entries rest ihe ihr =>
      obtain ⟨⟨parent, hdirent⟩, _, _, hentries, hrest⟩ := h
      rw [HostDir.count] at hroom
      -- the entries after this one end at its node, which ends at `G`
      refine ihr hrest ⟨rfl, by omega, by omega, ?_, ?_, ?_⟩ (by omega) (by omega)
      · rw [hdirent]
        show k < 0xff
        omega
      · rw [hdirent]
        exact ihe hentries rfl (by omega) (by omega)
      · rw [hdirent]
        exact hG

/-- Every number of the listing is the label of one node. -/
theorem HostDir.labels_toForest (L : HostDir) (k : Nat) (G : Forest Nat) :
    (L.toForest k G).labels.Perm (List.range' k L.count ++ G.labels) := by
  induction L generalizing k G with
  | nil => exact .refl _
  | dots b rest ih => exact ih k G
  | entry name stat content entries rest ihe ihr =>
      have hrange : List.range' k (entry name stat content entries rest).count =
          k :: (List.range' (k + 1) entries.count ++
            List.range' (k + 1 + entries.count) rest.count) := by
        rw [count, List.range'_succ, ← List.range'_append_1]
      -- the two orders differ by moving blocks of labels, so count each label
      rw [hrange, toForest, List.perm_iff_count]
      intro a
      have hentries := (ihe (k + 1) .nil).count_eq a
      have hrest := (ihr (k + 1 + entries.count)
        (.node k (entries.toForest (k + 1) .nil) G)).count_eq a
      simp only [Forest.labels, List.count_append, List.count_cons, List.count_nil] at hentries hrest ⊢
      omega

/-! ## Dirents that mirror a listing -/

/-- The inode shows what the entry holds: a directory is a directory, and reading any number of bytes
    from the start of a file gives the leading bytes of its content. -/
def Shows (ino : Inode) (stat : Stat) (content : List UInt8) : Prop :=
  if hostIsDir stat.mode then ino.kind = .directoryLike
  else ∀ n, ino.read n 0 = some (min n content.length, content.take n)

/-- The dirents are those of the listing, in its order: same names, same kinds and contents, and below
    each of them the dirents of its own listing. A child list is in the reverse order of the listing. -/
def Mirrors (fs : Fs) : HostDir → List Nat → Prop
  | .nil, ds => ds = []
  | .dots _ rest, ds => Mirrors fs rest ds
  | .entry name stat content entries rest, ds => ∃ d ds', ds = d :: ds' ∧
    (fs.dirents d).ident = name ∧
    (∃ ino, (fs.dirents d).inode = some ino ∧ Shows (fs.inodes ino) stat content) ∧
    Mirrors fs entries (fs.dirents d).children.reverse ∧ Mirrors fs rest ds'

/-- One dirent mirrors one entry. -/
def MirrorsEntry (fs : Fs) (d : Nat) (e : HostEntry) : Prop :=
  (fs.dirents d).ident = e.name ∧
  (∃ ino, (fs.dirents d).inode = some ino ∧ Shows (fs.inodes ino) e.stat e.content) ∧
  Mirrors fs e.entries (fs.dirents d).children.reverse

/-- The two tests for a directory agree on regular files and directories, also after the mode has been
    truncated to 32 bits. -/
theorem S_ISDIR_word {mode : Nat} (h : mode &&& 0o170000 = 0o40000 ∨ mode &&& 0o170000 = 0o100000) :
    S_ISDIR (word mode) = hostIsDir mode := by
  have hbit : mode.testBit 14 = (mode &&& 0o170000).testBit 14 := by
    rw [Nat.testBit_and, show Nat.testBit 0o170000 14 = true from rfl, Bool.and_true]
  unfold S_ISDIR S_IFDIR hostIsDir word
  rw [show (0o40000 : Nat) = 2 ^ 14 from rfl, show (4294967296 : Nat) = 2 ^ 32 from rfl, Nat.and_two_pow,
    Nat.testBit_mod_two_pow, hbit]
  rcases h with h | h
  · rw [h]
    rfl
  · rw [h]
    rfl

/-- What `makefs` wrote for an entry: an inode of its kind, with the size and the bytes of a file. -/
structure WrittenFor (image : InitrdImage) (rd : InitrdInode) (e : HostEntry) : Prop where
  kind : S_ISDIR rd.mode = hostIsDir e.stat.mode
  size : rd.size = if hostIsDir e.stat.mode then 0 else e.content.length
  data : hostIsDir e.stat.mode = false →
    ∀ i, i < e.content.length → some (image.fileData (rd.data + i)) = e.content[i]?

/-- The dirent and its inode were made from what `makefs` wrote for the entry. -/
def MadeFor (image : InitrdImage) (fs : Fs) (d : Nat) (e : HostEntry) : Prop :=
  (fs.dirents d).ident = e.name ∧ ∃ ino rd, (fs.dirents d).inode = some ino ∧
    fs.inodes ino = cacheInode image d rd ∧ WrittenFor image rd e

/-- The bytes of the file are those of the entry. -/
theorem WrittenFor.content {rd : InitrdInode} (h : WrittenFor image rd e)
    (hfile : hostIsDir e.stat.mode = false) :
    image.content rd = e.content := by
  have hsize := h.size
  rw [hfile, if_neg Bool.false_ne_true] at hsize
  apply List.ext_getElem?
  intro i
  rcases Nat.lt_or_ge i e.content.length with hi | hi
  · rw [← h.data hfile i hi, InitrdImage.content, List.getElem?_map, List.getElem?_range (by omega)]
    rfl
  · rw [List.getElem?_eq_none hi, List.getElem?_eq_none (by rw [content_length]; omega)]

/-- The inode that `cache` makes from what `makefs` wrote shows the entry. -/
theorem WrittenFor.shows {rd : InitrdInode} (h : WrittenFor image rd e) :
    Shows (cacheInode image d rd) e.stat e.content := by
  have hkind := h.kind
  unfold Shows
  by_cases hdir : hostIsDir e.stat.mode
  · rw [if_pos hdir]
    exact (cacheInode_dir image Fs.empty d (hkind.trans hdir)).1
  · rw [if_neg hdir]
    rw [Bool.not_eq_true] at hdir
    have hlen : e.content.length = rd.size := by rw [← h.content hdir, content_length]
    intro n
    rw [read_cacheInode (hkind.trans hdir), hlen, Nat.min_comm n, ← h.content hdir,
      ← List.drop_zero (l := image.content rd), content_range, Nat.sub_zero, Nat.min_comm n]

/-! ## Dirents in the places of entries -/

/-- The dirents stand in the places of the entries, and `P` holds of each one and its entry: there is one
    for each entry of the listing, in its order, and below it there are those for its own listing. A child
    list is in the reverse order. -/
def HostDir.Placed (P : Nat → HostEntry → Prop) (fs : Fs) : HostDir → List Nat → Prop
  | nil, ds => ds = []
  | dots _ rest, ds => rest.Placed P fs ds
  | entry name stat content entries rest, ds => ∃ d ds', ds = d :: ds' ∧ P d ⟨name, stat, content, entries⟩ ∧
    entries.Placed P fs (fs.dirents d).children.reverse ∧ rest.Placed P fs ds'

variable {P : Nat → HostEntry → Prop} {ds : List Nat}

/-- The dirent looks like the entry. -/
def LooksLike (fs : Fs) (d : Nat) (e : HostEntry) : Prop :=
  (fs.dirents d).ident = e.name ∧
    ∃ ino, (fs.dirents d).inode = some ino ∧ Shows (fs.inodes ino) e.stat e.content

theorem MadeFor.looksLike (h : MadeFor image fs d e) : LooksLike fs d e := by
  obtain ⟨hname, ino, rd, hinode, hino, hwritten⟩ := h
  exact ⟨hname, ino, hinode, hino ▸ hwritten.shows⟩

/-- Dirents that look like the entries in whose places they stand mirror the listing. -/
theorem HostDir.Placed.mirrors (h : L.Placed P fs ds) (hP : ∀ d e, P d e → LooksLike fs d e) :
    Mirrors fs L ds := by
  induction L generalizing ds with
  | nil => exact h
  | dots _ rest ih => exact ih h
  | entry name stat content entries rest ihe ihr =>
      obtain ⟨d, ds', rfl, hd, hentries, hrest⟩ := h
      obtain ⟨hname, hino⟩ := hP d _ hd
      exact ⟨d, ds', rfl, hname, hino, ihe hentries, ihr hrest⟩

theorem Mirrors.placed (h : Mirrors fs L ds) : L.Placed (LooksLike fs) fs ds := by
  induction L generalizing ds with
  | nil => exact h
  | dots _ rest ih => exact ih h
  | entry name stat content entries rest ihe ihr =>
      obtain ⟨d, ds', rfl, hname, hino, hentries, hrest⟩ := h
      exact ⟨d, ds', rfl, ⟨hname, hino⟩, ihe hentries, ihr hrest⟩

theorem HostDir.Placed.dirent_of_entry (h : L.Placed P fs ds) (he : e ∈ L.toList) :
    ∃ d ∈ ds, P d e ∧ e.entries.Placed P fs (fs.dirents d).children.reverse := by
  induction L generalizing ds with
  | nil => cases he
  | dots _ rest ih => exact ih h he
  | entry name stat content entries rest _ ihr =>
      obtain ⟨d, ds', rfl, hd, hentries, hrest⟩ := h
      rcases List.mem_cons.mp he with rfl | he
      · exact ⟨d, List.mem_cons_self, hd, hentries⟩
      · obtain ⟨d', hd', hentry⟩ := ihr hrest he
        exact ⟨d', List.mem_cons_of_mem _ hd', hentry⟩

/-- **The dirents made from an encoded listing stand in the places of its entries.** The invariant of the
    induction: behind the dirents of the listing, in reverse, come those of the forest that follows. -/
theorem placed_of_numbered (hforest : (L.toForest k G).Numbered (Made image fs) p b)
    (henc : Encoded image.header image.fileData L k last off) (hok : L.Ok) :
    ∃ ds b', (L.toForest k G).tops b = ds.reverse ++ G.tops b' ∧ G.Numbered (Made image fs) p b' ∧
      L.Placed (MadeFor image fs) fs ds := by
  induction L generalizing k last off b p G with
  | nil => exact ⟨[], b, rfl, hforest, rfl⟩
  | dots _ rest ih => exact ih hforest henc hok
  | entry name stat content entries rest ihe ihr =>
      obtain ⟨⟨parent, hdirent⟩, ⟨uid, gid, hinode⟩, hdata, hentries, hrest⟩ := henc
      obtain ⟨_, hkind, _, hoke, hokr⟩ := hok
      -- the entries after this one come first in the forest; `d` is this one
      obtain ⟨ds, d, htops, ⟨⟨ino, _, hmade, hino⟩, hG, hchildren⟩, hplaced⟩ := ihr hforest hrest hokr
      obtain ⟨ds', b', htops', _, hplaced'⟩ := ihe hchildren hentries hoke
      rw [Forest.tops, List.append_nil] at htops'
      refine ⟨d :: ds, d + 1, ?_, hG, d, ds, rfl, ⟨?_, ino, _, ?_, hino, ?_⟩, ?_, hplaced⟩
      · rw [HostDir.toForest, htops, Forest.tops]
        simp
      · rw [hmade, hdirent]
      · rw [hmade]
      · rw [hdirent, hinode]
        refine ⟨S_ISDIR_word (hkind.imp And.left And.left), rfl, ?_⟩
        intro hfile i hi
        dsimp only at hfile ⊢
        rw [if_neg (Bool.eq_false_iff.mp hfile)]
        exact hdata i hi
      · rw [hmade, htops', List.reverse_reverse]
        exact hplaced'

/-! ## Names and paths of a mirrored listing -/

theorem Mirrors.map_ident {ds : List Nat} (h : Mirrors fs L ds) :
    ds.map (fun d => (fs.dirents d).ident) = L.toList.map HostEntry.name := by
  induction L generalizing ds with
  | nil =>
      obtain rfl : ds = [] := h
      rfl
  | dots _ rest ih => exact ih h
  | entry name stat content entries rest _ ihr =>
      obtain ⟨d, ds', rfl, hname, _, _, hrest⟩ := h
      rw [List.map_cons, HostDir.toList, List.map_cons, hname, ihr hrest]

theorem Mirrors.entry_of_dirent {ds : List Nat} (h : Mirrors fs L ds) (hd : d ∈ ds) :
    ∃ e ∈ L.toList, MirrorsEntry fs d e := by
  induction L generalizing ds with
  | nil =>
      obtain rfl : ds = [] := h
      cases hd
  | dots _ rest ih => exact ih h hd
  | entry name stat content entries rest _ ihr =>
      obtain ⟨d₀, ds', rfl, hname, hino, hentries, hrest⟩ := h
      rcases List.mem_cons.mp hd with rfl | hd
      · exact ⟨_, List.mem_cons_self, hname, hino, hentries⟩
      · obtain ⟨e, he, hentry⟩ := ihr hrest hd
        exact ⟨e, List.mem_cons_of_mem _ he, hentry⟩

/-- The entry that the names lead to from the top of a listing. -/
inductive HostDir.EntryAt : HostDir → List (List UInt8) → HostEntry → Prop where
  | here {L : HostDir} {e : HostEntry} : e ∈ L.toList → EntryAt L [e.name] e
  | inside {L : HostDir} {e e' : HostEntry} {names : List (List UInt8)} :
    e ∈ L.toList → EntryAt e.entries names e' → EntryAt L (e.name :: names) e'

/-- **Entries have trails** to the dirents in their places. -/
theorem HostDir.Placed.trail (h : L.EntryAt names e) (hname : ∀ d e, P d e → (fs.dirents d).ident = e.name)
    (hv : L.Placed P fs (fs.dirents v).children.reverse) :
    ∃ d, fs.graph.Trail v names d ∧ P d e ∧ e.entries.Placed P fs (fs.dirents d).children.reverse := by
  induction h generalizing v with
  | here he =>
      obtain ⟨d, hd, hentry, hbelow⟩ := hv.dirent_of_entry he
      refine ⟨d, ?_, hentry, hbelow⟩
      rw [← hname d _ hentry]
      exact .enter (by simpa using hd) (.here d)
  | inside he _ ih =>
      obtain ⟨c, hc, hentry, hbelow⟩ := hv.dirent_of_entry he
      obtain ⟨d, ht, hd⟩ := ih hbelow
      refine ⟨d, ?_, hd⟩
      rw [← hname c _ hentry]
      exact .enter (by simpa using hc) ht

theorem trail_of_entry (h : L.EntryAt names e) (hv : Mirrors fs L (fs.dirents v).children.reverse) :
    ∃ d, fs.graph.Trail v names d ∧ MirrorsEntry fs d e := by
  obtain ⟨d, ht, ⟨hname, hino⟩, hbelow⟩ := HostDir.Placed.trail h (fun _ _ hd => hd.1) hv.placed
  exact ⟨d, ht, hname, hino, hbelow.mirrors fun _ _ hd => hd⟩

/-- **Trails lead to entries.** -/
theorem entry_of_trail (h : fs.graph.Trail v names d) (hnil : names ≠ [])
    (hv : Mirrors fs L (fs.dirents v).children.reverse) :
    ∃ e, L.EntryAt names e ∧ MirrorsEntry fs d e := by
  induction h generalizing L with
  | here => exact absurd rfl hnil
  | @enter v c w names hc ht ih =>
      obtain ⟨e, he, hentry⟩ := hv.entry_of_dirent (by simpa using hc)
      rw [Fs.graph_name, hentry.1]
      cases names with
      | nil =>
          obtain rfl := NameGraph.trail_nil.mp ht
          exact ⟨e, .here he, hentry⟩
      | cons name names =>
          obtain ⟨e', he', hd⟩ := ih (by simp) hentry.2.2
          exact ⟨e', .inside he he', hd⟩

/-! ## The tree below a root -/

/-- Below `root` is the forest of a listing: the children of `root`, which has no parent, are its top
    nodes, and they are numbered from the one after `root` on. -/
structure Rooted (image : InitrdImage) (fs : Fs) (root : Nat) (F : Forest Nat) : Prop where
  children : (fs.dirents root).children = F.tops (root + 1)
  parentless : ∀ p, (fs.dirents root).parent ≠ some (some p)
  made : F.Numbered (Made image fs) (some root) (root + 1)

/-- A name of 1 to 135 bytes without `'/'`. -/
def UsableName (name : List UInt8) : Prop := 1 ≤ name.length ∧ name.length ≤ 135 ∧ slash ∉ name

theorem HostDir.Ok.entry (h : L.Ok) (he : e ∈ L.toList) : UsableName e.name ∧ e.entries.Ok := by
  induction L with
  | nil => cases he
  | dots _ rest ih => exact ih h he
  | entry name stat content entries rest _ ihr =>
      obtain ⟨⟨h₁, h₂, h₃, _⟩, _, _, hoke, hokr⟩ := h
      rcases List.mem_cons.mp he with rfl | he
      · exact ⟨⟨h₁, h₂, h₃⟩, hoke⟩
      · exact ihr hokr he

theorem HostDir.Ok.distinct (h : L.Ok) : (L.toList.map HostEntry.name).Pairwise (· ≠ ·) := by
  induction L with
  | nil => exact .nil
  | dots _ rest ih => exact ih h
  | entry name stat content entries rest _ ihr =>
      obtain ⟨_, _, hne, _, hokr⟩ := h
      rw [toList, List.map_cons, List.pairwise_cons]
      refine ⟨?_, ihr hokr⟩
      intro k hk
      obtain ⟨e, he, rfl⟩ := List.mem_map.mp hk
      exact (hne e he).symm

/-- The names on the way to an entry are usable, and so are its own and the listing below it. -/
theorem HostDir.Ok.entryAt (hok : L.Ok) (h : L.EntryAt names e) :
    names ≠ [] ∧ (∀ name ∈ names, UsableName name) ∧ UsableName e.name ∧ e.entries.Ok := by
  induction h with
  | here he =>
      obtain ⟨hname, hoke⟩ := hok.entry he
      exact ⟨by simp, by simpa using hname, hname, hoke⟩
  | inside he _ ih =>
      obtain ⟨hname, hoke⟩ := hok.entry he
      obtain ⟨_, hnames, hname', hok'⟩ := ih hoke
      exact ⟨by simp, List.forall_mem_cons.mpr ⟨hname, hnames⟩, hname', hok'⟩

/-- Dirents that mirror a listing have distinct names. -/
theorem Mirrors.distinct (h : Mirrors fs L (fs.dirents v).children.reverse) (hok : L.Ok) :
    (fs.graph.children v).Pairwise (fs.graph.name · ≠ fs.graph.name ·) := by
  have hpair := hok.distinct
  rw [← h.map_ident, List.pairwise_map, List.pairwise_reverse] at hpair
  exact hpair.imp Ne.symm

/-- The root, or a dirent with a number of the forest. -/
def InForest (root : Nat) (F : Forest Nat) (d : Nat) : Prop :=
  d = root ∨ root + 1 ≤ d ∧ d < root + 1 + F.size

/-- Child lists lead into the forest, to dirents that have their container as their parent. -/
theorem Rooted.cell {F : Forest Nat} {c : Nat} (h : Rooted image fs root F) (hd : InForest root F d)
    (hc : c ∈ (fs.dirents d).children) : InForest root F c ∧ (fs.dirents c).parent = some (some d) := by
  rcases hd with rfl | ⟨hle, hlt⟩
  · rw [h.children] at hc
    obtain ⟨a, cs, ino, _, hmade, _⟩ := h.made.top hc
    exact ⟨.inr (Forest.tops_bounds hc), by rw [hmade]⟩
  · obtain ⟨q, a, cs, ⟨ino, _, hmade, _⟩, hcs⟩ := h.made.node_at hle hlt
    rw [hmade] at hc
    obtain ⟨h₁, h₂, a', cs', ino', _, hmade', _⟩ := hcs c hc
    exact ⟨.inr ⟨h₁, h₂⟩, by rw [hmade']⟩

/-- Everything below the root is in the forest. -/
theorem Rooted.inForest {F : Forest Nat} (h : Rooted image fs root F) (hd : fs.graph.Reaches root d) :
    InForest root F d := by
  apply hd.rec_on (P := InForest root F) (.inl rfl)
  intro d c _ hin hc
  exact (h.cell hin hc).1

/-- **The dirents below the root form a tree with usable names.** -/
theorem Rooted.direntTree {F : Forest Nat} (h : Rooted image fs root F) (hok : L.Ok)
    (hmirrors : Mirrors fs L (fs.dirents root).children.reverse) : DirentTree fs root := by
  have hentry : ∀ d, fs.graph.Reaches root d → d ≠ root →
      ∃ names e, L.EntryAt names e ∧ MirrorsEntry fs d e := by
    rintro d ⟨names, ht⟩ hne
    obtain ⟨e, he, hd⟩ := entry_of_trail ht (by rintro rfl; exact hne (NameGraph.trail_nil.mp ht).symm)
      hmirrors
    exact ⟨names, e, he, hd⟩
  have hparent : ∀ d c, fs.graph.Reaches root d → c ∈ (fs.dirents d).children →
      (fs.dirents c).parent = some (some d) := fun d c hd hc => (h.cell (h.inForest hd) hc).2
  refine ⟨⟨?_, ?_, ?_⟩, ?_⟩
  · intro d hd
    by_cases hroot : d = root
    · rw [hroot]
      exact hmirrors.distinct hok
    · obtain ⟨names, e, he, hde⟩ := hentry d hd hroot
      exact hde.2.2.distinct (hok.entryAt he).2.2.2
  · -- a dirent in two child lists would have two parents
    intro d d' c hd hd' hc hc'
    have hpar := hparent d c hd hc
    rw [hparent d' c hd' hc'] at hpar
    exact (Option.some.inj (Option.some.inj hpar)).symm
  · intro d hd hmem
    exact h.parentless d (hparent d root hd hmem)
  · intro d hd hne
    obtain ⟨names, e, he, hde⟩ := hentry d hd hne
    obtain ⟨_, _, ⟨hlen, _, hslash⟩, _⟩ := hok.entryAt he
    rw [hde.1]
    exact ⟨List.ne_nil_of_length_pos hlen, hslash⟩

/-- **Paths lead to the dirents of the entries.** -/
theorem Rooted.resolvePath_iff {F : Forest Nat} (h : Rooted image fs root F) (hok : L.Ok)
    (hmirrors : Mirrors fs L (fs.dirents root).children.reverse) {path : List UInt8}
    (hfit : ∀ name ∈ path.splitOn slash, name.length ≤ 254) :
    (∃ d, resolvePath fs ⟨some root⟩ (slash :: path) = .ok (some d)) ↔
      ∃ names e, L.EntryAt names e ∧ path = [slash].intercalate names := by
  have htree := h.direntTree hok hmirrors
  constructor
  · rintro ⟨d, hres⟩
    obtain ⟨_, hne, names, ht, hpath⟩ := (WeirdOs.resolvePath_iff htree).mp hres
    obtain ⟨e, he, _⟩ := entry_of_trail ht (by rintro rfl; exact hne (NameGraph.trail_nil.mp ht).symm)
      hmirrors
    exact ⟨names, e, he, (List.cons.inj hpath).2⟩
  · rintro ⟨names, e, he, rfl⟩
    obtain ⟨d, ht, _⟩ := trail_of_entry he hmirrors
    refine ⟨d, (WeirdOs.resolvePath_iff htree).mpr ⟨hfit, ?_, names, ht, rfl⟩⟩
    rintro rfl
    exact (hok.entryAt he).1 (htree.tree.trail_root ht)

/-- **Entries are found under their paths**, with what they hold. -/
theorem Rooted.resolvePath_entry {F : Forest Nat} (h : Rooted image fs root F) (hok : L.Ok)
    (hmirrors : Mirrors fs L (fs.dirents root).children.reverse) (he : L.EntryAt names e) :
    ∃ d, resolvePath fs ⟨some root⟩ (slash :: [slash].intercalate names) = .ok (some d) ∧
      MirrorsEntry fs d e := by
  have htree := h.direntTree hok hmirrors
  obtain ⟨hnil, hnames, _⟩ := hok.entryAt he
  obtain ⟨d, ht, hd⟩ := trail_of_entry he hmirrors
  have hne : d ≠ root := by
    rintro rfl
    exact hnil (htree.tree.trail_root ht)
  refine ⟨d, (WeirdOs.resolvePath_iff htree).mpr ⟨?_, hne, names, ht, rfl⟩, hd⟩
  show ∀ name ∈ components (absolutePath names), name.length ≤ 254
  rw [htree.components_absolutePath ht hne]
  intro name hname
  have := (hnames name hname).2.1
  omega

/-! ## The image of a host directory -/

/-- The inode of an encoded entry has the number of the entry. -/
theorem Encoded.id {header : InitrdHeader} {data : Nat → UInt8} {i : Nat}
    (h : Encoded header data L k last off) (hle : k ≤ i) (hlt : i < k + L.count) :
    (header.inodes (header.dirents i).inodeId).id = i := by
  induction L generalizing k last off with
  | nil => exact absurd hlt (by rw [HostDir.count]; omega)
  | dots _ rest ih => exact ih h hle hlt
  | entry name stat content entries rest ihe ihr =>
      obtain ⟨⟨parent, hdirent⟩, ⟨uid, gid, hinode⟩, _, hentries, hrest⟩ := h
      rw [HostDir.count] at hlt
      by_cases hi : i = k
      · rw [hi, hdirent, hinode]
      · by_cases hin : i < k + 1 + entries.count
        · exact ihe hentries (by omega) hin
        · exact ihr hrest (by omega) (by omega)

/-- What `cache` has built is rooted at the first dirent it made. -/
theorem Cached.rooted {fs' : Fs} {F : Forest Nat} (h : Cached image fs fs' none (.node 0 F .nil)) :
    Rooted image fs' fs.nextDirent F := by
  obtain ⟨⟨ino, _, hmade, _⟩, _, hF⟩ := h.made
  exact ⟨by rw [hmade]; rfl, fun p hp => (by rw [hmade] at hp; cases hp), hF⟩

/-- Mounting at `"/"` changes the root only. -/
theorem Rooted.mount {F : Forest Nat} (h : Rooted image fs root F) :
    Rooted image ((fs.setIdent root [slash]).clearParent root) root F where
  children := by simpa using h.children
  parentless p hp := by
    rw [Fs.clearParent_parent, if_pos rfl] at hp
    cases hp
  made := h.made.imp fun q x i cs hle _ hmade => by
    obtain ⟨ino, hlt, hdirent, hinode⟩ := hmade
    refine ⟨ino, hlt, ?_, hinode⟩
    rw [Fs.clearParent, Fs.modifyDirent_of_ne _ (by omega), Fs.setIdent, Fs.modifyDirent_of_ne _ (by omega),
      hdirent]

/-- **The dirents of an encoded listing stand in the places of its entries**, below the root. -/
theorem Rooted.placed (h : Rooted image fs root (L.toForest 1 .nil))
    (henc : Encoded image.header image.fileData L 1 0 0) (hok : L.Ok) :
    L.Placed (MadeFor image fs) fs (fs.dirents root).children.reverse := by
  obtain ⟨ds, b, htops, _, hplaced⟩ := placed_of_numbered h.made henc hok
  rw [h.children, htops, Forest.tops, List.append_nil, List.reverse_reverse]
  exact hplaced

/-- They mirror the listing. -/
theorem Rooted.mirrors (h : Rooted image fs root (L.toForest 1 .nil))
    (henc : Encoded image.header image.fileData L 1 0 0) (hok : L.Ok) :
    Mirrors fs L (fs.dirents root).children.reverse :=
  (h.placed henc hok).mirrors fun _ _ => MadeFor.looksLike

/-- What there is after `initrd` has read an image that `makefs` wrote for the listing: the entries from
    number 1 on are its own, and dirents were made for them below the one for entry 0, whose inode has a mode
    without the directory bit. -/
structure Loaded (image : InitrdImage) (fs fs' : Fs) (L : HostDir) : Prop where
  encoded : Encoded image.header image.fileData L 1 0 0
  cached : Cached image fs fs' none (.node 0 (L.toForest 1 .nil) .nil)
  id : (image.header.inodes (image.header.dirents 0).inodeId).id = 0
  mode : (image.header.inodes (image.header.dirents 0).inodeId).mode = 0o777

/-- **`makefs` writes what `initrd` can read.** -/
theorem makefs_loaded (stat : Stat) (hok : L.Ok) (hcount : L.count + 1 ≤ 255)
    (hbytes : L.bytes < 2147483648) :
    ∃ file, makefs stat L = .ok file ∧ file.header.numDirent = L.count + 1 ∧
      ∀ image : InitrdImage, image.Holds file → ∀ fs, ∃ fs',
        initrd image fs = .ok (fs', fs.nextDirent) ∧ Loaded image fs fs' L := by
  obtain ⟨file, hmakefs, hnum, ⟨parent, hroot⟩, hid, hmode, -, hencoded⟩ :=
    makefs_spec stat hok hcount hbytes
  refine ⟨file, hmakefs, hnum, ?_⟩
  intro image hholds fs
  obtain ⟨hheader, hdata⟩ := hholds
  have henc := hencoded image.fileData hdata
  rw [← hheader] at henc hroot hid hmode
  have hsize : (L.toForest 1 .nil).size = L.count := by rw [HostDir.size_toForest, Forest.size]; rfl
  have hchain : Chain image.header (L.toForest 1 .nil) (L.head 1 0) :=
    chain_of_encoded henc rfl (Nat.le_refl 1) (by omega)
  obtain ⟨fs', hinitrd, hcached⟩ := initrd_spec fs (by rw [hroot]; exact Nat.zero_lt_succ _) (by rw [hroot])
    (by rw [hroot]; exact hchain) (by omega)
  exact ⟨fs', hinitrd, henc, hcached, by rw [hroot]; exact hid, by rw [hroot]; exact hmode⟩

/-- **One dirent for each entry**: the numbers of the inodes are those of the entries. -/
theorem Loaded.inodeIds {fs' : Fs} (h : Loaded image fs fs' L) :
    ((List.range' fs.nextDirent (fs'.nextDirent - fs.nextDirent)).map
      fun d => (fs'.dirents d).inodeId).Perm (List.range (L.count + 1)) := by
  have hmap := h.cached.made.map_range (f := fun d => (fs'.dirents d).inodeId)
    (g := fun i => (image.header.inodes (image.header.dirents i).inodeId).id)
    fun q x i cs hmade => by
      obtain ⟨ino, _, hdirent, _⟩ := hmade
      rw [hdirent]
  have hlabels : (Forest.node 0 (L.toForest 1 .nil) .nil).labels.Perm (List.range (L.count + 1)) := by
    rw [List.range_eq_range', List.range'_succ]
    exact .cons 0 (by simpa [Forest.labels] using HostDir.labels_toForest L 1 .nil)
  have hid : ∀ i ∈ List.range (L.count + 1),
      (image.header.inodes (image.header.dirents i).inodeId).id = i := by
    intro i hi
    rw [List.mem_range] at hi
    rcases Nat.eq_zero_or_pos i with rfl | hpos
    · exact h.id
    · exact h.encoded.id (by omega) (by omega)
  rw [h.cached.nextDirent, Nat.add_sub_cancel_left, hmap]
  refine (hlabels.map _).trans (.of_eq ?_)
  rw [List.map_congr_left hid, List.map_id']

/-- **From a host directory to dirents and back.** For a tree of regular files and directories of at most
    255 entries with the root and less than `2^31` bytes, `makefs` builds an image. From every memory
    that holds it, `initrd` makes one dirent for each entry: the numbers of their inodes are those of the
    entries, each once. They form a tree that mirrors the host's. Mounted at `"/"`, a path resolves iff
    it is the path of an entry, and reading from the start of a file gives its leading bytes. -/
theorem makefs_initrd (stat : Stat) (hok : L.Ok) (hcount : L.count + 1 ≤ 255)
    (hbytes : L.bytes < 2147483648) :
    ∃ file, makefs stat L = .ok file ∧ file.header.numDirent = L.count + 1 ∧
    ∀ image : InitrdImage, image.Holds file → ∀ fs, ∃ fs' root, initrd image fs = .ok (fs', root) ∧
      ((List.range' fs.nextDirent (fs'.nextDirent - fs.nextDirent)).map
        fun d => (fs'.dirents d).inodeId).Perm (List.range file.header.numDirent) ∧
      fs'.graph.IsTree root ∧ Mirrors fs' L (fs'.dirents root).children.reverse ∧
      ∀ vfs, ∃ fs'', mountDevice fs' vfs [slash] (.initrd root) = .ok (fs'', ⟨some root⟩) ∧
        ∀ path, (∀ name ∈ path.splitOn slash, name.length ≤ 254) →
          ((∃ d, resolvePath fs'' ⟨some root⟩ (slash :: path) = .ok (some d)) ↔
            ∃ names e, L.EntryAt names e ∧ path = [slash].intercalate names) ∧
          ∀ names e, L.EntryAt names e → path = [slash].intercalate names →
            hostIsDir e.stat.mode = false →
            ∃ d ino, resolvePath fs'' ⟨some root⟩ (slash :: path) = .ok (some d) ∧
              (fs''.dirents d).inode = some ino ∧
              ∀ n, (fs''.inodes ino).read n 0 = some (min n e.content.length, e.content.take n) := by
  obtain ⟨file, hmakefs, hnum, hread⟩ := makefs_loaded stat hok hcount hbytes
  refine ⟨file, hmakefs, hnum, ?_⟩
  intro image hholds fs
  obtain ⟨fs', hinitrd, hloaded⟩ := hread image hholds fs
  have henc := hloaded.encoded
  have hrooted := hloaded.cached.rooted
  have hmirrors := hrooted.mirrors henc hok
  refine ⟨fs', fs.nextDirent, hinitrd, ?_, (hrooted.direntTree hok hmirrors).tree, hmirrors, ?_⟩
  · rw [hnum]
    exact hloaded.inodeIds
  · -- mounting only renames the root
    intro vfs
    refine ⟨_, rfl, fun path hfit => ⟨?_, ?_⟩⟩
    · exact hrooted.mount.resolvePath_iff hok (hrooted.mount.mirrors henc hok) hfit
    · intro names e he hpath hfile
      obtain ⟨d, hres, _, ⟨ino, hino, hshows⟩, _⟩ :=
        hrooted.mount.resolvePath_entry hok (hrooted.mount.mirrors henc hok) he
      refine ⟨d, ino, by rw [hpath]; exact hres, hino, ?_⟩
      simpa [Shows, hfile] using hshows

/-- The listing of a directory that holds a file `f` of three bytes. -/
def smallSubdir : HostDir := .entry [102] ⟨0o100644, 0, 0, 3⟩ [104, 105, 10] .nil .nil

/-- The listing of a directory with that one in it, as `a`. -/
def smallDir : HostDir := .dots false (.dots true (.entry [97] ⟨0o40755, 0, 0, 4096⟩ [] smallSubdir .nil))

/-- The file of the small directory is found in its image, and read. -/
theorem makefs_initrd_small : ∃ file, makefs ⟨0o40755, 0, 0, 4096⟩ smallDir = .ok file ∧
    ∀ image : InitrdImage, image.Holds file → ∃ fs' root fs'' d ino,
      initrd image Fs.empty = .ok (fs', root) ∧
      mountDevice fs' ⟨none⟩ [slash] (.initrd root) = .ok (fs'', ⟨some root⟩) ∧
      resolvePath fs'' ⟨some root⟩ [47, 97, 47, 102] = .ok (some d) ∧
      (fs''.dirents d).inode = some ino ∧ (fs''.inodes ino).read 2 0 = some (2, [104, 105]) := by
  have hok : smallDir.Ok := by simp [smallDir, smallSubdir, HostDir.Ok, HostDir.toList, slash]
  obtain ⟨file, hmakefs, _, hload⟩ := makefs_initrd ⟨0o40755, 0, 0, 4096⟩ hok (by decide) (by decide)
  refine ⟨file, hmakefs, ?_⟩
  intro image hholds
  obtain ⟨fs', root, hinitrd, _, _, _, hmount⟩ := hload image hholds Fs.empty
  obtain ⟨fs'', hmounted, hpaths⟩ := hmount ⟨none⟩
  have hfit : ∀ name ∈ List.splitOn slash [97, 47, 102], name.length ≤ 254 := by
    simp [List.splitOn_cons_eq_if_modifyHead, slash]
  have hfile : (⟨[102], ⟨0o100644, 0, 0, 3⟩, [104, 105, 10], .nil⟩ : HostEntry) ∈ smallSubdir.toList :=
    List.mem_cons_self
  have hdir : (⟨[97], ⟨0o40755, 0, 0, 4096⟩, [], smallSubdir⟩ : HostEntry) ∈ smallDir.toList :=
    List.mem_cons_self
  obtain ⟨d, ino, hres, hino, hread⟩ := (hpaths [97, 47, 102] hfit).2 _ _ (.inside hdir (.here hfile))
    (by simp [slash]) rfl
  exact ⟨fs', root, fs'', d, ino, hinitrd, hmounted, hres, hino, hread 2⟩

end WeirdOs
