import WeirdOs.Fs.Initrd
import WeirdOs.Lib.Forest

/-!
# `Fs.Correctness.Cache` — what `initrd::cache` builds

For an image whose links from an entry on form a forest (`Chain`), `cache` ends, and it makes one dirent
for each node of the forest, numbered as `Lib.Forest` numbers them. `Cached` says what the store is like
afterwards; the parts of it compose along the two recursive calls (`Cached.node`). Nothing is assumed
about where the image comes from.
-/

namespace WeirdOs

open Lib

variable {image : InitrdImage} {fs fs₀ fs₁ fs₂ : Fs} {p : Option Nat} {C S F : Forest Nat} {i j fuel : Nat}

/-- Following first children and siblings from entry `i` on unfolds to the forest. -/
def Chain (header : InitrdHeader) : Forest Nat → Nat → Prop
  | .nil, i => i = 0
  | .node j children siblings, i => i = j ∧ j ≠ 0 ∧ j < 0xff ∧ (header.dirents j).inodeId < 0xff ∧
    Chain header children (header.dirents j).firstChild ∧ Chain header siblings (header.dirents j).sibling

/-- The dirent `x` and its inode were made for entry `i`, with this parent and these children. -/
def Made (image : InitrdImage) (fs : Fs) (p : Option Nat) (x i : Nat) (cs : List Nat) : Prop :=
  ∃ ino, ino < fs.nextInode ∧
    fs.dirents x = ⟨(image.header.dirents i).name,
      (image.header.inodes (image.header.dirents i).inodeId).id, some ino, some p, cs⟩ ∧
    fs.inodes ino = cacheInode image x (image.header.inodes (image.header.dirents i).inodeId)

/-- The store `fs'` is `fs` with the dirents of the forest made below `p`. -/
structure Cached (image : InitrdImage) (fs fs' : Fs) (p : Option Nat) (F : Forest Nat) : Prop where
  nextDirent : fs'.nextDirent = fs.nextDirent + F.size
  nextInode : fs.nextInode ≤ fs'.nextInode
  made : F.Numbered (Made image fs') p fs.nextDirent
  dirents : ∀ x, x < fs.nextDirent → fs'.dirents x =
    if p = some x then { fs.dirents x with children := (fs.dirents x).children ++ F.tops fs.nextDirent }
    else fs.dirents x
  inodes : ∀ x, x < fs.nextInode → fs'.inodes x = fs.inodes x

theorem Cached.nil (image : InitrdImage) (fs : Fs) (p : Option Nat) : Cached image fs fs p .nil where
  nextDirent := rfl
  nextInode := Nat.le_refl _
  made := trivial
  dirents x _ := by
    rw [Forest.tops, List.append_nil]
    exact (ite_self _).symm
  inodes _ _ := rfl

/-- One dirent, with its inode, below `p`. -/
theorem cacheDirent_spec (image : InitrdImage) (fs : Fs) {p : Option Nat} (i : Nat)
    (hp : ∀ q, p = some q → q < fs.nextDirent) :
    ∃ fs', cacheDirent image fs p (image.header.dirents i)
        (image.header.inodes (image.header.dirents i).inodeId) = (fs', fs.nextDirent) ∧
      Cached image fs fs' p (.node i .nil .nil) := by
  cases p with
  | none =>
      -- the root of the device: there is no child list to enter it in
      rw [cacheDirent_none]
      refine ⟨_, rfl, rfl, Nat.le_succ _,
        ⟨⟨fs.nextInode, Nat.lt_succ_self _, ?_, Fs.makeDirent_inode fs⟩, trivial, trivial⟩,
        ?_, fun x hx => Fs.makeDirent_inode_of_ne fs (Nat.ne_of_lt hx)⟩
      · rw [Fs.makeDirent_self, cacheInode_id]
        rfl
      · intro x hx
        rw [Fs.makeDirent_of_ne fs (Nat.ne_of_lt hx), if_neg (by simp)]
  | some q =>
      have hq := hp q rfl
      rw [cacheDirent_some]
      refine ⟨_, rfl, rfl, Nat.le_succ _, ⟨⟨fs.nextInode, Nat.lt_succ_self _, ?_, ?_⟩, trivial, trivial⟩,
        ?_, ?_⟩
      · rw [Fs.addChild, Fs.modifyDirent_of_ne _ (Nat.ne_of_gt hq), Fs.makeDirent_self, cacheInode_id]
        rfl
      · rw [Fs.addChild_inodes, Fs.makeDirent_inode]
      · intro x hx
        by_cases hx' : x = q
        · subst hx'
          rw [Fs.addChild, Fs.modifyDirent_self, Fs.makeDirent_of_ne fs (Nat.ne_of_lt hx), if_pos rfl]
          rfl
        · rw [Fs.addChild, Fs.modifyDirent_of_ne _ hx', Fs.makeDirent_of_ne fs (Nat.ne_of_lt hx),
            if_neg (by simpa using fun heq => hx' heq.symm)]
      · intro x hx
        rw [Fs.addChild_inodes, Fs.makeDirent_inode_of_ne fs (Nat.ne_of_lt hx)]

/-- **The two recursive calls compose.** First the entry itself is made, then its siblings below the same
    parent, then its children below it. -/
theorem Cached.node (hp : ∀ q, p = some q → q < fs.nextDirent)
    (h₀ : Cached image fs fs₀ p (.node i .nil .nil)) (h₁ : Cached image fs₀ fs₁ p S)
    (h₂ : Cached image fs₁ fs₂ (some fs.nextDirent) C) : Cached image fs fs₂ p (.node i C S) := by
  have hnext₀ : fs₀.nextDirent = fs.nextDirent + 1 := h₀.nextDirent
  have hnext₁ : fs₁.nextDirent = fs.nextDirent + 1 + S.size := by rw [h₁.nextDirent, hnext₀]
  have hnext₂ := h₂.nextDirent
  have hself : p ≠ some fs.nextDirent := fun heq => Nat.lt_irrefl _ (hp _ heq)
  -- what the calls for siblings and children keep of a made dirent
  have hkeep : ∀ q x k cs, x < fs₁.nextDirent → x ≠ fs.nextDirent → Made image fs₁ q x k cs →
      Made image fs₂ q x k cs := by
    rintro q x k cs hx hne ⟨ino, hino, hdirent, hinode⟩
    refine ⟨ino, Nat.lt_of_lt_of_le hino h₂.nextInode, ?_, (h₂.inodes ino hino).trans hinode⟩
    rw [h₂.dirents x hx, if_neg (fun heq => hne (Option.some.inj heq).symm), hdirent]
  obtain ⟨⟨ino, hino, hdirent, hinode⟩, _, _⟩ := h₀.made
  have hmade := h₁.made
  have hmade₂ := h₂.made
  rw [hnext₀] at hmade
  rw [hnext₁] at hmade₂ hnext₂
  refine ⟨?_, Nat.le_trans h₀.nextInode (Nat.le_trans h₁.nextInode h₂.nextInode), ⟨?_, ?_, hmade₂⟩,
    ?_, ?_⟩
  · rw [hnext₂, Forest.size]
    omega
  · -- the calls for siblings leave the new dirent alone, those for children fill its child list
    refine ⟨ino, Nat.lt_of_lt_of_le hino (Nat.le_trans h₁.nextInode h₂.nextInode), ?_, ?_⟩
    · rw [h₂.dirents _ (by omega), if_pos rfl, h₁.dirents _ (by omega), if_neg hself, hdirent, hnext₁]
      rfl
    · rw [h₂.inodes ino (Nat.lt_of_lt_of_le hino h₁.nextInode), h₁.inodes ino hino, hinode]
  · exact hmade.imp fun q x k cs hle hlt => hkeep q x k cs (by omega) (by omega)
  · intro x hx
    rw [h₂.dirents x (by omega), if_neg (fun heq => Nat.ne_of_gt hx (Option.some.inj heq)),
      h₁.dirents x (by omega), h₀.dirents x hx]
    by_cases hpx : p = some x
    · simp only [hpx, if_true, Forest.tops, hnext₀, List.append_assoc, List.singleton_append]
    · simp only [hpx, if_false]
  · intro x hx
    rw [h₂.inodes x (Nat.lt_of_lt_of_le hx (Nat.le_trans h₀.nextInode h₁.nextInode)),
      h₁.inodes x (Nat.lt_of_lt_of_le hx h₀.nextInode), h₀.inodes x hx]

/-- One call of `cache`, when the calls for the links do what they should. -/
theorem cache_node (hi : i < 0xff) (hid : (image.header.dirents i).inodeId < 0xff)
    (hp : ∀ q, p = some q → q < fs.nextDirent)
    (hsibling : ∀ fs p, (∀ q, p = some q → q < fs.nextDirent) → ∃ fs',
      (if (image.header.dirents i).sibling = 0 then pure fs
        else Prod.fst <$> cache image fuel fs p (image.header.dirents i).sibling) = .ok fs' ∧
      Cached image fs fs' p S)
    (hchild : ∀ fs p, (∀ q, p = some q → q < fs.nextDirent) → ∃ fs',
      (if (image.header.dirents i).firstChild = 0 then pure fs
        else Prod.fst <$> cache image fuel fs p (image.header.dirents i).firstChild) = .ok fs' ∧
      Cached image fs fs' p C) :
    ∃ fs', cache image (fuel + 1) fs p i = .ok (fs', fs.nextDirent) ∧
      Cached image fs fs' p (.node i C S) := by
  obtain ⟨fs₀, hdirent, h₀⟩ := cacheDirent_spec image fs i hp
  have hnext₀ : fs₀.nextDirent = fs.nextDirent + 1 := h₀.nextDirent
  obtain ⟨fs₁, hcall₁, h₁⟩ := hsibling fs₀ p fun q hq => by
    have := hp q hq
    omega
  have hnext₁ := h₁.nextDirent
  obtain ⟨fs₂, hcall₂, h₂⟩ := hchild fs₁ (some fs.nextDirent) fun q hq => by
    obtain rfl := Option.some.inj hq
    omega
  refine ⟨fs₂, ?_, h₀.node hp h₁ h₂⟩
  rw [cache, InitrdHeader.dirent, if_pos hi, ok_bind, InitrdHeader.inode, if_pos hid, ok_bind, hdirent]
  show (_ >>= _) = _
  rw [hcall₁, ok_bind, hcall₂]
  rfl

/-- **`cache` builds the forest.** By induction on it, with one unit of fuel for each node. -/
theorem cache_link (hchain : Chain image.header F j) (hfuel : F.size ≤ fuel)
    (hp : ∀ q, p = some q → q < fs.nextDirent) :
    ∃ fs', (if j = 0 then pure fs else Prod.fst <$> cache image fuel fs p j) = .ok fs' ∧
      Cached image fs fs' p F := by
  induction F generalizing j fuel fs p with
  | nil =>
      obtain rfl : j = 0 := hchain
      exact ⟨fs, rfl, .nil image fs p⟩
  | node i children siblings ihc ihs =>
      obtain ⟨rfl, hne, hlt, hid, hc, hs⟩ := hchain
      rw [Forest.size] at hfuel
      obtain ⟨fuel, rfl⟩ : ∃ f, fuel = f + 1 := ⟨fuel - 1, by omega⟩
      obtain ⟨fs', hcall, hcached⟩ := cache_node hlt hid hp
        (fun fs p hp => ihs hs (show siblings.size ≤ fuel by omega) hp)
        (fun fs p hp => ihc hc (show children.size ≤ fuel by omega) hp)
      exact ⟨fs', by rw [if_neg hne, hcall]; rfl, hcached⟩

/-- **`initrd::initrd`** builds the forest of entry 0, which has no siblings. -/
theorem initrd_spec (fs : Fs) (hid : (image.header.dirents 0).inodeId < 0xff)
    (hsibling : (image.header.dirents 0).sibling = 0)
    (hchain : Chain image.header C (image.header.dirents 0).firstChild) (hsize : C.size ≤ 255) :
    ∃ fs', initrd image fs = .ok (fs', fs.nextDirent) ∧ Cached image fs fs' none (.node 0 C .nil) :=
  cache_node (by decide) hid (fun q hq => by cases hq)
    (fun fs p hp => cache_link (show Chain image.header .nil _ from hsibling) (Nat.zero_le _) hp)
    (fun fs p hp => cache_link hchain hsize hp)

end WeirdOs
