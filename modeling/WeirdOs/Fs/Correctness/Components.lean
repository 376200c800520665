import WeirdOs.Fs.Correctness.Resolve
import WeirdOs.Util.Correctness.Split

/-!
# `Fs.Correctness.Components` — the resolver's components, and the buffer they are collected in

`resolve_path` takes a path apart while it reads it, `string::split` takes a string apart as a whole. Both
find the texts between the slashes, so resolving `/s` is to split `s` and to go down from the root along
the pieces (`resolvePath_split`), as long as the pieces fit the resolver's buffer.

Whether they fit is not checked. `bufWrites` lists the indices at which the buffer is written. They are
inside it iff every component the loop gets to has 254 bytes at most (`bufWrites_lt_iff`); one with 255
already puts its NUL behind the end. Where one is outside, and only there, `resolve_path` stops at its buffer
(`resolvePath_bounds_iff`).
-/

namespace WeirdOs

open Lib

variable {fs : Fs} {root cur : Nat} {buf path text : List UInt8} {names : List (List UInt8)}

/-! ## Following the pieces -/

/-- Go down along the names with `get_child`, to nowhere where one is missing. -/
def followChildren (fs : Fs) : Nat → List (List UInt8) → Option Nat
  | cur, []            => some cur
  | cur, name :: names =>
    match fs.getChild cur name with
    | some next => followChildren fs next names
    | none      => none

theorem followChildren_eq : followChildren fs cur names = fs.graph.descend cur names := by
  induction names generalizing cur with
  | nil => rfl
  | cons name names ih =>
      rw [followChildren, Fs.getChild_eq, NameGraph.descend]
      cases fs.graph.child cur name with
      | none => rfl
      | some next => exact ih

/-- **To resolve `/s` is to split `s` at the slashes and to follow the pieces**, whatever hangs below the
    root, when no piece is longer than the buffer allows. -/
theorem resolvePath_split (fs : Fs) (root : Nat) (s : List UInt8)
    (hfit : ∀ name ∈ Text.split s slash, name.length ≤ 254) :
    resolvePath fs ⟨some root⟩ (slash :: s) = .ok (followChildren fs root (Text.split s slash)) := by
  rw [Text.split_eq] at hfit ⊢
  rw [resolvePath_slash, walkPath_eq_ok fun name hname => Nat.lt_succ_of_le (hfit name hname),
    followChildren_eq]

/-- `//dev` in the small tree: the root has no child without a name. -/
theorem resolvePath_split_empty :
    resolvePath smallFs ⟨some 0⟩ (slash :: [47, 100, 101, 118]) =
        .ok (followChildren smallFs 0 (Text.split [47, 100, 101, 118] slash)) ∧
      Text.split [47, 100, 101, 118] slash = [[], [100, 101, 118]] ∧
      followChildren smallFs 0 (Text.split [47, 100, 101, 118] slash) = none :=
  ⟨resolvePath_split smallFs 0 [47, 100, 101, 118] (by decide), by decide, by decide⟩

/-! ## Writes to the buffer -/

/-- The indices that the loop of `resolve_path` writes to, from `i = buf.length` on: the NUL before each
    lookup, and each character. Behind a write past the end the buffer counts as long enough here. -/
def bufWritesFrom (fs : Fs) : List UInt8 → List UInt8 → Nat → List Nat
  | [], buf, _ => [buf.length]
  | c :: path, buf, cur =>
    if c = slash then
      buf.length :: match fs.getChild cur buf with
        | some next => bufWritesFrom fs path [] next
        | none      => []
    else buf.length :: bufWritesFrom fs path (buf ++ [c]) cur

/-- The indices that `resolve_path` writes to. -/
def bufWrites (fs : Fs) (root : Nat) (path : List UInt8) : List Nat :=
  if path.head? = some slash then bufWritesFrom fs path.tail [] root else []

/-- **Every name that is looked up fits the buffer** with its NUL. -/
def FitsWhereReached (fs : Fs) : Nat → List (List UInt8) → Prop
  | _, []              => True
  | cur, name :: names => name.length < 0xff ∧ ∀ next, fs.getChild cur name = some next →
      FitsWhereReached fs next names

/-- The first name is the one in the buffer, so far. -/
theorem bufWritesFrom_iff (path buf : List UInt8) (cur : Nat) :
    (∀ i ∈ bufWritesFrom fs path buf cur, i < 0xff) ↔
      FitsWhereReached fs cur ((path.splitOn slash).modifyHead (buf ++ ·)) := by
  induction path generalizing buf cur with
  | nil => simp [bufWritesFrom, FitsWhereReached]
  | cons c path ih =>
      rw [bufWritesFrom]
      by_cases hc : c = slash
      · rw [if_pos hc, hc, splitOn_self, List.modifyHead_cons, List.append_nil, List.forall_mem_cons,
          FitsWhereReached]
        apply and_congr_right
        intro _
        cases hchild : fs.getChild cur buf with
        | none => simp
        | some next =>
            show (∀ i ∈ bufWritesFrom fs path [] next, i < 0xff) ↔ _
            rw [ih, modifyHead_nil_append]
            simp
      · rw [if_neg hc, List.forall_mem_cons, ih, ← modifyHead_splitOn_cons hc]
        apply and_iff_right_of_imp
        -- the piece that `buf` begins is longer than `buf`
        obtain ⟨name, names, hrest⟩ := List.exists_cons_of_ne_nil (List.splitOn_ne_nil slash (c :: path))
        rw [hrest, List.modifyHead_cons]
        rintro ⟨hlen, -⟩
        rw [List.length_append] at hlen
        omega

/-- The same, said of each name: it fits if those before it lead somewhere. -/
theorem fitsWhereReached_iff :
    FitsWhereReached fs cur names ↔ ∀ before name rest, names = before ++ name :: rest →
      (followChildren fs cur before).isSome → name.length ≤ 254 := by
  induction names generalizing cur with
  | nil => simp [FitsWhereReached]
  | cons first names ih =>
      rw [FitsWhereReached]
      constructor
      · rintro ⟨hfirst, hnext⟩ before name rest hsplit hfound
        cases before with
        | nil =>
            obtain ⟨rfl, -⟩ := List.cons.inj hsplit
            exact Nat.le_of_lt_succ hfirst
        | cons first' before =>
            obtain ⟨rfl, hnames⟩ := List.cons.inj hsplit
            rw [followChildren] at hfound
            cases hchild : fs.getChild cur first with
            | none => simp [hchild] at hfound
            | some next =>
                rw [hchild] at hfound
                exact ih.mp (hnext next hchild) before name rest hnames hfound
      · intro h
        refine ⟨Nat.lt_succ_of_le (h [] first names rfl rfl), ?_⟩
        intro next hchild
        rw [ih]
        intro before name rest hsplit hfound
        refine h (first :: before) name rest (by rw [hsplit, List.cons_append]) ?_
        rw [followChildren, hchild]
        exact hfound

/-- The fault of the model is a write past the end. -/
theorem walkPath_bounds_iff :
    walkPath fs names cur = .error (.bounds "buf") ↔ ¬ FitsWhereReached fs cur names := by
  induction names generalizing cur with
  | nil => simp [walkPath, FitsWhereReached]
  | cons name names ih =>
      rw [FitsWhereReached]
      by_cases hname : name.length < 0xff
      · rw [walkPath, if_pos hname]
        cases hchild : fs.getChild cur name with
        | none => simp [hname]
        | some next =>
            show walkPath fs names next = _ ↔ _
            rw [ih]
            simp [hname]
      · rw [walkPath_overlong hname]
        simp [hname]

theorem resolvePath_bounds_iff (fs : Fs) (root : Nat) (text : List UInt8) :
    resolvePath fs ⟨some root⟩ (slash :: text) = .error (.bounds "buf") ↔
      ¬ ∀ i ∈ bufWrites fs root (slash :: text), i < 0xff := by
  rw [resolvePath_slash, walkPath_bounds_iff, bufWrites, if_pos List.head?_cons, List.tail_cons,
    bufWritesFrom_iff, modifyHead_nil_append]

/-- **Every write to the buffer is inside it iff** every component that the loop gets to, because those
    before it were found, has 254 bytes at most. -/
theorem bufWrites_lt_iff (fs : Fs) (root : Nat) (text : List UInt8) :
    (∀ i ∈ bufWrites fs root (slash :: text), i < 0xff) ↔
      ∀ before name rest, text.splitOn slash = before ++ name :: rest →
        (followChildren fs root before).isSome → name.length ≤ 254 := by
  rw [bufWrites, if_pos List.head?_cons, List.tail_cons, bufWritesFrom_iff, modifyHead_nil_append,
    fitsWhereReached_iff]

/-- **A component of 255 bytes**: its NUL is written behind the end. -/
theorem bufWrites_overlong :
    255 ∈ bufWrites smallFs 0 (slash :: List.replicate 255 97) ∧
      ¬ ∀ i ∈ bufWrites smallFs 0 (slash :: List.replicate 255 97), i < 0xff := by
  have hmem : 255 ∈ bufWrites smallFs 0 (slash :: List.replicate 255 97) := by decide +kernel
  exact ⟨hmem, fun h => absurd (h 255 hmem) (by decide)⟩

end WeirdOs
