import Mathlib.Logic.Relation

/-!
# `Lib.Coalesce` — merging adjacent free pieces

A region is cut into a list of pieces, some of them *free*. Two neighbouring free pieces may be joined
into one. This file studies that rewriting by itself, over any type of pieces:

* `Merge`/`Merges`: one join, and any number of joins, anywhere in the list;
* `coalesce`: the list with every join carried out, computed from the right;
* `Coalesced`: no two neighbours are both free.

The joins may be carried out in any order and to any extent; what they cannot change is `coalesce`
(`Merges.coalesce_eq`), and a list on which no join is possible is its own `coalesce`
(`coalesce_of_coalesced`). So every maximal sequence of joins ends in the same list
(`Merges.eq_coalesce`): the normal form is unique.

`coalesce_map_coalesce` is the fact an allocator needs about *releasing* pieces: marking more pieces
free commutes with having coalesced before.
-/

namespace Lib

/-- A type of pieces: which are free, and what joining two neighbours gives. A join of free pieces is
    free, and it does not matter how three are joined. -/
class Piece (α : Type) where
  isFree : α → Bool
  join : α → α → α
  free_join : ∀ a b, isFree a → isFree b → isFree (join a b)
  join_assoc : ∀ a b c, join (join a b) c = join a (join b c)

namespace Piece

variable {α : Type} [Piece α]

/-! ## Joining one pair -/

/-- One join of two adjacent free pieces. -/
inductive Merge : List α → List α → Prop where
  | mk (xs : List α) {a b : α} (ys : List α) :
      isFree a → isFree b → Merge (xs ++ a :: b :: ys) (xs ++ join a b :: ys)

/-- Any number of joins. -/
abbrev Merges : List α → List α → Prop := Relation.ReflTransGen Merge

/-- No two neighbours are both free. -/
def Coalesced : List α → Prop
  | a :: b :: rest => ¬ (isFree a ∧ isFree b) ∧ Coalesced (b :: rest)
  | _ => True

@[simp] theorem coalesced_nil : Coalesced ([] : List α) := trivial

@[simp] theorem coalesced_singleton (a : α) : Coalesced [a] := trivial

theorem coalesced_cons_cons {a b : α} {rest : List α} :
    Coalesced (a :: b :: rest) ↔ ¬ (isFree a ∧ isFree b) ∧ Coalesced (b :: rest) := Iff.rfl

theorem Coalesced.tail {a : α} {rest : List α} (h : Coalesced (a :: rest)) : Coalesced rest := by
  cases rest with
  | nil => trivial
  | cons b rest => exact h.2

/-- Putting a piece that is not free in front keeps the list coalesced. -/
theorem Coalesced.cons_used {a : α} {rest : List α} (ha : isFree a = false) (h : Coalesced rest) :
    Coalesced (a :: rest) := by
  cases rest with
  | nil => trivial
  | cons b rest => exact ⟨fun hab => by simp [ha] at hab, h⟩

/-- Both halves of a coalesced list are coalesced, and the seam is not free on both sides. -/
theorem coalesced_append {xs ys : List α} :
    Coalesced (xs ++ ys) ↔ Coalesced xs ∧ Coalesced ys ∧
      ∀ a ∈ xs.getLast?, ∀ b ∈ ys.head?, ¬ (isFree a ∧ isFree b) := by
  induction xs with
  | nil => simp
  | cons x xs ih =>
      cases xs with
      | nil =>
          cases ys with
          | nil => simp
          | cons y ys => simp [coalesced_cons_cons, and_comm]
      | cons x' xs =>
          simp only [List.cons_append, coalesced_cons_cons] at ih ⊢
          rw [ih, List.getLast?_cons_cons]
          exact (and_assoc).symm

/-! ## The normal form -/

/-- Put a piece in front of an already coalesced list. -/
def glue (a : α) : List α → List α
  | []      => [a]
  | b :: bs => if isFree a && isFree b then join a b :: bs else a :: b :: bs

/-- The list with every possible join carried out. -/
def coalesce : List α → List α
  | []      => []
  | a :: as => glue a (coalesce as)

@[simp] theorem coalesce_nil : coalesce ([] : List α) = [] := rfl

theorem coalesce_cons (a : α) (as : List α) : coalesce (a :: as) = glue a (coalesce as) := rfl

theorem glue_free {a b : α} (ha : isFree a) (hb : isFree b) (bs : List α) :
    glue a (b :: bs) = join a b :: bs := by simp [glue, ha, hb]

theorem glue_apart {a b : α} (h : ¬ (isFree a ∧ isFree b)) (bs : List α) :
    glue a (b :: bs) = a :: b :: bs := by simp [glue, h]

/-- Gluing two free pieces one after the other is gluing their join. -/
theorem glue_glue {a b : α} (ha : isFree a) (hb : isFree b) (as : List α) :
    glue a (glue b as) = glue (join a b) as := by
  have hab := free_join a b ha hb
  cases as with
  | nil => simp [glue, ha, hb]
  | cons c cs =>
      by_cases hc : isFree c = true
      · simp [glue, ha, hb, hc, hab, free_join b c hb hc, join_assoc]
      · simp [glue, ha, hb, hc]

theorem glue_of_coalesced {a : α} {as : List α} (h : Coalesced (a :: as)) : glue a as = a :: as := by
  cases as with
  | nil => rfl
  | cons b bs => exact glue_apart h.1 bs

/-- **A coalesced list is its own normal form.** -/
theorem coalesce_of_coalesced {as : List α} (h : Coalesced as) : coalesce as = as := by
  induction as with
  | nil => rfl
  | cons a as ih => rw [coalesce_cons, ih h.tail, glue_of_coalesced h]

/-- Coalescing depends on a suffix only through the suffix's normal form. -/
theorem coalesce_append_congr (xs : List α) {ys zs : List α} (h : coalesce ys = coalesce zs) :
    coalesce (xs ++ ys) = coalesce (xs ++ zs) := by
  induction xs with
  | nil => exact h
  | cons x xs ih => rw [List.cons_append, List.cons_append, coalesce_cons, coalesce_cons, ih]

/-- A join does not change the normal form. -/
theorem Merge.coalesce_eq {as bs : List α} (h : Merge as bs) : coalesce as = coalesce bs := by
  cases h with
  | mk xs ys ha hb =>
      apply coalesce_append_congr
      rw [coalesce_cons, coalesce_cons, coalesce_cons, glue_glue ha hb]

/-- **No sequence of joins changes the normal form.** -/
theorem Merges.coalesce_eq {as bs : List α} (h : Merges as bs) : coalesce as = coalesce bs := by
  induction h with
  | refl => rfl
  | tail _ hstep ih => rw [ih, hstep.coalesce_eq]

/-- **Confluence.** A sequence of joins that ends in a coalesced list ends in the normal form. -/
theorem Merges.eq_coalesce {as bs : List α} (h : Merges as bs) (hbs : Coalesced bs) :
    bs = coalesce as := by
  rw [h.coalesce_eq, coalesce_of_coalesced hbs]

/-- Joins never touch a piece that is not free. -/
theorem Merges.used_eq {as bs : List α} (h : Merges as bs) :
    bs.filter (fun a => !isFree a) = as.filter (fun a => !isFree a) := by
  induction h with
  | refl => rfl
  | tail _ hstep ih =>
      rw [← ih]
      cases hstep with
      | mk xs ys ha hb => simp [List.filter_append, ha, hb, free_join _ _ ha hb]

/-! ## Releasing pieces -/

/-- **Releasing commutes with coalescing.** A map that leaves free pieces alone may be applied before
    or after the list was coalesced. -/
theorem coalesce_map_coalesce {f : α → α} (hf : ∀ a, isFree a → f a = a) (as : List α) :
    coalesce ((coalesce as).map f) = coalesce (as.map f) := by
  induction as with
  | nil => rfl
  | cons a as ih =>
      rw [coalesce_cons, List.map_cons, coalesce_cons, ← ih]
      cases hc : coalesce as with
      | nil => rfl
      | cons b bs =>
          by_cases hab : isFree a ∧ isFree b
          · -- the joined piece is free, so `f` leaves it and both halves alone
            obtain ⟨ha, hb⟩ := hab
            rw [glue_free ha hb, List.map_cons, List.map_cons, hf _ (free_join a b ha hb), hf _ ha,
              hf _ hb, coalesce_cons, coalesce_cons, glue_glue ha hb]
          · rw [glue_apart hab, List.map_cons, coalesce_cons]

end Piece

end Lib
