import Mathlib.Data.List.Basic

/-!
# `Lib.Split` — the pieces between separators

`List.splitOn` is the split that a loop over characters computes: a separator ends a piece, any other
character makes the piece at the front one longer. `splitOn_self` and `modifyHead_splitOn_cons` are the two
cases as such a loop meets them, with the part of the piece it has already in front.

`IsSplit sep l pieces` says what a split is for: one piece more than there are separators, no separator in
any of them, and joined again they give the list back. `List.splitOn` does that (`isSplit_splitOn`).
-/

namespace Lib

variable {α : Type} [DecidableEq α] {sep c : α} {l rest pre piece : List α} {pieces : List (List α)}

/-! ## One character at a time -/

theorem splitOn_self (sep : α) (rest : List α) :
    (sep :: rest).splitOn sep = [] :: rest.splitOn sep := by
  rw [List.splitOn_cons_eq_if_modifyHead, if_pos (beq_self_eq_true sep)]

theorem splitOn_cons_of_ne (hc : c ≠ sep) (rest : List α) :
    (c :: rest).splitOn sep = (rest.splitOn sep).modifyHead (c :: ·) := by
  rw [List.splitOn_cons_eq_if_modifyHead, if_neg (by simpa using hc)]

/-- A character that is no separator belongs to the piece there is. -/
theorem modifyHead_splitOn_cons (hc : c ≠ sep) (pre rest : List α) :
    ((c :: rest).splitOn sep).modifyHead (pre ++ ·) =
      (rest.splitOn sep).modifyHead (pre ++ [c] ++ ·) := by
  obtain ⟨piece, pieces, hrest⟩ := List.exists_cons_of_ne_nil (List.splitOn_ne_nil sep rest)
  rw [splitOn_cons_of_ne hc, hrest]
  simp

/-- Nothing in front of the first piece. -/
theorem modifyHead_nil_append {β : Type} (ls : List (List β)) : ls.modifyHead ([] ++ ·) = ls := by
  cases ls <;> rfl

/-! ## What a split is for -/

/-- **The pieces of `l` between the separators.** -/
structure IsSplit (sep : α) (l : List α) (pieces : List (List α)) : Prop where
  length : pieces.length = l.count sep + 1
  notMem : ∀ piece ∈ pieces, sep ∉ piece
  join : [sep].intercalate pieces = l

theorem length_splitOn (sep : α) (l : List α) : (l.splitOn sep).length = l.count sep + 1 := by
  induction l with
  | nil => rfl
  | cons c l ih =>
      by_cases hc : c = sep
      · rw [hc, splitOn_self, List.length_cons, ih, List.count_cons_self]
      · rw [splitOn_cons_of_ne hc, List.length_modifyHead, ih, List.count_cons_of_ne hc]

theorem notMem_splitOn (h : piece ∈ l.splitOn sep) : sep ∉ piece := by
  induction l generalizing piece with
  | nil =>
      rw [List.splitOn_nil, List.mem_singleton] at h
      simp [h]
  | cons c l ih =>
      by_cases hc : c = sep
      · rw [hc, splitOn_self] at h
        rcases List.mem_cons.mp h with rfl | h
        · exact List.not_mem_nil
        · exact ih h
      · obtain ⟨first, pieces, hsplit⟩ := List.exists_cons_of_ne_nil (List.splitOn_ne_nil sep l)
        rw [hsplit] at ih
        rw [splitOn_cons_of_ne hc, hsplit, List.modifyHead_cons] at h
        rcases List.mem_cons.mp h with rfl | h
        · have hfirst : sep ∉ first := ih List.mem_cons_self
          simp [hfirst, Ne.symm hc]
        · exact ih (List.mem_cons_of_mem _ h)

theorem isSplit_splitOn (sep : α) (l : List α) : IsSplit sep l (l.splitOn sep) :=
  ⟨length_splitOn sep l, fun _ => notMem_splitOn, List.intercalate_splitOn sep⟩

end Lib
