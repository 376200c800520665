import Mathlib.Data.Finset.Card
import Mathlib.Logic.Function.Basic

/-!
# `Lib.Tally` — counting cells by their content

A finite set of cells, each with a content. `tally` counts the cells whose content has a property. The
three ways to change the cells each change the count by what is put in and what is taken out:

* a new cell (`tally_insert`);
* a cell that goes (`tally_erase`);
* a cell whose content is replaced (`tally_update`).

Nothing here mentions what the contents are.
-/

namespace Lib

variable {ι β : Type} [DecidableEq ι]

/-- The number of cells whose content has the property. -/
def tally (cells : Finset ι) (content : ι → β) (p : β → Prop) [DecidablePred p] : Nat :=
  (cells.filter fun i => p (content i)).card

variable {cells : Finset ι} {content : ι → β} {p : β → Prop} [DecidablePred p] {a : ι} {v : β}

omit [DecidableEq ι] in
theorem tally_le_card : tally cells content p ≤ cells.card := Finset.card_filter_le _ _

omit [DecidableEq ι] in
theorem tally_pos : 0 < tally cells content p ↔ ∃ i ∈ cells, p (content i) := by
  rw [tally, Finset.card_pos]
  constructor
  · rintro ⟨i, hi⟩
    exact ⟨i, Finset.mem_filter.mp hi⟩
  · rintro ⟨i, hi⟩
    exact ⟨i, Finset.mem_filter.mpr hi⟩

omit [DecidableEq ι] in
theorem tally_eq_zero : tally cells content p = 0 ↔ ∀ i ∈ cells, ¬ p (content i) := by
  rw [← Nat.le_zero, ← Nat.not_lt, tally_pos]
  exact ⟨fun h i hi hp => h ⟨i, hi, hp⟩, fun h ⟨i, hi, hp⟩ => h i hi hp⟩

/-- The content of a cell outside the set does not matter. -/
theorem tally_update_of_notMem (h : a ∉ cells) :
    tally cells (Function.update content a v) p = tally cells content p := by
  unfold tally
  congr 1
  apply Finset.filter_congr
  intro i hi
  have hne : i ≠ a := fun he => h (he ▸ hi)
  rw [Function.update_of_ne hne]

/-- **A new cell** adds its content. -/
theorem tally_insert (h : a ∉ cells) :
    tally (insert a cells) (Function.update content a v) p =
      tally cells content p + if p v then 1 else 0 := by
  rw [← tally_update_of_notMem h (v := v)]
  unfold tally
  rw [Finset.filter_insert, Function.update_self]
  by_cases hv : p v
  · rw [if_pos hv, if_pos hv, Finset.card_insert_of_notMem fun hm => h (Finset.mem_filter.mp hm).1]
  · rw [if_neg hv, if_neg hv, Nat.add_zero]

/-- **A cell that goes** takes its content with it. -/
theorem tally_erase (h : a ∈ cells) :
    tally (cells.erase a) content p + (if p (content a) then 1 else 0) = tally cells content p := by
  have hinsert : tally (insert a (cells.erase a)) (Function.update content a (content a)) p = _ :=
    tally_insert (Finset.notMem_erase a cells)
  rw [Finset.insert_erase h, Function.update_eq_self] at hinsert
  exact hinsert.symm

/-- **A new content** adds itself and takes the old one away. -/
theorem tally_update (h : a ∈ cells) :
    tally cells (Function.update content a v) p + (if p (content a) then 1 else 0) =
      tally cells content p + if p v then 1 else 0 := by
  have hinsert : tally (insert a (cells.erase a)) (Function.update content a v) p = _ :=
    tally_insert (Finset.notMem_erase a cells)
  rw [Finset.insert_erase h] at hinsert
  rw [hinsert, ← tally_erase h]
  omega

end Lib
