import Mathlib.Data.List.GetD
import Mathlib.Logic.Function.Basic

/-!
# `Lib.Terminal` — an unbounded terminal, and the rows of it that a screen shows

A terminal has rows of cells, one below the other and without end, and writes into its last row. A cell is
empty or holds what was written there. A row has room for `width` cells; what comes after that starts a
new row first.

A screen shows a window of `height` rows: all of them while they fit, and the last ones from then on.

* `row_newline`, `row_put`: how the rows change;
* `top_newline`: how the window moves.
-/

namespace Lib

variable {α : Type}

/-- The rows that are finished, in order, the row that is written into, and where. -/
structure Terminal (α : Type) where
  rows : List (Nat → Option α)
  current : Nat → Option α
  column : Nat

/-- What a terminal is sent. -/
inductive TerminalInput (α : Type) where
  | newline
  | carriageReturn
  | char (a : α)

namespace Terminal

/-- An empty row. -/
def blank : Nat → Option α := fun _ => none

/-- The terminal before anything is sent. -/
def start : Terminal α := ⟨[], blank, 0⟩

/-- A new row. -/
def newline (t : Terminal α) : Terminal α := ⟨t.rows ++ [t.current], blank, 0⟩

/-- Write a cell. -/
def put (t : Terminal α) (a : α) : Terminal α :=
  { t with current := Function.update t.current t.column (some a), column := t.column + 1 }

/-- What is sent is written, a row that is full is left first. -/
def write (width : Nat) (t : Terminal α) : TerminalInput α → Terminal α
  | .newline        => t.newline
  | .carriageReturn => { t with column := 0 }
  | .char a         => if width ≤ t.column then t.newline.put a else t.put a

/-- Row `k`; those after the last one are empty. -/
def row (t : Terminal α) (k : Nat) : Nat → Option α := (t.rows ++ [t.current]).getD k blank

/-- The first row in the window. -/
def top (height : Nat) (t : Terminal α) : Nat := t.rows.length + 1 - height

/-- Row `i` of the window. -/
def window (height : Nat) (t : Terminal α) (i : Nat) : Nat → Option α := t.row (t.top height + i)

/-- Where in the window the last row is. -/
def line (height : Nat) (t : Terminal α) : Nat := t.rows.length - t.top height

variable {t : Terminal α} {width height k j : Nat} {a : α}

@[simp] theorem row_start : (start : Terminal α).row k = blank := by
  cases k with
  | zero => rfl
  | succ k => rfl

/-- A new row is empty, as the rows after the last one are. -/
theorem row_newline : t.newline.row k = t.row k := by
  unfold row newline
  by_cases hk : k < (t.rows ++ [t.current]).length
  · rw [List.getD_append _ _ _ _ hk]
  · have hle := Nat.not_lt.mp hk
    rw [List.getD_append_right _ _ _ _ hle, List.getD_eq_default _ _ hle]
    cases k - (t.rows ++ [t.current]).length with
    | zero => rfl
    | succ n => rfl

/-- Only the cell that is written changes. -/
theorem row_put : (t.put a).row k j =
    if k = t.rows.length ∧ j = t.column then some a else t.row k j := by
  unfold row put
  dsimp only
  rcases Nat.lt_trichotomy k t.rows.length with hk | rfl | hk
  · rw [if_neg (by omega), List.getD_append _ _ _ _ hk, List.getD_append _ _ _ _ hk]
  · rw [List.getD_append_right _ _ _ _ (Nat.le_refl _), List.getD_append_right _ _ _ _ (Nat.le_refl _),
      Nat.sub_self]
    by_cases hj : j = t.column
    · rw [if_pos ⟨rfl, hj⟩, hj]
      exact Function.update_self _ _ _
    · rw [if_neg fun h => hj h.2]
      exact Function.update_of_ne hj _ _
  · rw [if_neg (by omega), List.getD_eq_default _ _ (by simpa using Nat.succ_le_of_lt hk),
      List.getD_eq_default _ _ (by simpa using Nat.succ_le_of_lt hk)]

/-- The window moves down with a new row once it is full. -/
theorem top_newline : t.newline.top height =
    if t.rows.length + 1 < height then t.top height else t.top height + 1 := by
  unfold top newline
  rw [List.length_append, List.length_singleton]
  split <;> omega

/-- Nothing is written below the last row. -/
theorem row_below (hk : t.rows.length < k) : t.row k = blank :=
  List.getD_eq_default _ _ (by simpa using Nat.succ_le_of_lt hk)

end Terminal

end Lib
