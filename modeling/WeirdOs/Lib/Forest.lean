/-!
# `Lib.Forest` — forests linked by first child and next sibling

A `Forest` is a chain of siblings, each with a forest of children. Its nodes are numbered in the order in
which a walk meets them that goes on to the siblings of a node before it goes down to the children.

`Numbered P p b F` says that every node satisfies `P`, given the number of its parent (`p` for the top
ones), its own number, its label, and the numbers of its children. The numbers are consecutive from `b`
on, so a predicate about a store of numbered objects is kept by every change outside that range
(`Numbered.imp`).
-/

namespace Lib

variable {α : Type}

/-- A chain of siblings, each with its children. -/
inductive Forest (α : Type) where
  | nil
  | node (a : α) (children siblings : Forest α)

namespace Forest

/-- The number of nodes. -/
def size : Forest α → Nat
  | nil                   => 0
  | node _ children siblings => siblings.size + children.size + 1

/-- The numbers of the top nodes, when the numbering starts at `b`. -/
def tops (b : Nat) : Forest α → List Nat
  | nil                => []
  | node _ _ siblings  => b :: siblings.tops (b + 1)

/-- The labels in the order of the numbering. -/
def labels : Forest α → List α
  | nil                      => []
  | node a children siblings => a :: (siblings.labels ++ children.labels)

/-- Every node satisfies `P` with its parent, its number, its label and the numbers of its children. -/
def Numbered (P : Option Nat → Nat → α → List Nat → Prop) : Option Nat → Nat → Forest α → Prop
  | _, _, nil                      => True
  | p, b, node a children siblings =>
    P p b a (children.tops (b + 1 + siblings.size)) ∧ Numbered P p (b + 1) siblings ∧
      Numbered P (some b) (b + 1 + siblings.size) children

variable {P Q : Option Nat → Nat → α → List Nat → Prop} {F : Forest α} {p : Option Nat} {b x e : Nat}

/-- The top nodes have numbers in the range of the forest. -/
theorem tops_bounds (h : x ∈ F.tops b) : b ≤ x ∧ x < b + F.size := by
  induction F generalizing b with
  | nil => cases h
  | node a children siblings _ ih =>
      rw [size]
      rcases List.mem_cons.mp h with rfl | h
      · omega
      · have := ih h
        omega

/-- A weaker predicate, compared at the numbers of the forest only. -/
theorem Numbered.imp (h : Numbered P p b F)
    (hPQ : ∀ q x a cs, b ≤ x → x < b + F.size → P q x a cs → Q q x a cs) : Numbered Q p b F := by
  induction F generalizing p b with
  | nil => trivial
  | node a children siblings ihc ihs =>
      obtain ⟨hnode, hsib, hchild⟩ := h
      rw [size] at hPQ
      refine ⟨hPQ _ _ _ _ (by omega) (by omega) hnode, ihs hsib ?_, ihc hchild ?_⟩
      · intro q x c cs hle hlt
        exact hPQ q x c cs (by omega) (by omega)
      · intro q x c cs hle hlt
        exact hPQ q x c cs (by omega) (by omega)

/-- The top nodes have the parent of the forest. -/
theorem Numbered.top (h : Numbered P p b F) (hx : x ∈ F.tops b) : ∃ a cs, P p x a cs := by
  induction F generalizing b with
  | nil => cases hx
  | node a children siblings _ ih =>
      rcases List.mem_cons.mp hx with rfl | hx
      · exact ⟨a, _, h.1⟩
      · exact ih h.2.1 hx

/-- **Every number is a node**, whose children are in range and have it as their parent. -/
theorem Numbered.node_at (h : Numbered P p b F) (hle : b ≤ x) (hlt : x < b + F.size) :
    ∃ q a cs, P q x a cs ∧ ∀ e ∈ cs, b ≤ e ∧ e < b + F.size ∧ ∃ a' cs', P (some x) e a' cs' := by
  induction F generalizing p b with
  | nil => exact absurd hlt (by rw [size]; omega)
  | node a children siblings ihc ihs =>
      obtain ⟨hnode, hsib, hchild⟩ := h
      rw [size] at hlt ⊢
      by_cases hx : x = b
      · subst hx
        refine ⟨p, a, _, hnode, ?_⟩
        intro e he
        have := tops_bounds he
        exact ⟨by omega, by omega, hchild.top he⟩
      · by_cases hs : x < b + 1 + siblings.size
        · obtain ⟨q, a', cs, hP, hcs⟩ := ihs hsib (by omega) hs
          refine ⟨q, a', cs, hP, ?_⟩
          intro e he
          obtain ⟨h₁, h₂, h₃⟩ := hcs e he
          exact ⟨by omega, by omega, h₃⟩
        · obtain ⟨q, a', cs, hP, hcs⟩ := ihc hchild (by omega) (by omega)
          refine ⟨q, a', cs, hP, ?_⟩
          intro e he
          obtain ⟨h₁, h₂, h₃⟩ := hcs e he
          exact ⟨by omega, by omega, h₃⟩

/-- What can be read off the nodes, listed in order. -/
theorem Numbered.map_range {β : Type} {f : Nat → β} {g : α → β} (h : Numbered P p b F)
    (hf : ∀ q x a cs, P q x a cs → f x = g a) : (List.range' b F.size).map f = F.labels.map g := by
  induction F generalizing p b with
  | nil => rfl
  | node a children siblings ihc ihs =>
      obtain ⟨hnode, hsib, hchild⟩ := h
      rw [size, List.range'_succ, List.map_cons, hf _ _ _ _ hnode, labels, List.map_cons, List.map_append,
        ← ihs hsib, ← ihc hchild, ← List.map_append]
      congr 2
      rw [← List.range'_append_1]

end Forest

end Lib
