/-!
# `Lib.Linked` — doubly linked chains of cells

A chain is a list of nodes, each known by a key (its address), such that every node's cell holds the
key of the node before it and of the node after it. What a cell is, and where it lives, is a parameter:
`cell prev next a` says that the cell of `a` carries the links `prev` and `next` together with the data
of `a`.

`Linked cell key prev next as` is a chain *segment*: the first node links back to `prev`, the last one
links on to `next`. Segments compose (`linked_append`), so a surgery in the middle of a chain only
speaks about the segment it touches.
-/

namespace Lib

variable {α κ : Type} (cell : κ → κ → α → Prop) (key : α → κ)

/-- The key of the first node, or what comes after when there is none. -/
def headKey (next : κ) : List α → κ
  | []     => next
  | a :: _ => key a

/-- The key of the last node, or what came before when there is none. -/
def lastKey (prev : κ) : List α → κ
  | []      => prev
  | a :: as => lastKey (key a) as

/-- A chain segment that links back to `prev` and on to `next`. -/
def Linked : κ → κ → List α → Prop
  | _, _, []            => True
  | prev, next, a :: as => cell prev (headKey key next as) a ∧ Linked (key a) next as

variable {cell key}

@[simp] theorem headKey_nil (next : κ) : headKey key next [] = next := rfl

@[simp] theorem headKey_cons (next : κ) (a : α) (as : List α) :
    headKey key next (a :: as) = key a := rfl

@[simp] theorem lastKey_nil (prev : κ) : lastKey key prev [] = prev := rfl

@[simp] theorem lastKey_cons (prev : κ) (a : α) (as : List α) :
    lastKey key prev (a :: as) = lastKey key (key a) as := rfl

@[simp] theorem linked_nil (prev next : κ) : Linked cell key prev next [] := trivial

theorem linked_cons {prev next : κ} {a : α} {as : List α} :
    Linked cell key prev next (a :: as) ↔
      cell prev (headKey key next as) a ∧ Linked cell key (key a) next as := Iff.rfl

theorem headKey_append (next : κ) (as bs : List α) :
    headKey key next (as ++ bs) = headKey key (headKey key next bs) as := by
  cases as <;> rfl

theorem lastKey_append (prev : κ) (as bs : List α) :
    lastKey key prev (as ++ bs) = lastKey key (lastKey key prev as) bs := by
  induction as generalizing prev with
  | nil => rfl
  | cons a as ih => exact ih (key a)

theorem lastKey_concat (prev : κ) (as : List α) (a : α) :
    lastKey key prev (as ++ [a]) = key a := by rw [lastKey_append]; rfl

/-- **Segments compose.** The first one links on to the head of the second, the second one back to the
    last node of the first. -/
theorem linked_append {prev next : κ} {as bs : List α} :
    Linked cell key prev next (as ++ bs) ↔
      Linked cell key prev (headKey key next bs) as ∧ Linked cell key (lastKey key prev as) next bs := by
  induction as generalizing prev with
  | nil => exact ⟨fun h => ⟨trivial, h⟩, fun h => h.2⟩
  | cons a as ih =>
      rw [List.cons_append, linked_cons, linked_cons, ih, headKey_append, and_assoc]
      rfl

/-- A segment survives any change that keeps the cells of its nodes. -/
theorem Linked.imp {cell' : κ → κ → α → Prop} {prev next : κ} {as : List α}
    (hcell : ∀ a ∈ as, ∀ p n, cell p n a → cell' p n a) (h : Linked cell key prev next as) :
    Linked cell' key prev next as := by
  induction as generalizing prev with
  | nil => trivial
  | cons a as ih =>
      exact ⟨hcell a List.mem_cons_self _ _ h.1,
        ih (fun b hb => hcell b (List.mem_cons_of_mem _ hb)) h.2⟩

end Lib
