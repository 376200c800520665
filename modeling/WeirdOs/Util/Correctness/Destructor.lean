import WeirdOs.Util.Correctness.List

/-!
# `Util.Correctness.Destructor` — the list's destructor works for the empty list only

`~list` moves `node` on before it deletes: what is deleted is always the node after the one the loop is at.
The first node is never deleted (`destroy_single`), and the second one is deleted and then asked for its
`next` (`destroy_two`). Which of the two happens depends on nothing but the number of nodes, so the
destructor deletes each node once, and reads none that it has deleted, iff there are none (`destroy_iff`).
-/

namespace WeirdOs

open Lib

variable {α : Type} {s t : ListState α} {es : List (Nat × α)} {a b : Nat × α}

/-- **What the destructor is for**: it returns, so that all nodes it read were there, and what it deleted is
    every node once. -/
def DeletesEach (s : ListState α) (es : List (Nat × α)) : Prop :=
  ∃ t deleted, s.destroy = .ok t ∧ t.deleted = s.deleted ++ deleted ∧ deleted.Perm (es.map Prod.fst)

/-- One turn of the loop, at a node that leads to another one: that one is deleted, and the loop is at it. -/
theorem destroyFrom_node {fuel p : Nat} {node next : ListNode α} (hp : p ≠ 0) (hnode : s.nodes p = some node)
    (hne : node.next ≠ 0) (hnext : s.nodes node.next = some next) :
    ListState.destroyFrom (fuel + 1) s p = ListState.destroyFrom fuel
      { s with nodes := Function.update s.nodes node.next none, deleted := s.deleted ++ [node.next] }
      node.next := by
  rw [ListState.destroyFrom, if_neg hp, deref_eq hnode, ok_bind, if_pos hne, delete_eq hnext, ok_bind]

/-- A turn at the last node deletes nothing and ends the loop. -/
theorem destroyFrom_last {fuel p : Nat} {node : ListNode α} (hp : p ≠ 0) (hnode : s.nodes p = some node)
    (hnext : node.next = 0) : ListState.destroyFrom (fuel + 2) s p = .ok s := by
  rw [ListState.destroyFrom, if_neg hp, deref_eq hnode, ok_bind, hnext, if_neg (by simp)]
  show ListState.destroyFrom (fuel + 1) s 0 = _
  rw [ListState.destroyFrom, if_pos rfl]
  rfl

/-- A turn at a place without a node faults. -/
theorem destroyFrom_deleted {fuel p : Nat} (hp : p ≠ 0) (hnode : s.nodes p = none) :
    ListState.destroyFrom (fuel + 1) s p = .error (.bounds "list_node") := by
  rw [ListState.destroyFrom, if_neg hp, ListState.deref, hnode]
  rfl

/-- **The empty list**: there is nothing to do. -/
theorem destroy_nil (h : Holds s []) : s.destroy = .ok s := by
  have hfirst : s.first = 0 := h.first_eq_zero.mpr rfl
  rw [ListState.destroy, listFuel, ListState.destroyFrom, if_pos hfirst]
  rfl

/-- **One element**: its node stays. -/
theorem destroy_single (h : Holds s [a]) : s.destroy = .ok s := by
  obtain ⟨hfirst, node, hnode, -, hnext⟩ := h.chain
  rw [hfirst] at hnode
  rw [ListState.destroy, hfirst, listFuel]
  exact destroyFrom_last (h.ne_zero a.1 (by simp)) hnode hnext

/-- **Two elements or more**: the second node is read after it was deleted. -/
theorem destroy_two (h : Holds s (a :: b :: es)) : s.destroy = .error (.bounds "list_node") := by
  obtain ⟨hfirst, node, hnode, -, hnext, next, hnode', -⟩ := h.chain
  have hb : b.1 ≠ 0 := h.ne_zero b.1 (by simp)
  rw [hfirst] at hnode
  rw [← hnext] at hb
  rw [ListState.destroy, hfirst, listFuel, destroyFrom_node (h.ne_zero a.1 (by simp)) hnode hb hnode']
  exact destroyFrom_deleted hb (Function.update_self ..)

/-- A list with a node in it is not taken apart. -/
theorem not_deletesEach (h : Holds s (a :: es)) : ¬ DeletesEach s (a :: es) := by
  rintro ⟨t, deleted, hrun, hdeleted, hperm⟩
  cases es with
  | nil =>
      -- nothing was deleted, but there is a node
      rw [destroy_single h] at hrun
      obtain rfl : s = t := Except.ok.inj hrun
      have hnil : deleted = [] := by simpa using hdeleted
      rw [hnil] at hperm
      cases hperm.nil_eq
  | cons b es =>
      rw [destroy_two h] at hrun
      cases hrun

/-- **The destructor deletes every node once, and reads none after that, iff the list is empty.** -/
theorem destroy_iff (h : Holds s es) : DeletesEach s es ↔ es = [] := by
  constructor
  · intro hdeletes
    cases es with
    | nil => rfl
    | cons a es => exact absurd hdeletes (not_deletesEach h)
  · rintro rfl
    exact ⟨s, [], destroy_nil h, (List.append_nil _).symm, List.Perm.refl _⟩

/-- A list of two nodes is not taken apart, because it is not empty. -/
theorem destroy_iff_two_nodes :
    ∃ s t, ListState.empty.pushBack 8 'a' = .ok s ∧ s.pushBack 16 'b' = .ok t ∧
      Holds t [(8, 'a'), (16, 'b')] ∧ ¬ DeletesEach t [(8, 'a'), (16, 'b')] := by
  obtain ⟨s, hs, hholds, -⟩ | hnew := pushBack_spec (p := 8) (v := 'a') holds_empty
  · obtain ⟨t, ht, hholds', -⟩ | hnew := pushBack_spec (p := 16) (v := 'b') hholds
    · refine ⟨s, t, hs, ht, hholds', ?_⟩
      rw [List.nil_append, List.singleton_append] at hholds'
      rw [destroy_iff hholds']
      exact List.cons_ne_nil _ _
    · cases hs
      cases hnew
  · cases hnew

/-- **Lists that were just built**: the only node of one is never deleted, and of two nodes the second is
    read after it was deleted. -/
theorem destroy_after_pushBack :
    ∃ s t, ListState.empty.pushBack 8 'a' = .ok s ∧ s.pushBack 16 'b' = .ok t ∧
      Holds s [(8, 'a')] ∧ s.destroy = .ok s ∧ ¬ DeletesEach s [(8, 'a')] ∧
      Holds t [(8, 'a'), (16, 'b')] ∧ t.destroy = .error (.bounds "list_node") ∧
      ¬ DeletesEach t [(8, 'a'), (16, 'b')] := by
  obtain ⟨s, hs, hholds, -⟩ | hnew := pushBack_spec (p := 8) (v := 'a') holds_empty
  · obtain ⟨t, ht, hholds', -⟩ | hnew := pushBack_spec (p := 16) (v := 'b') hholds
    · exact ⟨s, t, hs, ht, hholds, destroy_single hholds, not_deletesEach hholds, hholds',
        destroy_two hholds', not_deletesEach hholds'⟩
    · cases hs
      cases hnew
  · cases hnew

end WeirdOs
