import WeirdOs.Util.List
import Mathlib.Data.List.Nodup
import Mathlib.Data.Finset.Card
import Mathlib.Order.Interval.Finset.Nat

/-!
# `Util.Correctness.List` — lists are sequences with two ends, except for `pop_back`

`Holds s es`: from `first` on, `next` leads through the nodes `es` and no others are in memory. Pushing at
either end and popping at the front keep this (`pushFront_spec`, `pushBack_spec`, `popFront_spec`) and need
no more than it, so along runs of these three a list is the sequence it is meant to be (`list_deque`).

`pop_back` is the only operation that follows `prev`, and the others do not keep that link up: `push_front`
never sets it in the node that was first, `pop_front` leaves it pointing at the node it deleted, and
`pop_back` itself forgets `first` when it takes the only element. It is right exactly in the states in
which the last node links back to the one before it (`popBack_right_iff`), and all of a run's are iff each
comes in such a state (`popBack_deque_iff`).
-/

namespace WeirdOs

open Lib

variable {α : Type} {s t : ListState α} {es es' : List (Nat × α)} {a e l : Nat × α} {p q : Nat} {v : α}
  {nodes nodes' : Nat → Option (ListNode α)} {node : ListNode α}

/-! ## Chains -/

/-- From `p` on, `next` leads through the nodes `es`, given by address and value, and then to `q`. -/
def NodeChain (nodes : Nat → Option (ListNode α)) : Nat → List (Nat × α) → Nat → Prop
  | p, [], q      => p = q
  | p, e :: es, q => p = e.1 ∧ ∃ node, nodes p = some node ∧ node.value = e.2 ∧ NodeChain nodes node.next es q

theorem nodeChain_cons : NodeChain nodes p (e :: es) q ↔
    p = e.1 ∧ ∃ node, nodes p = some node ∧ node.value = e.2 ∧ NodeChain nodes node.next es q := Iff.rfl

theorem nodeChain_append :
    NodeChain nodes p (es ++ es') q ↔ ∃ r, NodeChain nodes p es r ∧ NodeChain nodes r es' q := by
  induction es generalizing p with
  | nil => exact ⟨fun h => ⟨p, rfl, h⟩, fun ⟨r, h1, h2⟩ => by cases h1; exact h2⟩
  | cons e es ih =>
      simp only [List.cons_append, nodeChain_cons, ih]
      constructor
      · rintro ⟨h1, node, h2, h3, r, h4, h5⟩
        exact ⟨r, ⟨h1, node, h2, h3, h4⟩, h5⟩
      · rintro ⟨r, ⟨h1, node, h2, h3, h4⟩, h5⟩
        exact ⟨h1, node, h2, h3, r, h4, h5⟩

/-- A chain that ends in one more node. -/
theorem nodeChain_concat : NodeChain nodes p (es ++ [l]) q ↔
    NodeChain nodes p es l.1 ∧ ∃ node, nodes l.1 = some node ∧ node.value = l.2 ∧ node.next = q := by
  rw [nodeChain_append]
  constructor
  · rintro ⟨r, h, rfl, node, hnode, hvalue, hnext⟩
    exact ⟨h, node, hnode, hvalue, hnext⟩
  · rintro ⟨h, node, hnode, hvalue, hnext⟩
    exact ⟨l.1, h, rfl, node, hnode, hvalue, hnext⟩

/-- A chain depends only on its own nodes. -/
theorem NodeChain.congr (h : NodeChain nodes p es q) (hn : ∀ x ∈ es.map Prod.fst, nodes' x = nodes x) :
    NodeChain nodes' p es q := by
  induction es generalizing p with
  | nil => exact h
  | cons e es ih =>
      obtain ⟨rfl, node, hnode, hvalue, hrest⟩ := h
      refine ⟨rfl, node, ?_, hvalue, ih hrest fun x hx => hn x (List.mem_cons_of_mem _ hx)⟩
      rw [hn e.1 List.mem_cons_self, hnode]

theorem NodeChain.mem (h : NodeChain nodes p es q) (he : e ∈ es) :
    ∃ node, nodes e.1 = some node ∧ node.value = e.2 := by
  induction es generalizing p with
  | nil => cases he
  | cons d es ih =>
      obtain ⟨rfl, node, hnode, hvalue, hrest⟩ := h
      rcases List.mem_cons.mp he with rfl | he
      · exact ⟨node, hnode, hvalue⟩
      · exact ih hrest he

/-- The last node of a chain is made to lead elsewhere. -/
theorem NodeChain.redirect {r : Nat} (h : NodeChain nodes p (es ++ [l]) q)
    (hkeep : ∀ x ∈ es.map Prod.fst, nodes' x = nodes x) (hnode : nodes l.1 = some node)
    (hnode' : nodes' l.1 = some { node with next := r }) : NodeChain nodes' p (es ++ [l]) r := by
  obtain ⟨hes, node₁, hnode₁, hvalue, -⟩ := nodeChain_concat.mp h
  obtain rfl : node = node₁ := Option.some.inj (hnode.symm.trans hnode₁)
  exact nodeChain_concat.mpr ⟨hes.congr hkeep, _, hnode', hvalue, rfl⟩

/-- **A chain to null runs through every chain from the same place.** -/
theorem NodeChain.extends (h : NodeChain nodes p es q) (h' : NodeChain nodes p es' 0)
    (hes : ∀ x ∈ es.map Prod.fst, x ≠ 0) : ∃ rest, es' = es ++ rest ∧ NodeChain nodes q rest 0 := by
  induction es generalizing p es' with
  | nil =>
      cases h
      exact ⟨es', rfl, h'⟩
  | cons e es ih =>
      obtain ⟨rfl, node, hnode, hvalue, hrest⟩ := h
      cases es' with
      | nil => exact absurd h' (hes e.1 List.mem_cons_self)
      | cons e' es' =>
          obtain ⟨haddr, node', hnode', hvalue', hrest'⟩ := h'
          obtain rfl : node = node' := Option.some.inj (hnode.symm.trans hnode')
          have he : e' = e := Prod.ext haddr.symm (hvalue'.symm.trans hvalue)
          obtain ⟨rest, rfl, hq⟩ := ih hrest hrest' fun x hx => hes x (List.mem_cons_of_mem _ hx)
          exact ⟨rest, by rw [he, List.cons_append], hq⟩

/-- From null a chain leads through nothing. -/
theorem NodeChain.eq_nil (h : NodeChain nodes 0 es 0) (hes : ∀ x ∈ es.map Prod.fst, x ≠ 0) : es = [] := by
  cases es with
  | nil => rfl
  | cons e es => exact absurd h.1.symm (hes e.1 List.mem_cons_self)

/-! ## What a list holds -/

/-- **The list holds `es`**, nodes by address and value: `next` leads from `first` through them to null,
    and no other node is in memory. -/
structure Holds (s : ListState α) (es : List (Nat × α)) : Prop where
  chain : NodeChain s.nodes s.first es 0
  nodup : (es.map Prod.fst).Nodup
  live : ∀ p, s.nodes p ≠ none → p ∈ es.map Prod.fst
  places : ∀ p ∈ es.map Prod.fst, 0 < p ∧ p < 4294967296

theorem Holds.ne_zero (h : Holds s es) : ∀ x ∈ es.map Prod.fst, x ≠ 0 := by
  intro x hx
  have := h.places x hx
  omega

/-- The nodes of two parts of a list are not the same. -/
theorem Holds.ne_of_append (h : Holds s (es ++ es')) {x y : Nat} (hx : x ∈ es.map Prod.fst)
    (hy : y ∈ es'.map Prod.fst) : x ≠ y := by
  have hnodup := h.nodup
  rw [List.map_append, List.nodup_append] at hnodup
  exact hnodup.2.2 x hx y hy

/-- The nodes in front of the last one are not the last one. -/
theorem Holds.ne_last (h : Holds s (es ++ [l])) {x : Nat} (hx : x ∈ es.map Prod.fst) : x ≠ l.1 :=
  h.ne_of_append hx (by simp)

/-- There are fewer nodes than addresses. -/
theorem Holds.length_lt (h : Holds s es) : es.length < listFuel := by
  have hsub : (es.map Prod.fst).toFinset ⊆ Finset.Icc 1 4294967295 := by
    intro x hx
    have := h.places x (List.mem_toFinset.mp hx)
    rw [Finset.mem_Icc]
    omega
  have hcard := Finset.card_le_card hsub
  rw [List.toFinset_card_of_nodup h.nodup, List.length_map, Nat.card_Icc] at hcard
  unfold listFuel
  omega

theorem holds_empty : Holds (.empty : ListState α) [] :=
  ⟨rfl, List.nodup_nil, fun _ h => absurd rfl h, by simp⟩

/-- A list holds one sequence of nodes. -/
theorem Holds.unique (h : Holds s es) (h' : Holds s es') : es = es' := by
  obtain ⟨rest, rfl, hrest⟩ := h.chain.extends h'.chain h.ne_zero
  have hnil : rest = [] := hrest.eq_nil fun x hx => h'.ne_zero x (by
    rw [List.map_append]
    exact List.mem_append_right _ hx)
  rw [hnil, List.append_nil]

/-! ## Reading -/

theorem deref_eq (h : s.nodes p = some node) : s.deref p = .ok node := by
  unfold ListState.deref
  rw [h]
  rfl

theorem store_eq (h : s.nodes p = some node) (f : ListNode α → ListNode α) :
    s.store p f = .ok { s with nodes := Function.update s.nodes p (some (f node)) } := by
  unfold ListState.store
  rw [deref_eq h, ok_bind]
  rfl

theorem delete_eq (h : s.nodes p = some node) :
    s.delete p = .ok { s with nodes := Function.update s.nodes p none, deleted := s.deleted ++ [p] } := by
  unfold ListState.delete
  rw [deref_eq h, ok_bind]
  rfl

/-- **`at`** gives the element at its index. -/
theorem atFrom_eq (h : NodeChain s.nodes p es q) {i : Nat} (hi : i < es.length) :
    s.atFrom p i = .ok (es[i].2) := by
  induction es generalizing p i with
  | nil => cases hi
  | cons e es ih =>
      obtain ⟨rfl, node, hnode, hvalue, hrest⟩ := h
      cases i with
      | zero =>
          rw [ListState.atFrom, deref_eq hnode, ok_bind, hvalue]
          rfl
      | succ i =>
          rw [ListState.atFrom, deref_eq hnode, ok_bind]
          exact ih hrest (by simpa using hi)

/-- **Iteration** visits the elements in order. -/
theorem visit_eq {fuel : Nat} (h : NodeChain s.nodes p es 0) (hes : ∀ x ∈ es.map Prod.fst, x ≠ 0)
    (hfuel : es.length < fuel) : s.visit fuel p = .ok (es.map Prod.snd) := by
  induction es generalizing p fuel with
  | nil =>
      obtain ⟨fuel, rfl⟩ : ∃ f, fuel = f + 1 := ⟨fuel - 1, by simp at hfuel; omega⟩
      cases h
      rw [ListState.visit, if_pos rfl]
      rfl
  | cons e es ih =>
      obtain ⟨fuel, rfl⟩ : ∃ f, fuel = f + 1 := ⟨fuel - 1, by simp at hfuel; omega⟩
      obtain ⟨rfl, node, hnode, hvalue, hrest⟩ := h
      rw [ListState.visit, if_neg (hes e.1 List.mem_cons_self), deref_eq hnode, ok_bind,
        ih hrest (fun x hx => hes x (List.mem_cons_of_mem _ hx)) (by simpa using hfuel), ok_bind, hvalue]
      rfl

/-- **The loop to the last node.** -/
theorem lastNode_eq {fuel : Nat} (h : NodeChain s.nodes p (es ++ [l]) 0) (hes : ∀ x ∈ es.map Prod.fst, x ≠ 0)
    (hl : l.1 ≠ 0) (hfuel : es.length < fuel) : s.lastNode fuel p = .ok l.1 := by
  induction es generalizing p fuel with
  | nil =>
      obtain ⟨fuel, rfl⟩ : ∃ f, fuel = f + 1 := ⟨fuel - 1, by simp at hfuel; omega⟩
      obtain ⟨rfl, node, hnode, hvalue, hnext⟩ := h
      have hnext' : node.next = 0 := hnext
      rw [ListState.lastNode, deref_eq hnode, ok_bind, if_pos hnext']
      rfl
  | cons e es ih =>
      obtain ⟨fuel, rfl⟩ : ∃ f, fuel = f + 1 := ⟨fuel - 1, by simp at hfuel; omega⟩
      obtain ⟨rfl, node, hnode, hvalue, hrest⟩ := h
      -- the next node exists, so its address is not null
      have hnext : node.next ≠ 0 := by
        cases es with
        | nil => rw [hrest.1]; exact hl
        | cons d es => rw [hrest.1]; exact hes d.1 (by simp)
      rw [ListState.lastNode, deref_eq hnode, ok_bind, if_neg hnext]
      exact ih hrest (fun x hx => hes x (List.mem_cons_of_mem _ hx)) (by simpa using hfuel)

/-- The loop finds the last node of a list, also when a node outside the list has changed. -/
theorem Holds.lastNode_eq (h : Holds s (es ++ [l])) (hfirst : t.first = s.first)
    (hkeep : ∀ x ∈ (es ++ [l]).map Prod.fst, t.nodes x = s.nodes x) :
    t.lastNode listFuel t.first = .ok l.1 := by
  have hlen := h.length_lt
  rw [List.length_append, List.length_singleton] at hlen
  rw [hfirst]
  refine WeirdOs.lastNode_eq (h.chain.congr hkeep) (fun x hx => h.ne_zero x ?_) (h.ne_zero l.1 (by simp))
    (Nat.lt_of_succ_lt hlen)
  rw [List.map_append]
  exact List.mem_append_left _ hx

/-! ## Pushing -/

/-- What `new` did when it returned. -/
theorem new_cases (h : s.new p v = .ok t) :
    (0 < p ∧ p < 4294967296 ∧ s.nodes p = none) ∧
      t = { s with
        nodes := Function.update s.nodes p (some ⟨0, 0, v⟩), allocated := s.allocated ++ [p] } := by
  unfold ListState.new at h
  split at h
  · rename_i hp
    simp only [Option.isNone_iff_eq_none] at hp
    cases h
    exact ⟨hp, rfl⟩
  · cases h

theorem new_total (s : ListState α) (p : Nat) (v : α) :
    (∃ t, s.new p v = .ok t) ∨ s.new p v = .error (.misuse "new") := by
  unfold ListState.new
  split
  · exact Or.inl ⟨_, rfl⟩
  · exact Or.inr rfl

/-- A place without a node is not one of the list's. -/
theorem Holds.not_mem (h : Holds s es) (hp : s.nodes p = none) : p ∉ es.map Prod.fst := by
  intro hmem
  obtain ⟨e, he, rfl⟩ := List.mem_map.mp hmem
  obtain ⟨node, hnode, -⟩ := h.chain.mem he
  rw [hp] at hnode
  cases hnode

theorem Holds.ne_of_free (h : Holds s es) (hp : s.nodes p = none) {x : Nat} (hx : x ∈ es.map Prod.fst) :
    x ≠ p := by
  rintro rfl
  exact h.not_mem hp hx

/-- A list is empty iff `first` is null. -/
theorem Holds.first_eq_zero (h : Holds s es) : s.first = 0 ↔ es = [] := by
  cases es with
  | nil => exact iff_of_true h.chain rfl
  | cons e es =>
      refine iff_of_false ?_ (by simp)
      intro h0
      exact h.ne_zero e.1 List.mem_cons_self (h.chain.1.symm.trans h0)

/-- One more node, anywhere: what does not depend on the links. -/
theorem Holds.of_insert (h : Holds s es) (hp : 0 < p ∧ p < 4294967296 ∧ s.nodes p = none)
    (hperm : es'.Perm ((p, v) :: es)) (hchain : NodeChain t.nodes t.first es' 0)
    (hnodes : ∀ x, x ≠ p → s.nodes x = none → t.nodes x = none) : Holds t es' := by
  have hmem : ∀ x, x ∈ es'.map Prod.fst ↔ x = p ∨ x ∈ es.map Prod.fst := by
    intro x
    rw [(hperm.map Prod.fst).mem_iff, List.map_cons, List.mem_cons]
  refine ⟨hchain, ?_, ?_, ?_⟩
  · rw [(hperm.map Prod.fst).nodup_iff, List.map_cons, List.nodup_cons]
    exact ⟨h.not_mem hp.2.2, h.nodup⟩
  · intro x hx
    rw [hmem]
    by_cases hxp : x = p
    · exact Or.inl hxp
    · exact Or.inr (h.live x fun h0 => hx (hnodes x hxp h0))
  · intro x hx
    rcases (hmem x).mp hx with rfl | hx
    · exact ⟨hp.1, hp.2.1⟩
    · exact h.places x hx

/-- **`push_front`**, unless `new` returns what it must not. -/
theorem pushFront_spec (h : Holds s es) :
    (∃ t, s.pushFront p v = .ok t ∧ Holds t ((p, v) :: es) ∧ t.allocated = s.allocated ++ [p] ∧
      t.deleted = s.deleted) ∨ s.pushFront p v = .error (.misuse "new") := by
  rcases new_total s p v with ⟨s₁, hnew⟩ | hnew
  · apply Or.inl
    obtain ⟨hp, rfl⟩ := new_cases hnew
    have hchain : NodeChain (Function.update s.nodes p (some ⟨0, s.first, v⟩)) s.first es 0 :=
      h.chain.congr fun x hx => Function.update_of_ne (h.ne_of_free hp.2.2 hx) _ _
    have hholds : Holds { s with
        nodes := Function.update s.nodes p (some ⟨0, s.first, v⟩)
        first := p
        allocated := s.allocated ++ [p] } ((p, v) :: es) := by
      refine h.of_insert hp (List.Perm.refl _) ⟨rfl, _, Function.update_self .., rfl, hchain⟩
        ?_
      intro x hx h0
      show Function.update s.nodes p _ x = none
      rw [Function.update_of_ne hx, h0]
    refine ⟨_, ?_, hholds, rfl, rfl⟩
    unfold ListState.pushFront
    rw [hnew, ok_bind]
    by_cases h0 : s.first = 0
    · rw [if_pos h0, h0]
      rfl
    · rw [if_neg h0]
      unfold ListState.setPrev ListState.setNext
      rw [store_eq (Function.update_self ..), ok_bind, store_eq (Function.update_self ..), ok_bind]
      simp only [Function.update_idem]
      rfl
  · apply Or.inr
    unfold ListState.pushFront
    rw [hnew, error_bind]

/-- A new node linked behind the last one. -/
theorem Holds.linked (h : Holds s (es ++ [l])) (hp : 0 < p ∧ p < 4294967296 ∧ s.nodes p = none)
    (hnode : s.nodes l.1 = some node) :
    Holds { s with
      nodes := Function.update (Function.update s.nodes p (some ⟨l.1, 0, v⟩)) l.1
        (some { node with next := p })
      allocated := s.allocated ++ [p] } (es ++ [l] ++ [(p, v)]) := by
  have hlp : l.1 ≠ p := h.ne_of_free hp.2.2 (by simp)
  refine h.of_insert hp (List.perm_append_singleton _ _) ?_ ?_
  · -- the nodes in front of the last one are those they were
    refine nodeChain_concat.mpr ⟨h.chain.redirect ?_ hnode (Function.update_self ..), _,
      (Function.update_of_ne hlp.symm _ _).trans (Function.update_self ..), rfl, rfl⟩
    intro x hx
    have hxp : x ≠ p := h.ne_of_free hp.2.2 (by rw [List.map_append]; exact List.mem_append_left _ hx)
    show Function.update (Function.update s.nodes p _) l.1 _ x = s.nodes x
    rw [Function.update_of_ne (h.ne_last hx), Function.update_of_ne hxp]
  · intro x hx hx0
    have hxl : x ≠ l.1 := by
      rintro rfl
      rw [hnode] at hx0
      cases hx0
    show Function.update (Function.update s.nodes p _) l.1 _ x = none
    rw [Function.update_of_ne hxl, Function.update_of_ne hx, hx0]

/-- **`push_back`**, unless `new` returns what it must not. -/
theorem pushBack_spec (h : Holds s es) :
    (∃ t, s.pushBack p v = .ok t ∧ Holds t (es ++ [(p, v)]) ∧ t.allocated = s.allocated ++ [p] ∧
      t.deleted = s.deleted) ∨ s.pushBack p v = .error (.misuse "new") := by
  rcases new_total s p v with ⟨s₁, hnew⟩ | hnew
  · apply Or.inl
    obtain ⟨hp, rfl⟩ := new_cases hnew
    unfold ListState.pushBack
    rw [hnew, ok_bind]
    rcases List.eq_nil_or_concat es with rfl | ⟨es, l, rfl⟩
    · have h0 := h.first_eq_zero.mpr rfl
      rw [if_pos h0]
      refine ⟨_, rfl, h.of_insert hp (List.Perm.refl _) ⟨rfl, _, Function.update_self .., rfl, rfl⟩
        ?_, rfl, rfl⟩
      intro x hx hx0
      show Function.update s.nodes p _ x = none
      rw [Function.update_of_ne hx, hx0]
    · rw [List.concat_eq_append] at h ⊢
      have hfirst : s.first ≠ 0 := fun h0 => by simpa using h.first_eq_zero.mp h0
      have hlp : l.1 ≠ p := h.ne_of_free hp.2.2 (by simp)
      have hlast : ListState.lastNode { s with
          nodes := Function.update s.nodes p (some ⟨0, 0, v⟩)
          allocated := s.allocated ++ [p] } listFuel s.first = .ok l.1 :=
        h.lastNode_eq rfl fun x hx => Function.update_of_ne (h.ne_of_free hp.2.2 hx) _ _
      obtain ⟨-, node, hnode, -⟩ := nodeChain_concat.mp h.chain
      have hnode' : Function.update s.nodes p (some ⟨l.1, 0, v⟩) l.1 = some node := by
        rw [Function.update_of_ne hlp, hnode]
      refine ⟨_, ?_, h.linked hp hnode, rfl, rfl⟩
      rw [if_neg hfirst, hlast, ok_bind]
      unfold ListState.setPrev ListState.setNext
      rw [store_eq (Function.update_self ..), ok_bind, store_eq (Function.update_self ..), ok_bind]
      simp only [Function.update_idem]
      rw [store_eq hnode']
  · apply Or.inr
    unfold ListState.pushBack
    rw [hnew, error_bind]

/-! ## Popping -/

/-- One node less, at either end: what does not depend on the links. -/
theorem Holds.of_erase (h : Holds s es) (hperm : es.Perm (e :: es'))
    (hchain : NodeChain t.nodes t.first es' 0)
    (hnodes : ∀ x, t.nodes x ≠ none → x ≠ e.1 ∧ s.nodes x ≠ none) : Holds t es' := by
  have hmem : ∀ x, x ∈ es.map Prod.fst ↔ x = e.1 ∨ x ∈ es'.map Prod.fst := by
    intro x
    rw [(hperm.map Prod.fst).mem_iff, List.map_cons, List.mem_cons]
  refine ⟨hchain, ?_, ?_, fun x hx => h.places x ((hmem x).mpr (Or.inr hx))⟩
  · have hnodup := h.nodup
    rw [(hperm.map Prod.fst).nodup_iff, List.map_cons, List.nodup_cons] at hnodup
    exact hnodup.2
  · intro x hx
    obtain ⟨hne, hlive⟩ := hnodes x hx
    exact ((hmem x).mp (h.live x hlive)).resolve_left hne

/-- **`pop_front`** returns the first element and deletes its node. -/
theorem popFront_spec (h : Holds s (e :: es)) :
    ∃ t, s.popFront = .ok (e.2, t) ∧ Holds t es ∧ t.allocated = s.allocated ∧
      t.deleted = s.deleted ++ [e.1] := by
  obtain ⟨hfirst, node, hnode, hvalue, hrest⟩ := h.chain
  have hnodup := h.nodup
  rw [List.map_cons, List.nodup_cons] at hnodup
  have hchain : NodeChain (Function.update s.nodes s.first none) node.next es 0 :=
    hrest.congr fun x hx => Function.update_of_ne (fun hxe => hnodup.1 (by rwa [← hfirst, ← hxe])) _ _
  have hholds : Holds { s with
      nodes := Function.update s.nodes s.first none
      first := node.next
      deleted := s.deleted ++ [s.first] } es := by
    apply h.of_erase (List.Perm.refl _) hchain
    intro x hx
    have hne : x ≠ s.first := by
      rintro rfl
      exact hx (Function.update_self ..)
    have hkeep : Function.update s.nodes s.first none x = s.nodes x := Function.update_of_ne hne _ _
    exact ⟨hfirst ▸ hne, fun h0 => hx (hkeep.trans h0)⟩
  refine ⟨_, ?_, hholds, rfl, by rw [← hfirst]⟩
  unfold ListState.popFront ListState.setNext ListState.setPrev
  rw [deref_eq hnode, ok_bind]
  dsimp only
  rw [store_eq (by exact hnode), ok_bind, store_eq (Function.update_self ..), ok_bind,
    deref_eq (Function.update_self ..), ok_bind, delete_eq (Function.update_self ..), ok_bind]
  simp only [Function.update_idem, ← hvalue]
  rfl

/-- **`pop_back`**, whatever its last node links back to. -/
theorem popBack_eq (h : Holds s (es ++ [l])) (hnode : s.nodes l.1 = some node) :
    s.popBack =
      (if node.prev = 0 then .ok s else s.setNext node.prev 0) >>= fun t =>
        .ok (l.2, { t with nodes := Function.update t.nodes l.1 none, deleted := t.deleted ++ [l.1] }) := by
  have hlast : s.lastNode listFuel s.first = .ok l.1 := h.lastNode_eq rfl fun _ _ => rfl
  obtain ⟨-, node', hnode', hvalue, -⟩ := nodeChain_concat.mp h.chain
  obtain rfl : node = node' := Option.some.inj (hnode.symm.trans hnode')
  unfold ListState.popBack
  rw [hlast, ok_bind, deref_eq hnode, ok_bind, ok_bind, hvalue]
  by_cases h0 : node.prev = 0
  · simp only [h0, ne_eq, not_true_eq_false, if_false, if_true, pure_eq_ok, ok_bind]
    rw [delete_eq hnode, ok_bind]
  · simp only [h0, ne_eq, not_false_eq_true, if_true, if_false]
    unfold ListState.setNext
    cases hprev : s.nodes node.prev with
    | none => simp [ListState.store, ListState.deref, hprev]
    | some prev =>
        rw [store_eq hprev, ok_bind, ok_bind]
        -- the last node may be its own neighbour in a list that was broken before
        by_cases hself : l.1 = node.prev
        · rw [hself, delete_eq (Function.update_self ..), ok_bind]
          rfl
        · have hkeep : Function.update s.nodes node.prev (some { prev with next := 0 }) l.1 = some node := by
            rw [Function.update_of_ne hself, hnode]
          rw [delete_eq hkeep, ok_bind]
          rfl

/-! ## When `pop_back` is right -/

/-- **What `pop_back` is meant to do**: return the last of the elements and leave the others, in a list
    whose nodes are those in memory. -/
def PopBackRight (s : ListState α) (items : List α) : Prop :=
  ∃ out t es, s.popBack = .ok (out, t) ∧ items.getLast? = some out ∧ Holds t es ∧
    es.map Prod.snd = items.dropLast

/-- The list has two elements or more, and the last node links back to the one before it. -/
def PrevLinked (s : ListState α) : Prop :=
  ∃ es a l node, Holds s (es ++ [a] ++ [l]) ∧ s.nodes l.1 = some node ∧ node.prev = a.1

/-- **With the back link in place**, `pop_back` unlinks the last node and deletes it. -/
theorem popBack_spec (h : Holds s (es ++ [a] ++ [l])) (hnode : s.nodes l.1 = some node)
    (hprev : node.prev = a.1) :
    ∃ t, s.popBack = .ok (l.2, t) ∧ Holds t (es ++ [a]) ∧ t.allocated = s.allocated ∧
      t.deleted = s.deleted ++ [l.1] := by
  obtain ⟨hchain, -⟩ := nodeChain_concat.mp h.chain
  obtain ⟨-, prev, hanode, -⟩ := nodeChain_concat.mp hchain
  have ha0 : a.1 ≠ 0 := h.ne_zero a.1 (by simp)
  have hal : a.1 ≠ l.1 := h.ne_last (by simp)
  have hcut : Function.update (Function.update s.nodes a.1 (some { prev with next := 0 })) l.1 none a.1 =
      some { prev with next := 0 } := by
    rw [Function.update_of_ne hal, Function.update_self]
  have hkeep : ∀ x, x ≠ a.1 → x ≠ l.1 →
      Function.update (Function.update s.nodes a.1 (some { prev with next := 0 })) l.1 none x = s.nodes x :=
    fun x hxa hxl => by rw [Function.update_of_ne hxl, Function.update_of_ne hxa]
  have hchain' :
      NodeChain (Function.update (Function.update s.nodes a.1 (some { prev with next := 0 })) l.1 none)
        s.first (es ++ [a]) 0 := by
    refine hchain.redirect (fun x hx => hkeep x ?_ ?_) hanode hcut
    · rw [List.append_assoc] at h
      exact h.ne_of_append hx (by simp)
    · exact h.ne_last (by rw [List.map_append]; exact List.mem_append_left _ hx)
  have hholds : Holds { s with
      nodes := Function.update (Function.update s.nodes a.1 (some { prev with next := 0 })) l.1 none
      deleted := s.deleted ++ [l.1] } (es ++ [a]) := by
    apply h.of_erase List.perm_append_comm hchain'
    intro x hx
    have hxl : x ≠ l.1 := by
      rintro rfl
      exact hx (Function.update_self ..)
    refine ⟨hxl, ?_⟩
    intro h0
    have hxa : x ≠ a.1 := by
      rintro rfl
      rw [hanode] at h0
      cases h0
    exact hx ((hkeep x hxa hxl).trans h0)
  refine ⟨_, ?_, hholds, rfl, rfl⟩
  rw [popBack_eq h hnode, hprev, if_neg ha0, ListState.setNext, store_eq hanode, ok_bind]

/-- What `pop_back` leaves of a list: `first`, and every node but the last and the one it unlinks. -/
theorem popBack_cases (h : Holds s (es ++ [l])) (hnode : s.nodes l.1 = some node) {out : α}
    (hrun : s.popBack = .ok (out, t)) :
    t.first = s.first ∧ t.nodes l.1 = none ∧
      (∀ x, x ≠ l.1 → x ≠ node.prev ∨ node.prev = 0 → t.nodes x = s.nodes x) ∧
      (node.prev ≠ 0 → node.prev ≠ l.1 → ∃ prev, s.nodes node.prev = some prev ∧
        t.nodes node.prev = some { prev with next := 0 }) := by
  rw [popBack_eq h hnode] at hrun
  obtain ⟨u, hu, hret⟩ := bind_eq_ok.mp hrun
  simp only [Except.ok.injEq, Prod.mk.injEq] at hret
  obtain ⟨-, rfl⟩ := hret
  by_cases h0 : node.prev = 0
  · rw [if_pos h0] at hu
    cases hu
    exact ⟨rfl, Function.update_self .., fun x hx _ => Function.update_of_ne hx _ _, fun hne => absurd h0 hne⟩
  · rw [if_neg h0] at hu
    cases hprev : s.nodes node.prev with
    | none => simp [ListState.setNext, ListState.store, ListState.deref, hprev] at hu
    | some prev =>
        rw [ListState.setNext, store_eq hprev] at hu
        cases hu
        refine ⟨rfl, Function.update_self .., ?_, fun _ hne => ⟨prev, rfl, ?_⟩⟩
        · intro x hx hxp
          show Function.update (Function.update s.nodes node.prev _) l.1 none x = s.nodes x
          rw [Function.update_of_ne hx, Function.update_of_ne (hxp.resolve_right h0)]
        · show Function.update (Function.update s.nodes node.prev _) l.1 none node.prev = _
          rw [Function.update_of_ne hne, Function.update_self]

/-- **`pop_back` is right iff the last node links back to the one before it**, of which there has to be
    one. -/
theorem popBack_right_iff (h : Holds s es) (hne : es ≠ []) :
    PopBackRight s (es.map Prod.snd) ↔ PrevLinked s := by
  constructor
  · rintro ⟨out, t, rs, hrun, -, hrs, hvalues⟩
    obtain ⟨es, l, rfl⟩ := (List.eq_nil_or_concat es).resolve_left hne
    rw [List.concat_eq_append] at *
    have hlen : rs.length = es.length := by simpa using congrArg List.length hvalues
    obtain ⟨hchain, node, hnode, -⟩ := nodeChain_concat.mp h.chain
    obtain ⟨hfirst, hdead, hkeep, hunlink⟩ := popBack_cases h hnode hrun
    have hzero : ∀ x ∈ es.map Prod.fst, x ≠ 0 := fun x hx => h.ne_zero x (by simp at hx ⊢; exact Or.inl hx)
    have hrchain : NodeChain t.nodes s.first rs 0 := hfirst ▸ hrs.chain
    by_cases hmem : node.prev ∈ es.map Prod.fst
    · -- the node unlinked is one of those in front, and now the last of them
      obtain ⟨x, hx, hxprev⟩ := List.mem_map.mp hmem
      obtain ⟨us, ws, rfl⟩ := List.append_of_mem hx
      cases ws with
      | nil => exact ⟨us, x, l, node, h, hnode, hxprev.symm⟩
      | cons w ws =>
          exfalso
          obtain ⟨prev, hprev, hprev'⟩ := hunlink (hzero _ hmem) (h.ne_last hmem)
          have hsplit : us ++ x :: w :: ws = us ++ [x] ++ (w :: ws) := by simp
          have hus : NodeChain t.nodes s.first (us ++ [x]) 0 := by
            obtain ⟨r, hleft, -⟩ := nodeChain_append.mp (hsplit ▸ hchain)
            rw [← hxprev] at hprev hprev'
            refine hleft.redirect (fun y hy => hkeep y (h.ne_last ?_) (Or.inl ?_)) hprev hprev'
            · rw [List.map_append]
              exact List.mem_append_left _ hy
            · rw [List.append_assoc] at h
              exact h.ne_of_append hy (by rw [← hxprev]; simp)
          obtain ⟨rest, rfl, hrest⟩ := hus.extends hrchain fun y hy =>
            hzero y (by rw [hsplit, List.map_append]; exact List.mem_append_left _ hy)
          obtain rfl := hrest.eq_nil fun y hy =>
            hrs.ne_zero y (by rw [List.map_append]; exact List.mem_append_right _ hy)
          simp at hlen
    · -- no node in front was unlinked: they still lead to the deleted one
      exfalso
      have hes : NodeChain t.nodes s.first es l.1 := hchain.congr fun x hx =>
        hkeep x (h.ne_last hx) (Or.inl fun hxp => hmem (hxp ▸ hx))
      obtain ⟨rest, rfl, hrest⟩ := hes.extends hrchain hzero
      have hnil : rest = [] := by simpa using hlen
      subst hnil
      exact h.ne_zero l.1 (by simp) hrest
  · rintro ⟨es', a, l, node, h', hnode, hprev⟩
    obtain rfl := h'.unique h
    obtain ⟨t, hrun, ht, -⟩ := popBack_spec h' hnode hprev
    exact ⟨l.2, t, es' ++ [a], hrun, by simp, ht, by simp⟩

/-! ## Runs -/

/-- The list holds what the sequence does, the same has been taken from both, and what was allocated is in
    the list or was deleted, one node for each value returned. -/
def Represents (s : ListRun α) (d : Deque α) : Prop :=
  ∃ es, Holds s.list es ∧ es.map Prod.snd = d.items ∧ s.returned = d.returned ∧
    s.list.allocated.Perm (s.list.deleted ++ es.map Prod.fst) ∧ s.list.deleted.length = d.returned.length

theorem represents_empty : Represents (⟨.empty, []⟩ : ListRun α) ⟨[], []⟩ :=
  ⟨[], holds_empty, rfl, rfl, List.Perm.refl _, rfl⟩

/-- One more node in the list. -/
theorem represents_push {r : ListRun α} {d : Deque α} {list : ListState α} {items : List α}
    (hreturned : r.returned = d.returned) (hperm : r.list.allocated.Perm (r.list.deleted ++ es.map Prod.fst))
    (hlen : r.list.deleted.length = d.returned.length) (hes : es'.Perm ((p, v) :: es)) (h : Holds list es')
    (hvalues : es'.map Prod.snd = items) (ha : list.allocated = r.list.allocated ++ [p])
    (hdel : list.deleted = r.list.deleted) :
    Represents { r with list := list } { d with items := items } := by
  refine ⟨es', h, hvalues, hreturned, ?_, by rw [hdel, hlen]⟩
  show list.allocated.Perm (list.deleted ++ es'.map Prod.fst)
  rw [ha, hdel]
  have hfst : (es'.map Prod.fst).Perm (p :: es.map Prod.fst) := hes.map Prod.fst
  have hone : (es.map Prod.fst ++ [p]).Perm (es'.map Prod.fst) :=
    (List.perm_append_singleton _ _).trans hfst.symm
  have hold := hperm.append_right [p]
  rw [List.append_assoc] at hold
  exact hold.trans (hone.append_left _)

/-- One node less, and its value returned. -/
theorem represents_pop {r : ListRun α} {d : Deque α} {list : ListState α} {items : List α}
    (hreturned : r.returned = d.returned) (hperm : r.list.allocated.Perm (r.list.deleted ++ es.map Prod.fst))
    (hlen : r.list.deleted.length = d.returned.length) (hes : es.Perm (e :: es')) (h : Holds list es')
    (hvalues : es'.map Prod.snd = items) (ha : list.allocated = r.list.allocated)
    (hdel : list.deleted = r.list.deleted ++ [e.1]) :
    Represents ⟨list, r.returned ++ [e.2]⟩ ⟨items, d.returned ++ [e.2]⟩ := by
  refine ⟨es', h, hvalues, by rw [hreturned], ?_, by simp [hdel, hlen]⟩
  show list.allocated.Perm (list.deleted ++ es'.map Prod.fst)
  rw [ha, hdel, List.append_assoc]
  exact hperm.trans ((hes.map Prod.fst).append_left _)

/-- **One operation** on a list that represents the sequence, `pop_back` only when the last node links back:
    it does what it does to the sequence, unless `new` returns what it must not. -/
theorem listRun_step {r : ListRun α} {d d' : Deque α} {o : ListOp α} (hr : Represents r d)
    (hgood : o = .popBack → PrevLinked r.list) (hd : d.step o = .ok d') :
    (∃ r', r.step o = .ok r' ∧ Represents r' d') ∨ ∃ e, r.step o = .error e ∧ e = .misuse "new" := by
  obtain ⟨es, hes, hvalues, hreturned, hperm, hlen⟩ := hr
  cases o with
  | pushFront p v =>
      cases hd
      rcases pushFront_spec (p := p) (v := v) hes with ⟨t, ht, hholds, ha, hdel⟩ | hnew
      · refine Or.inl ⟨{ r with list := t }, by rw [ListRun.step, ht]; rfl, ?_⟩
        exact represents_push hreturned hperm hlen (List.Perm.refl _) hholds (by simp [hvalues]) ha hdel
      · exact Or.inr ⟨_, by rw [ListRun.step, hnew, error_bind], rfl⟩
  | pushBack p v =>
      cases hd
      rcases pushBack_spec (p := p) (v := v) hes with ⟨t, ht, hholds, ha, hdel⟩ | hnew
      · refine Or.inl ⟨{ r with list := t }, by rw [ListRun.step, ht]; rfl, ?_⟩
        exact represents_push hreturned hperm hlen (List.perm_append_singleton _ _) hholds
          (by simp [hvalues]) ha hdel
      · exact Or.inr ⟨_, by rw [ListRun.step, hnew, error_bind], rfl⟩
  | popFront =>
      rw [Deque.step, ← hvalues] at hd
      cases es with
      | nil => cases hd
      | cons e es =>
          cases hd
          obtain ⟨t, ht, hholds, ha, hdel⟩ := popFront_spec hes
          refine Or.inl ⟨⟨t, r.returned ++ [e.2]⟩, by rw [ListRun.step, ht]; rfl, ?_⟩
          exact represents_pop hreturned hperm hlen (List.Perm.refl _) hholds rfl ha hdel
  | popBack =>
      obtain ⟨es₁, a, l, node, hes₁, hnode, hprev⟩ := hgood rfl
      obtain rfl := hes₁.unique hes
      rw [Deque.step, ← hvalues] at hd
      have hlast : (es₁ ++ [a] ++ [l]).map Prod.snd = (es₁ ++ [a]).map Prod.snd ++ [l.2] := by simp
      rw [hlast, List.getLast?_concat, List.dropLast_concat] at hd
      cases hd
      obtain ⟨t, ht, hholds, ha, hdel⟩ := popBack_spec hes hnode hprev
      refine Or.inl ⟨⟨t, r.returned ++ [l.2]⟩, by rw [ListRun.step, ht]; rfl, ?_⟩
      exact represents_pop hreturned hperm hlen List.perm_append_comm hholds rfl ha hdel

/-- **A run** in which every `pop_back` finds the last node linked back does what the run of the sequence
    does. -/
theorem listRun_simulates {ops : List (ListOp α)} {d : Deque α} (hd : Deque.run ops = .ok d)
    (hnew : ListRun.run ops ≠ .error (.misuse "new"))
    (hgood : ∀ pre s, pre ++ [.popBack] <+: ops → ListRun.run pre = .ok s → PrevLinked s.list) :
    ∃ s, ListRun.run ops = .ok s ∧ Represents s d := by
  have hd' : Lib.run Deque.step ⟨[], []⟩ ops = .ok d := hd
  have hsim : (∃ s, ListRun.run ops = .ok s ∧ Represents s d) ∨
      ∃ e, ListRun.run ops = .error e ∧ e = .misuse "new" := by
    refine run_simulates ?_ represents_empty hd' fun pre o u hpre hu (ho : o = .popBack) =>
      hgood pre u (ho ▸ hpre) hu
    intro s d o d' hR hgood hstep
    exact listRun_step hR hgood hstep
  rcases hsim with ⟨s, hs, hR⟩ | ⟨e, he, rfl⟩
  · exact ⟨s, hs, hR⟩
  · exact absurd he hnew

/-- **A list is a sequence with two ends**, as long as nothing is taken from the back: whatever is pushed
    and taken from the front, the same is returned, `at` and iteration give the elements, and of the nodes
    allocated those not in the list have been deleted, one for each pop. -/
theorem list_deque {ops : List (ListOp α)} {d : Deque α} (hops : .popBack ∉ ops)
    (hd : Deque.run ops = .ok d) (hnew : ListRun.run ops ≠ .error (.misuse "new")) :
    ∃ s es, ListRun.run ops = .ok s ∧ s.returned = d.returned ∧ Holds s.list es ∧ es.map Prod.snd = d.items ∧
      (∀ (i : Nat) (hi : i < d.items.length), s.list.elementAt i = .ok d.items[i]) ∧
      s.list.iterate = .ok d.items ∧ s.list.allocated.Perm (s.list.deleted ++ es.map Prod.fst) ∧
      s.list.deleted.length = d.returned.length := by
  obtain ⟨s, hs, es, hes, hvalues, hreturned, hperm, hlen⟩ := listRun_simulates hd hnew fun pre s hpre _ =>
    absurd (hpre.subset (by simp)) hops
  refine ⟨s, es, hs, hreturned, hes, hvalues, ?_, ?_, hperm, hlen⟩
  · intro i hi
    have hi' : i < es.length := by simpa [← hvalues] using hi
    rw [ListState.elementAt, atFrom_eq hes.chain hi']
    simp [← hvalues]
  · rw [ListState.iterate, visit_eq hes.chain hes.ne_zero hes.length_lt, hvalues]

/-- Elements are pushed at both ends, and the place of the node that was taken is used again. -/
theorem list_deque_both_ends :
    ∃ s es, ListRun.run [.pushBack 8 'b', .pushFront 16 'a', .popFront, .pushBack 16 'c'] = .ok s ∧
      s.returned = ['a'] ∧ Holds s.list es ∧ es.map Prod.snd = ['b', 'c'] ∧
      (∀ (i : Nat) (hi : i < 2), s.list.elementAt i = .ok ['b', 'c'][i]) ∧
      s.list.iterate = .ok ['b', 'c'] ∧ s.list.allocated.Perm (s.list.deleted ++ es.map Prod.fst) ∧
      s.list.deleted.length = 1 :=
  list_deque (d := ⟨['b', 'c'], ['a']⟩) (by decide) rfl (by intro h; cases h)

/-- What a list does before a failure other than `new`'s it does without one. -/
theorem listRun_pre {ops pre : List (ListOp α)} (hpre : pre <+: ops)
    (hnew : ListRun.run ops ≠ .error (.misuse "new")) : ListRun.run pre ≠ .error (.misuse "new") := by
  obtain ⟨rest, rfl⟩ := hpre
  intro h
  apply hnew
  unfold ListRun.run at h ⊢
  rw [run_append_eq, h, error_bind]

/-- Where the run of the sequence goes on with `pop_back`, there is something to take. -/
theorem deque_nonempty {ops pre : List (ListOp α)} {d e : Deque α} (hd : Deque.run ops = .ok d)
    (hpre : pre ++ [.popBack] <+: ops) (he : Deque.run pre = .ok e) : e.items ≠ [] := by
  intro hnil
  obtain ⟨e', he'⟩ := run_prefix hpre hd
  obtain ⟨e₁, he₁, hpop⟩ := run_append.mp he'
  obtain rfl : e = e₁ := Except.ok.inj (he.symm.trans he₁)
  obtain ⟨e₂, hstep, -⟩ := run_cons.mp hpop
  rw [Deque.step, hnil] at hstep
  cases hstep

/-- A `pop_back` that only good ones precede is right iff it is good. -/
theorem popBack_reached {ops pre : List (ListOp α)} {d e : Deque α} (hd : Deque.run ops = .ok d)
    (hnew : ListRun.run ops ≠ .error (.misuse "new")) (hpre : pre ++ [.popBack] <+: ops)
    (he : Deque.run pre = .ok e)
    (hgood : ∀ pre' s, pre' ++ [.popBack] <+: pre → ListRun.run pre' = .ok s → PrevLinked s.list) :
    ∃ s, ListRun.run pre = .ok s ∧ (PopBackRight s.list e.items ↔ PrevLinked s.list) := by
  have hprefix : pre <+: ops := (List.prefix_append _ _).trans hpre
  obtain ⟨s, hs, es, hes, hvalues, -⟩ := listRun_simulates he (listRun_pre hprefix hnew) hgood
  have hne : es ≠ [] := by
    rintro rfl
    exact deque_nonempty hd hpre he hvalues.symm
  exact ⟨s, hs, hvalues ▸ popBack_right_iff hes hne⟩

/-- **Every `pop_back` of a run is right iff each finds at least two elements and the last node linked back
    to the one before it.** -/
theorem popBack_deque_iff {ops : List (ListOp α)} {d : Deque α} (hd : Deque.run ops = .ok d)
    (hnew : ListRun.run ops ≠ .error (.misuse "new")) :
    (∀ pre e, pre ++ [.popBack] <+: ops → Deque.run pre = .ok e →
        ∃ s, ListRun.run pre = .ok s ∧ PopBackRight s.list e.items) ↔
      ∀ pre s, pre ++ [.popBack] <+: ops → ListRun.run pre = .ok s → PrevLinked s.list := by
  constructor
  · intro hright
    -- by the length of the part of the run before it
    suffices h : ∀ n pre s, pre.length = n → pre ++ [.popBack] <+: ops → ListRun.run pre = .ok s →
        PrevLinked s.list from fun pre s => h _ pre s rfl
    intro n
    induction n using Nat.strong_induction_on with
    | _ n ih =>
        intro pre s hlen hpre hs
        have hprefix : pre <+: ops := (List.prefix_append _ _).trans hpre
        obtain ⟨e, he⟩ := run_prefix hprefix hd
        obtain ⟨s₁, hs₁, hiff⟩ := popBack_reached hd hnew hpre he fun pre' s' hpre' hs' =>
          ih pre'.length (by have := hpre'.length_le; simp at this; omega) pre' s' rfl
            (hpre'.trans hprefix) hs'
        obtain ⟨s₂, hs₂, hpop⟩ := hright pre e hpre he
        obtain rfl : s = s₁ := Except.ok.inj (hs.symm.trans hs₁)
        obtain rfl : s = s₂ := Except.ok.inj (hs.symm.trans hs₂)
        exact hiff.mp hpop
  · intro hlinked pre e hpre he
    have hprefix : pre <+: ops := (List.prefix_append _ _).trans hpre
    obtain ⟨s, hs, hiff⟩ := popBack_reached hd hnew hpre he fun pre' s' hpre' hs' =>
      hlinked pre' s' (hpre'.trans hprefix) hs'
    exact ⟨s, hs, hiff.mpr (hlinked pre s hpre hs)⟩

/-- The second of two elements pushed at the back can be popped: its node links back to the first. -/
theorem popBack_deque_pushed_back : ∃ s,
    ListRun.run [.pushBack 8 'a', .pushBack 16 'b'] = .ok s ∧ PopBackRight s.list ['a', 'b'] := by
  have hlinked : ∀ pre s, pre ++ [.popBack] <+: [.pushBack 8 'a', .pushBack 16 'b', .popBack] →
      ListRun.run pre = .ok s → PrevLinked s.list := by
    intro pre s hpre hs
    -- there is one `pop_back`, after both pushes
    obtain rfl : pre = [.pushBack 8 'a', .pushBack 16 'b'] := by
      match pre with
      | [] => cases (List.cons_prefix_cons.mp hpre).1
      | [_] => cases (List.cons_prefix_cons.mp (List.cons_prefix_cons.mp hpre).2).1
      | [_, _] =>
          obtain ⟨rfl, h⟩ := List.cons_prefix_cons.mp hpre
          obtain ⟨rfl, -⟩ := List.cons_prefix_cons.mp h
          rfl
      | _ :: _ :: _ :: _ => exact absurd hpre.length_le (by simp)
    obtain ⟨t, ht, hfirst, -⟩ | hnew := pushBack_spec (p := 8) (v := 'a') holds_empty
    · obtain ⟨u, hu, hboth, -⟩ | hnew := pushBack_spec (p := 16) (v := 'b') hfirst
      · cases ht
        cases hu
        cases hs
        exact ⟨[], (8, 'a'), (16, 'b'), _, hboth, rfl, rfl⟩
      · cases ht
        cases hnew
    · cases hnew
  exact (popBack_deque_iff (d := ⟨['a'], ['b']⟩) rfl (by intro h; cases h)).mpr hlinked
    [.pushBack 8 'a', .pushBack 16 'b'] ⟨['a', 'b'], []⟩ (List.prefix_refl _) rfl

/-- **Two elements pushed at the front**: the node of the first one never learned of the second, so
    `pop_back` deletes it and leaves `next` of the second leading to it. -/
theorem popBack_after_pushFront :
    ∃ s t, Deque.run [.pushFront 8 'a', .pushFront 16 'b'] = .ok ⟨['b', 'a'], []⟩ ∧
      ListRun.run [.pushFront 8 'a', .pushFront 16 'b'] = .ok s ∧ s.list.popBack = .ok ('a', t) ∧
      t.first = 16 ∧ (∃ node, t.nodes 16 = some node ∧ node.next = 8) ∧ t.nodes 8 = none ∧
      t.iterate = .error (.bounds "list_node") ∧ ¬ PopBackRight s.list ['b', 'a'] := by
  refine ⟨_, _, rfl, rfl, rfl, rfl, ⟨_, rfl, rfl⟩, rfl, rfl, ?_⟩
  rintro ⟨out, t, es, hrun, -, hes, -⟩
  have hiterate : t.iterate = .ok (es.map Prod.snd) := visit_eq hes.chain hes.ne_zero hes.length_lt
  cases hrun
  cases hiterate

end WeirdOs
