import WeirdOs.Util.Hashmap

/-!
# `Util.Correctness.Hashmap` — which value a map gives for a key

`hashmap::set` never looks at the keys of the chain it appends to, and `hashmap::get` stops at the first
node with its key. So a map is the list of everything set, and the *first* value set for a key is the one
it gives (`get_setAll`). Whoever sets a key again expects the last one: `get_mostRecent_iff`. The answers
for all other keys are as before, also for those in the same chain.
-/

namespace WeirdOs

open Lib

variable {κ ν : Type}

section Spec

variable [DecidableEq κ]

/-- The value of the most recent set of the key. -/
def mostRecent (sets : List (κ × ν)) (k : κ) : Option ν := sets.reverse.lookup k

/-- The value of the first one. -/
def firstSet (sets : List (κ × ν)) (k : κ) : Option ν := sets.lookup k

end Spec

/-! ## The walks -/

theorem appendNode_eq (new : κ × ν) (chain : List (κ × ν)) : appendNode new chain = chain ++ [new] := by
  induction chain with
  | nil => rfl
  | cons node next ih => rw [appendNode, ih, List.cons_append]

variable [DecidableEq κ] {hash : κ → UInt8} {map : GenericMap κ ν} {l sets : List (κ × ν)} {k : κ}

theorem findNode_eq (chain : List (κ × ν)) :
    (findNode k chain).map Prod.snd = chain.lookup k ∧ ∀ node ∈ findNode k chain, k = node.1 := by
  induction chain with
  | nil => exact ⟨rfl, by simp [findNode]⟩
  | cons node next ih =>
      by_cases hk : k = node.1
      · have hfind : findNode k (node :: next) = some node := if_pos hk
        rw [hfind, List.lookup_cons, beq_iff_eq.mpr hk]
        refine ⟨rfl, ?_⟩
        intro found hfound
        obtain rfl : node = found := by simpa using hfound
        exact hk
      · have hfind : findNode k (node :: next) = findNode k next := if_neg hk
        rw [hfind, List.lookup_cons, beq_eq_false_iff_ne.mpr hk]
        exact ih

/-! ## The map is a hash table -/

/-- The same chains, as the library has them. -/
def GenericMap.toTable (map : GenericMap κ ν) : HashTable UInt8 κ ν := ⟨map.table⟩

omit [DecidableEq κ] in
theorem toTable_set (v : ν) : (map.set hash k v).toTable = map.toTable.set hash k v := by
  unfold GenericMap.set GenericMap.toTable HashTable.set
  rw [appendNode_eq]

/-- **`hashmap::get`** never fails its assertion, and gives the first entry of the chain. -/
theorem get_eq : map.get hash k = .ok (map.toTable.get hash k) := by
  obtain ⟨hlookup, hkey⟩ := findNode_eq (k := k) (map.table (hash k))
  unfold GenericMap.get HashTable.get GenericMap.toTable
  rw [← hlookup]
  cases hfind : findNode k (map.table (hash k)) with
  | none => rfl
  | some node => simp [hkey node hfind]

/-- A map holds what was set, in the order in which it was set. -/
theorem represents_foldl (h : map.toTable.Represents hash l) :
    (sets.foldl (fun map entry => map.set hash entry.1 entry.2) map).toTable.Represents hash (l ++ sets) := by
  induction sets generalizing map l with
  | nil => simpa using h
  | cons entry sets ih =>
      rw [List.foldl_cons, List.append_cons]
      apply ih
      rw [toTable_set]
      exact h.set

/-- **A map gives the first value set.** -/
theorem get_setAll (hash : κ → UInt8) (sets : List (κ × ν)) (k : κ) :
    (GenericMap.setAll hash sets).get hash k = .ok (firstSet sets k) := by
  rw [get_eq]
  exact congrArg _ (represents_foldl (l := []) HashTable.represents_empty k)

/-! ## One set more -/

omit [DecidableEq κ] in
theorem setAll_concat (hash : κ → UInt8) (sets : List (κ × ν)) (k : κ) (v : ν) :
    GenericMap.setAll hash (sets ++ [(k, v)]) = (GenericMap.setAll hash sets).set hash k v := by
  simp [GenericMap.setAll]

/-- The entry at the end counts for its own key only, and for that one if there is no other. -/
theorem firstSet_concat (sets : List (κ × ν)) (k k' : κ) (v : ν) :
    firstSet (sets ++ [(k, v)]) k' = (firstSet sets k').or (if k' = k then some v else none) := by
  unfold firstSet
  rw [List.lookup_append]
  by_cases hk : k' = k
  · rw [hk, if_pos rfl, List.lookup_cons_self]
  · rw [if_neg hk, List.lookup_cons, beq_eq_false_iff_ne.mpr hk, List.lookup_nil]

/-- A key that is among those set has a value. -/
theorem firstSet_eq_none : firstSet sets k = none ↔ k ∉ sets.map Prod.fst := by
  unfold firstSet
  rw [List.lookup_eq_none_iff]
  simp only [bne_iff_ne, List.mem_map, not_exists, not_and]
  constructor
  · rintro h e he rfl
    exact h e he rfl
  · rintro h e he rfl
    exact h e he rfl

/-- **What a set changes**, in a map with numbers as keys that any sets have led to: no other key's value,
    also where the two share a bucket; a key without a value has the new one afterwards; and a key that was
    never set has none. -/
theorem set_frame (sets : List (Nat × ν)) (k : Nat) (v : ν) :
    (∀ k' ≠ k, ((GenericMap.setAll WeirdOs.hash sets).set WeirdOs.hash k v).get WeirdOs.hash k' =
        (GenericMap.setAll WeirdOs.hash sets).get WeirdOs.hash k') ∧
      ((GenericMap.setAll WeirdOs.hash sets).get WeirdOs.hash k = .ok none →
        ((GenericMap.setAll WeirdOs.hash sets).set WeirdOs.hash k v).get WeirdOs.hash k = .ok (some v)) ∧
      ((GenericMap.setAll WeirdOs.hash sets).get WeirdOs.hash k = .ok none ↔ k ∉ sets.map Prod.fst) := by
  rw [← setAll_concat]
  refine ⟨?_, ?_, ?_⟩
  · intro k' hk
    rw [get_setAll, get_setAll, firstSet_concat, if_neg hk, Option.or_none]
  · intro hnone
    rw [get_setAll, Except.ok.injEq] at hnone
    rw [get_setAll, firstSet_concat, hnone, if_pos rfl, Option.none_or]
  · rw [get_setAll, Except.ok.injEq, firstSet_eq_none]

/-- The keys of the test for collisions. -/
theorem set_frame_collision :
    WeirdOs.hash 1 = WeirdOs.hash 352 ∧
      (((GenericMap.setAll WeirdOs.hash [(1, 1234)]).set WeirdOs.hash 352 4568).get WeirdOs.hash 1 =
        (GenericMap.setAll WeirdOs.hash [((1 : Nat), (1234 : Nat))]).get WeirdOs.hash 1) ∧
      ((GenericMap.setAll WeirdOs.hash [((1 : Nat), (1234 : Nat))]).set WeirdOs.hash 352 4568).get
        WeirdOs.hash 352 = .ok (some 4568) :=
  ⟨by decide, (set_frame [(1, 1234)] 352 4568).1 1 (by decide),
    (set_frame [(1, 1234)] 352 4568).2.1 ((set_frame [(1, 1234)] 352 4568).2.2.mpr (by decide))⟩

/-! ## The last write -/

/-- **When the last write wins**: when the first one has set the same value, or there was none. -/
theorem get_mostRecent_iff (hash : κ → UInt8) (sets : List (κ × ν)) (k : κ) :
    (GenericMap.setAll hash sets).get hash k = .ok (mostRecent sets k) ↔
      firstSet sets k = mostRecent sets k := by
  rw [get_setAll, Except.ok.injEq]

/-- **A key set twice** keeps its first value. -/
theorem get_after_second_set :
    (GenericMap.setAll WeirdOs.hash [(1, 10), (1, 20)]).get WeirdOs.hash 1 ≠
      .ok (mostRecent [((1 : Nat), (10 : Nat)), (1, 20)] 1) := by
  rw [get_setAll]
  decide

end WeirdOs
