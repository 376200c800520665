import Mathlib.Data.List.Nodup
import Mathlib.Logic.Function.Basic

/-!
# `Lib.HashTable` — a table of chains is an association list

A table has a bucket for each hash value, a chain of entries. An entry is set by appending it to the chain
of its hash, and looked up by walking that chain, so the entry that was set first is the one found.

`Represents t l`: lookups in the table give what they give in the list `l` of all entries in the order in
which they were set. The hash function does not matter for this.
-/

namespace Lib

variable {β κ ν : Type}

/-- A chain of entries for every hash value. -/
structure HashTable (β κ ν : Type) where
  bucket : β → List (κ × ν)

namespace HashTable

variable [DecidableEq κ] {hash : κ → β} {t : HashTable β κ ν} {l : List (κ × ν)}
  {k : κ} {v : ν}

/-- All chains are empty. -/
def empty : HashTable β κ ν := ⟨fun _ => []⟩

/-- The first entry of the key in the chain of its hash. -/
def get (hash : κ → β) (t : HashTable β κ ν) (k : κ) : Option ν := (t.bucket (hash k)).lookup k

/-- Append an entry to the chain of its hash. -/
def set [DecidableEq β] (hash : κ → β) (t : HashTable β κ ν) (k : κ) (v : ν) : HashTable β κ ν :=
  ⟨Function.update t.bucket (hash k) (t.bucket (hash k) ++ [(k, v)])⟩

/-- **The table holds the entries `l`**, set in this order. -/
def Represents (hash : κ → β) (t : HashTable β κ ν) (l : List (κ × ν)) : Prop :=
  ∀ k, t.get hash k = l.lookup k

theorem represents_empty : (empty : HashTable β κ ν).Represents hash [] := fun _ => rfl

theorem Represents.set [DecidableEq β] (h : t.Represents hash l) :
    (t.set hash k v).Represents hash (l ++ [(k, v)]) := by
  intro k'
  rw [List.lookup_append, ← h k']
  unfold HashTable.get HashTable.set
  by_cases hhash : hash k' = hash k
  · simp only [hhash, Function.update_self, List.lookup_append]
  · have hne : (k' == k) = false := by
      rw [beq_eq_false_iff_ne]
      rintro rfl
      exact hhash rfl
    simp only [Function.update_of_ne hhash, List.lookup_cons, hne, List.lookup_nil, Option.or_none]

/-- With distinct keys every entry is found. -/
theorem Represents.get_of_mem (h : t.Represents hash l) (hkeys : (l.map Prod.fst).Nodup)
    (hmem : (k, v) ∈ l) : t.get hash k = some v := by
  rw [h k]
  clear h
  induction l with
  | nil => cases hmem
  | cons e l ih =>
      rw [List.map_cons, List.nodup_cons] at hkeys
      rcases List.mem_cons.mp hmem with rfl | hmem
      · exact List.lookup_cons_self
      · have hne : (k == e.1) = false := by
          rw [beq_eq_false_iff_ne]
          rintro rfl
          exact hkeys.1 (List.mem_map.mpr ⟨_, hmem, rfl⟩)
        rw [List.lookup_cons, hne]
        exact ih hkeys.2 hmem

/-- Nothing is found under a key that was never set. -/
theorem Represents.get_of_not_mem (h : t.Represents hash l) (hk : k ∉ l.map Prod.fst) :
    t.get hash k = none := by
  rw [h k, List.lookup_eq_none_iff]
  intro e he
  rw [bne_iff_ne]
  rintro rfl
  exact hk (List.mem_map_of_mem he)

end HashTable

end Lib
