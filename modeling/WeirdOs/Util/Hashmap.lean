import WeirdOs.Machine
import WeirdOs.Lib.HashTable

/-!
# `Util.Hashmap` — `util/hashmap.h`

A `hashmap` has 256 buckets, each a chain of nodes. `GenericMap` is the template itself, with its two
walks along a chain, for keys of any type and the overload of `hash` they select.

`Hashmap` is its instance with numbers as keys, as the inode caches have it, on the hash table of
`Lib.HashTable`. Numbers are hashed as the text of their four bytes: what follows a byte that is zero does
not count. `hashmap::set` appends a node, also for a key that has one already.
-/

namespace WeirdOs

open Lib

/-- The loop of `hash(const char *)`, over the bytes before the NUL. -/
def hashLoop (hash : Nat) : List UInt8 → Nat
  | []       => hash
  | c :: str => hashLoop (add32 (add32 (word (hash * 32)) hash) c.toNat) str

/-- `hash(const char *)`. -/
def hashText (str : List UInt8) : UInt8 := UInt8.ofNat (hashLoop 5381 str % 0x100)

/-- The bytes of a `size_t` in memory. -/
def sizeBytes (i : Nat) : List UInt8 :=
  [UInt8.ofNat i, UInt8.ofNat (i / 0x100), UInt8.ofNat (i / 0x10000), UInt8.ofNat (i / 0x1000000)]

/-- `hash(size_t)`: the bytes of the number, with a NUL behind them. -/
def hash (i : Nat) : UInt8 := hashText ((sizeBytes i).takeWhile (· ≠ 0))

/-- `hashmap<size_t, V>`. -/
abbrev Hashmap (ν : Type) := HashTable UInt8 Nat ν

/-- `hashmap::hashmap`. -/
def Hashmap.empty {ν : Type} : Hashmap ν := HashTable.empty

/-- `hashmap::get`. The assertion after the loop repeats the condition that ends it. -/
def Hashmap.get {ν : Type} (map : Hashmap ν) (key : Nat) : Option ν := HashTable.get hash map key

/-- `hashmap::set`. A chain that is null is one without nodes. -/
def Hashmap.set {ν : Type} (map : Hashmap ν) (key : Nat) (value : ν) : Hashmap ν :=
  HashTable.set hash map key value

/-! ## Keys of any type -/

section Generic

variable {κ ν : Type} [DecidableEq κ]

/-- `hashmap<K, V>`: the nodes of each chain, in the order in which `next` leads through them. -/
structure GenericMap (κ ν : Type) where
  table : UInt8 → List (κ × ν)

/-- `hashmap::hashmap`. -/
def GenericMap.empty : GenericMap κ ν := ⟨fun _ => []⟩

/-- The loop of `hashmap::get`: walk on while the key is another one. -/
def findNode (key : κ) : List (κ × ν) → Option (κ × ν)
  | []           => none
  | node :: next => if key = node.1 then some node else findNode key next

/-- `hashmap::get`, with the overload of `hash` for the keys. -/
def GenericMap.get (hash : κ → UInt8) (map : GenericMap κ ν) (key : κ) : Exec (Option ν) :=
  match findNode key (map.table (hash key)) with
  | none => return none
  | some node => do
    assert (key = node.1) "key == node->key && \"Key failure\""
    return some node.2

/-- The loop of `hashmap::set`: walk to the terminal node and put the new one behind it. -/
def appendNode (new : κ × ν) : List (κ × ν) → List (κ × ν)
  | []           => [new]
  | node :: next => node :: appendNode new next

/-- `hashmap::set`. -/
def GenericMap.set (hash : κ → UInt8) (map : GenericMap κ ν) (key : κ) (value : ν) : GenericMap κ ν :=
  ⟨Function.update map.table (hash key) (appendNode (key, value) (map.table (hash key)))⟩

/-- A sequence of `hashmap::set` calls on a new map. -/
def GenericMap.setAll (hash : κ → UInt8) (sets : List (κ × ν)) : GenericMap κ ν :=
  sets.foldl (fun map entry => map.set hash entry.1 entry.2) .empty

end Generic

example : hash 1 ≠ hash 2 ∧ hash 1 = hash 352 := by decide

end WeirdOs
