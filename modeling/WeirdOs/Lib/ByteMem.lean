/-!
# `Lib.ByteMem` — byte-addressed memory with little-endian words

A memory is a total map from addresses to bytes. Words are read and written little-endian at any
alignment. Every fact below is one of three kinds: a written word reads back, a write leaves disjoint
words alone, a word depends only on its own bytes.

## Contents
- `load16` / `load32` / `store8` / `store32` and their bounds;
- read-over-write for words (`load32_store32`, `load32_store32_of_disjoint`);
- frame facts for single bytes (`store32_out`).
-/

namespace Lib

/-- Memory: the byte at every address. -/
abbrev Mem := Nat → UInt8

/-- Write one byte. -/
def store8 (m : Mem) (a : Nat) (v : UInt8) : Mem := fun x => if x = a then v else m x

/-- The little-endian 16-bit word at `a`. -/
def load16 (m : Mem) (a : Nat) : Nat := (m a).toNat + 256 * (m (a + 1)).toNat

/-- The little-endian 32-bit word at `a`. -/
def load32 (m : Mem) (a : Nat) : Nat :=
  (m a).toNat + 256 * (m (a + 1)).toNat + 65536 * (m (a + 2)).toNat + 16777216 * (m (a + 3)).toNat

/-- Write the low 32 bits of `v` at `a`, little-endian. -/
def store32 (m : Mem) (a v : Nat) : Mem := fun x =>
  if x = a then UInt8.ofNat v
  else if x = a + 1 then UInt8.ofNat (v / 256)
  else if x = a + 2 then UInt8.ofNat (v / 65536)
  else if x = a + 3 then UInt8.ofNat (v / 16777216)
  else m x

/-- Write bytes one after the other from `a` on. -/
def writeBytes (m : Mem) (a : Nat) (bytes : List UInt8) : Mem := fun x =>
  if a ≤ x then (bytes[x - a]?).getD (m x) else m x

variable {m m' : Mem} {a b v : Nat}

/-! ## Single bytes -/

@[simp] theorem store8_same (m : Mem) (a : Nat) (v : UInt8) : store8 m a v a = v := by simp [store8]

theorem store8_out {x : Nat} {v : UInt8} (h : x ≠ a) : store8 m a v x = m x := by simp [store8, h]

/-- A word store changes no byte outside its four. -/
theorem store32_out {x : Nat} (h : x < a ∨ a + 4 ≤ x) : store32 m a v x = m x := by
  unfold store32
  rw [if_neg (by omega), if_neg (by omega), if_neg (by omega), if_neg (by omega)]

/-- The bytes written are read back. -/
theorem writeBytes_in {bytes : List UInt8} {i : Nat} (h : i < bytes.length) :
    some (writeBytes m a bytes (a + i)) = bytes[i]? := by
  rw [writeBytes, if_pos (by omega), Nat.add_sub_cancel_left, List.getElem?_eq_getElem h]
  rfl

/-- Other bytes are kept. -/
theorem writeBytes_out {bytes : List UInt8} {x : Nat} (h : x < a ∨ a + bytes.length ≤ x) :
    writeBytes m a bytes x = m x := by
  unfold writeBytes
  by_cases hle : a ≤ x
  · rw [if_pos hle, List.getElem?_eq_none (by omega), Option.getD_none]
  · rw [if_neg hle]

theorem writeBytes_nil : writeBytes m a [] = m := by
  funext x
  unfold writeBytes
  rw [List.getElem?_nil, Option.getD_none, ite_self]

/-- The first one, then the others. -/
theorem writeBytes_cons {byte : UInt8} {bytes : List UInt8} :
    writeBytes m a (byte :: bytes) = writeBytes (store8 m a byte) (a + 1) bytes := by
  funext x
  unfold writeBytes
  rcases Nat.lt_trichotomy x a with hlt | rfl | hgt
  · rw [if_neg (by omega), if_neg (by omega), store8_out (by omega)]
  · rw [if_pos (Nat.le_refl x), if_neg (by omega), Nat.sub_self, store8_same]
    rfl
  · obtain ⟨d, rfl⟩ := Nat.exists_eq_add_of_lt hgt
    rw [if_pos (by omega), if_pos (by omega), show a + d + 1 - a = d + 1 from by omega,
      show a + d + 1 - (a + 1) = d from by omega, List.getElem?_cons_succ, store8_out (by omega)]

/-! ## Words -/

theorem load32_lt (m : Mem) (a : Nat) : load32 m a < 4294967296 := by
  have h0 := (m a).toNat_lt
  have h1 := (m (a + 1)).toNat_lt
  have h2 := (m (a + 2)).toNat_lt
  have h3 := (m (a + 3)).toNat_lt
  unfold load32
  omega

theorem load16_lt (m : Mem) (a : Nat) : load16 m a < 65536 := by
  have h0 := (m a).toNat_lt
  have h1 := (m (a + 1)).toNat_lt
  unfold load16
  omega

/-- A word depends only on its four bytes. -/
theorem load32_congr (h : ∀ x, a ≤ x → x < a + 4 → m' x = m x) : load32 m' a = load32 m a := by
  unfold load32
  rw [h a (by omega) (by omega), h (a + 1) (by omega) (by omega), h (a + 2) (by omega) (by omega),
    h (a + 3) (by omega) (by omega)]

/-- A 16-bit word depends only on its two bytes. -/
theorem load16_congr (h : ∀ x, a ≤ x → x < a + 2 → m' x = m x) : load16 m' a = load16 m a := by
  unfold load16
  rw [h a (by omega) (by omega), h (a + 1) (by omega) (by omega)]

/-- The same bytes elsewhere are the same word. -/
theorem load32_of_bytes (h : ∀ i < 4, m' (a + i) = m (b + i)) : load32 m' a = load32 m b := by
  have hfirst : m' a = m b := h 0 (by decide)
  unfold load32
  rw [hfirst, h 1 (by decide), h 2 (by decide), h 3 (by decide)]

theorem load16_of_bytes (h : ∀ i < 2, m' (a + i) = m (b + i)) : load16 m' a = load16 m b := by
  have hfirst : m' a = m b := h 0 (by decide)
  unfold load16
  rw [hfirst, h 1 (by decide)]

/-- **Read over write, same word.** -/
theorem load32_store32 (hv : v < 4294967296) : load32 (store32 m a v) a = v := by
  simp only [load32, store32, Nat.add_right_cancel_iff, Nat.left_eq_add, Nat.add_eq_left,
    if_true, Nat.reduceEqDiff, if_false, Nat.succ_ne_zero, UInt8.toNat_ofNat']
  omega

/-- **Read over write, disjoint words.** -/
theorem load32_store32_of_disjoint (h : b + 4 ≤ a ∨ a + 4 ≤ b) :
    load32 (store32 m a v) b = load32 m b :=
  load32_congr fun _ h1 h2 => store32_out (by omega)

end Lib
