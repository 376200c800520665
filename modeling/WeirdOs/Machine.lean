import WeirdOs.Lib.Exec
import WeirdOs.Lib.ByteMem

/-!
# `Machine` — the 32-bit machine the kernel runs on

`uint32_t`, `size_t` and every pointer are 32 bits wide: they are natural numbers below `2^32`, and
every addition or subtraction of the source is written with its reduction (`add32`, `sub32`). Memory is
`Lib.Mem`, a byte for every address.

Code that does not return has a `Fault` instead of a value. `assert` is the macro of `assert.h`: a false
condition ends in `__assert`, which prints the text and spins forever.
-/

namespace WeirdOs

open Lib

/-- Why a piece of kernel code does not return normally. -/
inductive Fault where
  /-- `__assert` was reached with this text. -/
  | assertion (text : String)
  /-- An access outside the named object. -/
  | bounds (object : String)
  /-- A null handle or pointer of the named kind was dereferenced. -/
  | null (what : String)
  /-- A loop did not end within the steps it was given. -/
  | fuel
  /-- The caller broke the discipline of the interface (a pointer that is not live). -/
  | misuse (what : String)
deriving DecidableEq, Repr

/-- Kernel code: a value, or the fault it stopped with. -/
abbrev Exec := Except Fault

/-- The `assert` macro. -/
def assert (cond : Bool) (text : String) : Exec Unit :=
  if cond then pure () else throw (.assertion text)

@[simp] theorem assert_true (text : String) : assert true text = .ok () := rfl

@[simp] theorem assert_false (text : String) : assert false text = .error (.assertion text) := rfl

theorem assert_eq_ok {cond : Bool} {text : String} {u : Unit} :
    assert cond text = .ok u ↔ cond = true := by
  cases cond <;> simp

/-! ## 32-bit arithmetic -/

/-- Truncation to 32 bits. -/
def word (n : Nat) : Nat := n % 4294967296

/-- `a + b` on `uint32_t`. -/
def add32 (a b : Nat) : Nat := (a + b) % 4294967296

/-- `a - b` on `uint32_t`. -/
def sub32 (a b : Nat) : Nat := (a + (4294967296 - b % 4294967296)) % 4294967296

/-- The `int` with the bits of a `uint32_t`. -/
def toInt32 (n : Nat) : Int := if n < 2147483648 then n else (n : Int) - 4294967296

theorem word_of_lt {n : Nat} (h : n < 4294967296) : word n = n := Nat.mod_eq_of_lt h

theorem sub32_lt (a b : Nat) : sub32 a b < 4294967296 := Nat.mod_lt _ (by decide)

/-- An addition that does not carry out of 32 bits. -/
theorem add32_of_lt {a b : Nat} (h : a + b < 4294967296) : add32 a b = a + b := Nat.mod_eq_of_lt h

/-- A subtraction that does not borrow. -/
theorem sub32_of_le {a b : Nat} (h : b ≤ a) (ha : a < 4294967296) : sub32 a b = a - b := by
  unfold sub32
  omega

/-- A number without the sign bit is itself as an `int`. -/
theorem toInt32_of_lt {n : Nat} (h : n < 2147483648) : toInt32 n = n := if_pos h

/-! ## Pages -/

/-- Masking off the offset inside a page. -/
theorem and_offsetMask (a : Nat) : a &&& 0xfff = a % 4096 := Nat.and_two_pow_sub_one_eq_mod a 12

/-- Clearing the low `j` bits of a word. -/
theorem and_highMask {a j : Nat} (hj : j ≤ 32) (h : a < 4294967296) :
    a &&& (1 <<< (32 - j) - 1) <<< j = a >>> j <<< j := by
  apply Nat.eq_of_testBit_eq
  intro i
  rw [Nat.one_shiftLeft, Nat.testBit_and, Nat.testBit_shiftLeft, Nat.testBit_shiftLeft,
    Nat.testBit_two_pow_sub_one, Nat.testBit_shiftRight]
  by_cases hi : j ≤ i
  · rw [Nat.add_sub_cancel' hi]
    by_cases hi' : i < 32
    · simp [hi, show i - j < 32 - j from by omega]
    · have hzero : a.testBit i = false :=
        Nat.testBit_lt_two_pow (Nat.lt_of_lt_of_le h
          (Nat.pow_le_pow_right (n := 2) (by decide) (by omega : 32 ≤ i)))
      simp [hzero]
  · simp [hi]

/-- Rounding down to a page. -/
theorem and_pageMask {a : Nat} (h : a < 4294967296) : a &&& 0xfffff000 = a / 4096 * 4096 := by
  have hmask := and_highMask (j := 12) (by decide) h
  rwa [Nat.shiftLeft_eq (a >>> 12), Nat.shiftRight_eq_div_pow] at hmask

end WeirdOs
