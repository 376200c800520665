import Mathlib.Logic.Function.Basic
import Mathlib.Data.Nat.Bitwise

/-!
# `Lib.Bitmap` — a set of numbers in an array of words

A bitmap keeps a set of numbers in the bits of an array of `w`-bit words: number `f` is bit `f % w` of
word `f / w`. The three operations an allocator needs:

* `testAt` — is the number in the set;
* `setAt` — put it in (`testAt_setAt`: nothing else changes);
* `firstClear` — the two-level search for a number that is not in the set: skip the words that are all
  ones, then look at the bits of one word. It finds one below `n * w` exactly when there is one
  (`firstClear_clear`, `firstClear_isSome`), and the least one (`firstClear_least`).
-/

namespace Lib

variable {w n f g : Nat} {words : Nat → Nat}

/-- Is `f` in the bitmap? -/
def testAt (w : Nat) (words : Nat → Nat) (f : Nat) : Bool := (words (f / w)).testBit (f % w)

/-- Put `f` into the bitmap. -/
def setAt (w : Nat) (words : Nat → Nat) (f : Nat) : Nat → Nat :=
  Function.update words (f / w) (words (f / w) ||| 1 <<< (f % w))

/-- Take `f` out of the bitmap. -/
def clearAt (w : Nat) (words : Nat → Nat) (f : Nat) : Nat → Nat :=
  Function.update words (f / w) (words (f / w) &&& ((2 ^ w - 1) ^^^ 1 <<< (f % w)))

/-- A number below `n * w` that is not in the bitmap, the smallest one. -/
def firstClear (w : Nat) (words : Nat → Nat) (n : Nat) : Option Nat :=
  (List.range n).findSome? fun i =>
    if words i ≠ 2 ^ w - 1 then
      ((List.range w).find? fun j => words i &&& (1 <<< j) = 0).map fun j => i * w + j
    else none

/-- The words the search looks at: word `i` if the words in front of it have not ended the search. -/
def searched (w : Nat) (words : Nat → Nat) (n : Nat) : List Nat :=
  (List.range n).filter fun i => (firstClear w words i).isNone

/-! ## Bits -/

/-- Masking with one bit tests it. -/
theorem and_one_shiftLeft_eq_zero (x j : Nat) : x &&& (1 <<< j) = 0 ↔ x.testBit j = false := by
  rw [Nat.one_shiftLeft, Nat.and_two_pow]
  cases x.testBit j <;> simp

/-- A number is known by its word and its bit. -/
theorem eq_iff_word_bit : g = f ↔ g / w = f / w ∧ f % w = g % w := by
  constructor
  · rintro rfl
    exact ⟨rfl, rfl⟩
  · rintro ⟨hword, hbit⟩
    rw [← Nat.div_add_mod g w, ← Nat.div_add_mod f w, hword, hbit]

/-! ## Setting -/

/-- **Setting a bit** adds one number. -/
theorem testAt_setAt : testAt w (setAt w words f) g = (decide (g = f) || testAt w words g) := by
  unfold testAt setAt
  by_cases hword : g / w = f / w
  · have hiff : g = f ↔ f % w = g % w := by rw [eq_iff_word_bit, and_iff_right hword]
    rw [hword, Function.update_self, Nat.testBit_or, Nat.one_shiftLeft, Nat.testBit_two_pow,
      decide_eq_decide.mpr hiff, Bool.or_comm]
  · have hfg : g ≠ f := fun h => hword (by rw [h])
    rw [Function.update_of_ne hword]
    simp [hfg]

/-- Putting in what is there already changes nothing. -/
theorem setAt_of_testAt (h : testAt w words f = true) : setAt w words f = words := by
  unfold setAt
  rw [Function.update_eq_self_iff]
  apply Nat.eq_of_testBit_eq
  intro i
  rw [Nat.testBit_or, Nat.one_shiftLeft, Nat.testBit_two_pow]
  by_cases hi : f % w = i
  · have hbit : (words (f / w)).testBit i = true := hi ▸ h
    simp [hbit]
  · simp [hi]

/-- **Clearing a bit** removes one number. -/
theorem testAt_clearAt (hw : 0 < w) :
    testAt w (clearAt w words f) g = (!decide (g = f) && testAt w words g) := by
  unfold testAt clearAt
  by_cases hword : g / w = f / w
  · have hiff : g = f ↔ f % w = g % w := by rw [eq_iff_word_bit, and_iff_right hword]
    rw [hword, Function.update_self, Nat.testBit_and, Nat.testBit_xor, Nat.testBit_two_pow_sub_one,
      Nat.one_shiftLeft, Nat.testBit_two_pow, decide_eq_true (Nat.mod_lt g hw), Bool.true_xor,
      decide_eq_decide.mpr hiff, Bool.and_comm]
  · have hfg : g ≠ f := fun h => hword (by rw [h])
    rw [Function.update_of_ne hword]
    simp [hfg]

/-! ## Searching -/

/-- **The search is sound.** -/
theorem firstClear_clear (h : firstClear w words n = some f) :
    testAt w words f = false ∧ f < n * w := by
  obtain ⟨i, hi, hf⟩ := List.exists_of_findSome?_eq_some h
  rw [List.mem_range] at hi
  split at hf
  · obtain ⟨j, hj, rfl⟩ := Option.map_eq_some_iff.mp hf
    have hjw : j < w := List.mem_range.mp (List.mem_of_find?_eq_some hj)
    have hclear := List.find?_some hj
    simp only [decide_eq_true_eq] at hclear
    rw [and_one_shiftLeft_eq_zero] at hclear
    have hdiv : (i * w + j) / w = i := by
      rw [Nat.mul_comm, Nat.mul_add_div (by omega), Nat.div_eq_of_lt hjw, Nat.add_zero]
    have hmod : (i * w + j) % w = j := by
      rw [Nat.mul_comm, Nat.mul_add_mod, Nat.mod_eq_of_lt hjw]
    refine ⟨by rw [testAt, hdiv, hmod, hclear], ?_⟩
    calc i * w + j < i * w + w := Nat.add_lt_add_left hjw _
      _ = (i + 1) * w := (Nat.succ_mul i w).symm
      _ ≤ n * w := Nat.mul_le_mul_right w hi
  · cases hf

/-- **The search is complete.** -/
theorem firstClear_isSome (hf : f < n * w) (hclear : testAt w words f = false) :
    ∃ g, firstClear w words n = some g := by
  have hw : 0 < w := by
    rcases Nat.eq_zero_or_pos w with rfl | hw
    · simp at hf
    · exact hw
  have hbit : (words (f / w)).testBit (f % w) = false := hclear
  have hmod : f % w < w := Nat.mod_lt f hw
  cases hsome : firstClear w words n with
  | some g => exact ⟨g, rfl⟩
  | none =>
      exfalso
      -- the word of `f` would have been searched, and bit `f % w` found clear
      have hnone := List.findSome?_eq_none_iff.mp hsome (f / w)
        (List.mem_range.mpr (Nat.div_lt_of_lt_mul (by rwa [Nat.mul_comm] at hf)))
      have hones : words (f / w) ≠ 2 ^ w - 1 := fun h => by
        rw [h, Nat.testBit_two_pow_sub_one, decide_eq_true hmod] at hbit
        cases hbit
      rw [if_pos hones, Option.map_eq_none_iff, List.find?_eq_none] at hnone
      have hnot := hnone (f % w) (List.mem_range.mpr hmod)
      simp only [decide_eq_true_eq, and_one_shiftLeft_eq_zero] at hnot
      exact hnot hbit

/-- **The search finds nothing** exactly when every number it covers is in the bitmap. -/
theorem firstClear_eq_none : firstClear w words n = none ↔ ∀ f < n * w, testAt w words f = true := by
  constructor
  · intro hnone f hf
    cases htest : testAt w words f with
    | true => rfl
    | false =>
        obtain ⟨g, hg⟩ := firstClear_isSome hf htest
        rw [hnone] at hg
        cases hg
  · intro hall
    cases hsome : firstClear w words n with
    | none => rfl
    | some f =>
        obtain ⟨hclear, hf⟩ := firstClear_clear hsome
        rw [hall f hf] at hclear
        cases hclear

/-- The search of one word more. -/
theorem firstClear_succ : firstClear w words (n + 1) = (firstClear w words n).or
    (if words n ≠ 2 ^ w - 1 then
      ((List.range w).find? fun j => words n &&& (1 <<< j) = 0).map fun j => n * w + j
    else none) := by
  unfold firstClear
  rw [List.range_succ, List.findSome?_append, List.findSome?_singleton]

/-- **The search finds the least number** that is not in the bitmap. -/
theorem firstClear_least (h : firstClear w words n = some f) (hg : g < f) : testAt w words g = true := by
  induction n with
  | zero => cases h
  | succ n ih =>
      rw [firstClear_succ] at h
      cases hbefore : firstClear w words n with
      | some f' =>
          rw [hbefore, Option.some_or] at h
          exact ih (hbefore.trans h)
      | none =>
          rw [hbefore, Option.none_or] at h
          split at h
          · obtain ⟨j, hj, rfl⟩ := Option.map_eq_some_iff.mp h
            obtain ⟨-, hjw, hleast⟩ := List.find?_range_eq_some.mp hj
            rcases Nat.lt_or_ge g (n * w) with hlt | hge
            · -- `g` lies in a word that was skipped
              exact firstClear_eq_none.mp hbefore g hlt
            · -- or is a bit of the last word, in front of the one that was found
              obtain ⟨i, rfl⟩ := Nat.exists_eq_add_of_le hge
              have hi : i < j := Nat.add_lt_add_iff_left.mp hg
              have hiw : i < w := Nat.lt_trans hi (List.mem_range.mp hjw)
              have hset := hleast i hi
              rw [Bool.not_eq_true', decide_eq_false_iff_not, and_one_shiftLeft_eq_zero,
                Bool.not_eq_false] at hset
              rwa [testAt, Nat.mul_comm, Nat.mul_add_div (by omega), Nat.div_eq_of_lt hiw, Nat.add_zero,
                Nat.mul_add_mod, Nat.mod_eq_of_lt hiw]
          · cases h

/-- What is found in the first words is found in more of them. -/
theorem firstClear_mono {m : Nat} (hmn : m ≤ n) (h : firstClear w words m = some f) :
    firstClear w words n = some f := by
  obtain ⟨d, rfl⟩ := Nat.exists_eq_add_of_le hmn
  unfold firstClear at h ⊢
  rw [List.range_add, List.findSome?_append, h]
  rfl

/-- **Which words are looked at**: the search stays in front of word `m` when that is its end, or when
    there is something to find before. -/
theorem searched_lt_iff {m : Nat} :
    (∀ i ∈ searched w words n, i < m) ↔ n ≤ m ∨ ∃ f < m * w, testAt w words f = false := by
  simp only [searched, List.mem_filter, List.mem_range, Option.isNone_iff_eq_none, firstClear_eq_none]
  constructor
  · intro h
    rcases Nat.lt_or_ge m n with hlt | hge
    · right
      refine Classical.byContradiction fun hnone => Nat.lt_irrefl m (h m ⟨hlt, ?_⟩)
      intro f hf
      cases htest : testAt w words f with
      | true => rfl
      | false => exact absurd ⟨f, hf, htest⟩ hnone
    · exact Or.inl hge
  · rintro (hge | ⟨f, hf, hclear⟩) i ⟨hi, hall⟩
    · exact Nat.lt_of_lt_of_le hi hge
    · apply Nat.lt_of_not_le
      intro hle
      rw [hall f (Nat.lt_of_lt_of_le hf (Nat.mul_le_mul_right w hle))] at hclear
      cases hclear

end Lib
