import Mathlib.Data.Nat.Digits.Lemmas

/-!
# `Lib.Numeral` — numbers written with the digits `0` to `9` and `a` to `z`

A numeral is read from the left: `readFrom base n text` goes on from `n`, and stops at a character that is
no digit of the base. `numeral base n` writes a number with the digits that `Nat.digits` gives, the most
significant one first.

`IsNumeral base text n` says that a text is read as `n` and has no zero in front that could be left out.
There is one such text for each number (`IsNumeral.eq_numeral`), and the same holds with a sign
(`IsSignedNumeral.eq_signedNumeral`).
-/

namespace Lib

variable {base n k d : Nat} {z : Int} {c : UInt8} {text : List UInt8} {ds : List Nat}

/-! ## Digits as characters -/

/-- The character of a digit. -/
def digitChar (d : Nat) : UInt8 := UInt8.ofNat (if d < 10 then d + 48 else d + 87)

/-- The digit that a character stands for. -/
def charDigit (c : UInt8) : Option Nat :=
  if 48 ≤ c ∧ c ≤ 57 then some (c.toNat - 48)
  else if 97 ≤ c ∧ c ≤ 122 then some (c.toNat - 87)
  else none

theorem charDigit_digitChar (hd : d < 36) : charDigit (digitChar d) = some d := by
  have hall : ∀ d : Fin 36, charDigit (digitChar d) = some d.val := by decide
  exact hall ⟨d, hd⟩

theorem digitChar_of_charDigit (h : charDigit c = some d) : digitChar d = c := by
  have hall : ∀ c : UInt8, ∀ d ∈ charDigit c, digitChar d = c := by
    intro c d hd
    unfold charDigit at hd
    apply UInt8.toNat_inj.mp
    simp only [UInt8.le_iff_toNat_le, UInt8.reduceToNat] at hd
    have hlt := c.toNat_lt
    split at hd
    · obtain rfl : c.toNat - 48 = d := by simpa using hd
      rw [digitChar, if_pos (by omega), UInt8.toNat_ofNat']
      omega
    · split at hd
      · obtain rfl : c.toNat - 87 = d := by simpa using hd
        rw [digitChar, if_neg (by omega), UInt8.toNat_ofNat']
        omega
      · cases hd
  exact hall c d h

/-! ## Reading -/

/-- Read on from `n`, to nowhere at a character that is no digit. -/
def readFrom (base n : Nat) : List UInt8 → Option Nat
  | []        => some n
  | c :: text =>
    match charDigit c with
    | some d => if d < base then readFrom base (base * n + d) text else none
    | none   => none

/-- The number that a text is read as. -/
def readNat (base : Nat) (text : List UInt8) : Option Nat := if text = [] then none else readFrom base 0 text

/-- The same with a sign in front of the number, when it is negative. -/
def readInt (base : Nat) (text : List UInt8) : Option Int :=
  if text.head? = some 45 then (readNat base text.tail).map fun n : Nat => -(n : Int)
  else (readNat base text).map fun n : Nat => (n : Int)

/-- Behind a minus sign. -/
theorem readInt_minus : readInt base (45 :: text) = some (-(n : Int)) ↔ readNat base text = some n := by
  have hneg : Function.Injective fun k : Nat => -(k : Int) := fun k m heq => by simpa using heq
  rw [readInt, if_pos List.head?_cons, List.tail_cons]
  exact (Option.map_injective hneg).eq_iff' rfl

/-- Without one. -/
theorem readInt_of_head (hhead : text.head? ≠ some 45) :
    readInt base text = some (n : Int) ↔ readNat base text = some n := by
  rw [readInt, if_neg hhead]
  exact (Option.map_injective Int.ofNat_injective).eq_iff' rfl

theorem readFrom_digit (hd : d < base) (hbase : base ≤ 36) (n : Nat) (text : List UInt8) :
    readFrom base n (digitChar d :: text) = readFrom base (base * n + d) text := by
  rw [readFrom, charDigit_digitChar (by omega)]
  exact if_pos hd

/-- **What is read are digits**, and the number is theirs. -/
theorem readFrom_eq_some (hbase : base ≤ 36) :
    readFrom base n text = some k ↔
      ∃ ds : List Nat, text = ds.map digitChar ∧ (∀ d ∈ ds, d < base) ∧
        ds.foldl (fun n d => base * n + d) n = k := by
  induction text generalizing n with
  | nil => simp [readFrom]
  | cons c text ih =>
      constructor
      · intro h
        rw [readFrom] at h
        cases hc : charDigit c with
        | none => simp [hc] at h
        | some d =>
            rw [hc] at h
            by_cases hd : d < base
            · obtain ⟨ds, rfl, hds, hk⟩ := ih.mp ((if_pos hd).symm.trans h)
              refine ⟨d :: ds, ?_, List.forall_mem_cons.mpr ⟨hd, hds⟩, hk⟩
              rw [List.map_cons, digitChar_of_charDigit hc]
            · simp [hd] at h
      · rintro ⟨ds, htext, hds, hk⟩
        cases ds with
        | nil => cases htext
        | cons d ds =>
            obtain ⟨rfl, rfl⟩ := List.cons.inj htext
            rw [List.forall_mem_cons] at hds
            rw [readFrom_digit hds.1 hbase]
            exact ih.mpr ⟨ds, rfl, hds.2, hk⟩

/-- Reading from the left is evaluating the digits from the right. -/
theorem foldl_reverse (base : Nat) (ds : List Nat) :
    ds.reverse.foldl (fun n d => base * n + d) 0 = Nat.ofDigits base ds := by
  rw [List.foldl_reverse, Nat.ofDigits_eq_foldr]
  congr 1
  funext d n
  exact Nat.add_comm _ _

/-! ## Writing -/

/-- The number with as many digits as it needs. -/
def numeral (base n : Nat) : List UInt8 :=
  if n = 0 then [48] else (Nat.digits base n).reverse.map digitChar

/-- The same for a number with a sign. -/
def signedNumeral (base : Nat) (z : Int) : List UInt8 :=
  if z < 0 then 45 :: numeral base z.natAbs else numeral base z.natAbs

theorem numeral_ne_nil (base n : Nat) : numeral base n ≠ [] := by
  unfold numeral
  split
  · simp
  · simpa [Nat.digits_eq_nil_iff_eq_zero]

/-- **What is written is read back.** -/
theorem readNat_numeral (h1 : 1 < base) (hbase : base ≤ 36) (n : Nat) :
    readNat base (numeral base n) = some n := by
  rw [readNat, if_neg (numeral_ne_nil base n), readFrom_eq_some hbase]
  by_cases hn : n = 0
  · refine ⟨[0], ?_, ?_, ?_⟩
    · rw [numeral, if_pos hn]
      rfl
    · simpa using by omega
    · simp [hn]
  · refine ⟨(Nat.digits base n).reverse, ?_, ?_, ?_⟩
    · rw [numeral, if_neg hn]
    · intro d hd
      exact Nat.digits_lt_base h1 (List.mem_reverse.mp hd)
    · rw [foldl_reverse, Nat.ofDigits_digits]

theorem digitChar_eq_zero (hd : d < 36) (h : digitChar d = 48) : d = 0 := by
  have hdigit := charDigit_digitChar hd
  rw [h] at hdigit
  exact (Option.some.inj hdigit).symm

/-- No digit looks like the sign. -/
theorem digitChar_ne_minus (hd : d < 36) : digitChar d ≠ 45 := by
  intro h
  have hdigit := charDigit_digitChar hd
  rw [h] at hdigit
  cases hdigit

/-! ## Without zeros in front -/

/-- **The text is read as `n`**, and does not begin with a zero unless it is one. -/
structure IsNumeral (base : Nat) (text : List UInt8) (n : Nat) : Prop where
  read : readNat base text = some n
  noZero : text.head? = some 48 → text = [48]

/-- **The text is read as `z`**, and has neither a zero in front nor a sign before a zero. -/
structure IsSignedNumeral (base : Nat) (text : List UInt8) (z : Int) : Prop where
  read : readInt base text = some z
  noZero : text.head? = some 48 → text = [48]
  noMinusZero : text.head? = some 45 → text.tail.head? ≠ some 48

theorem isNumeral_numeral (h1 : 1 < base) (hbase : base ≤ 36) (n : Nat) :
    IsNumeral base (numeral base n) n := by
  refine ⟨readNat_numeral h1 hbase n, ?_⟩
  unfold numeral
  by_cases hn : n = 0
  · simp [hn]
  · rw [if_neg hn]
    intro hhead
    -- the most significant digit is not zero
    rw [List.head?_map, List.head?_reverse, List.getLast?_eq_getLast_of_ne_nil
      (Nat.digits_ne_nil_iff_ne_zero.mpr hn)] at hhead
    have hlast := Nat.getLast_digit_ne_zero base hn
    have hlt : (Nat.digits base n).getLast (Nat.digits_ne_nil_iff_ne_zero.mpr hn) < 36 :=
      Nat.lt_of_lt_of_le (Nat.digits_lt_base h1 (List.getLast_mem _)) hbase
    exact absurd (digitChar_eq_zero hlt (Option.some.inj hhead)) hlast

/-- **There is one numeral of a number.** -/
theorem IsNumeral.eq_numeral (h1 : 1 < base) (hbase : base ≤ 36) (h : IsNumeral base text n) :
    text = numeral base n := by
  have hread := h.read
  rw [readNat] at hread
  by_cases hnil : text = []
  · rw [if_pos hnil] at hread
    cases hread
  · rw [if_neg hnil, readFrom_eq_some hbase] at hread
    obtain ⟨ds, rfl, hds, hvalue⟩ := hread
    by_cases hzero : (ds.map digitChar).head? = some 48
    · -- a zero alone
      have htext := h.noZero hzero
      have hread := h.read
      rw [htext] at hread ⊢
      have hn : n = 0 := (Option.some.inj (hread.symm.trans (by
        rw [readNat, if_neg (by simp)]
        exact readFrom_digit (d := 0) (by omega) hbase 0 []))).trans (by simp)
      rw [numeral, if_pos hn]
    · obtain ⟨first, rest, rfl⟩ : ∃ first rest, ds = first :: rest := by
        cases ds with
        | nil => simp at hnil
        | cons first rest => exact ⟨first, rest, rfl⟩
      have hfirst : first ≠ 0 := by
        rintro rfl
        exact hzero rfl
      have hdigits : Nat.digits base n = (first :: rest).reverse := by
        rw [← hvalue, ← List.reverse_reverse (first :: rest), foldl_reverse, List.reverse_reverse]
        apply Nat.digits_ofDigits base h1
        · intro d hd
          exact hds d (List.mem_reverse.mp hd)
        · intro _
          simpa using hfirst
      have hn : n ≠ 0 := by
        rintro rfl
        simp at hdigits
      rw [numeral, if_neg hn, hdigits, List.reverse_reverse]

theorem numeral_head (h1 : 1 < base) (hbase : base ≤ 36) (n : Nat) : (numeral base n).head? ≠ some 45 := by
  obtain ⟨ds, hds, hlt, -⟩ : ∃ ds : List Nat, numeral base n = ds.map digitChar ∧ (∀ d ∈ ds, d < base) ∧ _ :=
    (readFrom_eq_some hbase).mp (by
      have hread := readNat_numeral h1 hbase n
      rwa [readNat, if_neg (numeral_ne_nil base n)] at hread)
  rw [hds]
  cases ds with
  | nil => simp
  | cons d ds =>
      intro h
      have hd := hlt d List.mem_cons_self
      exact digitChar_ne_minus (by omega) (Option.some.inj h)

theorem isSignedNumeral_signedNumeral (h1 : 1 < base) (hbase : base ≤ 36) (z : Int) :
    IsSignedNumeral base (signedNumeral base z) z := by
  have hnum := isNumeral_numeral h1 hbase z.natAbs
  unfold signedNumeral
  by_cases hz : z < 0
  · rw [if_pos hz]
    refine ⟨?_, by simp, ?_⟩
    · have habs : z = -(z.natAbs : Int) := by omega
      rw [habs, Int.natAbs_neg, Int.natAbs_natCast, readInt_minus]
      exact hnum.read
    · intro _ hhead
      have htext := hnum.noZero hhead
      have hread := hnum.read
      rw [htext, readNat, if_neg (by simp)] at hread
      have hzero := hread.symm.trans (readFrom_digit (d := 0) (by omega) hbase 0 [])
      simp [readFrom] at hzero
      omega
  · rw [if_neg hz]
    refine ⟨?_, hnum.noZero, fun h => absurd h (numeral_head h1 hbase _)⟩
    have habs : z = (z.natAbs : Int) := by omega
    rw [habs, Int.natAbs_natCast, readInt_of_head (numeral_head h1 hbase _)]
    exact hnum.read

/-- **There is one signed numeral of a number.** -/
theorem IsSignedNumeral.eq_signedNumeral (h1 : 1 < base) (hbase : base ≤ 36)
    (h : IsSignedNumeral base text z) : text = signedNumeral base z := by
  have hread := h.read
  rw [readInt] at hread
  by_cases hsign : text.head? = some 45
  · rw [if_pos hsign] at hread
    obtain ⟨n, hn, rfl⟩ := Option.map_eq_some_iff.mp hread
    have hnum : IsNumeral base text.tail n := ⟨hn, fun h0 => absurd h0 (h.noMinusZero hsign)⟩
    have htail := hnum.eq_numeral h1 hbase
    have hpos : n ≠ 0 := by
      rintro rfl
      apply h.noMinusZero hsign
      rw [htail, numeral, if_pos rfl]
      rfl
    rw [signedNumeral, if_pos (by omega), Int.natAbs_neg, Int.natAbs_natCast, ← htail]
    exact (List.cons_head?_tail hsign).symm
  · rw [if_neg hsign] at hread
    obtain ⟨n, hn, rfl⟩ := Option.map_eq_some_iff.mp hread
    have hnum : IsNumeral base text n := ⟨hn, h.noZero⟩
    rw [signedNumeral, if_neg (by omega), Int.natAbs_natCast]
    exact hnum.eq_numeral h1 hbase

end Lib
