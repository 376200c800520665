import WeirdOs.Clib.String
import WeirdOs.Lib.Numeral

/-!
# `Clib.Correctness.Itoa` — for which numbers `itoa` is right

`itoa` takes the digits of its number from the right (`Nat.digits`), puts them into a buffer of 16 bytes and
copies them from there the other way round. Two things go wrong. A digit from 10 on becomes the letter that
is ten places behind its own, since `'a'` stands for 10 and not for 0; and the buffer has no room for the 32
digits that a number has in base 2. `itoa_right_iff` says that there is nothing else: a call is right iff the
digits fit and all of them are below 10. In base 10, the one that the kernel uses, that is every call: a
result of its own (`itoaRight_ten`). `itoaCall_out` connects the call with its buffer to the `itoa` that prints.
-/

namespace WeirdOs

open Lib

variable {base fuel v w d len : Nat} {out buffer : List UInt8} {value : Int}

/-! ## The digits -/

/-- The character that `itoa` writes for a digit. -/
def itoaChar (d : Nat) : UInt8 := UInt8.ofNat (d + if d < 10 then 48 else 97)

/-- **Only the digits below 10** become their own characters. -/
theorem itoaChar_eq_digitChar (hd : d < 36) : itoaChar d = digitChar d ↔ d < 10 := by
  have hall : ∀ d : Fin 36, itoaChar d = digitChar d ↔ d.val < 10 := by decide
  exact hall ⟨d, hd⟩

theorem itoaChar_ne (hd : d < 36) : itoaChar d ≠ 0 ∧ itoaChar d ≠ 45 ∧ (itoaChar d = 48 → d = 0) := by
  have hall : ∀ d : Fin 36, itoaChar d ≠ 0 ∧ itoaChar d ≠ 45 ∧ (itoaChar d = 48 → d.val = 0) := by decide
  exact hall ⟨d, hd⟩

/-- A digit and the rest of the number. -/
theorem digits_step (hbase : 2 ≤ base) (hv : v ≠ 0) :
    Nat.digits base v = v % base :: Nat.digits base (v / base) :=
  Nat.digits_def' (by omega) (by omega)

/-- **The loop** writes the digits from the right. -/
theorem itoaDigits_eq (hbase : 2 ≤ base) (hv : v < base ^ fuel) :
    itoaDigits base fuel v buffer len =
      (buffer ++ (Nat.digits base v).map itoaChar, len + (Nat.digits base v).length) := by
  induction fuel generalizing v buffer len with
  | zero =>
      obtain rfl := Nat.lt_one_iff.mp hv
      simp [itoaDigits]
  | succ fuel ih =>
      rw [itoaDigits]
      by_cases hzero : v = 0
      · simp [hzero]
      · rw [if_neg hzero, ih (Nat.div_lt_of_lt_mul (Nat.pow_succ' ▸ hv)), digits_step hbase hzero,
          List.map_cons, List.length_cons, List.append_assoc, List.singleton_append, Nat.add_assoc,
          Nat.add_comm 1]
        rfl

/-- The text that the loop leads to. -/
theorem itoaLoop_eq (hbase : 2 ≤ base) (hv : v < base ^ fuel) :
    itoaLoop base fuel v out = ((Nat.digits base v).map itoaChar).reverse ++ out := by
  induction fuel generalizing v out with
  | zero =>
      obtain rfl := Nat.lt_one_iff.mp hv
      simp [itoaLoop]
  | succ fuel ih =>
      rw [itoaLoop]
      by_cases hzero : v = 0
      · simp [hzero]
      · rw [if_neg hzero, ih (Nat.div_lt_of_lt_mul (Nat.pow_succ' ▸ hv)), digits_step hbase hzero,
          List.map_cons, List.reverse_cons, List.append_assoc, List.singleton_append]
        rfl

/-- Every 32-bit number has at most 32 digits. -/
theorem lt_pow_32 (hbase : 2 ≤ base) (hv : v < 4294967296) : v < base ^ 32 :=
  Nat.lt_of_lt_of_le hv (Nat.pow_le_pow_left hbase 32)

/-! ## What a call does -/

/-- The number whose digits are written for the `int` with the bits of `w`. -/
def itoaMagnitude (w base : Nat) : Nat := if base = 10 ∧ toInt32 w < 0 then (-toInt32 w).toNat else w

/-- The sign in front of them. -/
def itoaSign (w base : Nat) : List UInt8 := if base = 10 ∧ toInt32 w < 0 then [45] else []

theorem toInt32_eq_zero (hw : w < 4294967296) : toInt32 w = 0 ↔ w = 0 := by
  unfold toInt32
  split <;> omega

/-- As `unsigned`, the number has its bits back. -/
theorem toInt32_emod (hw : w < 4294967296) : (toInt32 w % 4294967296).toNat = w := by
  unfold toInt32
  split <;> omega

theorem itoaMagnitude_lt (hw : w < 4294967296) : itoaMagnitude w base < 4294967296 := by
  unfold itoaMagnitude toInt32
  split <;> split <;> omega

theorem itoaMagnitude_ne_zero (h0 : w ≠ 0) : itoaMagnitude w base ≠ 0 := by
  unfold itoaMagnitude
  split <;> omega

/-- **The call**: the sign and the digits, which went through the buffer, the NUL, and the number of
    characters. -/
theorem itoaCall_eq (hbase : 2 ≤ base) (hw : w < 4294967296) (h0 : w ≠ 0) :
    itoaCall (toInt32 w) base =
      { buffer := (Nat.digits base (itoaMagnitude w base)).map itoaChar ++ itoaSign w base
        out := itoaSign w base ++ ((Nat.digits base (itoaMagnitude w base)).map itoaChar).reverse ++ [0]
        len := (itoaSign w base).length + (Nat.digits base (itoaMagnitude w base)).length } := by
  have hlt : itoaMagnitude w base < 4294967296 := itoaMagnitude_lt hw
  have hv := lt_pow_32 hbase hlt
  rw [itoaCall, if_neg (by rwa [toInt32_eq_zero hw]), toInt32_emod hw]
  unfold itoaMagnitude at hv ⊢
  unfold itoaSign
  by_cases hsign : base = 10 ∧ toInt32 w < 0
  · simp only [if_pos hsign] at hv ⊢
    simp [itoaDigits_eq hbase hv, Nat.add_comm]
  · simp only [if_neg hsign] at hv ⊢
    simp [itoaDigits_eq hbase hv]

/-- The text is the one that `itoa` of `Clib.String` gives. -/
theorem itoaCall_out (hbase : 2 ≤ base) (hw : w < 4294967296) :
    (itoaCall (toInt32 w) base).out = itoa (toInt32 w) base ++ [0] := by
  by_cases h0 : w = 0
  · subst h0
    rfl
  · have hlt : itoaMagnitude w base < 4294967296 := itoaMagnitude_lt hw
    have hv := lt_pow_32 hbase hlt
    have hne : ¬ toInt32 w = 0 := by rwa [toInt32_eq_zero hw]
    rw [itoaCall_eq hbase hw h0, itoa, if_neg hne, toInt32_emod hw]
    unfold itoaMagnitude at hv ⊢
    unfold itoaSign
    by_cases hsign : base = 10 ∧ toInt32 w < 0
    · simp only [if_pos hsign] at hv ⊢
      simp [itoaLoop_eq hbase hv]
    · simp only [if_neg hsign] at hv ⊢
      simp [itoaLoop_eq hbase hv]

/-! ## Reading it back -/

/-- **What a call should do**: it stays inside its buffer of 16 bytes, leaves a text with a NUL behind it,
    returns the length of that text, and the text is read as the number. -/
structure ItoaRight (value : Int) (base : Nat) : Prop where
  inside : (itoaCall value base).buffer.length ≤ 16
  terminated : 0 ∈ (itoaCall value base).out
  length : (itoaCall value base).len = ((itoaCall value base).out.takeWhile (· ≠ 0)).length
  read : readInt base ((itoaCall value base).out.takeWhile (· ≠ 0)) =
    some (if base = 10 then value else value % 4294967296)

/-- The characters before the NUL. -/
theorem takeWhile_nul {text rest : List UInt8} (h : 0 ∉ text) :
    (text ++ 0 :: rest).takeWhile (· ≠ 0) = text := by
  rw [List.takeWhile_append_of_pos]
  · simp
  · intro c hc
    have hne : c ≠ 0 := by
      rintro rfl
      exact h hc
    simpa using hne

/-- **The digits are read back iff** all are below 10. -/
theorem readNat_itoaChar_iff (hbase : 2 ≤ base) (hmax : base ≤ 36) (hv : v ≠ 0) :
    readNat base ((Nat.digits base v).map itoaChar).reverse = some v ↔ ∀ d ∈ Nat.digits base v, d < 10 := by
  have hdigits : ∀ d ∈ Nat.digits base v, d < 36 := fun d hd =>
    Nat.lt_of_lt_of_le (Nat.digits_lt_base (by omega) hd) hmax
  have hnumeral : numeral base v = ((Nat.digits base v).map digitChar).reverse := by
    rw [numeral, if_neg hv, List.map_reverse]
  -- the text is a numeral iff it is the one of `v`
  have hiff : readNat base ((Nat.digits base v).map itoaChar).reverse = some v ↔
      ((Nat.digits base v).map itoaChar).reverse = numeral base v := by
    constructor
    · intro hread
      refine IsNumeral.eq_numeral (by omega) hmax ⟨hread, fun hhead => ?_⟩
      have hne : Nat.digits base v ≠ [] := Nat.digits_ne_nil_iff_ne_zero.mpr hv
      rw [List.head?_reverse, List.getLast?_map, List.getLast?_eq_getLast_of_ne_nil hne] at hhead
      exact absurd ((itoaChar_ne (hdigits _ (List.getLast_mem hne))).2.2 (Option.some.inj hhead))
        (Nat.getLast_digit_ne_zero base hv)
    · intro htext
      rw [htext]
      exact readNat_numeral (by omega) hmax v
  rw [hiff, hnumeral, List.reverse_inj, List.map_inj_left]
  exact forall₂_congr fun d hd => itoaChar_eq_digitChar (hdigits d hd)

/-- The text without its NUL. -/
theorem itoaCall_text (hbase : 2 ≤ base) (hmax : base ≤ 36) (hw : w < 4294967296) (h0 : w ≠ 0) :
    (itoaCall (toInt32 w) base).out.takeWhile (· ≠ 0) =
      itoaSign w base ++ ((Nat.digits base (itoaMagnitude w base)).map itoaChar).reverse := by
  rw [itoaCall_eq hbase hw h0]
  apply takeWhile_nul
  rw [List.mem_append, not_or]
  constructor
  · unfold itoaSign
    split <;> decide
  · intro h
    obtain ⟨d, hd, hzero⟩ := List.mem_map.mp (List.mem_reverse.mp h)
    exact (itoaChar_ne (Nat.lt_of_lt_of_le (Nat.digits_lt_base (by omega) hd) hmax)).1 hzero

/-- The number that the text should be read as, by its sign and its digits. -/
theorem readInt_itoa_iff (hbase : 2 ≤ base) (hmax : base ≤ 36) (hw : w < 4294967296) (h0 : w ≠ 0) :
    readInt base (itoaSign w base ++ ((Nat.digits base (itoaMagnitude w base)).map itoaChar).reverse) =
        some (if base = 10 then toInt32 w else toInt32 w % 4294967296) ↔
      ∀ d ∈ Nat.digits base (itoaMagnitude w base), d < 10 := by
  have hv : itoaMagnitude w base ≠ 0 := itoaMagnitude_ne_zero h0
  rw [← readNat_itoaChar_iff hbase hmax hv]
  have hemod := toInt32_emod hw
  by_cases hsign : base = 10 ∧ toInt32 w < 0
  · have hmag : itoaMagnitude w base = (-toInt32 w).toNat := if_pos hsign
    have hvalue : toInt32 w = -((-toInt32 w).toNat : Int) := by omega
    rw [itoaSign, if_pos hsign, if_pos hsign.1, List.singleton_append, hmag, ← readInt_minus, ← hvalue]
  · have hmag : itoaMagnitude w base = w := if_neg hsign
    have hvalue : (if base = 10 then toInt32 w else toInt32 w % 4294967296) = (w : Int) := by
      have hlt : toInt32 w < 2147483648 := by
        unfold toInt32
        split <;> omega
      split <;> omega
    have hhead : ((Nat.digits base w).map itoaChar).reverse.head? ≠ some 45 := by
      intro hhead
      rw [List.head?_reverse, List.getLast?_map, Option.map_eq_some_iff] at hhead
      obtain ⟨d, hd, hminus⟩ := hhead
      have hlt := Nat.digits_lt_base (by omega) (List.mem_of_getLast? hd)
      exact (itoaChar_ne (Nat.lt_of_lt_of_le hlt hmax)).2.1 hminus
    rw [itoaSign, if_neg hsign, hvalue, hmag, List.nil_append, readInt_of_head hhead]

/-- The buffer is large enough iff the digits of the number fit it. With a sign they always do. -/
theorem itoa_inside_iff (hbase : 2 ≤ base) (hw : w < 4294967296) (h0 : w ≠ 0) :
    (itoaCall (toInt32 w) base).buffer.length ≤ 16 ↔ itoaMagnitude w base < base ^ 16 := by
  rw [itoaCall_eq hbase hw h0]
  show ((Nat.digits base (itoaMagnitude w base)).map itoaChar ++ itoaSign w base).length ≤ 16 ↔ _
  rw [List.length_append, List.length_map, ← Nat.digits_length_le_iff (by omega)]
  unfold itoaSign
  by_cases hsign : base = 10 ∧ toInt32 w < 0
  · obtain ⟨rfl, hneg⟩ := hsign
    have hword : itoaMagnitude w 10 < 4294967296 := itoaMagnitude_lt hw
    have hlt : itoaMagnitude w 10 < 10 ^ 10 := by omega
    have hlen := (Nat.digits_length_le_iff (by decide) (itoaMagnitude w 10)).mpr hlt
    rw [if_pos ⟨rfl, hneg⟩, List.length_singleton]
    omega
  · rw [if_neg hsign, List.length_nil, Nat.add_zero]

/-- Zero takes another way through the code. -/
theorem itoaRight_zero (hbase : 2 ≤ base) (hmax : base ≤ 36) : ItoaRight (toInt32 0) base := by
  have hread : readInt base [48] = some ((0 : Nat) : Int) :=
    (readInt_of_head (by decide)).mpr (readNat_numeral (by omega) hmax 0)
  have hvalue : (if base = 10 then toInt32 0 else toInt32 0 % 4294967296) = ((0 : Nat) : Int) := ite_self _
  refine ⟨?_, ?_, ?_, ?_⟩
  · exact Nat.zero_le _
  · exact List.mem_cons_of_mem _ List.mem_cons_self
  · rfl
  · rw [hvalue]
    exact hread

/-- The same for the bits as a number. -/
theorem itoaRight_iff (hbase : 2 ≤ base) (hmax : base ≤ 36) (hw : w < 4294967296) :
    ItoaRight (toInt32 w) base ↔
      itoaMagnitude w base < base ^ 16 ∧ ∀ d ∈ Nat.digits base (itoaMagnitude w base), d < 10 := by
  by_cases h0 : w = 0
  · subst h0
    have hmag : itoaMagnitude 0 base = 0 := by simp [itoaMagnitude, toInt32]
    rw [hmag]
    exact iff_of_true (itoaRight_zero hbase hmax) ⟨by positivity, by simp⟩
  · rw [← itoa_inside_iff hbase hw h0, ← readInt_itoa_iff hbase hmax hw h0,
      ← itoaCall_text hbase hmax hw h0]
    constructor
    · intro h
      exact ⟨h.inside, h.read⟩
    · rintro ⟨hinside, hread⟩
      refine ⟨hinside, ?_, ?_, hread⟩
      · rw [itoaCall_eq hbase hw h0]
        simp
      · rw [itoaCall_text hbase hmax hw h0, itoaCall_eq hbase hw h0]
        simp

/-- **In base 10 every call is right.** -/
theorem itoaRight_ten (hw : w < 4294967296) : ItoaRight (toInt32 w) 10 := by
  have hlt : itoaMagnitude w 10 < 4294967296 := itoaMagnitude_lt hw
  rw [itoaRight_iff (by decide) (by decide) hw]
  exact ⟨by omega, fun d hd => Nat.digits_lt_base (by decide) hd⟩

/-- **A call of `itoa` is right iff** its digits fit the buffer and none of them is 10 or more. -/
theorem itoa_right_iff (w : UInt32) (base : Nat) (hbase : 2 ≤ base) (hmax : base ≤ 36) :
    ItoaRight (toInt32 w.toNat) base ↔
      itoaMagnitude w.toNat base < base ^ 16 ∧ ∀ d ∈ Nat.digits base (itoaMagnitude w.toNat base), d < 10 :=
  itoaRight_iff hbase hmax w.toNat_lt

/-- In base 16 the call is right for 2457, which is 999 there, and wrong for 4095, which is fff. -/
theorem itoa_right_iff_hex :
    ItoaRight (toInt32 (2457 : UInt32).toNat) 16 ∧ ¬ ItoaRight (toInt32 (4095 : UInt32).toNat) 16 := by
  rw [itoa_right_iff 2457 16 (by decide) (by decide), itoa_right_iff 4095 16 (by decide) (by decide)]
  simp [itoaMagnitude]

/-- **Ten in base 16** is written `k`, and 65536 in base 2 has 17 digits. -/
theorem itoa_letters_and_digits :
    (itoaCall (toInt32 (10 : UInt32).toNat) 16).out = [107, 0] ∧
      ¬ ItoaRight (toInt32 (10 : UInt32).toNat) 16 ∧
      (itoaCall (toInt32 (65536 : UInt32).toNat) 2).buffer.length = 17 ∧
      ¬ ItoaRight (toInt32 (65536 : UInt32).toNat) 2 := by
  refine ⟨by decide, fun h => ?_, by decide, fun h => ?_⟩
  · have hread := h.read
    revert hread
    decide
  · have hinside := h.inside
    revert hinside
    decide

end WeirdOs
