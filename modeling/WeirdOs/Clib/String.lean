import WeirdOs.Machine
import Mathlib.Algebra.Group.Nat.Defs

/-!
# `Clib.String` — `clib/string.cpp`

The kernel's own `memcpy`, `memset`, `strlen`, `strcmp` and `itoa`. The first two work on memory and
are loops over byte addresses; the string functions are only ever applied to NUL-terminated text, which
is given as the list of its bytes before the NUL. How such a text is read from memory is `cstring`.
-/

namespace WeirdOs

open Lib

/-! ## `memcpy` and `memset` -/

/-- The memory after the first `n` iterations of the loop of `memcpy(dest, src, _)`. -/
def memcpy (m : Mem) (dest src : Nat) : Nat → Mem
  | 0     => m
  | n + 1 =>
    let m' := memcpy m dest src n
    store8 m' (add32 dest n) (m' (add32 src n))

/-- The memory after the first `n` iterations of the loop of `memset(str, c, _)`. -/
def memset (m : Mem) (str : Nat) (c : UInt8) : Nat → Mem
  | 0     => m
  | n + 1 => store8 (memset m str c n) (add32 str n) c

/-- `memcpy` writes inside `[dest, dest + n)` only. -/
theorem memcpy_out {m : Mem} {dest src n x : Nat} (hd : dest + n ≤ 4294967296)
    (hx : x < dest ∨ dest + n ≤ x) : memcpy m dest src n x = m x := by
  induction n with
  | zero => rfl
  | succ n ih =>
      have hne : x ≠ add32 dest n := by
        rw [add32_of_lt (by omega)]
        omega
      rw [memcpy, store8_out hne]
      exact ih (by omega) (by omega)

/-- **`memcpy` copies.** With the destination not above the source, or the ranges disjoint, byte `i` of
    the destination ends as byte `i` of the source was. What follows in the source may wrap around. -/
theorem memcpy_in {m : Mem} {dest src n i : Nat} (hd : dest + n ≤ 4294967296)
    (hs : src + i < 4294967296) (hov : dest ≤ src ∨ src + n ≤ dest) (hi : i < n) :
    memcpy m dest src n (dest + i) = m (src + i) := by
  induction n with
  | zero => omega
  | succ n ih =>
      rw [memcpy, add32_of_lt (by omega)]
      by_cases hin : i = n
      · -- the byte of this iteration: the source byte has not been overwritten yet
        subst hin
        rw [store8_same, add32_of_lt (by omega), memcpy_out (by omega) (by omega)]
      · rw [store8_out (by omega)]
        exact ih (by omega) (by omega) (by omega)

/-- **Copying upwards over itself**: with the destination `d` bytes above the source, what is copied is
    the first `d` bytes, over and over. -/
theorem memcpy_up {m : Mem} {src d n i : Nat} (hd : 0 < d) (hn : src + d + n ≤ 4294967296) (hi : i < n) :
    memcpy m (src + d) src n (src + d + i) = m (src + i % d) := by
  induction n generalizing i with
  | zero => omega
  | succ n ih =>
      rw [memcpy, add32_of_lt (by omega)]
      by_cases hin : i = n
      · subst hin
        rw [store8_same, add32_of_lt (by omega)]
        by_cases hid : i < d
        · -- the source byte lies below the destination
          rw [memcpy_out (by omega) (by omega), Nat.mod_eq_of_lt hid]
        · -- the source byte was written `d` iterations ago
          rw [show src + i = src + d + (i - d) from by omega, ih (by omega) (by omega),
            ← Nat.mod_eq_sub_mod (by omega)]
      · rw [store8_out (by omega)]
        exact ih (by omega) (by omega)

/-- The memory after bytes that come from elsewhere, a literal or a value in registers, were copied to
    `a` and on. -/
def storeBytes (m : Mem) (a : Nat) : List UInt8 → Mem
  | []      => m
  | v :: vs => storeBytes (store8 m a v) (add32 a 1) vs

theorem add32_add32 (a b c : Nat) : add32 (add32 a b) c = add32 a (b + c) := by
  unfold add32
  omega

theorem storeBytes_out {m : Mem} {a x : Nat} {l : List UInt8} (ha : a < 4294967296)
    (h : ∀ i < l.length, x ≠ add32 a i) :
    storeBytes m a l x = m x := by
  induction l generalizing m a with
  | nil => rfl
  | cons v vs ih =>
      have hx : x ≠ a := by
        have := h 0 (by simp)
        rwa [add32_of_lt (by omega), Nat.add_zero] at this
      have hrest : ∀ i < vs.length, x ≠ add32 (add32 a 1) i := fun i hi => by
        rw [add32_add32, Nat.add_comm 1 i]
        exact h (i + 1) (by simpa using hi)
      have hlt : add32 a 1 < 4294967296 := Nat.mod_lt _ (by decide)
      rw [storeBytes, ih hlt hrest, store8_out hx]

/-- What is stored inside the address space leaves everything else alone. -/
theorem storeBytes_frame {m : Mem} {a x : Nat} {l : List UInt8} (ha : a + l.length < 4294967296)
    (h : x < a ∨ a + l.length ≤ x) :
    storeBytes m a l x = m x :=
  storeBytes_out (by omega) fun i hi => by
    rw [add32_of_lt (by omega)]
    omega

theorem storeBytes_in {m : Mem} {a i : Nat} {l : List UInt8} (ha : a + l.length < 4294967296)
    (hi : i < l.length) :
    storeBytes m a l (a + i) = l[i] := by
  induction l generalizing m a i with
  | nil => cases hi
  | cons v vs ih =>
      rw [List.length_cons] at ha
      rw [storeBytes, add32_of_lt (by omega)]
      cases i with
      | zero =>
          rw [storeBytes_frame (by omega) (by omega)]
          exact store8_same m a v
      | succ i =>
          rw [show a + (i + 1) = a + 1 + i from by omega, ih (by omega) (by simpa using hi)]
          rfl

/-- `memset` writes inside `[str, str + n)` only. -/
theorem memset_out {m : Mem} {str n x : Nat} {c : UInt8} (hd : str + n ≤ 4294967296)
    (hx : x < str ∨ str + n ≤ x) : memset m str c n x = m x := by
  induction n with
  | zero => rfl
  | succ n ih =>
      have hne : x ≠ add32 str n := by
        rw [add32_of_lt (by omega)]
        omega
      rw [memset, store8_out hne]
      exact ih (by omega) (by omega)

/-- **`memset` fills** its range. -/
theorem memset_in {m : Mem} {str n i : Nat} {c : UInt8} (hd : str + n ≤ 4294967296) (hi : i < n) :
    memset m str c n (str + i) = c := by
  induction n with
  | zero => omega
  | succ n ih =>
      rw [memset, add32_of_lt (by omega)]
      by_cases hin : i = n
      · subst hin
        exact store8_same _ _ _
      · rw [store8_out (by omega)]
        exact ih (by omega) (by omega)

/-- The `n` bytes from an address on. -/
def bytesAt (m : Mem) (a n : Nat) : List UInt8 := (List.range n).map fun i => m (a + i)

@[simp] theorem bytesAt_length (m : Mem) (a n : Nat) : (bytesAt m a n).length = n := by simp [bytesAt]

@[simp] theorem bytesAt_zero (m : Mem) (a : Nat) : bytesAt m a 0 = [] := rfl

/-- Bytes that agree one by one agree together. -/
theorem bytesAt_congr {m m' : Mem} {a b n : Nat} (h : ∀ i, i < n → m (a + i) = m' (b + i)) :
    bytesAt m a n = bytesAt m' b n :=
  List.map_congr_left fun i hi => h i (List.mem_range.mp hi)

theorem bytesAt_add (m : Mem) (a n k : Nat) : bytesAt m a (n + k) = bytesAt m a n ++ bytesAt m (a + n) k := by
  unfold bytesAt
  rw [List.range_add, List.map_append, List.map_map]
  congr 1
  exact List.map_congr_left fun i _ => by simp [Nat.add_assoc]

/-! ## Text -/

/-- The text from an address on, up to the first NUL, if there is one within so many bytes. -/
def cstring (m : Mem) : Nat → Nat → Exec (List UInt8)
  | 0, _     => .error .fuel
  | n + 1, a =>
    if m a = 0 then .ok []
    else do
      let rest ← cstring m n (add32 a 1)
      return m a :: rest

/-- The text at an address. -/
def textAt (m : Mem) (a : Nat) : Exec (List UInt8) := cstring m 4294967296 a

/-- **The text of a buffer that ends with a NUL**: its bytes, up to the first NUL. -/
theorem cstring_bytesAt {m : Mem} {a len n : Nat} (hn : len < n) (hfits : a + len < 4294967296)
    (hnul : m (a + len) = 0) : cstring m n a = .ok ((bytesAt m a len).takeWhile (· ≠ 0)) := by
  induction len generalizing a n with
  | zero =>
      cases n with
      | zero => cases hn
      | succ n =>
          rw [Nat.add_zero] at hnul
          rw [cstring, if_pos hnul]
          rfl
  | succ len ih =>
      cases n with
      | zero => cases hn
      | succ n =>
          have hbytes : bytesAt m a (len + 1) = m a :: bytesAt m (a + 1) len := by
            rw [Nat.add_comm len 1, bytesAt_add]
            rfl
          rw [cstring, hbytes]
          by_cases hfirst : m a = 0
          · rw [if_pos hfirst, List.takeWhile_cons_of_neg (by simp [hfirst])]
          · have hrest := ih (a := a + 1) (n := n) (by omega) (by omega)
              (by rwa [Nat.add_assoc, Nat.add_comm 1 len])
            rw [if_neg hfirst, add32_of_lt (by omega), hrest, List.takeWhile_cons_of_pos (by simp [hfirst])]
            rfl

/-- The loop of `strlen`, on the bytes before the NUL. -/
def strlen (str : List UInt8) : Nat := str.length

/-- The comparison loop of `strcmp`, once the lengths are known to agree. -/
def strcmpLoop : List UInt8 → List UInt8 → Bool
  | a :: as, b :: bs => if a ≠ b then false else strcmpLoop as bs
  | _, _             => true

/-- `strcmp`: true (not zero, as in the C library) when the texts are equal. The shortcut on equal
    pointers is not needed here, equal pointers have equal text. -/
def strcmp (str1 str2 : List UInt8) : Bool :=
  if strlen str1 ≠ strlen str2 then false else strcmpLoop str1 str2

theorem strcmpLoop_iff {as bs : List UInt8} (h : as.length = bs.length) :
    strcmpLoop as bs = true ↔ as = bs := by
  induction as generalizing bs with
  | nil => cases bs with
    | nil => simp [strcmpLoop]
    | cons b bs => simp at h
  | cons a as ih => cases bs with
    | nil => simp at h
    | cons b bs =>
        have hlen : as.length = bs.length := by simpa using h
        by_cases hab : a = b
        · simp [strcmpLoop, hab, ih hlen]
        · simp [strcmpLoop, hab]

/-- **`strcmp` decides equality of the texts.** -/
theorem strcmp_iff {as bs : List UInt8} : strcmp as bs = true ↔ as = bs := by
  unfold strcmp strlen
  by_cases h : as.length = bs.length
  · simp [h, strcmpLoop_iff h]
  · simp only [ne_eq, h, not_false_eq_true, if_true, Bool.false_eq_true, false_iff]
    rintro rfl
    exact h rfl

/-! ## `itoa` -/

/-- The loop of `itoa`: digits of `v` in front of `out`, the least significant one last. A 32-bit value
    has at most 32 digits in any base from 2 on. -/
def itoaLoop (base : Nat) : Nat → Nat → List UInt8 → List UInt8
  | 0, _, out        => out
  | fuel + 1, v, out =>
    if v = 0 then out
    else
      let i := v % base
      itoaLoop base fuel (v / base) (UInt8.ofNat (i + if i < 10 then 48 else 97) :: out)

/-- The text that `itoa(value, out, base)` writes, without its NUL. -/
def itoa (value : Int) (base : Nat) : List UInt8 :=
  if value = 0 then [48]
  else if base = 10 ∧ value < 0 then 45 :: itoaLoop base 32 (-value).toNat []
  else itoaLoop base 32 (value % 4294967296).toNat []

/-- What a call of `itoa` does: the bytes that go to `buffer`, from its first one on, the bytes that go to
    `out`, and what is returned. -/
structure ItoaCall where
  buffer : List UInt8
  out : List UInt8
  len : Nat
deriving DecidableEq, Repr

/-- The loop of `itoa` with the writes through `tmp`, and its count. -/
def itoaDigits (base : Nat) : Nat → Nat → List UInt8 → Nat → List UInt8 × Nat
  | 0, _, buffer, len        => (buffer, len)
  | fuel + 1, v, buffer, len =>
    if v = 0 then (buffer, len)
    else
      let i := v % base
      itoaDigits base fuel (v / base) (buffer ++ [UInt8.ofNat (i + if i < 10 then 48 else 97)]) (len + 1)

/-- `itoa(value, out, base)`. The second loop copies what is in `buffer` from its end to its beginning. -/
def itoaCall (value : Int) (base : Nat) : ItoaCall :=
  if value = 0 then ⟨[], [48, 0], 1⟩
  else
    let v := if base = 10 ∧ value < 0 then (-value).toNat else (value % 4294967296).toNat
    let (buffer, len) := itoaDigits base 32 v [] 0
    let (buffer, len) := if base = 10 ∧ value < 0 then (buffer ++ [45], len + 1) else (buffer, len)
    ⟨buffer, buffer.reverse ++ [0], len⟩

/-- A value below `base ^ k` has at most `k` digits. -/
theorem itoaLoop_length {base fuel v k : Nat} {out : List UInt8} (hv : v < base ^ k) :
    (itoaLoop base fuel v out).length ≤ out.length + k := by
  induction fuel generalizing v k out with
  | zero => exact Nat.le_add_right _ _
  | succ fuel ih =>
      rw [itoaLoop]
      by_cases hzero : v = 0
      · rw [if_pos hzero]
        exact Nat.le_add_right _ _
      · rw [if_neg hzero]
        cases k with
        | zero => exact absurd (Nat.lt_one_iff.mp hv) hzero
        | succ k =>
            have hdiv : v / base < base ^ k := Nat.div_lt_of_lt_mul (Nat.pow_succ' ▸ hv)
            apply Nat.le_trans (ih hdiv)
            rw [List.length_cons]
            omega

theorem itoa_length {value : Int} (h0 : 0 ≤ value) (h : value < 1000000) : (itoa value 10).length ≤ 6 := by
  unfold itoa
  by_cases hzero : value = 0
  · rw [if_pos hzero]
    decide
  · rw [if_neg hzero, if_neg (by omega)]
    have hlength : (itoaLoop 10 32 (value % 4294967296).toNat []).length ≤ 0 + 6 :=
      itoaLoop_length (by omega)
    exact hlength

/-- The number that decimal digits are read as. -/
def decimal (str : List UInt8) : Nat := str.foldl (fun n c => 10 * n + (c.toNat - 48)) 0

/-- The digits in front of `out` are those of `v`. -/
theorem foldl_itoaLoop {fuel v : Nat} {out : List UInt8} (hv : v < 10 ^ fuel) :
    decimal (itoaLoop 10 fuel v out) = out.foldl (fun n c => 10 * n + (c.toNat - 48)) v := by
  induction fuel generalizing v out with
  | zero =>
      obtain rfl := Nat.lt_one_iff.mp hv
      rfl
  | succ fuel ih =>
      rw [itoaLoop]
      by_cases hzero : v = 0
      · rw [if_pos hzero, hzero]
        rfl
      · have hdigit : 10 * (v / 10) + ((UInt8.ofNat (v % 10 + 48)).toNat - 48) = v := by
          rw [UInt8.toNat_ofNat']
          omega
        rw [if_neg hzero, ih (Nat.div_lt_of_lt_mul (Nat.pow_succ' ▸ hv)), if_pos (Nat.mod_lt v (by decide)),
          List.foldl_cons, hdigit]

/-- **What `itoa` writes** is read back. -/
theorem decimal_itoa {value : Int} (h0 : 0 ≤ value) (h : value < 4294967296) :
    decimal (itoa value 10) = value.toNat := by
  unfold itoa
  by_cases hzero : value = 0
  · rw [if_pos hzero, hzero]
    rfl
  · rw [if_neg hzero, if_neg (by omega), Int.emod_eq_of_lt h0 h]
    exact foldl_itoaLoop (by omega)

end WeirdOs
