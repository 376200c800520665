import WeirdOs.Clib.Stdio
import WeirdOs.Clib.Correctness.Itoa

/-!
# `Clib.Correctness.Stdio` — what `vfprintf` prints

A format is a list of items (`formatItems`), unless it ends in a `'%'` that nothing follows. `Renders items
args text` says what the text of the items is, item by item and without regard to how the digits of a number
are found: of a `%d` that it is read as the number and has nothing in front that could be left out, of a `%x`
that it has eight digits and is read as the number. There is one such text (`Renders.unique`), and that is
what `vfprintf` sends to its `FILE` (`vfprintf_renders`).

`sprintf` sends the same text to memory. It neither ends it with a NUL nor counts it (`sprintf_right_iff`).
-/

namespace WeirdOs

open Lib

/-! ## Formats -/

/-- A part of a format: a character, or a conversion. -/
inductive FormatItem where
  | char (c : UInt8)
  | percent
  | d
  | x
  | s
  | unknown (c : UInt8)
deriving DecidableEq, Repr

/-- The conversion that a character after a `'%'` stands for. -/
def conversion (c : UInt8) : FormatItem :=
  if c = 37 then .percent
  else if c = 100 then .d
  else if c = 120 then .x
  else if c = 115 then .s
  else .unknown c

/-- The items of a format. There are none if it ends in a `'%'` that nothing follows. -/
def formatItems : List UInt8 → Option (List FormatItem)
  | []          => some []
  | c :: format =>
    if c = 37 then
      match format with
      | []             => none
      | next :: format => (formatItems format).map (conversion next :: ·)
    else (formatItems format).map (.char c :: ·)

/-- The arguments are what the conversions take, one after the other. There may be more of them. -/
inductive ArgsMatch : List FormatItem → List VaArg → Prop where
  | nil {args : List VaArg} : ArgsMatch [] args
  | char {c : UInt8} {items : List FormatItem} {args : List VaArg} (h : ArgsMatch items args) :
      ArgsMatch (.char c :: items) args
  | percent {items : List FormatItem} {args : List VaArg} (h : ArgsMatch items args) :
      ArgsMatch (.percent :: items) args
  | d {n : Nat} {items : List FormatItem} {args : List VaArg} (hn : n < 4294967296)
      (h : ArgsMatch items args) : ArgsMatch (.d :: items) (.word n :: args)
  | x {n : Nat} {items : List FormatItem} {args : List VaArg} (hn : n < 4294967296)
      (h : ArgsMatch items args) : ArgsMatch (.x :: items) (.word n :: args)
  | s {str : List UInt8} {items : List FormatItem} {args : List VaArg} (h : ArgsMatch items args) :
      ArgsMatch (.s :: items) (.text str :: args)
  | unknown {c : UInt8} {items : List FormatItem} {args : List VaArg} (h : ArgsMatch items args) :
      ArgsMatch (.unknown c :: items) args

/-- Eight digits that are read as the number. -/
structure IsHexWord (digits : List UInt8) (n : Nat) : Prop where
  length : digits.length = 8
  read : readNat 16 digits = some n

/-- **The text of the items.** -/
inductive Renders : List FormatItem → List VaArg → List UInt8 → Prop where
  | nil {args : List VaArg} : Renders [] args []
  | char {c : UInt8} {items : List FormatItem} {args : List VaArg} {text : List UInt8}
      (h : Renders items args text) : Renders (.char c :: items) args (c :: text)
  | percent {items : List FormatItem} {args : List VaArg} {text : List UInt8} (h : Renders items args text) :
      Renders (.percent :: items) args (37 :: text)
  | d {n : Nat} {items : List FormatItem} {args : List VaArg} {digits text : List UInt8}
      (hdigits : IsSignedNumeral 10 digits (toInt32 n)) (h : Renders items args text) :
      Renders (.d :: items) (.word n :: args) (digits ++ text)
  | x {n : Nat} {items : List FormatItem} {args : List VaArg} {digits text : List UInt8}
      (hdigits : IsHexWord digits n) (h : Renders items args text) :
      Renders (.x :: items) (.word n :: args) (digits ++ text)
  | s {str : List UInt8} {items : List FormatItem} {args : List VaArg} {text : List UInt8}
      (h : Renders items args text) : Renders (.s :: items) (.text str :: args) (str ++ text)
  | unknown {c : UInt8} {items : List FormatItem} {args : List VaArg} {text : List UInt8}
      (h : Renders items args text) : Renders (.unknown c :: items) args text

variable {σ : Type} {fputc : σ → UInt8 → Exec σ} {f : σ} {format text text' digits digits' : List UInt8}
  {items : List FormatItem} {args : List VaArg} {n : Nat} {c next : UInt8} {m m' : Mem} {ptr : Nat}

/-! ## Items -/

theorem formatItems_cons (hc : c ≠ 37) :
    formatItems (c :: format) = (formatItems format).map (.char c :: ·) := by
  rw [formatItems.eq_def]
  exact if_neg hc

/-! ## Numbers -/

/-- The digits of `%d` are those of the number. -/
theorem itoa_ten (hn : n < 4294967296) : itoa (toInt32 n) 10 = signedNumeral 10 (toInt32 n) := by
  have hchars : ∀ v, (Nat.digits 10 v).map itoaChar = (Nat.digits 10 v).map digitChar := by
    intro v
    apply List.map_congr_left
    intro d hd
    have hlt := Nat.digits_lt_base (by decide) hd
    exact (itoaChar_eq_digitChar (by omega)).mpr hlt
  unfold itoa signedNumeral numeral
  by_cases hzero : toInt32 n = 0
  · simp [hzero]
  · have hrange : -2147483648 ≤ toInt32 n ∧ toInt32 n < 2147483648 := by
      unfold toInt32
      split <;> omega
    rw [if_neg hzero]
    by_cases hneg : toInt32 n < 0
    · rw [if_pos ⟨rfl, hneg⟩, if_pos hneg, if_neg (by omega), itoaLoop_eq (by decide) (by omega), hchars,
        List.append_nil, List.map_reverse]
      congr 4
      omega
    · rw [if_neg (by omega), if_neg hneg, if_neg (by omega), itoaLoop_eq (by decide) (by omega), hchars,
        List.append_nil, List.map_reverse]
      congr 3
      omega

/-- The digits of `%x` in the order in which they are printed. -/
def hexDigits (n : Nat) : List Nat := (List.range 8).map fun i => n / 16 ^ (7 - i) % 16

theorem hexText_eq (n : Nat) : hexText n = (hexDigits n).map digitChar := by
  rw [hexText, hexDigits, List.map_map]
  apply List.map_congr_left
  intro i _
  show UInt8.ofNat _ = digitChar _
  unfold digitChar
  congr 1
  dsimp only
  split <;> rfl

/-- **The loop of `%x`**, from the right to the left and with its NUL, leaves those digits. -/
theorem hexBuffer_eq (n : Nat) : hexBuffer n = hexText n := by
  have hbuffer : (hexLoop 8 n (List.replicate 16 0)).set 8 0 = hexText n ++ 0 :: List.replicate 7 0 := by
    simp [hexLoop, hexText, List.range_succ, Nat.div_div_eq_div_mul]
  have hnul : 0 ∉ hexText n := by
    have hall : ∀ v < 16, digitChar v ≠ 0 := by decide
    rw [hexText_eq]
    intro h
    obtain ⟨d, hd, hzero⟩ := List.mem_map.mp h
    obtain ⟨i, -, rfl⟩ := List.mem_map.mp hd
    exact hall _ (Nat.mod_lt _ (by decide)) hzero
  rw [hexBuffer, hbuffer, takeWhile_nul hnul]

theorem isHexWord_hexText (hn : n < 4294967296) : IsHexWord (hexText n) n := by
  refine ⟨by simp [hexText], ?_⟩
  have hne : hexText n ≠ [] := by simp [hexText]
  rw [readNat, if_neg hne, readFrom_eq_some (by decide)]
  refine ⟨hexDigits n, hexText_eq n, ?_, ?_⟩
  · intro d hd
    obtain ⟨i, -, rfl⟩ := List.mem_map.mp hd
    exact Nat.mod_lt _ (by decide)
  · simp [hexDigits, List.range_succ]
    omega

/-- There is one such text. -/
theorem IsHexWord.unique (h : IsHexWord digits n) (h' : IsHexWord digits' n) : digits = digits' := by
  have hdigits : ∀ {text}, IsHexWord text n → ∃ ds : List Nat, text = (ds.reverse).map digitChar ∧
      ds.length = 8 ∧ (∀ d ∈ ds, d < 16) ∧ Nat.ofDigits 16 ds = n := by
    intro text h
    have hread := h.read
    have hne : text ≠ [] := by
      rintro rfl
      cases h.length
    rw [readNat, if_neg hne, readFrom_eq_some (by decide)] at hread
    obtain ⟨ds, rfl, hlt, hvalue⟩ := hread
    refine ⟨ds.reverse, by rw [List.reverse_reverse], by simpa using h.length, by simpa using hlt, ?_⟩
    rw [← foldl_reverse, List.reverse_reverse, hvalue]
  obtain ⟨ds, rfl, hlen, hlt, hvalue⟩ := hdigits h
  obtain ⟨ds', rfl, hlen', hlt', hvalue'⟩ := hdigits h'
  have heq : ds = ds' := Nat.ofDigits_inj_of_len_eq (by decide) (hlen.trans hlen'.symm) hlt hlt'
    (hvalue.trans hvalue'.symm)
  rw [heq]

/-! ## One text -/

/-- **The items have one text.** -/
theorem Renders.unique (h : Renders items args text) (h' : Renders items args text') : text = text' := by
  induction h generalizing text' with
  | nil =>
      cases h'
      rfl
  | char _ ih =>
      cases h' with
      | char h' => rw [ih h']
  | percent _ ih =>
      cases h' with
      | percent h' => rw [ih h']
  | d hdigits _ ih =>
      cases h' with
      | d hdigits' h' =>
          rw [ih h', hdigits.eq_signedNumeral (by decide) (by decide),
            hdigits'.eq_signedNumeral (by decide) (by decide)]
  | x hdigits _ ih =>
      cases h' with
      | x hdigits' h' => rw [ih h', hdigits.unique hdigits']
  | s _ ih =>
      cases h' with
      | s h' => rw [ih h']
  | unknown _ ih =>
      cases h' with
      | unknown h' => exact ih h'

/-! ## Printing -/

/-- What `vfprintf` sends to the `FILE` for the items, one after the other. -/
def printed : List FormatItem → List VaArg → List UInt8
  | [], _                             => []
  | .char c :: items, args            => c :: printed items args
  | .percent :: items, args           => 37 :: printed items args
  | .d :: items, .word n :: args      => itoa (toInt32 n) 10 ++ printed items args
  | .x :: items, .word n :: args      => hexText n ++ printed items args
  | .s :: items, .text str :: args    => str ++ printed items args
  | .unknown _ :: items, args         => printed items args
  | .d :: _, _ | .x :: _, _ | .s :: _, _ => []

/-- It is the text of the items. -/
theorem renders_printed (h : ArgsMatch items args) : Renders items args (printed items args) := by
  induction h with
  | nil => exact .nil
  | char _ ih => exact .char ih
  | percent _ ih => exact .percent ih
  | d hn _ ih =>
      refine .d ?_ ih
      rw [itoa_ten hn]
      exact isSignedNumeral_signedNumeral (by decide) (by decide) _
  | x hn _ ih => exact .x (isHexWord_hexText hn) ih
  | s _ ih => exact .s ih
  | unknown _ ih => exact .unknown ih

/-- A text is sent, and what comes then sends another one. -/
theorem fputs_then {next : σ → Exec σ} (h : ∀ f, next f = fputs fputc f text') :
    fputs fputc f text >>= next = fputs fputc f (text ++ text') := by
  obtain rfl : next = fun f => fputs fputc f text' := funext h
  exact (run_append_eq f text text').symm

/-- The same for a character. -/
theorem fputc_then {next : σ → Exec σ} (h : ∀ f, next f = fputs fputc f text') :
    fputc f c >>= next = fputs fputc f (c :: text') := by
  obtain rfl : next = fun f => fputs fputc f text' := funext h
  rfl

/-- **A conversion**: its text is sent, and `vfprintf` goes on behind it. -/
theorem vfprintf_conversion (hargs : ArgsMatch (conversion next :: items) args)
    (ih : ∀ {f args}, ArgsMatch items args →
      vfprintf fputc f format args = fputs fputc f (printed items args)) :
    vfprintf fputc f (37 :: next :: format) args =
      fputs fputc f (printed (conversion next :: items) args) := by
  by_cases hpercent : next = 37
  · subst hpercent
    have hargs : ArgsMatch (.percent :: items) args := hargs
    cases hargs with
    | percent h =>
        rw [vfprintf_percent]
        exact fputc_then fun f => ih h
  · by_cases hd : next = 100
    · subst hd
      have hargs : ArgsMatch (.d :: items) args := hargs
      cases hargs with
      | d _ h =>
          rw [vfprintf_d]
          exact fputs_then fun f => ih h
    · by_cases hx : next = 120
      · subst hx
        have hargs : ArgsMatch (.x :: items) args := hargs
        cases hargs with
        | x _ h =>
            rw [vfprintf_x, hexBuffer_eq]
            exact fputs_then fun f => ih h
      · by_cases hs : next = 115
        · subst hs
          have hargs : ArgsMatch (.s :: items) args := hargs
          cases hargs with
          | s h =>
              rw [vfprintf_s]
              exact fputs_then fun f => ih h
        · have hunknown : conversion next = .unknown next := by
            rw [conversion, if_neg hpercent, if_neg hd, if_neg hx, if_neg hs]
          rw [hunknown] at hargs ⊢
          cases hargs with
          | unknown h => rw [vfprintf_unknown hpercent hd hx hs, ih h, printed]

/-- **`vfprintf` sends the text of the items.** By induction on the format. -/
theorem vfprintf_eq (hformat : formatItems format = some items) (hargs : ArgsMatch items args) :
    vfprintf fputc f format args = fputs fputc f (printed items args) := by
  induction format using formatItems.induct generalizing f items args with
  | case1 =>
      obtain rfl : [] = items := Option.some.inj hformat
      rfl
  | case2 => cases hformat
  | case3 next format ih =>
      obtain ⟨rest, hrest, rfl⟩ := Option.map_eq_some_iff.mp hformat
      exact vfprintf_conversion hargs fun h => ih hrest h
  | case4 c format hc ih =>
      rw [formatItems_cons hc] at hformat
      obtain ⟨rest, hrest, rfl⟩ := Option.map_eq_some_iff.mp hformat
      cases hargs with
      | char h =>
          rw [vfprintf_cons hc]
          exact fputc_then fun f => ih hrest h

/-- **`vfprintf` prints the text of its format**: for every format that does not end in a lone `'%'`, and
    arguments that match its conversions, there is exactly one text as it should be, and to print is to send
    that text, whatever the `FILE` does with it. -/
theorem vfprintf_renders (hformat : formatItems format = some items) (hargs : ArgsMatch items args) :
    ∃ text, Renders items args text ∧ (∀ text', Renders items args text' → text' = text) ∧
      ∀ {σ : Type} (fputc : σ → UInt8 → Exec σ) (f : σ),
        vfprintf fputc f format args = fputs fputc f text := by
  refine ⟨printed items args, renders_printed hargs, ?_, ?_⟩
  · intro text' h
    exact h.unique (renders_printed hargs)
  · intro σ fputc f
    exact vfprintf_eq hformat hargs

/-- The format `%d:%x %s%%%q` with the arguments -2147483648, 48879 and `a`. -/
theorem vfprintf_renders_min :
    ∃ text, Renders [.d, .char 58, .x, .char 32, .s, .percent, .unknown 113]
        [.word 2147483648, .word 48879, .text [97]] text ∧
      (∀ text', Renders [.d, .char 58, .x, .char 32, .s, .percent, .unknown 113]
        [.word 2147483648, .word 48879, .text [97]] text' → text' = text) ∧
      ∀ {σ : Type} (fputc : σ → UInt8 → Exec σ) (f : σ),
        vfprintf fputc f [37, 100, 58, 37, 120, 32, 37, 115, 37, 37, 37, 113]
          [.word 2147483648, .word 48879, .text [97]] = fputs fputc f text :=
  vfprintf_renders (by decide)
    (.d (by decide) (.char (.x (by decide) (.char (.s (.percent (.unknown .nil)))))))

example : printed [.d, .char 58, .x] [.word 2147483648, .word 48879] =
    [45, 50, 49, 52, 55, 52, 56, 51, 54, 52, 56, 58, 48, 48, 48, 48, 98, 101, 101, 102] := by decide

/-! ## Into memory -/

/-- **What `sprintf` should do**: the text and a NUL behind it are at `ptr`, and the length of the text is
    returned. -/
def SprintfRight (m : Mem) (ptr : Nat) (format : List UInt8) (items : List FormatItem) (args : List VaArg) :
    Prop :=
  ∃ m' ret text, sprintf m ptr format args = .ok (m', ret) ∧ Renders items args text ∧
    bytesAt m' ptr (text.length + 1) = text ++ [0] ∧ ret = text.length

/-- The items print nothing: unknown conversions, and `%s` of the empty text. -/
def Blank : List FormatItem → List VaArg → Prop
  | [], _                          => True
  | .unknown _ :: items, args      => Blank items args
  | .s :: items, .text str :: args => str = [] ∧ Blank items args
  | _, _                           => False

theorem printed_eq_nil (h : ArgsMatch items args) : printed items args = [] ↔ Blank items args := by
  induction h with
  | nil => exact iff_of_true rfl trivial
  | char => exact iff_of_false (by simp [printed]) id
  | percent => exact iff_of_false (by simp [printed]) id
  | d hn =>
      refine iff_of_false ?_ id
      rw [printed, itoa_ten hn, List.append_eq_nil_iff, not_and_or]
      refine Or.inl ?_
      unfold signedNumeral
      split
      · simp
      · exact numeral_ne_nil _ _
  | x => exact iff_of_false (by simp [printed, hexText]) id
  | s _ ih => rw [printed, List.append_eq_nil_iff, ih, Blank]
  | unknown _ ih => rw [printed, ih, Blank]

/-- The characters go to memory one behind the other. -/
theorem fputs_memFile (m : Mem) (ptr : Nat) (text : List UInt8) :
    ∃ ptr', fputs MemFile.fputc ⟨m, ptr⟩ text = .ok ⟨storeBytes m ptr text, ptr'⟩ := by
  induction text generalizing m ptr with
  | nil => exact ⟨ptr, rfl⟩
  | cons c text ih => exact ih (store8 m ptr c) (add32 ptr 1)

/-- **What `sprintf` does**: the text is at `ptr`, what was behind it still is, and 0 is returned. -/
theorem sprintf_eq (hformat : formatItems format = some items) (hargs : ArgsMatch items args) :
    sprintf m ptr format args = .ok (storeBytes m ptr (printed items args), 0) := by
  obtain ⟨ptr', hputs⟩ := fputs_memFile m ptr (printed items args)
  rw [sprintf, vsprintf, vfprintf_eq hformat hargs, hputs]
  rfl

/-- **`sprintf` is right iff** it has nothing to print and finds the NUL where it should leave one. -/
theorem sprintf_right_iff (hformat : formatItems format = some items) (hargs : ArgsMatch items args) :
    SprintfRight m ptr format items args ↔ Blank items args ∧ m ptr = 0 := by
  rw [← printed_eq_nil hargs]
  constructor
  · rintro ⟨m', ret, text, hrun, htext, hbytes, hret⟩
    rw [sprintf_eq hformat hargs] at hrun
    obtain ⟨rfl, rfl⟩ := Prod.mk.inj (Except.ok.inj hrun)
    -- the number returned is 0, so the text is empty
    obtain rfl : text = [] := List.eq_nil_of_length_eq_zero hret.symm
    have hnone : printed items args = [] := (renders_printed hargs).unique htext
    rw [hnone] at hbytes
    exact ⟨hnone, by simpa [bytesAt, storeBytes] using hbytes⟩
  · rintro ⟨hnone, hnul⟩
    refine ⟨_, _, [], sprintf_eq hformat hargs, hnone ▸ renders_printed hargs, ?_, rfl⟩
    rw [hnone]
    simpa [bytesAt, storeBytes] using hnul

/-- Into memory that is zero, `sprintf` is right about `%s` with the empty text, and wrong about `%d` with 7. -/
theorem sprintf_right_iff_zeros :
    SprintfRight (fun _ => 0) 64 [37, 115] [.s] [.text []] ∧
      ¬ SprintfRight (fun _ => 0) 64 [37, 100] [.d] [.word 7] := by
  constructor
  · exact (sprintf_right_iff (by decide) (.s .nil)).mpr ⟨⟨rfl, trivial⟩, rfl⟩
  · exact fun h => ((sprintf_right_iff (by decide) (.d (by decide) .nil)).mp h).1

/-- **The format `a`** into memory that is not zero: 0 is returned, and no NUL is behind the letter. -/
theorem sprintf_letter :
    (∃ m', sprintf (fun _ => 1) 64 [97] [] = .ok (m', 0) ∧ m' 64 = 97 ∧ m' 65 = 1) ∧
      ¬ SprintfRight (fun _ => 1) 64 [97] [.char 97] [] := by
  refine ⟨⟨_, rfl, rfl, rfl⟩, ?_⟩
  rintro ⟨m', ret, text, hrun, htext, -, hret⟩
  cases hrun
  cases htext
  cases hret

end WeirdOs
