import WeirdOs.Clib.String

/-!
# `Clib.Stdio` — formatted output (`clib/stdio.cpp`)

`vfprintf` sends one character after the other to a `FILE`. What `fputc` does with them is a parameter, on
states of any kind. The arguments that `va_arg` takes are a list; one of the wrong kind, or none, is the
fault `misuse "va_arg"`.
-/

namespace WeirdOs

open Lib

/-- An argument: a 32-bit number, or text. -/
inductive VaArg where
  | word (n : Nat)
  | text (str : List UInt8)

section

variable {σ : Type} (fputc : σ → UInt8 → Exec σ)

/-- `fputs`. -/
def fputs : σ → List UInt8 → Exec σ := Lib.run fputc

/-- The loop of `%x`: `buf[i]` from 7 down to 0, each with the lowest digit of what is left of the value. -/
def hexLoop : Nat → Nat → List UInt8 → List UInt8
  | 0, _, buf         => buf
  | i + 1, value, buf =>
    let v := value % 16
    hexLoop i (value / 16) (buf.set i (UInt8.ofNat (v + if v < 10 then 48 else 87)))

/-- What `fputs` finds in `buf` after that loop. -/
def hexBuffer (value : Nat) : List UInt8 :=
  ((hexLoop 8 value (List.replicate 16 0)).set 8 0).takeWhile (· ≠ 0)

/-- The eight digits of a number, from the first to the last: what the loop of `%x` leaves
    (`hexBuffer_eq`). -/
def hexText (value : Nat) : List UInt8 := (List.range 8).map fun i =>
  let v := value / 16 ^ (7 - i) % 16
  UInt8.ofNat (v + if v < 10 then 48 else 87)

/-- `vfprintf`. A conversion that is not known prints nothing. -/
def vfprintf : σ → List UInt8 → List VaArg → Exec σ
  | f, [], _           => .ok f
  | f, c :: format, args =>
    if c = 37 then
      match format with
      | []             => .error (.assertion "next != 0 && \"Invalid printf argument\"")
      | next :: format =>
        if next = 37 then do
          let f ← fputc f 37
          vfprintf f format args
        else if next = 100 then
          match args with
          | .word value :: args => do
            let f ← fputs fputc f (itoa (toInt32 value) 10)
            vfprintf f format args
          | _                   => .error (.misuse "va_arg")
        else if next = 120 then
          match args with
          | .word value :: args => do
            let f ← fputs fputc f (hexBuffer value)
            vfprintf f format args
          | _                   => .error (.misuse "va_arg")
        else if next = 115 then
          match args with
          | .text value :: args => do
            let f ← fputs fputc f value
            vfprintf f format args
          | _                   => .error (.misuse "va_arg")
        else vfprintf f format args
    else do
      let f ← fputc f c
      vfprintf f format args

variable {fputc} {f : σ} {format text : List UInt8} {args : List VaArg} {value : Nat}

theorem vfprintf_cons {c : UInt8} (h : c ≠ 37) : vfprintf fputc f (c :: format) args =
    fputc f c >>= fun f => vfprintf fputc f format args := by
  rw [vfprintf.eq_def]
  exact if_neg h

/-- Ordinary characters are printed. -/
theorem vfprintf_text (h : (37 : UInt8) ∉ text) : vfprintf fputc f (text ++ format) args =
    fputs fputc f text >>= fun f => vfprintf fputc f format args := by
  induction text generalizing f with
  | nil => rfl
  | cons c text ih =>
      rw [List.mem_cons, not_or] at h
      rw [List.cons_append, vfprintf_cons (Ne.symm h.1), fputs, Lib.run]
      cases fputc f c with
      | error e => rfl
      | ok f' => exact ih h.2

/-- `%d` prints a signed number. -/
theorem vfprintf_d : vfprintf fputc f (37 :: 100 :: format) (.word value :: args) =
    fputs fputc f (itoa (toInt32 value) 10) >>= fun f => vfprintf fputc f format args := by
  rw [vfprintf, if_pos rfl]
  rfl

/-- `%x` prints what its loop leaves. -/
theorem vfprintf_x : vfprintf fputc f (37 :: 120 :: format) (.word value :: args) =
    fputs fputc f (hexBuffer value) >>= fun f => vfprintf fputc f format args := by
  rw [vfprintf, if_pos rfl]
  rfl

/-- `%s` prints a text. -/
theorem vfprintf_s : vfprintf fputc f (37 :: 115 :: format) (.text text :: args) =
    fputs fputc f text >>= fun f => vfprintf fputc f format args := by
  rw [vfprintf, if_pos rfl]
  rfl

/-- `%%` prints one of them. -/
theorem vfprintf_percent : vfprintf fputc f (37 :: 37 :: format) args =
    fputc f 37 >>= fun f => vfprintf fputc f format args := by
  rw [vfprintf.eq_def]
  rfl

/-- Another letter prints nothing. -/
theorem vfprintf_unknown {next : UInt8} (h37 : next ≠ 37) (hd : next ≠ 100) (hx : next ≠ 120)
    (hs : next ≠ 115) : vfprintf fputc f (37 :: next :: format) args = vfprintf fputc f format args := by
  rw [vfprintf.eq_def]
  simp only [if_true, if_neg h37, if_neg hd, if_neg hx, if_neg hs]

end

/-! ## Into memory -/

/-- The `FILE` of `vsprintf`: the memory, and `_IO_write_ptr`. -/
structure MemFile where
  mem : Mem
  writePtr : Nat

/-- `fputc` to it. Its `_flush_func` is `blank_flush`. -/
def MemFile.fputc (f : MemFile) (c : UInt8) : Exec MemFile :=
  .ok ⟨store8 f.mem f.writePtr c, add32 f.writePtr 1⟩

/-- `vsprintf`: the memory afterwards, and what is returned, which is what `vfprintf` returns. -/
def vsprintf (m : Mem) (c : Nat) (fmt : List UInt8) (list : List VaArg) : Exec (Mem × Nat) := do
  let f ← vfprintf MemFile.fputc ⟨m, c⟩ fmt list
  return (f.mem, 0)

/-- `sprintf`. -/
def sprintf (m : Mem) (c : Nat) (fmt : List UInt8) (args : List VaArg) : Exec (Mem × Nat) :=
  vsprintf m c fmt args

end WeirdOs
