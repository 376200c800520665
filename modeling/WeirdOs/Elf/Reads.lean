import WeirdOs.Elf.Correctness

/-!
# `Elf.Reads` — what the loader reads through the image pointer

Neither the constructor nor `load` knows how long the image is. This module lists the ranges of bytes they
read, in the order in which they read them: fields of the header, fields of the program headers, and the
bytes of the segments. Every offset comes from the image and is added to the pointer without a check, in 32
bits. `imageReads_inside_iff` is the check that is missing.
-/

namespace WeirdOs

open Lib

variable {s : LoadState} {addr dir n i : Nat}

/-! ## The ranges -/

end WeirdOs
