import WeirdOs.Util.String
import WeirdOs.Util.List

/-!
# `Util.Split` — `string::split` (`util/string.h`)

`split` goes over a string once. It keeps where the current piece starts and how long it is so far; at a
separator it takes that piece with `substr`, and after the loop it takes the last one.

`Text.split` is the loop on a text. `StringState.split` is the loop on a string of the heap: each piece is a
temporary string, its copy is the value of a new node of the result, and the temporary is destroyed. The
string in a node is known by the address of the node, which `new` returned and the caller names, one for
each piece.
-/

namespace WeirdOs

open Lib

/-! ## On texts -/

namespace Text

/-- `string::substr`. -/
def substr (data : List UInt8) (start len : Nat) : List UInt8 := (data.drop start).take len

/-- The loop of `split` over the rest of the text, from `i` on, and the piece after the loop. -/
def splitLoop (data : List UInt8) (sep : UInt8) :
    List UInt8 → (i secStart secSize : Nat) → List (List UInt8) → List (List UInt8)
  | [], _, secStart, secSize, out => out ++ [substr data secStart secSize]
  | c :: rest, i, secStart, secSize, out =>
    if c = sep then splitLoop data sep rest (i + 1) (i + 1) 0 (out ++ [substr data secStart secSize])
    else splitLoop data sep rest (i + 1) secStart (secSize + 1) out

/-- `string::split`. The count of the separators is not used for anything. -/
def split (data : List UInt8) (sep : UInt8) : List (List UInt8) := splitLoop data sep data 0 0 0 []

end Text

/-! ## On the heap -/

namespace StringState

/-- `out.push_back(this->substr(start, len))`: the temporary string is `tmp`, and the new node of the list
    and the string in it are at `p`. -/
def pushPiece (s : StringState) (out : ListState Nat) (x tmp p start len : Nat) :
    Exec (StringState × ListState Nat) := do
  s.checkFree tmp
  let s ← s.substr tmp x start len
  s.checkFree p
  let s ← s.default p
  let s ← s.assign p tmp
  let out ← out.pushBack p p
  let s ← s.destroy tmp
  return (s, out)

/-- The loop of `split`, with `left` characters to go, and the piece after the loop. -/
def splitLoop (x tmp : Nat) (sep : UInt8) :
    (left i secStart secSize : Nat) → (places : List Nat) → StringState → ListState Nat →
      Exec (StringState × ListState Nat)
  | _, _, _, _, [], _, _ => throw (.misuse "new")
  | 0, _, secStart, secSize, p :: _, s, out => s.pushPiece out x tmp p secStart secSize
  | left + 1, i, secStart, secSize, p :: places, s, out =>
    if s.heap.heap.mem (add32 (s.str x).data i) = sep then do
      let (s, out) ← s.pushPiece out x tmp p secStart secSize
      splitLoop x tmp sep left (add32 i 1) (add32 i 1) 0 places s out
    else splitLoop x tmp sep left (add32 i 1) secStart (add32 secSize 1) (p :: places) s out

/-- `x.split(sep)`, with the nodes of the result at `places`. -/
def split (s : StringState) (x tmp : Nat) (sep : UInt8) (places : List Nat) :
    Exec (StringState × ListState Nat) :=
  splitLoop x tmp sep (s.str x).length 0 0 0 places s .empty

end StringState

end WeirdOs
