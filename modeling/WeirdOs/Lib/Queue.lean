/-!
# `Lib.Queue` — what a queue does, seen from outside

A queue takes items in at one end and hands them out at the other. It is used through two calls: `put`
offers items and reports how many were taken in, `take` wants a number of items and gets all of them or
none. `QueueRun q es r` says that the calls `es`, with the reports and items they gave, are what a queue
that holds `q` does, and that it holds `r` afterwards.

`QueueRun.conserves`: what was in the queue and what was put in is what was handed out and what is left,
in this order.
-/

namespace Lib

variable {α : Type}

/-- A call of a queue with its outcome. -/
inductive QueueEvent (α : Type) where
  /-- Items were offered, and so many of them reported as taken in. -/
  | put (items : List α) (count : Nat)
  /-- So many items were wanted, so many were reported, and these were handed out. -/
  | take (wanted count : Nat) (items : List α)
deriving DecidableEq, Repr

/-- **The behaviour of a queue.** -/
inductive QueueRun : List α → List (QueueEvent α) → List α → Prop where
  | nil (q : List α) : QueueRun q [] q
  | put {q r : List α} {es : List (QueueEvent α)} (items : List α) :
      QueueRun (q ++ items) es r → QueueRun q (.put items items.length :: es) r
  | short {q r : List α} {es : List (QueueEvent α)} {wanted : Nat} :
      q.length < wanted → QueueRun q es r → QueueRun q (.take wanted 0 [] :: es) r
  | take {q r : List α} {es : List (QueueEvent α)} {wanted : Nat} :
      wanted ≤ q.length → QueueRun (q.drop wanted) es r →
      QueueRun q (.take wanted wanted (q.take wanted) :: es) r

/-- Everything that was put in. -/
def QueueEvent.itemsIn : QueueEvent α → List α
  | .put items _    => items
  | .take _ _ _     => []

/-- Everything that was handed out. -/
def QueueEvent.itemsOut : QueueEvent α → List α
  | .put _ _        => []
  | .take _ _ items => items

variable {q r : List α} {es : List (QueueEvent α)}

/-- **Nothing is lost, repeated or reordered**: what was in the queue, followed by what was put in, is
    what was handed out, followed by what is left. -/
theorem QueueRun.conserves (h : QueueRun q es r) :
    q ++ es.flatMap QueueEvent.itemsIn = es.flatMap QueueEvent.itemsOut ++ r := by
  induction h with
  | nil q => simp
  | put items _ ih =>
      rw [List.flatMap_cons, List.flatMap_cons, QueueEvent.itemsIn, QueueEvent.itemsOut, List.nil_append,
        ← ih, List.append_assoc]
  | short _ _ ih =>
      rw [List.flatMap_cons, List.flatMap_cons, QueueEvent.itemsIn, QueueEvent.itemsOut, List.nil_append,
        List.nil_append, ih]
  | @take q r es wanted _ _ ih =>
      rw [List.flatMap_cons, List.flatMap_cons, QueueEvent.itemsIn, QueueEvent.itemsOut, List.nil_append,
        List.append_assoc, ← ih, ← List.append_assoc, List.take_append_drop]

end Lib
