import WeirdOs.Lib.Exec
import Mathlib.Data.List.Basic
import Mathlib.Logic.Function.Basic

/-!
# `Lib.Arbiter` — many lines, one server

Lines ask for service, one of them is served at a time, and the next one is the first that waits, in a fixed
order. A line that waits already does not ask twice.

Two facts about every run:

* **nothing is lost and nothing is made up** (`conserved_run`): a line has been taken as often as it has
  asked, but for the once that it may be waiting;
* **nobody pushes in** (`not_overtaken`): as long as a line waits, only lines before it in the order are taken.

Nothing here mentions what the lines are.
-/

namespace Lib

variable {L : Type} [DecidableEq L]

/-- The lines that wait and the one that is served, and what has happened so far. -/
structure Arbiter (L : Type) where
  pending : L → Bool
  serving : Option L
  /-- The requests, but for those of a line that was waiting. -/
  raised : List L
  taken : List L

/-- What can happen. -/
inductive ArbiterOp (L : Type) where
  | raise (l : L)
  | take
  | finish
deriving DecidableEq, Repr

namespace Arbiter

/-- Nothing has happened. -/
def start : Arbiter L := ⟨fun _ => false, none, [], []⟩

/-- One operation. -/
def step (order : List L) (a : Arbiter L) : ArbiterOp L → Except Unit (Arbiter L)
  | .raise l =>
    if a.pending l then .ok a
    else .ok { a with pending := Function.update a.pending l true, raised := a.raised ++ [l] }
  | .take    =>
    match a.serving, order.find? a.pending with
    | none, some l =>
      .ok { a with
        pending := Function.update a.pending l false, serving := some l, taken := a.taken ++ [l] }
    | _, _         => .error ()
  | .finish  => if a.serving.isSome then .ok { a with serving := none } else .error ()

variable {order : List L} {a b : Arbiter L} {op : ArbiterOp L} {ops : List (ArbiterOp L)}

/-- **What a step does.** -/
theorem step_cases (h : step order a op = .ok b) :
    (∃ l, op = .raise l ∧ a.pending l = true ∧ b = a) ∨
    (∃ l, op = .raise l ∧ a.pending l = false ∧
      b = { a with pending := Function.update a.pending l true, raised := a.raised ++ [l] }) ∨
    (∃ l, op = .take ∧ a.serving = none ∧ order.find? a.pending = some l ∧
      b = { a with
        pending := Function.update a.pending l false, serving := some l, taken := a.taken ++ [l] }) ∨
    (op = .finish ∧ a.serving.isSome ∧ b = { a with serving := none }) := by
  cases op with
  | raise l =>
      by_cases hl : a.pending l = true
      · rw [step, if_pos hl] at h
        exact Or.inl ⟨l, rfl, hl, (Except.ok.inj h).symm⟩
      · rw [step, if_neg hl] at h
        exact Or.inr (Or.inl ⟨l, rfl, Bool.eq_false_iff.mpr hl, (Except.ok.inj h).symm⟩)
  | take =>
      cases hserving : a.serving with
      | some l =>
          rw [step, hserving] at h
          cases h
      | none =>
          cases hfind : order.find? a.pending with
          | none =>
              rw [step, hserving, hfind] at h
              cases h
          | some l =>
              rw [step, hserving, hfind] at h
              exact Or.inr (Or.inr (Or.inl ⟨l, rfl, rfl, rfl, (Except.ok.inj h).symm⟩))
  | finish =>
      by_cases hs : a.serving.isSome = true
      · rw [step, if_pos hs] at h
        exact Or.inr (Or.inr (Or.inr ⟨rfl, hs, (Except.ok.inj h).symm⟩))
      · rw [step, if_neg hs] at h
        cases h

/-! ## Nothing is lost -/

/-- Every request was taken, or waits. -/
def Conserved (a : Arbiter L) : Prop :=
  ∀ l, a.raised.count l = a.taken.count l + (a.pending l).toNat

theorem conserved_start : Conserved (start : Arbiter L) := fun _ => rfl

theorem conserved_step (ha : Conserved a) (h : step order a op = .ok b) : Conserved b := by
  rcases step_cases h with ⟨l, -, -, rfl⟩ | ⟨l, -, hl, rfl⟩ | ⟨l, -, -, hfind, rfl⟩ | ⟨-, -, rfl⟩
  · exact ha
  · intro m
    have hm := ha m
    by_cases he : m = l
    · subst he
      simp [hl, hm]
    · simp [he, hm, Ne.symm he]
  · have hl := List.find?_some hfind
    intro m
    have hm := ha m
    by_cases he : m = l
    · subst he
      simp [hl, hm]
    · simp [he, hm, Ne.symm he]
  · exact ha

/-- **Along every run.** -/
theorem conserved_run (ha : Conserved a) (h : run (step order) a ops = .ok b) : Conserved b :=
  run_invariant Conserved (fun _ _ _ => conserved_step) ha h

/-! ## Nobody pushes in -/

/-- What has been taken stays taken. -/
theorem taken_step (h : step order a op = .ok b) : a.taken <+: b.taken := by
  rcases step_cases h with ⟨l, -, -, rfl⟩ | ⟨l, -, -, rfl⟩ | ⟨l, -, -, -, rfl⟩ | ⟨-, -, rfl⟩
  · exact List.prefix_rfl
  · exact List.prefix_rfl
  · exact List.prefix_append _ _
  · exact List.prefix_rfl

theorem taken_run (h : run (step order) a ops = .ok b) : a.taken <+: b.taken :=
  run_invariant (fun c => a.taken <+: c.taken) (fun _ _ _ hc hstep => hc.trans (taken_step hstep))
    List.prefix_rfl h

/-- The first that waits is before all others that do. -/
theorem idxOf_lt_of_find {l m : L} (hfind : order.find? a.pending = some m) (hl : a.pending l = true)
    (hne : m ≠ l) : order.idxOf m < order.idxOf l := by
  obtain ⟨hm, front, back, horder, hfront⟩ := List.find?_eq_some_iff_append.mp hfind
  have hnot : ∀ x ∈ front, a.pending x ≠ true := fun x hx => by simpa using hfront x hx
  rw [horder, List.idxOf_append_of_notMem fun h => hnot m h hm,
    List.idxOf_append_of_notMem fun h => hnot l h hl, List.idxOf_cons_self, List.idxOf_cons_ne _ hne]
  omega

/-- **As long as a line waits**, only lines before it are taken. -/
theorem not_overtaken {l : L} (ha : a.pending l = true)
    (h : run (step order) a ops = .ok b) : ∃ more, b.taken = a.taken ++ more ∧
      (l ∈ more ∨ b.pending l = true ∧ ∀ m ∈ more, order.idxOf m < order.idxOf l) := by
  induction ops generalizing a with
  | nil =>
      cases h
      exact ⟨[], (List.append_nil _).symm, Or.inr ⟨ha, by simp⟩⟩
  | cons op ops ih =>
      obtain ⟨a₁, hstep, hrest⟩ := run_cons.mp h
      rcases step_cases hstep with ⟨m, -, -, rfl⟩ | ⟨m, -, -, rfl⟩ | ⟨m, -, -, hfind, rfl⟩ | ⟨-, -, rfl⟩
      · exact ih ha hrest
      · have ha' : Function.update a.pending m true l = true := by
          rw [Function.update_apply]
          split
          · rfl
          · exact ha
        have hover := ih ha' hrest
        exact hover
      · by_cases hne : m = l
        · obtain ⟨more, hmore⟩ := taken_run hrest
          refine ⟨m :: more, ?_, Or.inl (hne ▸ List.mem_cons_self)⟩
          rw [← hmore, List.append_assoc, List.singleton_append]
        · have ha' : Function.update a.pending m false l = true := by
            rw [Function.update_of_ne fun h => hne h.symm]
            exact ha
          obtain ⟨more, hmore, hover⟩ := ih ha' hrest
          refine ⟨m :: more, ?_, hover.imp (List.mem_cons_of_mem _) ?_⟩
          · rw [hmore, List.append_assoc, List.singleton_append]
          · rintro ⟨hpending, hless⟩
            exact ⟨hpending, List.forall_mem_cons.mpr ⟨idxOf_lt_of_find hfind ha hne, hless⟩⟩
      · exact ih (a := { a with serving := none }) ha hrest

end Arbiter

end Lib
