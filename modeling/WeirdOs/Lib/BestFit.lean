import Mathlib.Order.Lattice

/-!
# `Lib.BestFit` — scanning a list for the first smallest item that fits

One pass over a list with a candidate in hand: an available item replaces the candidate when it is large
enough and either smaller than the candidate or the candidate itself is too small. The candidate the pass
starts with may be anything available, so "smaller" and "large enough" have to be kept apart on the way.

* `BestFit` — what is looked for: the first of the smallest items that fit;
* `Scanned` — the invariant of the pass, over the items seen so far;
* `scanned_foldl` — a pass that starts at the first available item establishes it for the whole list.
-/

namespace Lib

variable {α β : Type} [LinearOrder β] (avail : α → Bool) (size : α → β) (n : β)

/-- `b`, between `xs` and `ys`, is the first of the smallest available items that hold `n`. -/
structure BestFit (xs : List α) (b : α) (ys : List α) : Prop where
  available : avail b = true
  holds : n ≤ size b
  before : ∀ c ∈ xs, avail c = true → n ≤ size c → size b < size c
  after : ∀ c ∈ ys, avail c = true → n ≤ size c → size b ≤ size c

/-- One step of the pass: keep the candidate, or prefer the current item. -/
def scanStep (best c : α) : α :=
  if avail c && decide (n ≤ size c ∧ (size c < size best ∨ size best < n)) then c else best

/-- After the items `us`: the candidate is the best fit among them, or none of them fits, and neither
    does the candidate. -/
def Scanned (us : List α) (best : α) : Prop :=
  (∃ xs ys, us = xs ++ best :: ys ∧ BestFit avail size n xs best ys) ∨
    (size best < n ∧ ∀ c ∈ us, avail c = true → size c < n)

variable {avail size n} {us vs : List α} {best f : α}

/-- An item that is not available is passed over. -/
theorem scanStep_of_not_avail {c : α} (h : avail c = false) : scanStep avail size n best c = best := by
  simp [scanStep, h]

/-- **One step keeps the invariant.** -/
theorem Scanned.step (h : Scanned avail size n us best) (c : α) :
    Scanned avail size n (us ++ [c]) (scanStep avail size n best c) := by
  unfold scanStep
  split
  · -- the current item is the new candidate: everything that fits and was seen before is larger
    rename_i hbetter
    simp only [Bool.and_eq_true, decide_eq_true_eq] at hbetter
    obtain ⟨havail, hfits, hsmaller⟩ := hbetter
    refine Or.inl ⟨us, [], rfl, havail, hfits, ?_, by simp⟩
    intro d hd hda hdn
    rcases h with ⟨xs, ys, rfl, hbest⟩ | ⟨_, hnone⟩
    · have hcb : size c < size best := hsmaller.resolve_right (not_lt_of_ge hbest.holds)
      rcases List.mem_append.mp hd with hd | hd
      · exact lt_trans hcb (hbest.before d hd hda hdn)
      · rcases List.mem_cons.mp hd with rfl | hd
        · exact hcb
        · exact lt_of_lt_of_le hcb (hbest.after d hd hda hdn)
    · exact absurd hdn (not_le_of_gt (hnone d hd hda))
  · rename_i hkeep
    simp only [Bool.and_eq_true, decide_eq_true_eq, not_and, not_or, not_lt] at hkeep
    rcases h with ⟨xs, ys, rfl, hbest⟩ | ⟨hsmall, hnone⟩
    · refine Or.inl ⟨xs, ys ++ [c], by simp, { hbest with after := ?_ }⟩
      intro d hd hda hdn
      rcases List.mem_append.mp hd with hd | hd
      · exact hbest.after d hd hda hdn
      · obtain rfl := List.mem_singleton.mp hd
        exact (hkeep hda hdn).1
    · refine Or.inr ⟨hsmall, ?_⟩
      intro d hd hda
      rcases List.mem_append.mp hd with hd | hd
      · exact hnone d hd hda
      · obtain rfl := List.mem_singleton.mp hd
        exact lt_of_not_ge fun hdn => not_lt_of_ge (hkeep hda hdn).2 hsmall

/-- A pass over more items. -/
theorem Scanned.foldl (h : Scanned avail size n us best) (vs : List α) :
    Scanned avail size n (us ++ vs) (vs.foldl (scanStep avail size n) best) := by
  induction vs generalizing us best with
  | nil => simpa using h
  | cons c vs ih => simpa using ih (h.step c)

/-- A pass over items that are not available keeps the candidate. -/
theorem foldl_scanStep_of_not_avail (h : ∀ c ∈ us, avail c = false) :
    us.foldl (scanStep avail size n) best = best := by
  induction us with
  | nil => rfl
  | cons c us ih =>
      rw [List.foldl_cons, scanStep_of_not_avail (h c List.mem_cons_self)]
      exact ih fun d hd => h d (List.mem_cons_of_mem _ hd)

/-- **The pass.** Started at the first available item, it ends at the best fit, or nothing fits. -/
theorem scanned_foldl (h : us.find? avail = some f) :
    Scanned avail size n us (us.foldl (scanStep avail size n) f) := by
  obtain ⟨hf, xs, vs, rfl, hxs⟩ := List.find?_eq_some_iff_append.mp h
  have hxs' : ∀ c ∈ xs, avail c = false := fun c hc => by simpa using hxs c hc
  have hself : scanStep avail size n f f = f := by unfold scanStep; split <;> rfl
  -- up to its own place the pass keeps the item it starts with
  have hstart : Scanned avail size n (xs ++ [f]) f := by
    rcases lt_or_ge (size f) n with hsmall | hfits
    · refine Or.inr ⟨hsmall, ?_⟩
      intro c hc hca
      rcases List.mem_append.mp hc with hc | hc
      · exact absurd hca (by simp [hxs' c hc])
      · rwa [List.mem_singleton.mp hc]
    · exact Or.inl ⟨xs, [], rfl, hf, hfits, fun c hc hca => absurd hca (by simp [hxs' c hc]), by simp⟩
  rw [List.foldl_append, List.foldl_cons, foldl_scanStep_of_not_avail hxs', hself]
  simpa using hstart.foldl vs

/-- A candidate that fits is the best fit. -/
theorem Scanned.bestFit (h : Scanned avail size n us best) (hfits : n ≤ size best) :
    ∃ xs ys, us = xs ++ best :: ys ∧ BestFit avail size n xs best ys :=
  h.resolve_right fun hnone => not_lt_of_ge hfits hnone.1

/-- The candidate fits as soon as anything does. -/
theorem Scanned.fits_iff (h : Scanned avail size n us best) :
    n ≤ size best ↔ ∃ c ∈ us, avail c = true ∧ n ≤ size c := by
  constructor
  · intro hfits
    obtain ⟨xs, ys, rfl, hbest⟩ := h.bestFit hfits
    exact ⟨best, by simp, hbest.available, hfits⟩
  · rintro ⟨c, hc, hca, hcn⟩
    rcases h with ⟨xs, ys, rfl, hbest⟩ | ⟨_, hnone⟩
    · exact hbest.holds
    · exact absurd hcn (not_le_of_gt (hnone c hc hca))

end Lib
