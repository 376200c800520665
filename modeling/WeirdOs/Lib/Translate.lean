import Mathlib.Logic.Function.Basic

/-!
# `Lib.Translate` — memory behind a translation that grows

A program names its memory by addresses; a partial translation says which place each of them stands for.
Others may extend the translation while the program runs. What the program sees is a memory of its own, with
one cell for each address, as long as two things hold:

* **different addresses stand for different places** (`Faithful`);
* **what is translated stays as it is** (`Extends`).

`Backs τ m₀ m flat` says that the places hold what was written to their addresses. `Backs.write` and
`Backs.extend` are the two steps that keep it.

Translations that extend each other have a union (`exists_union`), so one memory will do for a whole run.
-/

namespace Lib

variable {A P V : Type} {τ τ' τ'' : A → Option P} {a b : A} {p : P} {v : V} {m₀ m : P → V}
  {flat : A → Option V}

/-! ## Translations -/

/-- Different addresses are translated to different places. -/
def Faithful (τ : A → Option P) : Prop := ∀ a b p, τ a = some p → τ b = some p → a = b

/-- What the first translates, the second translates to the same place. -/
def Extends (τ τ' : A → Option P) : Prop := ∀ a p, τ a = some p → τ' a = some p

theorem Extends.refl : Extends τ τ := fun _ _ h => h

theorem Extends.trans (h : Extends τ τ') (h' : Extends τ' τ'') : Extends τ τ'' := fun a p ha =>
  h' a p (h a p ha)

/-- **Translations of which any two extend each other**, one way or the other, are parts of a single one. -/
theorem exists_union {ι : Type} {σ : ι → A → Option P}
    (h : ∀ i j, Extends (σ i) (σ j) ∨ Extends (σ j) (σ i)) : ∃ τ, ∀ i, Extends (σ i) τ := by
  classical
  let τ : A → Option P := fun a => if hex : ∃ i p, σ i a = some p then some hex.choose_spec.choose else none
  refine ⟨τ, ?_⟩
  intro i a p ha
  have hex : ∃ i p, σ i a = some p := ⟨i, p, ha⟩
  have hchosen : σ hex.choose a = some hex.choose_spec.choose := hex.choose_spec.choose_spec
  have hτ : τ a = some hex.choose_spec.choose := dif_pos hex
  rw [hτ, ← hchosen]
  rcases h i hex.choose with hext | hext
  · exact hext a p ha
  · rw [← ha, hchosen]
    exact (hext a _ hchosen).symm

/-! ## Memory -/

/-- **The places hold what was written.** `flat` has the value last written to each address, and `m₀` what
    the places held at first. -/
structure Backs (τ : A → Option P) (m₀ m : P → V) (flat : A → Option V) : Prop where
  written : ∀ a, flat a ≠ none → τ a ≠ none
  holds : ∀ a p, τ a = some p → m p = (flat a).getD (m₀ p)
  rest : ∀ p, (∀ a, τ a ≠ some p) → m p = m₀ p

/-- Nothing is written yet. -/
theorem Backs.init : Backs τ m₀ m₀ fun _ => none :=
  ⟨fun _ h => absurd rfl h, fun _ _ _ => rfl, fun _ _ => rfl⟩

/-- **A larger translation** shows the same memory: nobody wrote to the new addresses, nor to the new places. -/
theorem Backs.extend (h : Backs τ m₀ m flat) (hext : Extends τ τ') (hfaithful : Faithful τ') :
    Backs τ' m₀ m flat := by
  refine ⟨?_, ?_, fun p hp => h.rest p fun a ha => hp a (hext a p ha)⟩
  · intro a ha hnone
    cases hold : τ a with
    | none => exact h.written a ha hold
    | some p => rw [hext a p hold] at hnone; cases hnone
  · intro a p ha
    cases hold : τ a with
    | some q =>
        obtain rfl := Option.some.inj ((hext a q hold).symm.trans ha)
        exact h.holds a q hold
    | none =>
        have hflat : flat a = none := by
          by_contra hne
          exact h.written a hne hold
        rw [hflat]
        refine h.rest p ?_
        -- an address that had the place already would be this one
        intro b hb
        rw [hfaithful b a p (hext b p hb) ha, hold] at hb
        cases hb

/-- **A write** to the place of an address is a write to the address, and to no other. -/
theorem Backs.write [DecidableEq A] [DecidableEq P] (h : Backs τ m₀ m flat) (hfaithful : Faithful τ)
    (ha : τ a = some p) (v : V) :
    Backs τ m₀ (Function.update m p v) (Function.update flat a (some v)) := by
  refine ⟨?_, ?_, ?_⟩
  · intro b hb
    by_cases hba : b = a
    · rw [hba, ha]
      exact Option.some_ne_none p
    · rw [Function.update_of_ne hba] at hb
      exact h.written b hb
  · intro b q hb
    by_cases hba : b = a
    · subst hba
      obtain rfl := Option.some.inj (ha.symm.trans hb)
      rw [Function.update_self, Function.update_self, Option.getD_some]
    · have hqp : q ≠ p := fun hqp => hba (hfaithful b a p (hqp ▸ hb) ha)
      rw [Function.update_of_ne hqp, Function.update_of_ne hba]
      exact h.holds b q hb
  · intro q hq
    have hqp : q ≠ p := by
      rintro rfl
      exact hq a ha
    rw [Function.update_of_ne hqp]
    exact h.rest q hq

end Lib
