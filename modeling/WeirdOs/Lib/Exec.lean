/-!
# `Lib.Exec` — fallible computations and runs of a step function

The error monad used throughout is `Except ε`. Two things are needed of it and nothing else:

* **inversion of `bind`** (`bind_eq_ok`): a computation that returns has returned at every stage;
* **runs** (`run step s os`): a list of operations executed one after the other, the first failure
  ending the run. `run_invariant` packages the induction once: a property of the start state that
  every successful step preserves holds in every state reached. `run_holds_iff` is its converse too:
  where the steps that keep the property are known exactly, so are the runs.

Nothing here mentions what the states or the operations are.
-/

namespace Lib

variable {ε σ ο α β : Type}

/-! ## Inversion -/

/-- **A sequenced computation returns iff both stages do.** -/
theorem bind_eq_ok {x : Except ε α} {f : α → Except ε β} {r : β} :
    (x >>= f) = .ok r ↔ ∃ a, x = .ok a ∧ f a = .ok r := by
  cases x with
  | error e =>
      constructor
      · intro h
        cases h
      · rintro ⟨_, h, _⟩
        cases h
  | ok a =>
      constructor
      · intro h
        exact ⟨a, rfl, h⟩
      · rintro ⟨_, h, hf⟩
        cases h
        exact hf

@[simp] theorem ok_bind (a : α) (f : α → Except ε β) : ((.ok a : Except ε α) >>= f) = f a := rfl

@[simp] theorem error_bind (e : ε) (f : α → Except ε β) :
    ((.error e : Except ε α) >>= f) = .error e := rfl

@[simp] theorem pure_eq_ok (a : α) : (pure a : Except ε α) = .ok a := rfl

@[simp] theorem throw_eq_error (e : ε) : (throw e : Except ε α) = .error e := rfl

theorem toOption_eq_some {x : Except ε α} {a : α} : x.toOption = some a ↔ x = .ok a := by
  cases x <;> simp [Except.toOption]

/-! ## Runs -/

/-- Execute the operations in order; the first one that fails ends the run. -/
def run (step : σ → ο → Except ε σ) : σ → List ο → Except ε σ
  | s, []      => .ok s
  | s, o :: os => step s o >>= fun s' => run step s' os

variable {step : σ → ο → Except ε σ}

@[simp] theorem run_nil (s : σ) : run step s [] = .ok s := rfl

theorem run_cons {s s' : σ} {o : ο} {os : List ο} :
    run step s (o :: os) = .ok s' ↔ ∃ t, step s o = .ok t ∧ run step t os = .ok s' := bind_eq_ok

/-- A run of a concatenation is a run of the first part followed by a run of the second. -/
theorem run_append_eq (s : σ) (os os' : List ο) :
    run step s (os ++ os') = run step s os >>= fun t => run step t os' := by
  induction os generalizing s with
  | nil => rfl
  | cons o os ih =>
      rw [List.cons_append, run, run]
      cases step s o with
      | error e => rfl
      | ok t => exact ih t

theorem run_append {s s' : σ} {os os' : List ο} :
    run step s (os ++ os') = .ok s' ↔ ∃ t, run step s os = .ok t ∧ run step t os' = .ok s' := by
  rw [run_append_eq, bind_eq_ok]

/-- What has returned has returned at every stage. -/
theorem run_prefix {s t : σ} {pre os : List ο} (hpre : pre <+: os) (h : run step s os = .ok t) :
    ∃ u, run step s pre = .ok u := by
  obtain ⟨rest, rfl⟩ := hpre
  obtain ⟨u, hu, _⟩ := run_append.mp h
  exact ⟨u, hu⟩

/-- A run of large steps, each of which is a run of small ones, is a run of small steps. -/
theorem run_flatMap {ο' : Type} {step' : σ → ο' → Except ε σ} {f : ο → List ο'}
    (h : ∀ s o, step s o = run step' s (f o)) (s : σ) (os : List ο) :
    run step s os = run step' s (os.flatMap f) := by
  induction os generalizing s with
  | nil => rfl
  | cons o os ih =>
      rw [List.flatMap_cons, run_append_eq, run, h]
      simp only [ih]

/-- A run of renamed operations. -/
theorem run_map {ο' : Type} {step' : σ → ο' → Except ε σ} {f : ο → ο'}
    (h : ∀ s o, step s o = step' s (f o)) (s : σ) (os : List ο) :
    run step s os = run step' s (os.map f) := by
  induction os generalizing s with
  | nil => rfl
  | cons o os ih =>
      rw [List.map_cons, run, run, h]
      simp only [ih]

/-- A run of operations on a part of the state is a run on that part. -/
theorem run_part {τ ο' : Type} {step' : τ → ο' → Except ε τ} {f : ο' → ο} (set : τ → σ)
    (h : ∀ t o, step (set t) (f o) = step' t o >>= fun t' => .ok (set t')) (t : τ) (os : List ο') :
    run step (set t) (os.map f) = run step' t os >>= fun t' => .ok (set t') := by
  induction os generalizing t with
  | nil => rfl
  | cons o os ih =>
      rw [List.map_cons, run, run, h]
      cases step' t o with
      | error e => rfl
      | ok t' => exact ih t'

/-- **The guarded invariant rule.** What holds at the start and survives every successful step that
    satisfies `ok` holds at the end of every run of such steps. -/
theorem run_invariant_of (Inv : σ → Prop) {ok : ο → Prop}
    (hstep : ∀ s o s', ok o → Inv s → step s o = .ok s' → Inv s') :
    ∀ {os : List ο} {s s' : σ}, (∀ o ∈ os, ok o) → Inv s → run step s os = .ok s' → Inv s' := by
  intro os
  induction os with
  | nil =>
      intro s s' _ h0 h
      cases h
      exact h0
  | cons o os ih =>
      intro s s' hok h0 h
      obtain ⟨t, ht, hrest⟩ := run_cons.mp h
      exact ih (fun o' ho' => hok o' (List.mem_cons_of_mem _ ho'))
        (hstep s o t (hok o List.mem_cons_self) h0 ht) hrest

/-- **The invariant rule.** The same for runs of any steps. -/
theorem run_invariant (Inv : σ → Prop)
    (hstep : ∀ s o s', Inv s → step s o = .ok s' → Inv s') {os : List ο} {s s' : σ} (h0 : Inv s)
    (h : run step s os = .ok s') : Inv s' :=
  run_invariant_of Inv (fun s o s' (_ : True) hs => hstep s o s' hs) (fun _ _ => trivial) h0 h

/-! ## Traces -/

/-- What the steps of a run report one after the other, the step that fails included. -/
def trace (out : σ → ο → List α) (step : σ → ο → Except ε σ) : σ → List ο → List α
  | _, []      => []
  | s, o :: os => out s o ++
      match step s o with
      | .ok t    => trace out step t os
      | .error _ => []

theorem trace_ok {out : σ → ο → List α} {s t : σ} {o : ο} {os : List ο} (hstep : step s o = .ok t) :
    trace out step s (o :: os) = out s o ++ trace out step t os := by
  rw [trace, hstep]

theorem trace_error {out : σ → ο → List α} {s : σ} {e : ε} {o : ο} {os : List ο}
    (hstep : step s o = .error e) : trace out step s (o :: os) = out s o := by
  rw [trace, hstep, List.append_nil]

/-- A run of two parts reports what both report. -/
theorem trace_append {out : σ → ο → List α} {s t : σ} {os os' : List ο} (hrun : run step s os = .ok t) :
    trace out step s (os ++ os') = trace out step s os ++ trace out step t os' := by
  induction os generalizing s with
  | nil =>
      cases hrun
      rfl
  | cons o os ih =>
      obtain ⟨u, hstep, hrest⟩ := run_cons.mp hrun
      rw [List.cons_append, trace_ok hstep, trace_ok hstep, ih hrest, List.append_assoc]

/-- Steps that report nothing. -/
theorem trace_eq_nil {out : σ → ο → List α} {s : σ} {os : List ο} (h : ∀ o ∈ os, ∀ s, out s o = []) :
    trace out step s os = [] := by
  induction os generalizing s with
  | nil => rfl
  | cons o os ih =>
      rw [trace, h o List.mem_cons_self, List.nil_append]
      cases step s o with
      | ok t => exact ih fun o' ho' => h o' (List.mem_cons_of_mem o ho')
      | error e => rfl

/-! ## Along a run -/

/-- Something holds of every state along a run iff it holds of the first one and along the rest. -/
theorem forall_states_cons {P : σ → Prop} {s t : σ} {o : ο} {os : List ο} (hstep : step s o = .ok t) :
    (∀ pre u, pre <+: o :: os → run step s pre = .ok u → P u) ↔
      P s ∧ ∀ pre u, pre <+: os → run step t pre = .ok u → P u := by
  constructor
  · intro h
    refine ⟨h [] s List.nil_prefix rfl, ?_⟩
    intro pre u hpre hu
    exact h (o :: pre) u (List.cons_prefix_cons.mpr ⟨rfl, hpre⟩) (run_cons.mpr ⟨t, hstep, hu⟩)
  · rintro ⟨hs, h⟩ pre u hpre hu
    cases pre with
    | nil =>
        cases hu
        exact hs
    | cons o' pre =>
        obtain ⟨rfl, hpre'⟩ := List.cons_prefix_cons.mp hpre
        obtain ⟨t', hstep', hu⟩ := run_cons.mp hu
        obtain rfl := Except.ok.inj (hstep.symm.trans hstep')
        exact h pre u hpre' hu

/-- Something holds of every step along a run iff it holds of the first one and along the rest. -/
theorem forall_steps_cons {Q : σ → ο → Prop} {s t : σ} {o : ο} {os : List ο} (hstep : step s o = .ok t) :
    (∀ pre a u, pre ++ [a] <+: o :: os → run step s pre = .ok u → Q u a) ↔
      Q s o ∧ ∀ pre a u, pre ++ [a] <+: os → run step t pre = .ok u → Q u a := by
  constructor
  · intro h
    refine ⟨h [] o s (by simp) rfl, ?_⟩
    intro pre a u hpre hu
    exact h (o :: pre) a u (List.cons_prefix_cons.mpr ⟨rfl, hpre⟩) (run_cons.mpr ⟨t, hstep, hu⟩)
  · rintro ⟨ho, h⟩ pre a u hpre hu
    cases pre with
    | nil =>
        cases hu
        obtain ⟨rfl, _⟩ := List.cons_prefix_cons.mp hpre
        exact ho
    | cons o' pre =>
        obtain ⟨rfl, hpre'⟩ := List.cons_prefix_cons.mp hpre
        obtain ⟨t', hstep', hu⟩ := run_cons.mp hu
        obtain rfl := Except.ok.inj (hstep.symm.trans hstep')
        exact h pre a u hpre' hu

/-- **Something holds of all that a run reports** iff it holds of the report of every step along it. -/
theorem forall_trace_iff {out : σ → ο → List α} {P : α → Prop} {os : List ο} {s : σ} :
    (∀ a ∈ trace out step s os, P a) ↔
      ∀ pre o u, pre ++ [o] <+: os → run step s pre = .ok u → ∀ a ∈ out u o, P a := by
  induction os generalizing s with
  | nil => simp [trace]
  | cons o os ih =>
      cases hstep : step s o with
      | ok t => rw [trace_ok hstep, forall_steps_cons hstep, List.forall_mem_append, ih]
      | error e =>
          rw [trace_error hstep]
          constructor
          · intro h pre o' u hpre hu
            cases pre with
            | nil =>
                cases hu
                obtain ⟨rfl, _⟩ := List.cons_prefix_cons.mp hpre
                exact h
            | cons o'' pre =>
                -- a run cannot get past a step that fails
                obtain ⟨rfl, _⟩ := List.cons_prefix_cons.mp hpre
                obtain ⟨t, ht, _⟩ := run_cons.mp hu
                rw [hstep] at ht
                cases ht
          · exact fun h => h [] o s (by simp) rfl

/-- What depends on the operation only holds of every step along a run iff it holds of every operation. -/
theorem forall_steps_iff {Q : ο → Prop} {os : List ο} {s t : σ} (hrun : run step s os = .ok t) :
    (∀ pre o u, pre ++ [o] <+: os → run step s pre = .ok u → Q o) ↔ ∀ o ∈ os, Q o := by
  induction os generalizing s with
  | nil => simp
  | cons o os ih =>
      obtain ⟨s₁, hstep, hrest⟩ := run_cons.mp hrun
      rw [forall_steps_cons hstep, ih hrest, List.forall_mem_cons]

/-- **The rule for steps.** Where `P` and `Q` are the same for every step from a state in order, and such a
    step leaves the state in order, they are the same along runs. -/
theorem run_steps_iff {I : σ → Prop} {P Q : σ → ο → Prop}
    (hiff : ∀ s o t, I s → step s o = .ok t → (P s o ↔ Q s o))
    (hkeep : ∀ s o t, I s → Q s o → step s o = .ok t → I t)
    {os : List ο} {s t : σ} (hs : I s) (hrun : run step s os = .ok t) :
    (∀ pre o u, pre ++ [o] <+: os → run step s pre = .ok u → P u o) ↔
      ∀ pre o u, pre ++ [o] <+: os → run step s pre = .ok u → Q u o := by
  induction os generalizing s with
  | nil => simp
  | cons o os ih =>
      obtain ⟨s₁, hstep, hrest⟩ := run_cons.mp hrun
      rw [forall_steps_cons hstep, forall_steps_cons hstep, hiff s o s₁ hs hstep]
      refine and_congr_right fun hq => ih (hkeep s o s₁ hs hq hstep) hrest

/-- **The rule for good steps.** What holds at the start and survives every good step holds all along a run
    of good steps. -/
theorem run_good {I : σ → Prop} {Good : σ → ο → Prop}
    (hkeep : ∀ s o t, I s → Good s o → step s o = .ok t → I t) {os : List ο} {s t : σ} (hs : I s)
    (hrun : run step s os = .ok t)
    (hgood : ∀ pre o u, pre ++ [o] <+: os → run step s pre = .ok u → Good u o) :
    ∀ pre u, pre <+: os → run step s pre = .ok u → I u := by
  induction os generalizing s with
  | nil =>
      intro pre u hpre hu
      obtain rfl := List.prefix_nil.mp hpre
      cases hu
      exact hs
  | cons o os ih =>
      obtain ⟨s₁, hstep, hrest⟩ := run_cons.mp hrun
      rw [forall_steps_cons hstep] at hgood
      rw [forall_states_cons hstep]
      exact ⟨hs, ih (hkeep s o s₁ hs hgood.1 hstep) hrest hgood.2⟩

/-- **The guarded exactness rule.** Among the steps that satisfy `Pre`, let good ones keep an invariant that
    implies `P`, and let every other one break `P`. Then `P` holds all along a run of such steps iff all of
    them are good. -/
theorem run_holds_iff_of {I P : σ → Prop} {Pre Good : σ → ο → Prop} (himp : ∀ s, I s → P s)
    (hkeep : ∀ s o t, I s → Pre s o → Good s o → step s o = .ok t → I t)
    (hbreak : ∀ s o t, I s → Pre s o → ¬ Good s o → step s o = .ok t → ¬ P t)
    {os : List ο} {s t : σ} (hs : I s) (hrun : run step s os = .ok t)
    (hpre : ∀ pre o u, pre ++ [o] <+: os → run step s pre = .ok u → Pre u o) :
    (∀ pre u, pre <+: os → run step s pre = .ok u → P u) ↔
      ∀ pre o u, pre ++ [o] <+: os → run step s pre = .ok u → Good u o := by
  induction os generalizing s with
  | nil =>
      refine iff_of_true ?_ (by simp)
      intro pre u hnil hu
      obtain rfl := List.prefix_nil.mp hnil
      cases hu
      exact himp s hs
  | cons o os ih =>
      obtain ⟨s₁, hstep, hrest⟩ := run_cons.mp hrun
      rw [forall_steps_cons hstep] at hpre
      rw [forall_states_cons hstep, forall_steps_cons hstep]
      by_cases hgood : Good s o
      · rw [ih (hkeep s o s₁ hs hpre.1 hgood hstep) hrest hpre.2, and_iff_right (himp s hs),
          and_iff_right hgood]
      · refine iff_of_false ?_ fun h => hgood h.1
        intro h
        exact hbreak s o s₁ hs hpre.1 hgood hstep (h.2 [] s₁ List.nil_prefix rfl)

/-- **The exactness rule.** The same for runs of any steps. -/
theorem run_holds_iff {I P : σ → Prop} {Good : σ → ο → Prop} (himp : ∀ s, I s → P s)
    (hkeep : ∀ s o t, I s → Good s o → step s o = .ok t → I t)
    (hbreak : ∀ s o t, I s → ¬ Good s o → step s o = .ok t → ¬ P t)
    {os : List ο} {s t : σ} (hs : I s) (hrun : run step s os = .ok t) :
    (∀ pre u, pre <+: os → run step s pre = .ok u → P u) ↔
      ∀ pre o u, pre ++ [o] <+: os → run step s pre = .ok u → Good u o :=
  run_holds_iff_of himp (fun s o t hI (_ : True) hgood hstep => hkeep s o t hI hgood hstep)
    (fun s o t hI _ hbad hstep => hbreak s o t hI hbad hstep) hs hrun fun _ _ _ _ _ => trivial

/-! ## Simulation -/

/-- **The simulation rule.** Let every good step that the reference can make be matched by a step that
    returns, or end in a permitted failure. Then a run of good steps matches the run of the reference, or
    ends in a permitted failure. -/
theorem run_simulates {ε' τ : Type} {step' : τ → ο → Except ε' τ} {R : σ → τ → Prop}
    {Good : σ → ο → Prop} {E : ε → Prop}
    (hstep : ∀ s d o d', R s d → Good s o → step' d o = .ok d' →
      (∃ s', step s o = .ok s' ∧ R s' d') ∨ ∃ e, step s o = .error e ∧ E e)
    {os : List ο} {s : σ} {d d' : τ} (hR : R s d) (hrun : run step' d os = .ok d')
    (hgood : ∀ pre o u, pre ++ [o] <+: os → run step s pre = .ok u → Good u o) :
    (∃ s', run step s os = .ok s' ∧ R s' d') ∨ ∃ e, run step s os = .error e ∧ E e := by
  induction os generalizing s d with
  | nil =>
      cases hrun
      exact Or.inl ⟨s, rfl, hR⟩
  | cons o os ih =>
      obtain ⟨d₁, hd₁, hrest⟩ := run_cons.mp hrun
      rcases hstep s d o d₁ hR (hgood [] o s (by simp) rfl) hd₁ with ⟨s₁, hs₁, hR₁⟩ | ⟨e, he, hE⟩
      · rw [forall_steps_cons hs₁] at hgood
        rcases ih hR₁ hrest hgood.2 with ⟨s', hs', hR'⟩ | ⟨e, he, hE⟩
        · exact Or.inl ⟨s', run_cons.mpr ⟨s₁, hs₁, hs'⟩, hR'⟩
        · refine Or.inr ⟨e, ?_, hE⟩
          rw [run, hs₁, ok_bind, he]
      · refine Or.inr ⟨e, ?_, hE⟩
        rw [run, he, error_bind]

/-- A reference that never fails allows operations one after the other. -/
def AllAllowed {τ : Type} (allows : τ → ο → Prop) (next : τ → ο → τ) : τ → List ο → Prop
  | _, []      => True
  | d, o :: os => allows d o ∧ AllAllowed allows next (next d o) os

/-- **The refinement rule.** Let every step that the reference allows be matched. Then so is every run that it
    allows. -/
theorem run_refines {τ : Type} {allows : τ → ο → Prop} {next : τ → ο → τ} {R : σ → τ → Prop}
    (hstep : ∀ s d o, R s d → allows d o → ∃ s', step s o = .ok s' ∧ R s' (next d o))
    {os : List ο} {s : σ} {d : τ} (hR : R s d) (hallowed : AllAllowed allows next d os) :
    ∃ s', run step s os = .ok s' ∧ R s' (os.foldl next d) := by
  induction os generalizing s d with
  | nil => exact ⟨s, rfl, hR⟩
  | cons o os ih =>
      obtain ⟨s₁, hs₁, hR₁⟩ := hstep s d o hR hallowed.1
      obtain ⟨s', hs', hR'⟩ := ih hR₁ hallowed.2
      exact ⟨s', run_cons.mpr ⟨s₁, hs₁, hs'⟩, hR'⟩

/-- Something relates the states along two runs iff it does at first and along the rest. -/
theorem forall_pairs_cons {ε' τ : Type} {step' : τ → ο → Except ε' τ} {P : σ → τ → Prop} {s t : σ}
    {d e : τ} {o : ο} {os : List ο} (hstep : step s o = .ok t) (hstep' : step' d o = .ok e) :
    (∀ pre u v, pre <+: o :: os → run step s pre = .ok u → run step' d pre = .ok v → P u v) ↔
      P s d ∧ ∀ pre u v, pre <+: os → run step t pre = .ok u → run step' e pre = .ok v → P u v := by
  constructor
  · intro h
    refine ⟨h [] s d List.nil_prefix rfl rfl, ?_⟩
    intro pre u v hpre hu hv
    exact h (o :: pre) u v (List.cons_prefix_cons.mpr ⟨rfl, hpre⟩) (run_cons.mpr ⟨t, hstep, hu⟩)
      (run_cons.mpr ⟨e, hstep', hv⟩)
  · rintro ⟨hs, h⟩ pre u v hpre hu hv
    cases pre with
    | nil =>
        cases hu
        cases hv
        exact hs
    | cons o' pre =>
        obtain ⟨rfl, hpre'⟩ := List.cons_prefix_cons.mp hpre
        obtain ⟨t', ht', hu⟩ := run_cons.mp hu
        obtain ⟨e', he', hv⟩ := run_cons.mp hv
        obtain rfl := Except.ok.inj (hstep.symm.trans ht')
        obtain rfl := Except.ok.inj (hstep'.symm.trans he')
        exact h pre u v hpre' hu hv

/-- **The exactness rule for simulations.** Let good steps keep a relation to the reference that implies
    `P`, and let every other step break `P`. Then `P` holds all along a run iff all of its steps are good. -/
theorem run_simulates_iff {ε' τ : Type} {step' : τ → ο → Except ε' τ} {R P : σ → τ → Prop}
    {Good : σ → ο → Prop} (himp : ∀ s d, R s d → P s d)
    (hkeep : ∀ s d o t e, R s d → Good s o → step s o = .ok t → step' d o = .ok e → R t e)
    (hbreak : ∀ s d o t e, R s d → ¬ Good s o → step s o = .ok t → step' d o = .ok e → ¬ P t e)
    {os : List ο} {s t : σ} {d e : τ} (hR : R s d) (hrun : run step s os = .ok t)
    (hrun' : run step' d os = .ok e) :
    (∀ pre u v, pre <+: os → run step s pre = .ok u → run step' d pre = .ok v → P u v) ↔
      ∀ pre o u, pre ++ [o] <+: os → run step s pre = .ok u → Good u o := by
  induction os generalizing s d with
  | nil =>
      refine iff_of_true ?_ (by simp)
      intro pre u v hpre hu hv
      obtain rfl := List.prefix_nil.mp hpre
      cases hu
      cases hv
      exact himp s d hR
  | cons o os ih =>
      obtain ⟨s₁, hstep, hrest⟩ := run_cons.mp hrun
      obtain ⟨d₁, hstep', hrest'⟩ := run_cons.mp hrun'
      rw [forall_pairs_cons hstep hstep', forall_steps_cons hstep]
      by_cases hgood : Good s o
      · rw [ih (hkeep s d o s₁ d₁ hR hgood hstep hstep') hrest hrest', and_iff_right (himp s d hR),
          and_iff_right hgood]
      · refine iff_of_false ?_ fun h => hgood h.1
        intro h
        exact hbreak s d o s₁ d₁ hR hgood hstep hstep' (h.2 [] s₁ d₁ List.nil_prefix rfl rfl)

end Lib
