import WeirdOs.Lib.Exec

/-!
# `Lib.Stateful` — computations that keep the state they stop in

`Except ε` forgets the state where a computation stops. `EStateM ε σ` hands back a state in either case,
and is the type of a program whose failures matter for what they leave behind.

* **what returns** (`returned`): with the state of a failure dropped, such a program is a function into
  `Except`. `returned_bind` and `returned_reading` take that apart along the program;
* **what stops** (`bind_error`): a sequence stops in its first part, or in its second after the first has
  returned. `reading_error` says that code which only reads leaves the state as it was.

Nothing here mentions what the state is.
-/

namespace Lib

variable {ε σ α β : Type}

/-- What is left when the state of a failure is dropped. -/
def returned : EStateM.Result ε σ α → Except ε (α × σ)
  | .ok a s    => .ok (a, s)
  | .error e _ => .error e

/-- Code that only reads the state. -/
def reading (f : σ → Except ε α) : EStateM ε σ α := fun s =>
  match f s with
  | .ok a    => .ok a s
  | .error e => .error e s

@[simp] theorem get_bind (f : σ → EStateM ε σ β) (s : σ) : (get >>= f) s = f s s := rfl

@[simp] theorem modify_bind (g : σ → σ) (f : PUnit → EStateM ε σ β) (s : σ) :
    (modify g >>= f) s = f () (g s) := rfl

/-! ## What returns -/

theorem returned_bind (x : EStateM ε σ α) (f : α → EStateM ε σ β) (s : σ) :
    returned ((x >>= f) s) = returned (x s) >>= fun r => returned (f r.1 r.2) := by
  show returned (EStateM.bind x f s) = _
  unfold EStateM.bind
  cases x s <;> rfl

theorem returned_reading (f : σ → Except ε α) (s : σ) :
    returned (reading f s) = f s >>= fun a => .ok (a, s) := by
  unfold reading
  cases f s <;> rfl

theorem returned_eq_ok {x : EStateM.Result ε σ α} {a : α} {s : σ} :
    returned x = .ok (a, s) ↔ x = .ok a s := by
  cases x <;> simp [returned]

theorem returned_eq_error {x : EStateM.Result ε σ α} {e : ε} :
    returned x = .error e ↔ ∃ s, x = .error e s := by
  cases x <;> simp [returned]

/-! ## What stops -/

variable {e : ε} {s s' t : σ}

/-- A sequence that stops has stopped in its first part, or in the second after the first returned. -/
theorem bind_error {x : EStateM ε σ α} {f : α → EStateM ε σ β} (h : (x >>= f) s = .error e s') :
    x s = .error e s' ∨ ∃ a t, x s = .ok a t ∧ f a t = .error e s' := by
  have h' : EStateM.bind x f s = .error e s' := h
  unfold EStateM.bind at h'
  split at h'
  · rename_i a t hx
    exact Or.inr ⟨a, t, hx, h'⟩
  · rename_i hx
    cases h'
    exact Or.inl hx

/-- Code that only reads leaves the state as it was. -/
theorem reading_error {f : σ → Except ε α} (h : reading f s = .error e s') : s' = s := by
  unfold reading at h
  split at h
  · cases h
  · cases h
    rfl

theorem reading_ok {f : σ → Except ε α} {a : α} (h : reading f s = .ok a t) : t = s := by
  unfold reading at h
  split at h
  · cases h
    rfl
  · cases h

end Lib
