/-! # Running operations with a state

An operation is a function of its state and answers with a value or an error; either
way it leaves a state. These are the steps that operations are made of. -/
namespace NetBridge

section Steps

variable {ε σ α β : Type} {s t : σ}

theorem bind_of_ok {x : EStateM ε σ α} {f : α → EStateM ε σ β} {a : α} (h : x s = .ok a t) :
    (x >>= f) s = f a t := by
  simp only [bind, EStateM.bind, h]

theorem bind_of_error {x : EStateM ε σ α} {f : α → EStateM ε σ β} {e : ε} (h : x s = .error e t) :
    (x >>= f) s = .error e t := by
  simp only [bind, EStateM.bind, h]

/-- Two operations in a row succeed if both do. -/
theorem bind_eq_ok {x : EStateM ε σ α} {f : α → EStateM ε σ β} {b : β} :
    (x >>= f) s = .ok b t ↔ ∃ a u, x s = .ok a u ∧ f a u = .ok b t := by
  cases h : x s with
  | ok a u => simp [bind_of_ok h, and_assoc]
  | error e u => simp [bind_of_error h]

/-- They fail where the first of them fails that does. -/
theorem bind_eq_error {x : EStateM ε σ α} {f : α → EStateM ε σ β} {e : ε} :
    (x >>= f) s = .error e t ↔
      x s = .error e t ∨ ∃ a u, x s = .ok a u ∧ f a u = .error e t := by
  cases h : x s with
  | ok a u => simp [bind_of_ok h, and_assoc]
  | error e' u => simp [bind_of_error h]

@[simp] theorem get_run : (get : EStateM ε σ σ) s = .ok s s := rfl

@[simp] theorem modify_run (f : σ → σ) : (modify f : EStateM ε σ PUnit) s = .ok () (f s) := rfl

@[simp] theorem modifyGet_run (f : σ → α × σ) :
    (modifyGet f : EStateM ε σ α) s = .ok (f s).1 (f s).2 := rfl

@[simp] theorem throw_run (e : ε) : (throw e : EStateM ε σ α) s = .error e s := rfl

@[simp] theorem pure_run (a : α) : (pure a : EStateM ε σ α) s = .ok a s := rfl

/-- The state that an operation leaves behind, failed or not. -/
def stateAfter (x : EStateM ε σ α) (s : σ) : σ :=
  match x s with
  | .ok _ t => t
  | .error _ t => t

theorem stateAfter_ok {x : EStateM ε σ α} {a : α} (h : x s = .ok a t) : stateAfter x s = t := by
  rw [stateAfter, h]

theorem stateAfter_error {x : EStateM ε σ α} {e : ε} (h : x s = .error e t) :
    stateAfter x s = t := by
  rw [stateAfter, h]

/-- What is done with the answer does not matter to the state. -/
theorem stateAfter_map (x : EStateM ε σ α) (f : α → β) (s : σ) :
    stateAfter (x >>= fun a => pure (f a)) s = stateAfter x s := by
  cases h : x s with
  | ok a t => rw [stateAfter_ok h, stateAfter, bind_of_ok h, pure_run]
  | error e t => rw [stateAfter_error h, stateAfter_error (bind_of_error h)]

end Steps

end NetBridge
