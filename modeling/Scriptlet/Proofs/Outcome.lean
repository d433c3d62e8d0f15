/-!
Where a sequence of steps succeeds, each of its steps does, from the state that the one before left.
-/

namespace Scriptlet.Outcome

variable {ε σ α β : Type}

/-- Two steps succeed if the first does, and the second from what it leaves. -/
theorem bind_eq_ok {m : EStateM ε σ α} {f : α → EStateM ε σ β} {s s' : σ} {b : β} :
    (m >>= f) s = .ok b s' ↔ ∃ a s₁, m s = .ok a s₁ ∧ f a s₁ = .ok b s' := by
  change EStateM.bind m f s = _ ↔ _
  unfold EStateM.bind
  cases m s with
  | ok a s₁ =>
    constructor
    · exact fun h => ⟨a, s₁, rfl, h⟩
    · rintro ⟨_, _, h, hf⟩
      cases h
      exact hf
  | error d s₁ => simp

/-- Two steps fail in the first, or in the second from what the first leaves. -/
theorem bind_eq_error {m : EStateM ε σ α} {f : α → EStateM ε σ β} {s s' : σ} {d : ε} :
    (m >>= f) s = .error d s' ↔
      m s = .error d s' ∨ ∃ a s₁, m s = .ok a s₁ ∧ f a s₁ = .error d s' := by
  change EStateM.bind m f s = _ ↔ _
  unfold EStateM.bind
  cases m s with
  | ok a s₁ => simp [and_assoc]
  | error d s₁ => simp

theorem pure_eq_ok {s s' : σ} {a b : α} :
    (pure a : EStateM ε σ α) s = .ok b s' ↔ b = a ∧ s' = s := by
  change EStateM.Result.ok a s = _ ↔ _
  simp [eq_comm]

/-- Two steps without a state succeed if both do. -/
theorem exceptBind_eq_ok {m : Except ε α} {f : α → Except ε β} {b : β} :
    (m >>= f) = .ok b ↔ ∃ a, m = .ok a ∧ f a = .ok b := by
  cases m with
  | ok a =>
    constructor
    · exact fun h => ⟨a, rfl, h⟩
    · rintro ⟨_, h, hf⟩
      cases h
      exact hf
  | error d => simp [bind, Except.bind]

theorem exceptBind_eq_error {m : Except ε α} {f : α → Except ε β} {d : ε} :
    (m >>= f) = .error d ↔ m = .error d ∨ ∃ a, m = .ok a ∧ f a = .error d := by
  cases m with
  | ok a => simp [bind, Except.bind]
  | error d' => simp [bind, Except.bind]

theorem exceptPure_eq_ok {a b : α} : (pure a : Except ε α) = .ok b ↔ b = a := by
  change Except.ok a = _ ↔ _
  simp [eq_comm]

/-- A map over results keeps the errors. -/
theorem exceptMap_eq_error {m : Except ε α} {f : α → β} {d : ε} :
    m.map f = .error d ↔ m = .error d := by
  cases m <;> simp [Except.map]

/-- A property that is found to hold of what a computation gives, by evaluating it. -/
theorem exists_ok_of_any {x : Except ε α} {P : α → Prop} [DecidablePred P]
    (h : x.toOption.any (P ·) = true) : ∃ a, x = .ok a ∧ P a := by
  cases x with
  | ok a => exact ⟨a, rfl, of_decide_eq_true h⟩
  | error d => cases h

end Scriptlet.Outcome
