import Scriptlet.Diagnostic.Basic

/-!
Two runs side by side. They agree if both succeed with related values or both fail with matching
faults, and steps that agree one by one agree in sequence. Places in the two runs correspond by a
relation `S`, of which nothing is asked.
-/

namespace Scriptlet

/-- The fault of a tree that lacks a part, or has one where it has no place. -/
def Cause.isMalformed : Cause → Bool
  | malformedTree _ => true
  | _ => false

/-- Faults of the same name at corresponding places, neither of a malformed tree. -/
structure Diagnostic.Matches (S : Position → Position → Prop) (d d' : Diagnostic) : Prop where
  name : d.cause.name = d'.cause.name
  position : S d.position d'.position
  wellFormed : d.cause.isMalformed = false

variable {S : Position → Position → Prop} {α β α' β' σ : Type} {R : α → α' → Prop}
  {R' : β → β' → Prop} {Q : σ → σ → Prop}

/-! ## Without a state -/

inductive Agree (S : Position → Position → Prop) (R : α → α' → Prop) :
    Except Diagnostic α → Except Diagnostic α' → Prop where
  | ok : R a a' → Agree S R (.ok a) (.ok a')
  | error : d.Matches S d' → Agree S R (.error d) (.error d')

namespace Agree

theorem bind {x : Except Diagnostic α} {x' : Except Diagnostic α'} {f : α → Except Diagnostic β}
    {f' : α' → Except Diagnostic β'} (h : Agree S R x x')
    (hf : ∀ ⦃a a'⦄, R a a' → Agree S R' (f a) (f' a')) : Agree S R' (x >>= f) (x' >>= f') := by
  cases h with
  | ok ha => exact hf ha
  | error hd => exact .error hd

/-- What is known of the two values can be put into the relation. -/
theorem imp {R' : α → α' → Prop} {x : Except Diagnostic α} {x' : Except Diagnostic α'}
    (h : Agree S R x x') (hR : ∀ ⦃a a'⦄, x = .ok a → x' = .ok a' → R a a' → R' a a') :
    Agree S R' x x' := by
  cases h with
  | ok ha => exact .ok (hR rfl rfl ha)
  | error hd => exact .error hd

/-- The rest sees the same value in both runs. -/
theorem bind_eq {x x' : Except Diagnostic α} {f : α → Except Diagnostic β}
    {f' : α → Except Diagnostic β'} (h : Agree S Eq x x') (hf : ∀ a, Agree S R' (f a) (f' a)) :
    Agree S R' (x >>= f) (x' >>= f') := by
  refine h.bind fun a a' ha => ?_
  rw [ha]
  exact hf a'

theorem pure {a : α} {a' : α'} (h : R a a') : Agree S R (pure a) (pure a') := .ok h

theorem ite {P : Prop} [Decidable P] {x y : Except Diagnostic α} {x' y' : Except Diagnostic α'}
    (hx : Agree S R x x') (hy : Agree S R y y') :
    Agree S R (if P then x else y) (if P then x' else y') := by
  split
  · exact hx
  · exact hy

end Agree

/-! ## With a state -/

/-- The states are related after success; no step goes on after a failure. -/
inductive ResultsAgree (S : Position → Position → Prop) (Q : σ → σ → Prop) (R : α → α' → Prop) :
    EStateM.Result Diagnostic σ α → EStateM.Result Diagnostic σ α' → Prop where
  | ok : R a a' → Q s s' → ResultsAgree S Q R (.ok a s) (.ok a' s')
  | error : d.Matches S d' → ResultsAgree S Q R (.error d s) (.error d' s')

theorem ResultsAgree.exists_eq {r : EStateM.Result Diagnostic σ α}
    {r' : EStateM.Result Diagnostic σ α'} (h : ResultsAgree S Q R r r') :
    (∃ a s a' s', r = .ok a s ∧ r' = .ok a' s' ∧ R a a' ∧ Q s s') ∨
      ∃ d s d' s', r = .error d s ∧ r' = .error d' s' ∧ d.Matches S d' := by
  cases h with
  | ok ha hs => exact .inl ⟨_, _, _, _, rfl, rfl, ha, hs⟩
  | error hd => exact .inr ⟨_, _, _, _, rfl, rfl, hd⟩

/-- From related states, the runs agree and keep the states related. -/
def Lockstep (S : Position → Position → Prop) (Q : σ → σ → Prop) (R : α → α' → Prop)
    (m : EStateM Diagnostic σ α) (m' : EStateM Diagnostic σ α') : Prop :=
  ∀ ⦃s s'⦄, Q s s' → ResultsAgree S Q R (m s) (m' s')

namespace Lockstep

theorem pure {a : α} {a' : α'} (h : R a a') : Lockstep S Q R (pure a) (pure a') :=
  fun _ _ hs => .ok h hs

theorem throw {d d' : Diagnostic} (h : d.Matches S d') :
    Lockstep S Q R (throw d) (throw d') :=
  fun _ _ _ => .error h

theorem bind {m : EStateM Diagnostic σ α} {m' : EStateM Diagnostic σ α'}
    {f : α → EStateM Diagnostic σ β} {f' : α' → EStateM Diagnostic σ β'} (h : Lockstep S Q R m m')
    (hf : ∀ ⦃a a'⦄, R a a' → Lockstep S Q R' (f a) (f' a')) :
    Lockstep S Q R' (m >>= f) (m' >>= f') := by
  intro s s' hs
  change ResultsAgree S Q R' (EStateM.bind m f s) (EStateM.bind m' f' s')
  rcases (h hs).exists_eq with ⟨a, t, a', t', hm, hm', ha, ht⟩ | ⟨d, t, d', t', hm, hm', hd⟩
  · rw [EStateM.bind, EStateM.bind, hm, hm']
    exact hf ha ht
  · rw [EStateM.bind, EStateM.bind, hm, hm']
    exact .error hd

theorem bind_eq {m m' : EStateM Diagnostic σ α} {f : α → EStateM Diagnostic σ β}
    {f' : α → EStateM Diagnostic σ β'} (h : Lockstep S Q Eq m m')
    (hf : ∀ a, Lockstep S Q R' (f a) (f' a)) : Lockstep S Q R' (m >>= f) (m' >>= f') := by
  refine h.bind fun a a' ha => ?_
  rw [ha]
  exact hf a'

theorem ite {P : Prop} [Decidable P] {m n : EStateM Diagnostic σ α}
    {m' n' : EStateM Diagnostic σ α'} (hm : Lockstep S Q R m m') (hn : Lockstep S Q R n n') :
    Lockstep S Q R (if P then m else n) (if P then m' else n') := by
  split
  · exact hm
  · exact hn

end Lockstep

end Scriptlet
