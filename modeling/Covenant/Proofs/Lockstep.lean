import Covenant.Gen.Basic

/-!
# Covenant — two runs side by side

Two outcomes go together (`Lockstep`) if both are results, which are related, or both are errors,
which are related. Lockstep is closed under sequencing, so that two runs are compared step by step.

Steps of code generation are made of outcomes. `Gen.bind_apply`, `Gen.listen_apply` and
`Gen.apart_apply` write them as sequences of outcomes, which lockstep can then be carried through.
-/

namespace Covenant

/-- Both outcomes are results, which are related, or both are errors, which are related. -/
inductive Lockstep {ε α β : Type} (E : ε → ε → Prop) (R : α → β → Prop) :
    Except ε α → Except ε β → Prop where
  | ok {a : α} {b : β} (h : R a b) : Lockstep E R (.ok a) (.ok b)
  | error {e e' : ε} (h : E e e') : Lockstep E R (.error e) (.error e')

namespace Lockstep

variable {ε α β γ δ : Type} {E E' : ε → ε → Prop} {R R' : α → β → Prop} {S : γ → δ → Prop}
  {x : Except ε α} {x' : Except ε β}

theorem refl {R : α → α → Prop} (herror : ∀ e, E e e) (hresult : ∀ a, R a a) (x : Except ε α) :
    Lockstep E R x x := by
  cases x with
  | ok a => exact .ok (hresult a)
  | error e => exact .error (herror e)

theorem bind (h : Lockstep E R x x') {next : α → Except ε γ} {next' : β → Except ε δ}
    (hnext : ∀ a b, R a b → Lockstep E S (next a) (next' b)) :
    Lockstep E S (x >>= next) (x' >>= next') := by
  cases h with
  | ok h => exact hnext _ _ h
  | error h => exact .error h

theorem map (h : Lockstep E R x x') {f : α → γ} {g : β → δ} (hfg : ∀ a b, R a b → S (f a) (g b)) :
    Lockstep E S (x.map f) (x'.map g) := by
  cases h with
  | ok h => exact .ok (hfg _ _ h)
  | error h => exact .error h

theorem mono (h : Lockstep E R x x') (herror : ∀ e e', E e e' → E' e e')
    (hresult : ∀ a b, R a b → R' a b) : Lockstep E' R' x x' := by
  cases h with
  | ok h => exact .ok (hresult _ _ h)
  | error h => exact .error (herror _ _ h)

/-- The same result is handed on. -/
theorem andThen {x x' : Except ε α} (h : Lockstep E Eq x x') {next : α → Except ε γ}
    {next' : α → Except ε δ} (hnext : ∀ a, Lockstep E S (next a) (next' a)) :
    Lockstep E S (x >>= next) (x' >>= next') :=
  h.bind fun a b hab => by
    subst hab
    exact hnext a

theorem ite {c : Prop} [Decidable c] {y : Except ε α} {y' : Except ε β} (h : Lockstep E R x x')
    (h' : Lockstep E R y y') : Lockstep E R (if c then x else y) (if c then x' else y') := by
  split
  · exact h
  · exact h'

end Lockstep

namespace Gen

variable {α β : Type}

/-- A sequence of steps as a sequence of outcomes. -/
theorem bind_apply (step : Gen α) (next : α → Gen β) (config : Config) (state : State) :
    (step >>= next) config state = step config state >>= fun first =>
      next first.result config first.state >>= fun second =>
        .ok { second with code := first.code ++ second.code } := by
  cases hstep : step config state with
  | error e => exact bind_of_error hstep
  | ok first =>
    rw [bind_of_ok hstep]
    cases hnext : next first.result config first.state with
    | error | ok => simp only [bind, Except.bind, hnext, Except.map]

theorem listen_apply (step : Gen α) (config : Config) (state : State) :
    listen step config state =
      step config state >>= fun done => .ok ⟨(done.result, done.code), done.code, done.state⟩ := by
  unfold listen
  cases step config state <;> rfl

theorem apart_apply (start : Layout) (step : Gen α) (config : Config) (state : State) :
    apart start step config state =
      step config { state with layout := start } >>= fun done =>
        .ok ⟨done, [], { done.state with layout := state.layout }⟩ := by
  unfold apart
  cases step config { state with layout := start } <;> rfl

end Gen

end Covenant
