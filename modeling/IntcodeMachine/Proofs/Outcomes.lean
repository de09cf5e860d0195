/-!
Outcomes that are a value or an error. From what comes out in the end, the
outcome before the last step is known.
-/

namespace IntcodeMachine

variable {ε ε' α β : Type} {outcome : Except ε α} {b : β}

theorem exists_of_bind_eq_ok {next : α → Except ε β}
    (h : outcome >>= next = .ok b) :
    ∃ a, outcome = .ok a ∧ next a = .ok b := by
  cases outcome with
  | error e => cases h
  | ok a => exact ⟨a, rfl, h⟩

theorem of_bind_eq_error {next : α → Except ε β} {e : ε}
    (h : outcome >>= next = .error e) :
    outcome = .error e ∨ ∃ a, outcome = .ok a ∧ next a = .error e := by
  cases outcome with
  | error cause =>
      cases h
      exact Or.inl rfl
  | ok a => exact Or.inr ⟨a, rfl, h⟩

theorem exists_of_map_eq_ok {f : α → β} (h : f <$> outcome = .ok b) :
    ∃ a, outcome = .ok a ∧ f a = b := by
  cases outcome with
  | error e => cases h
  | ok a => exact ⟨a, rfl, Except.ok.inj h⟩

theorem of_map_eq_error {f : α → β} {e : ε} (h : f <$> outcome = .error e) :
    outcome = .error e := by
  cases outcome with
  | error cause =>
      cases h
      rfl
  | ok a => cases h

theorem mapError_eq_ok_iff (f : ε → ε') {a : α} :
    outcome.mapError f = .ok a ↔ outcome = .ok a := by
  constructor
  · intro h
    cases outcome with
    | error e => cases h
    | ok a =>
        cases h
        rfl
  · rintro rfl
    rfl

theorem exists_of_mapError_eq_error {f : ε → ε'} {e : ε'}
    (h : outcome.mapError f = .error e) :
    ∃ cause, outcome = .error cause ∧ f cause = e := by
  cases outcome with
  | ok a => cases h
  | error cause => exact ⟨cause, rfl, Except.error.inj h⟩

end IntcodeMachine
