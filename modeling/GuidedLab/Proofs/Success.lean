/-!
# What a success tells

A computation that may fail and succeeds has succeeded in each of its steps.
-/

namespace GuidedLab.Success

variable {ε α β : Type}

theorem bind_eq_ok_iff {x : Except ε α} {f : α → Except ε β} {b : β} :
    (x >>= f) = .ok b ↔ ∃ a, x = .ok a ∧ f a = .ok b := by
  cases x with
  | error e => exact ⟨nofun, nofun⟩
  | ok a =>
      constructor
      · intro h
        exact ⟨a, rfl, h⟩
      · rintro ⟨_, ⟨⟩, h⟩
        exact h

theorem map_eq_ok_iff {x : Except ε α} {f : α → β} {b : β} :
    x.map f = .ok b ↔ ∃ a, x = .ok a ∧ f a = b := by
  cases x with
  | error e => exact ⟨nofun, nofun⟩
  | ok a =>
      constructor
      · intro h
        injection h with h
        exact ⟨a, rfl, h⟩
      · rintro ⟨_, ⟨⟩, h⟩
        rw [Except.map, h]

theorem eq_ok_of_toOption {x : Except ε α} {a : α} (h : x.toOption = some a) : x = .ok a := by
  cases x with
  | ok b => exact congrArg Except.ok (Option.some.inj h)
  | error e => cases h

theorem exists_of_isSome {x : Except ε α} (h : x.toOption.isSome = true) : ∃ a, x = .ok a := by
  cases x with
  | ok a => exact ⟨a, rfl⟩
  | error e => cases h

theorem eq_ok_of_isSome {x : Except ε Unit} (h : x.toOption.isSome = true) : x = .ok () := by
  obtain ⟨_, hx⟩ := exists_of_isSome h
  exact hx

/-- A stateful computation that did not fail has an answer. -/
theorem exists_of_isSome_snd {σ τ : Type} {x : (σ × Except ε α) × τ}
    (h : x.1.2.toOption.isSome = true) : ∃ s a t, x = ((s, .ok a), t) := by
  obtain ⟨⟨s, r⟩, t⟩ := x
  obtain ⟨a, rfl⟩ := exists_of_isSome h
  exact ⟨s, a, t, rfl⟩

theorem map_eq_error_iff {x : Except ε α} {f : α → β} {e : ε} :
    x.map f = .error e ↔ x = .error e := by
  cases x with
  | error e' =>
      constructor
      · rintro ⟨⟩
        rfl
      · rintro ⟨⟩
        rfl
  | ok a => exact ⟨nofun, nofun⟩

end GuidedLab.Success
