import Mathlib.Tactic.Common

/-! # Runs that can fail

What the parts of a run gave, from what the whole gave.
-/

namespace Saad.General

variable {ε α β : Type} {x : Except ε α} {f : α → Except ε β} {b : β} {e : ε}

theorem bind_eq_ok_iff : x >>= f = .ok b ↔ ∃ a, x = .ok a ∧ f a = .ok b := by
  constructor
  · intro whole
    cases x with
    | error e => cases whole
    | ok a => exact ⟨a, rfl, whole⟩
  · rintro ⟨a, is, last⟩
    rw [is]
    exact last

theorem exists_bind_ok_iff : (∃ b, x >>= f = .ok b) ↔ ∃ a, x = .ok a ∧ ∃ b, f a = .ok b := by
  simp only [bind_eq_ok_iff]
  rw [exists_comm]
  simp only [exists_and_left]

theorem exists_bind_iff_of_ok {a : α} (is : x = .ok a) : (∃ b, x >>= f = .ok b) ↔ ∃ b, f a = .ok b := by
  rw [is]
  rfl

theorem map_eq_ok_iff {g : α → β} : x.map g = .ok b ↔ ∃ a, x = .ok a ∧ g a = b := by
  cases x with
  | error e => simp [Except.map]
  | ok a => simp [Except.map]

theorem toOption_eq_some_iff {a : α} : x.toOption = some a ↔ x = .ok a := by
  cases x with
  | error e => simp [Except.toOption]
  | ok a => simp [Except.toOption]

theorem bind_eq_error_iff : x >>= f = .error e ↔ x = .error e ∨ ∃ a, x = .ok a ∧ f a = .error e := by
  constructor
  · intro whole
    cases x with
    | error other => exact .inl (by cases whole; rfl)
    | ok a => exact .inr ⟨a, rfl, whole⟩
  · rintro (is | ⟨a, is, last⟩)
    · rw [is]
      rfl
    · rw [is]
      exact last

end Saad.General
