import Mathlib.Data.Option.Basic

/-! # Truth values that may be unknown

A truth value that is unknown can be both. What a connective of unknown values can be is what it gives of
what its sides can be, as each side is used once.
-/

namespace Saad.General

/-- True, false, or unknown. -/
abbrev Truth : Type := Option Bool

namespace Truth

def not (t : Truth) : Truth := Option.map Bool.not t

def and : Truth → Truth → Truth
  | some false, _ | _, some false => some false
  | some true, some true => some true
  | _, _ => none

def or : Truth → Truth → Truth
  | some true, _ | _, some true => some true
  | some false, some false => some false
  | _, _ => none

/-- If the two are the same. -/
def same : Truth → Truth → Truth
  | some a, some b => some (a = b)
  | _, _ => none

def CanBe (t : Truth) (b : Bool) : Prop := ∀ known ∈ t, known = b

@[simp] theorem canBe_none (b : Bool) : CanBe none b := fun _ known => by cases known

@[simp] theorem canBe_some (a b : Bool) : CanBe (some a) b ↔ a = b := by simp [CanBe]

variable (s t : Truth) (b : Bool)

theorem canBe_not : t.not.CanBe b ↔ ∃ x, t.CanBe x ∧ (!x) = b := by
  rcases t with _ | x <;> cases b <;> simp [not]

theorem canBe_and : (s.and t).CanBe b ↔ ∃ x, s.CanBe x ∧ ∃ y, t.CanBe y ∧ (x && y) = b := by
  rcases s with _ | _ | _ <;> rcases t with _ | _ | _ <;> cases b <;> simp [and]

theorem canBe_or : (s.or t).CanBe b ↔ ∃ x, s.CanBe x ∧ ∃ y, t.CanBe y ∧ (x || y) = b := by
  rcases s with _ | _ | _ <;> rcases t with _ | _ | _ <;> cases b <;> simp [or]

end Truth

end Saad.General
