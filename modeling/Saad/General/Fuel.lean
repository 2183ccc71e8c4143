import Mathlib.Data.Nat.Notation
import Mathlib.Data.Option.Basic

/-! # Runs with fuel

A recursion that need not end runs with fuel here. It gives a result when every run with enough fuel
does, so that no proof counts fuel.
-/

namespace Saad.General

section Fuel

variable {α β : Type} {run next : ℕ → Option α} {a b : α}

/-- With enough fuel, the run gives the result. -/
def Gives (run : ℕ → Option α) (a : α) : Prop :=
  ∃ enough, ∀ fuel, enough ≤ fuel → run fuel = some a

theorem Gives.of_eq (same : ∀ fuel, run fuel = some a) : Gives run a :=
  ⟨0, fun fuel _ => same fuel⟩

theorem Gives.congr (gives : Gives next a) (same : ∀ fuel, run fuel = next fuel) : Gives run a := by
  obtain ⟨enough, gives⟩ := gives
  exact ⟨enough, fun fuel le => (same fuel).trans (gives fuel le)⟩

/-- One step of the recursion costs one fuel. -/
theorem Gives.step (gives : Gives next a) (same : ∀ fuel, run (fuel + 1) = next fuel) : Gives run a := by
  obtain ⟨enough, gives⟩ := gives
  refine ⟨enough + 1, fun fuel le => ?_⟩
  obtain ⟨less, rfl⟩ : ∃ less, fuel = less + 1 := ⟨fuel - 1, by omega⟩
  exact (same less).trans (gives less (by omega))

theorem Gives.bind {first : ℕ → Option β} {c : β} (after : ℕ → β → Option α) (gives : Gives first c)
    (rest : Gives (fun fuel => after fuel c) a) : Gives (fun fuel => (first fuel).bind (after fuel)) a := by
  obtain ⟨enough, gives⟩ := gives
  obtain ⟨more, rest⟩ := rest
  refine ⟨max enough more, fun fuel le => ?_⟩
  simp only [gives fuel (by omega), Option.bind_some]
  exact rest fuel (by omega)

theorem Gives.map {first : ℕ → Option β} {c : β} (f : β → α) (gives : Gives first c) :
    Gives (fun fuel => (first fuel).map f) (f c) := by
  obtain ⟨enough, gives⟩ := gives
  exact ⟨enough, fun fuel le => by simp only [gives fuel le, Option.map_some]⟩

/-- A run that goes on as another run does once a first part has given its result. -/
theorem Gives.after {first : ℕ → Option β} {c : β} (gives : Gives first c) (other : Gives next a)
    (same : ∀ fuel, first fuel = some c → run (fuel + 1) = next (fuel + 1)) : Gives run a := by
  obtain ⟨enough, gives⟩ := gives
  obtain ⟨more, other⟩ := other
  refine ⟨max enough more + 1, fun fuel le => ?_⟩
  obtain ⟨less, rfl⟩ : ∃ less, fuel = less + 1 := ⟨fuel - 1, by omega⟩
  exact (same less (gives less (by omega))).trans (other (less + 1) (by omega))

/-- There is one result. -/
theorem Gives.unique (gives : Gives run a) (other : Gives run b) : a = b := by
  obtain ⟨enough, gives⟩ := gives
  obtain ⟨more, other⟩ := other
  have same := (gives (max enough more) (by omega)).symm.trans (other (max enough more) (by omega))
  exact Option.some.inj same

end Fuel

section Rises

variable {α β : Type} {run next : ℕ → Option α} {first : ℕ → Option β} {after : ℕ → β → Option α} {a b : α}

/-- More fuel gives the same result. -/
def Rises (run : ℕ → Option α) : Prop := ∀ fuel a, run fuel = some a → run (fuel + 1) = some a

theorem Rises.of_le (rises : Rises run) {fuel more : ℕ} (le : fuel ≤ more) (found : run fuel = some a) :
    run more = some a := by
  induction le with
  | refl => exact found
  | step _ ih => exact rises _ a ih

theorem Rises.gives (rises : Rises run) {fuel : ℕ} (found : run fuel = some a) : Gives run a :=
  ⟨fuel, fun _ le => rises.of_le le found⟩

theorem Gives.exists_fuel (gives : Gives run a) : ∃ fuel, run fuel = some a := by
  obtain ⟨enough, gives⟩ := gives
  exact ⟨enough, gives enough (Nat.le_refl _)⟩

theorem Gives.exists_succ (gives : Gives run a) : ∃ fuel, run (fuel + 1) = some a := by
  obtain ⟨enough, gives⟩ := gives
  exact ⟨enough, gives (enough + 1) (Nat.le_succ _)⟩

theorem gives_some_iff : Gives (fun _ => some b) a ↔ a = b := by
  constructor
  · intro gives
    obtain ⟨_, found⟩ := gives.exists_fuel
    exact (Option.some.inj found).symm
  · rintro rfl
    exact Gives.of_eq fun _ => rfl

theorem gives_succ_iff (same : ∀ fuel, run (fuel + 1) = next fuel) : Gives run a ↔ Gives next a := by
  constructor
  · rintro ⟨enough, gives⟩
    exact ⟨enough, fun fuel le => (same fuel).symm.trans (gives (fuel + 1) (by omega))⟩
  · intro gives
    exact gives.step same

theorem gives_map_iff (rises : Rises first) {f : β → α} :
    Gives (fun fuel => (first fuel).map f) a ↔ ∃ c, Gives first c ∧ a = f c := by
  constructor
  · intro gives
    obtain ⟨fuel, found⟩ := gives.exists_fuel
    obtain ⟨c, firstFound, rfl⟩ := Option.map_eq_some_iff.mp found
    exact ⟨c, rises.gives firstFound, rfl⟩
  · rintro ⟨c, gives, rfl⟩
    exact gives.map f

theorem gives_bind_iff (rises : Rises first) (risesAfter : ∀ c, Rises fun fuel => after fuel c) :
    Gives (fun fuel => (first fuel).bind (after fuel)) a ↔
      ∃ c, Gives first c ∧ Gives (fun fuel => after fuel c) a := by
  constructor
  · intro gives
    obtain ⟨fuel, found⟩ := gives.exists_fuel
    obtain ⟨c, firstFound, afterFound⟩ := Option.bind_eq_some_iff.mp found
    exact ⟨c, rises.gives firstFound, (risesAfter c).gives afterFound⟩
  · rintro ⟨c, gives, rest⟩
    exact gives.bind after rest

theorem gives_bind_map_iff {γ : Type} {second : β → ℕ → Option γ} {f : β → γ → α} (rises : Rises first)
    (risesSecond : ∀ c, Rises (second c)) :
    Gives (fun fuel => (first fuel).bind fun c => (second c fuel).map (f c)) a ↔
      ∃ c d, Gives first c ∧ Gives (second c) d ∧ a = f c d := by
  constructor
  · intro gives
    obtain ⟨fuel, found⟩ := gives.exists_fuel
    obtain ⟨c, firstFound, found⟩ := Option.bind_eq_some_iff.mp found
    obtain ⟨d, secondFound, rfl⟩ := Option.map_eq_some_iff.mp found
    exact ⟨c, d, rises.gives firstFound, (risesSecond c).gives secondFound, rfl⟩
  · rintro ⟨c, d, firstGives, secondGives, rfl⟩
    exact firstGives.bind (fun fuel c => (second c fuel).map (f c)) (secondGives.map (f c))

end Rises

section Keeps

variable {α β : Type} {x y : Option α}

theorem keeps_map {f : α → β} (keeps : ∀ a, x = some a → y = some a) (b : β) :
    x.map f = some b → y.map f = some b := by
  intro found
  obtain ⟨a, inner, rfl⟩ := Option.map_eq_some_iff.mp found
  rw [keeps a inner, Option.map_some]

theorem keeps_bind {f g : α → Option β} (keeps : ∀ a, x = some a → y = some a)
    (keepsAfter : ∀ a b, f a = some b → g a = some b) (b : β) : x.bind f = some b → y.bind g = some b := by
  intro found
  obtain ⟨a, inner, after⟩ := Option.bind_eq_some_iff.mp found
  rw [keeps a inner, Option.bind_some, keepsAfter a b after]

end Keeps

end Saad.General
