import Mathlib.Data.Int.Notation
import Mathlib.Data.List.Basic

/-! # Walks over a list that end at nought

Each element changes a sum or stops the walk. The walk ends behind the element that takes the sum to
nought or below.
-/

namespace Saad.General

section Walks

variable {α : Type} (change : α → Option ℤ)

/-- What is left of the list behind the end of the walk. None is an element that stops it. -/
def walk (sum : ℤ) : List α → Option (List α)
  | [] => none
  | a :: as => (change a).bind fun by_ => if sum + by_ ≤ 0 then some as else walk (sum + by_) as

def totalChange : List α → ℤ
  | [] => 0
  | a :: as => (change a).getD 0 + totalChange as

/-- A walk over the list ends with its last element. -/
structure Walks (sum : ℤ) (as : List α) : Prop where
  known : ∀ a ∈ as, (change a).isSome
  above : ∀ front back, front ≠ [] → back ≠ [] → as = front ++ back → 0 < sum + totalChange change front
  nonempty : as ≠ []
  ends : sum + totalChange change as ≤ 0

end Walks

section Rules

variable {α : Type} {change : α → Option ℤ} {sum by_ : ℤ} {a : α} {as bs rest : List α}

theorem totalChange_cons (known : change a = some by_) :
    totalChange change (a :: as) = by_ + totalChange change as := by
  simp [totalChange, known]

theorem walk_cons (known : change a = some by_) :
    walk change sum (a :: as) = if sum + by_ ≤ 0 then some as else walk change (sum + by_) as := by
  rw [walk, known, Option.bind_some]

theorem not_walks_nil : ¬ Walks change sum ([] : List α) := fun walks => walks.nonempty rfl

theorem walks_singleton_iff (known : change a = some by_) : Walks change sum [a] ↔ sum + by_ ≤ 0 := by
  have total : totalChange change [a] = by_ := by simp [totalChange, known]
  constructor
  · intro walks
    have ends := walks.ends
    rwa [total] at ends
  · intro le
    refine ⟨by simp [known], fun front back some_ more split => ?_, by simp, by rwa [total]⟩
    have lengths := congrArg List.length split
    have := List.length_pos_iff.mpr some_
    have := List.length_pos_iff.mpr more
    simp only [List.length_append, List.length_singleton] at lengths
    omega

theorem walks_cons_iff (known : change a = some by_) (more : as ≠ []) :
    Walks change sum (a :: as) ↔ 0 < sum + by_ ∧ Walks change (sum + by_) as := by
  constructor
  · intro walks
    have first := walks.above [a] as (by simp) more rfl
    rw [totalChange_cons known] at first
    refine ⟨by simpa [totalChange] using first, ?_, fun front back some_ left split => ?_, more, ?_⟩
    · exact fun other member => walks.known other (List.mem_cons_of_mem _ member)
    · have above := walks.above (a :: front) back (by simp) left (by rw [split, List.cons_append])
      rw [totalChange_cons known] at above
      omega
    · have ends := walks.ends
      rw [totalChange_cons known] at ends
      omega
  · rintro ⟨positive, walks⟩
    refine ⟨?_, fun front back some_ left split => ?_, by simp, ?_⟩
    · intro other member
      rcases List.mem_cons.mp member with rfl | member
      · simp [known]
      · exact walks.known other member
    · cases front with
      | nil => exact absurd rfl some_
      | cons other front =>
        obtain ⟨rfl, others⟩ := List.cons.inj (split.trans (List.cons_append ..))
        rw [totalChange_cons known]
        cases front with
        | nil => simpa [totalChange] using positive
        | cons next front =>
          have above := walks.above (next :: front) back (by simp) left others
          omega
    · rw [totalChange_cons known]
      have ends := walks.ends
      omega

/-- What is left is the end of the list. -/
theorem exists_of_walk (found : walk change sum as = some rest) :
    ∃ front, as = front ++ rest ∧ Walks change sum front := by
  induction as generalizing sum with
  | nil => cases found
  | cons a as ih =>
    obtain ⟨by_, known, found⟩ := Option.bind_eq_some_iff.mp found
    split at found
    · next le =>
      cases found
      exact ⟨[a], rfl, (walks_singleton_iff known).mpr le⟩
    · next above =>
      obtain ⟨front, rfl, walks⟩ := ih found
      exact ⟨a :: front, rfl, (walks_cons_iff known walks.nonempty).mpr ⟨by omega, walks⟩⟩

theorem walk_append (walks : Walks change sum as) : walk change sum (as ++ rest) = some rest := by
  induction as generalizing sum with
  | nil => exact absurd walks not_walks_nil
  | cons a as ih =>
    obtain ⟨by_, known⟩ := Option.isSome_iff_exists.mp (walks.known a (List.mem_cons_self ..))
    rw [List.cons_append, walk_cons known]
    cases as with
    | nil => rw [if_pos ((walks_singleton_iff known).mp walks), List.nil_append]
    | cons next as =>
      obtain ⟨positive, walks⟩ := (walks_cons_iff known (by simp)).mp walks
      rw [if_neg (by omega), ih walks]

end Rules

end Saad.General
