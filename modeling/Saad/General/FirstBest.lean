import Mathlib.Data.List.Perm.Basic
import Mathlib.Order.Lattice

/-! # The first of the best

An element that is allowed and has the greatest score of a list, and is the first one of these: what a loop keeps that
only changes its mind for a greater score.
-/

namespace Saad.General

variable {α β : Type*} [LinearOrder β]

/-- The element at the index is the first one of those that are allowed and have the greatest score. -/
structure FirstBest (allowed : α → Prop) (score : α → β) (xs : List α) (i : ℕ) (a : α) : Prop where
  here : xs[i]? = some a
  allows : allowed a
  best : ∀ b ∈ xs, allowed b → score b ≤ score a
  first : ∀ j b, j < i → xs[j]? = some b → allowed b → score b < score a

namespace FirstBest

variable {allowed : α → Prop} {score : α → β} {xs ys : List α} {i j : ℕ} {a b : α}

theorem mem (first : FirstBest allowed score xs i a) : a ∈ xs := List.mem_of_getElem? first.here

/-- An element that isn't better changes nothing. -/
theorem keep (first : FirstBest allowed score xs i a) (worse : allowed b → score b ≤ score a) :
    FirstBest allowed score (xs ++ [b]) i a := by
  have inside : i < xs.length := (List.getElem?_eq_some_iff.mp first.here).1
  refine ⟨?_, first.allows, ?_, ?_⟩
  · rw [List.getElem?_append_left inside]
    exact first.here
  · intro c member allows
    obtain member | member := List.mem_append.mp member
    · exact first.best c member allows
    · obtain rfl := List.mem_singleton.mp member
      exact worse allows
  · intro k c before at_k allows
    rw [List.getElem?_append_left (Nat.lt_trans before inside)] at at_k
    exact first.first k c before at_k allows

/-- An element that is better than all others is taken. -/
theorem take (allows : allowed b) (better : ∀ c ∈ xs, allowed c → score c < score b) :
    FirstBest allowed score (xs ++ [b]) xs.length b := by
  refine ⟨by simp, allows, ?_, ?_⟩
  · intro c member other
    obtain member | member := List.mem_append.mp member
    · exact le_of_lt (better c member other)
    · obtain rfl := List.mem_singleton.mp member
      exact le_rfl
  · intro k c before at_k other
    rw [List.getElem?_append_left before] at at_k
    exact better c (List.mem_of_getElem? at_k) other

/-- If nothing else has the score, then the order doesn't matter. -/
theorem eq_of_perm (first : FirstBest allowed score xs i a) (second : FirstBest allowed score ys j b)
    (perm : ys.Perm xs) (only : ∀ c ∈ xs, allowed c → score c = score a → c = a) : b = a := by
  apply only b (perm.mem_iff.mp second.mem) second.allows
  apply le_antisymm
  · exact first.best b (perm.mem_iff.mp second.mem) second.allows
  · exact second.best a (perm.mem_iff.mpr first.mem) first.allows

end FirstBest

end Saad.General
