import Mathlib.Order.Basic
import Mathlib.Tactic.Common

/-! # Repeating a pass until it changes nothing

A pass returns the new state and whether it changed anything. When every changing pass raises a
bounded measure, enough fuel always ends with a pass that changed nothing.
-/

namespace Saad.General

variable {σ : Type*} (pass : σ → σ × Bool)

/-- Repeat the pass while it reports a change. -/
def saturate : ℕ → σ → σ
  | 0, state => state
  | fuel + 1, state =>
    let (next, changed) := pass state
    if changed then saturate fuel next else next

variable {pass}

/-- What every pass preserves holds at the end. -/
theorem saturate_invariant {I : σ → Prop} (preserved : ∀ state, I state → I (pass state).1)
    (fuel : ℕ) (state : σ) (initial : I state) : I (saturate pass fuel state) := by
  induction fuel generalizing state with
  | zero => exact initial
  | succ fuel ih =>
    simp only [saturate]
    split
    · exact ih _ (preserved state initial)
    · exact preserved state initial

variable (pass) in
/-- With more fuel than the measure can still rise, the result comes out of an unchanging pass. -/
theorem saturate_stable {I : σ → Prop} (preserved : ∀ state, I state → I (pass state).1)
    (measure : σ → ℕ) (bound : ℕ) (bounded : ∀ state, measure state ≤ bound)
    (rises : ∀ state, I state → (pass state).2 = true → measure state < measure (pass state).1)
    (fuel : ℕ) (state : σ) (initial : I state) (enough : bound < fuel + measure state) :
    ∃ last, I last ∧ pass last = (saturate pass fuel state, false) := by
  induction fuel generalizing state with
  | zero =>
    have := bounded state
    omega
  | succ fuel ih =>
    simp only [saturate]
    split
    · next changed =>
      have := rises state initial changed
      exact ih _ (preserved state initial) (by omega)
    · next unchanged =>
      exact ⟨state, initial, Prod.ext rfl (by simpa using unchanged)⟩

variable (pass) in
/-- More fuel than enough makes no difference: the repetition has ended by itself. -/
theorem saturate_more (measure : σ → ℕ) (bound : ℕ) (bounded : ∀ state, measure state ≤ bound)
    (rises : ∀ state, (pass state).2 = true → measure state < measure (pass state).1)
    {fuel more : ℕ} (le : fuel ≤ more) (state : σ) (enough : bound < fuel + measure state) :
    saturate pass more state = saturate pass fuel state := by
  induction fuel generalizing state more with
  | zero =>
    have := bounded state
    omega
  | succ fuel ih =>
    obtain ⟨less, rfl⟩ : ∃ less, more = less + 1 := ⟨more - 1, by omega⟩
    simp only [saturate]
    split
    · next changed =>
      have := rises state changed
      exact ih (by omega) _ (by omega)
    · rfl

end Saad.General
