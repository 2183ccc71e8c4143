import Mathlib.Data.List.Basic

/-! # Searches by levels

A search from a list of nodes, where the nodes of a level are the children of the ones of the level before: it finds the
nodes of the first level that has some.
-/

namespace Saad.General

variable {α : Type*} (children : α → List α) (hit : α → Bool)

/-- The nodes that are as many levels below. -/
def level : ℕ → List α → List α
  | 0, nodes => nodes
  | depth + 1, nodes => level depth (nodes.flatMap children)

/-- The nodes that are searched for of the first level that has some, down to a depth. -/
def firstHits : ℕ → List α → List α
  | 0, nodes => nodes.filter hit
  | depth + 1, nodes =>
    if nodes.filter hit = [] then firstHits depth (nodes.flatMap children) else nodes.filter hit

variable {children hit}

theorem firstHits_of_ne_nil {depth : ℕ} {nodes : List α} (some : nodes.filter hit ≠ []) :
    firstHits children hit depth nodes = nodes.filter hit := by
  cases depth with
  | zero => rfl
  | succ depth => rw [firstHits, if_neg some]

theorem firstHits_nil (depth : ℕ) : firstHits children hit depth [] = [] := by
  induction depth with
  | zero => rfl
  | succ depth ih => rw [firstHits, if_pos List.filter_nil, List.flatMap_nil, ih]

/-- Nothing is found exactly if no level has any. -/
theorem firstHits_eq_nil_iff {depth : ℕ} {nodes : List α} :
    firstHits children hit depth nodes = [] ↔ ∀ d ≤ depth, (level children d nodes).filter hit = [] := by
  induction depth generalizing nodes with
  | zero =>
    constructor
    · intro none d le
      rw [Nat.le_zero.mp le]
      exact none
    · intro all
      exact all 0 (Nat.le_refl 0)
  | succ depth ih =>
    rw [firstHits]
    split
    · rename_i none
      rw [ih]
      constructor
      · intro all d le
        cases d with
        | zero => exact none
        | succ d => exact all d (Nat.le_of_succ_le_succ le)
      · intro all d le
        exact all (d + 1) (Nat.succ_le_succ le)
    · rename_i some
      exact iff_of_false some fun all => some (all 0 (Nat.zero_le _))

/-- What is found is what the first level with any has. -/
theorem firstHits_eq_iff {depth : ℕ} {nodes found : List α} (some : found ≠ []) :
    firstHits children hit depth nodes = found ↔
      ∃ d ≤ depth, (∀ e < d, (level children e nodes).filter hit = []) ∧ (level children d nodes).filter hit = found := by
  induction depth generalizing nodes with
  | zero =>
    constructor
    · intro is
      exact ⟨0, Nat.le_refl 0, fun e less => absurd less (Nat.not_lt_zero e), is⟩
    · rintro ⟨d, le, _, is⟩
      rw [Nat.le_zero.mp le] at is
      exact is
  | succ depth ih =>
    rw [firstHits]
    split
    · rename_i none
      rw [ih]
      constructor
      · rintro ⟨d, le, before, is⟩
        refine ⟨d + 1, Nat.succ_le_succ le, fun e less => ?_, is⟩
        cases e with
        | zero => exact none
        | succ e => exact before e (Nat.lt_of_succ_lt_succ less)
      · rintro ⟨d, le, before, is⟩
        cases d with
        | zero => exact absurd (none.symm.trans is).symm some
        | succ d => exact ⟨d, Nat.le_of_succ_le_succ le, fun e less => before (e + 1) (Nat.succ_lt_succ less), is⟩
    · rename_i any
      constructor
      · intro is
        exact ⟨0, Nat.zero_le _, fun e less => absurd less (Nat.not_lt_zero e), is⟩
      · rintro ⟨d, _, before, is⟩
        cases d with
        | zero => exact is
        | succ d => exact absurd (before 0 (Nat.succ_pos d)) any

end Saad.General
