import Mathlib.Data.Finset.Card

/-! # Exploring a finite graph with a stack

The usual marking search: a node is marked when it is pushed, so every node is pushed once. The
fuel counts the pops. With at least as much fuel as there are nodes to reach, the marked nodes are
exactly the reachable ones.
-/

namespace Saad.General

open Relation

variable {α : Type*} [DecidableEq α] (succ : α → List α)

/-- Mark and push the successors that are not marked yet. -/
def pushUnmarked (stack marked : List α) (next : List α) : List α × List α :=
  next.foldl (fun (stack, marked) node =>
    if node ∈ marked then (stack, marked) else (node :: stack, node :: marked)) (stack, marked)

/-- Pop nodes and mark their successors until the stack is empty or the fuel runs out. -/
def explore : ℕ → List α → List α → List α
  | 0, _, marked => marked
  | _ + 1, [], marked => marked
  | fuel + 1, node :: stack, marked =>
    let (stack, marked) := pushUnmarked stack marked (succ node)
    explore fuel stack marked

omit [DecidableEq α] in
/-- The edges that the search follows. -/
def Edge (a b : α) : Prop := b ∈ succ a

theorem pushUnmarked_spec (stack marked next : List α) :
    ∃ fresh : List α, pushUnmarked stack marked next = (fresh ++ stack, fresh ++ marked) ∧
      (∀ node ∈ fresh, node ∈ next) ∧ (∀ node ∈ next, node ∈ fresh ∨ node ∈ marked) ∧
      (marked.Nodup → (fresh ++ marked).Nodup) := by
  induction next generalizing stack marked with
  | nil => exact ⟨[], by simp [pushUnmarked]⟩
  | cons node rest ih =>
    by_cases known : node ∈ marked
    · obtain ⟨fresh, equation, origin, covered, nodup⟩ := ih stack marked
      refine ⟨fresh, by simpa [pushUnmarked, known] using equation,
        fun x mem => List.mem_cons_of_mem _ (origin x mem), ?_, nodup⟩
      rintro x (_ | ⟨_, mem⟩)
      · exact .inr known
      · exact covered x mem
    · obtain ⟨fresh, equation, origin, covered, nodup⟩ := ih (node :: stack) (node :: marked)
      refine ⟨fresh ++ [node], by simpa [pushUnmarked, known] using equation, ?_, ?_, ?_⟩
      · simp only [List.mem_append, List.mem_singleton]
        rintro x (mem | rfl)
        · exact List.mem_cons_of_mem _ (origin x mem)
        · exact List.mem_cons_self
      · rintro x (_ | ⟨_, mem⟩)
        · simp
        · rcases covered x mem with inFresh | inMarked
          · simp [inFresh]
          · rcases List.mem_cons.mp inMarked with rfl | inMarked
            · simp
            · exact .inr inMarked
      · intro distinct
        simpa using nodup (List.nodup_cons.mpr ⟨known, distinct⟩)

/-- What the search keeps true: marked nodes are distinct and come from the root, and the marked
nodes that are no longer on the stack have all their successors marked. -/
structure Explored (root : α) (stack marked : List α) : Prop where
  nodup : marked.Nodup
  stacked : ∀ node ∈ stack, node ∈ marked
  root_mem : root ∈ marked
  reachable : ∀ node ∈ marked, ReflTransGen (Edge succ) root node
  closed : ∀ node ∈ marked, node ∉ stack → ∀ next ∈ succ node, next ∈ marked

omit [DecidableEq α] in
theorem Explored.initial (root : α) : Explored succ root [root] [root] where
  nodup := List.nodup_singleton root
  stacked := by simp
  root_mem := by simp
  reachable := by
    intro node mem
    obtain rfl := List.mem_singleton.mp mem
    exact .refl
  closed := by simp

variable {succ}

theorem Explored.step {root node : α} {stack marked : List α}
    (inv : Explored succ root (node :: stack) marked) :
    Explored succ root (pushUnmarked stack marked (succ node)).1
      (pushUnmarked stack marked (succ node)).2 := by
  obtain ⟨fresh, equation, origin, covered, nodup⟩ := pushUnmarked_spec stack marked (succ node)
  rw [equation]
  refine ⟨nodup inv.nodup, ?_, List.mem_append_right _ inv.root_mem, ?_, ?_⟩
  · intro x mem
    rcases List.mem_append.mp mem with inFresh | inStack
    · exact List.mem_append_left _ inFresh
    · exact List.mem_append_right _ (inv.stacked x (List.mem_cons_of_mem _ inStack))
  · intro x mem
    rcases List.mem_append.mp mem with inFresh | inMarked
    · exact (inv.reachable node (inv.stacked node List.mem_cons_self)).tail (origin x inFresh)
    · exact inv.reachable x inMarked
  · intro x mem popped next edge
    simp only [List.mem_append, not_or] at mem popped ⊢
    have inMarked := mem.resolve_left popped.1
    by_cases same : x = node
    · subst same
      exact covered next edge
    · exact .inr (inv.closed x inMarked (by simp [same, popped.2]) next edge)

/-- With fuel for every node of a finite universe that is not yet popped, the search ends with an
empty stack, so the marked nodes are closed under successors. -/
theorem Explored.explore {root : α} (nodes : Finset α)
    (within : ∀ node, ReflTransGen (Edge succ) root node → node ∈ nodes)
    (fuel : ℕ) (stack marked : List α) (inv : Explored succ root stack marked)
    (enough : nodes.card + stack.length ≤ fuel + marked.length) :
    Explored succ root [] (Saad.General.explore succ fuel stack marked) := by
  induction fuel generalizing stack marked with
  | zero =>
    have bound : marked.length ≤ nodes.card := by
      rw [← List.toFinset_card_of_nodup inv.nodup]
      exact Finset.card_le_card fun x mem => within x (inv.reachable x (List.mem_toFinset.mp mem))
    have empty : stack = [] := List.eq_nil_of_length_eq_zero (by omega)
    exact empty ▸ inv
  | succ fuel ih =>
    cases stack with
    | nil => exact inv
    | cons node stack =>
      obtain ⟨fresh, equation, -⟩ := pushUnmarked_spec stack marked (succ node)
      have next := inv.step
      simp only [equation] at next
      simp only [Saad.General.explore, equation]
      apply ih _ _ next
      simp only [List.length_append, List.length_cons] at enough ⊢
      omega

/-- The search from a root marks exactly the nodes that a path from the root reaches. -/
theorem mem_explore_iff {root : α} (nodes : Finset α)
    (within : ∀ node, ReflTransGen (Edge succ) root node → node ∈ nodes)
    (fuel : ℕ) (enough : nodes.card ≤ fuel) (node : α) :
    node ∈ explore succ fuel [root] [root] ↔ ReflTransGen (Edge succ) root node := by
  have done := Explored.explore nodes within fuel [root] [root] (.initial succ root)
    (by simp only [List.length_singleton]; omega)
  constructor
  · exact done.reachable node
  · intro path
    induction path with
    | refl => exact done.root_mem
    | tail _ edge ih => exact done.closed _ ih (by simp) _ edge

end Saad.General
