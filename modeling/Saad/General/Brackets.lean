import Mathlib.Data.List.Basic

/-! # Brackets

A list with opening and closing elements: the element that closes the ones that are open, and the parts of a list in which
each one that opens is closed.
-/

namespace Saad.General

variable {α : Type*} (opens closes : α → Bool)

/-- The index of the element that closes the last of the ones that are open. -/
def closing : ℕ → List α → Option ℕ
  | _, [] => none
  | depth, a :: rest =>
    if opens a then (closing (depth + 1) rest).map (· + 1)
    else if closes a then
      if depth ≤ 1 then some 0 else (closing (depth - 1) rest).map (· + 1)
    else (closing depth rest).map (· + 1)

/-- Each element that opens is closed. -/
inductive Balanced : List α → Prop
  | nil : Balanced []
  | other (a : α) (rest : List α) : opens a = false → closes a = false → Balanced rest → Balanced (a :: rest)
  | group (a b : α) (inner rest : List α) : opens a = true → opens b = false → closes b = true → Balanced inner →
      Balanced rest → Balanced (a :: inner ++ b :: rest)

variable {opens closes}

theorem Balanced.append {u v : List α} (first : Balanced opens closes u) (second : Balanced opens closes v) :
    Balanced opens closes (u ++ v) := by
  induction first with
  | nil => exact second
  | other a rest opening closed _ ih => exact .other a (rest ++ v) opening closed ih
  | group a b inner rest opening notOpening closed balanced _ _ ih =>
    have joined : a :: inner ++ b :: rest ++ v = a :: inner ++ b :: (rest ++ v) := by simp
    rw [joined]
    exact .group a b inner (rest ++ v) opening notOpening closed balanced ih

theorem balanced_of_forall {u : List α} (neither : ∀ a ∈ u, opens a = false ∧ closes a = false) :
    Balanced opens closes u := by
  induction u with
  | nil => exact .nil
  | cons a rest ih =>
    obtain ⟨opening, closed⟩ := neither a List.mem_cons_self
    exact .other a rest opening closed (ih fun b mem => neither b (List.mem_cons_of_mem a mem))

/-- A balanced part leaves open what is open. -/
theorem Balanced.closing_append {u : List α} (balanced : Balanced opens closes u) (depth : ℕ) (rest : List α) :
    closing opens closes (depth + 1) (u ++ rest) =
      (closing opens closes (depth + 1) rest).map (· + u.length) := by
  induction balanced generalizing depth rest with
  | nil => simp
  | other a u opening closed _ ih =>
    rw [List.cons_append, closing, if_neg (by simp [opening]), if_neg (by simp [closed]), ih, Option.map_map]
    rfl
  | group a b inner u opening notOpening closed _ _ ih_inner ih =>
    have joined : a :: inner ++ b :: u ++ rest = a :: (inner ++ b :: (u ++ rest)) := by simp
    rw [joined, closing, if_pos opening, ih_inner, closing, if_neg (by simp [notOpening]), if_pos closed,
      if_neg (by omega), Nat.add_sub_cancel, ih]
    simp only [Option.map_map]
    congr 1
    funext k
    simp only [Function.comp_apply, List.length_append, List.length_cons]
    omega

/-- What closes two is behind what closes one. -/
theorem closing_succ {depth k : ℕ} {s : List α} (closed : closing opens closes (depth + 2) s = some k) :
    ∃ i j, closing opens closes 1 s = some i ∧ closing opens closes (depth + 1) (s.drop (i + 1)) = some j ∧
      k = i + 1 + j := by
  suffices general : ∀ (s : List α) (more k : ℕ), closing opens closes (depth + 1 + (more + 1)) s = some k →
      ∃ i j, closing opens closes (more + 1) s = some i ∧
        closing opens closes (depth + 1) (s.drop (i + 1)) = some j ∧ k = i + 1 + j by
    exact general s 0 k closed
  intro s
  induction s with
  | nil =>
    intro more k closed
    rw [closing] at closed
    cases closed
  | cons a rest ih =>
    intro more k closed
    rw [closing] at closed ⊢
    by_cases opening : opens a = true
    · rw [if_pos opening] at closed ⊢
      obtain ⟨k, later, rfl⟩ := Option.map_eq_some_iff.mp closed
      obtain ⟨i, j, at_i, at_j, rfl⟩ := ih (more + 1) k later
      exact ⟨i + 1, j, by rw [at_i]; rfl, at_j, by omega⟩
    rw [if_neg opening] at closed ⊢
    by_cases closes_a : closes a = true
    · rw [if_pos closes_a, if_neg (by omega)] at closed
      rw [if_pos closes_a]
      obtain ⟨k, later, rfl⟩ := Option.map_eq_some_iff.mp closed
      cases more with
      | zero => exact ⟨0, k, if_pos (by omega), later, by omega⟩
      | succ more =>
        rw [if_neg (by omega)]
        obtain ⟨i, j, at_i, at_j, rfl⟩ := ih more k later
        exact ⟨i + 1, j, by rw [Nat.add_sub_cancel, at_i]; rfl, at_j, by omega⟩
    · rw [if_neg closes_a] at closed ⊢
      obtain ⟨k, later, rfl⟩ := Option.map_eq_some_iff.mp closed
      obtain ⟨i, j, at_i, at_j, rfl⟩ := ih more k later
      exact ⟨i + 1, j, by rw [at_i]; rfl, at_j, by omega⟩

/-- In front of the element that closes the one that is open, the list is balanced. -/
theorem balanced_of_closing {s : List α} {k : ℕ} (closed : closing opens closes 1 s = some k) :
    ∃ inner b rest, s = inner ++ b :: rest ∧ inner.length = k ∧ opens b = false ∧ closes b = true ∧
      Balanced opens closes inner := by
  induction length : s.length using Nat.strongRecOn generalizing s k with
  | ind n ih =>
  cases s with
  | nil =>
    rw [closing] at closed
    cases closed
  | cons a s =>
    rw [List.length_cons] at length
    rw [closing] at closed
    by_cases opening : opens a = true
    · rw [if_pos opening] at closed
      obtain ⟨k, later, rfl⟩ := Option.map_eq_some_iff.mp closed
      obtain ⟨i, j, at_i, at_j, rfl⟩ := closing_succ later
      obtain ⟨inner, b, rest, rfl, rfl, b_opens, b_closes, inner_balanced⟩ := ih s.length (by omega) at_i rfl
      have behind : (inner ++ b :: rest).drop (inner.length + 1) = rest := by simp
      rw [behind] at at_j
      rw [List.length_append, List.length_cons] at length
      obtain ⟨outer, c, last, rfl, rfl, c_opens, c_closes, outer_balanced⟩ := ih rest.length (by omega) at_j rfl
      refine ⟨a :: inner ++ b :: outer, c, last, by simp, ?_, c_opens, c_closes,
        .group a b inner outer opening b_opens b_closes inner_balanced outer_balanced⟩
      simp only [List.length_append, List.length_cons]
      omega
    rw [if_neg opening] at closed
    by_cases closes_a : closes a = true
    · rw [if_pos closes_a, if_pos (by omega)] at closed
      cases closed
      exact ⟨[], a, s, rfl, rfl, Bool.eq_false_iff.mpr opening, closes_a, .nil⟩
    · rw [if_neg closes_a] at closed
      obtain ⟨k, later, rfl⟩ := Option.map_eq_some_iff.mp closed
      obtain ⟨inner, b, rest, rfl, rfl, b_opens, b_closes, balanced⟩ := ih s.length (by omega) later rfl
      exact ⟨a :: inner, b, rest, rfl, rfl, b_opens, b_closes,
        .other a inner (Bool.eq_false_iff.mpr opening) (Bool.eq_false_iff.mpr closes_a) balanced⟩

/-- A balanced part and the element that closes what is open in front of it. -/
theorem Balanced.closing_eq {inner rest : List α} {b : α} (balanced : Balanced opens closes inner)
    (b_opens : opens b = false) (b_closes : closes b = true) :
    closing opens closes 1 (inner ++ b :: rest) = some inner.length := by
  rw [balanced.closing_append 0, closing, if_neg (by simp [b_opens]), if_pos b_closes, if_pos (by omega)]
  simp

end Saad.General
