import Mathlib.Data.List.Perm.Basic

/-! # Runs with counted steps

A run mixes steps that are counted with steps of the surroundings. Where a measure falls with each
counted step and never rises, it bounds how many of them a run can have.
-/

namespace Saad.General

variable {α : Type*}

/-- A run with `n` counted steps. -/
inductive CountedRun (step other : α → α → Prop) : ℕ → α → α → Prop
  | refl (a : α) : CountedRun step other 0 a a
  | step (n : ℕ) (a b c : α) : CountedRun step other n a b → step b c →
      CountedRun step other (n + 1) a c
  | other (n : ℕ) (a b c : α) : CountedRun step other n a b → other b c →
      CountedRun step other n a c

variable {step other : α → α → Prop} {invariant : α → Prop} {measure : α → ℕ} {n : ℕ} {a b : α}

/-- The measure at the start bounds the counted steps. -/
theorem CountedRun.length_le (holds : invariant a)
    (step_keeps : ∀ b c, invariant b → step b c → invariant c ∧ measure c < measure b)
    (other_keeps : ∀ b c, invariant b → other b c → invariant c ∧ measure c ≤ measure b)
    (run : CountedRun step other n a b) : n + measure b ≤ measure a := by
  have both : invariant b ∧ n + measure b ≤ measure a := by
    induction run with
    | refl => exact ⟨holds, by omega⟩
    | step n a b c _ steps ih =>
      obtain ⟨still, bound⟩ := ih holds
      obtain ⟨next, less⟩ := step_keeps b c still steps
      exact ⟨next, by omega⟩
    | other n a b c _ others ih =>
      obtain ⟨still, bound⟩ := ih holds
      obtain ⟨next, less⟩ := other_keeps b c still others
      exact ⟨next, by omega⟩
  exact both.2

end Saad.General

/-! # Lists in the order of a key

A list with a key below a bound is a permutation of its groups, one for each key, in order. A sort that
keeps the order inside a group gives the groups.
-/

namespace Saad.General

section Grouped

variable {α : Type} {key : α → ℕ} {bound : ℕ} {list sorted : List α} {le : α → α → Prop}

def group (key : α → ℕ) (list : List α) (i : ℕ) : List α := list.filter fun a => key a == i

def grouped (key : α → ℕ) (bound : ℕ) (list : List α) : List α :=
  (List.range bound).flatMap (group key list)

@[simp] theorem mem_group {i : ℕ} {a : α} : a ∈ group key list i ↔ a ∈ list ∧ key a = i := by
  simp [group]

@[simp] theorem mem_grouped {a : α} : a ∈ grouped key bound list ↔ a ∈ list ∧ key a < bound := by
  simp only [grouped, List.mem_flatMap, List.mem_range, mem_group]
  constructor
  · rintro ⟨i, below, mem, rfl⟩
    exact ⟨mem, below⟩
  · rintro ⟨mem, below⟩
    exact ⟨key a, below, mem, rfl⟩

theorem group_append (front back : List α) (i : ℕ) :
    group key (front ++ back) i = group key front i ++ group key back i :=
  List.filter_append ..

/-- Below the bound, the groups have the elements with their counts. -/
theorem grouped_perm (below : ∀ a ∈ list, key a < bound) : (grouped key bound list).Perm list := by
  induction bound generalizing list with
  | zero =>
    cases list with
    | nil => exact .nil
    | cons a list => exact absurd (below a (by simp)) (by omega)
  | succ bound ih =>
    have split := (List.filter_append_perm (fun a => decide (key a < bound)) list)
    have last : group key list bound = list.filter fun a => !decide (key a < bound) := by
      refine List.filter_congr fun a mem => ?_
      have := below a mem
      by_cases lt : key a < bound
      · simp [lt, Nat.ne_of_lt lt]
      · have : key a = bound := by omega
        simp [this]
    have front : grouped key bound list = grouped key bound (list.filter fun a => decide (key a < bound)) := by
      refine List.flatMap_congr fun i mem => ?_
      rw [List.mem_range] at mem
      rw [group, group, List.filter_filter]
      refine List.filter_congr fun a _ => ?_
      by_cases same : key a = i
      · simp [same, mem]
      · simp [same]
    rw [grouped, List.range_succ, List.flatMap_append, List.flatMap_singleton, last]
    change (grouped key bound list ++ _).Perm list
    rw [front]
    exact ((ih fun a mem => by simpa using (List.mem_filter.mp mem).2).append_right _).trans split

/-- Groups in order are in order. -/
theorem grouped_pairwise (inside : ∀ i < bound, (group key list i).Pairwise le)
    (across : ∀ a b, key a < key b → le a b) : (grouped key bound list).Pairwise le := by
  induction bound with
  | zero => exact .nil
  | succ bound ih =>
    rw [grouped, List.range_succ, List.flatMap_append, List.flatMap_singleton, List.pairwise_append]
    refine ⟨ih fun i lt => inside i (by omega), inside bound (by omega), fun a left b right => ?_⟩
    have before : a ∈ grouped key bound list := left
    rw [mem_grouped] at before
    rw [mem_group] at right
    exact across a b (by omega)

theorem eq_or_of_pairwise {lt : α → α → Prop} (pairwise : list.Pairwise lt) {a b : α} (left : a ∈ list)
    (right : b ∈ list) : a = b ∨ lt a b ∨ lt b a := by
  induction pairwise with
  | nil => cases left
  | cons first _ ih =>
    obtain sameLeft | left := List.mem_cons.mp left <;> obtain sameRight | right := List.mem_cons.mp right
    · exact .inl (sameLeft.trans sameRight.symm)
    · exact .inr (.inl (sameLeft ▸ first _ right))
    · exact .inr (.inr (sameRight ▸ first _ left))
    · exact ih left right

/-- A sort gives the groups when these are in strict order. -/
theorem eq_grouped {lt : α → α → Prop} (below : ∀ a ∈ list, key a < bound) (perm : sorted.Perm list)
    (pairwise : sorted.Pairwise fun a b => ¬ lt b a) (inside : ∀ i < bound, (group key list i).Pairwise lt)
    (across : ∀ a b, key a < key b → lt a b) (asymm : ∀ a b, lt a b → ¬ lt b a) :
    sorted = grouped key bound list := by
  have strict : (grouped key bound list).Pairwise lt := grouped_pairwise inside across
  refine List.Perm.eq_of_pairwise (fun a b left right notAfter notBefore => ?_) pairwise
    (strict.imp fun before => asymm _ _ before) (perm.trans (grouped_perm below).symm)
  have mem : a ∈ grouped key bound list := (perm.trans (grouped_perm below).symm).subset left
  obtain same | before | after := eq_or_of_pairwise strict mem right
  · exact same
  · exact absurd before notBefore
  · exact absurd after notAfter

end Grouped

end Saad.General
