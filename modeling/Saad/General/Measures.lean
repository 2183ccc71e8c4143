import Mathlib.Algebra.GroupWithZero.Nat
import Mathlib.Algebra.Order.Group.Int
import Mathlib.Algebra.Order.Group.Nat
import Mathlib.Algebra.Order.BigOperators.Group.List
import Mathlib.Data.Int.ConditionallyCompleteOrder

/-! # A list measured in two ways

An offset in one measure of the elements of a list is changed into one in another measure by going over the elements that
start before it. At the borders of the elements this can be undone.
-/

namespace Saad.General

variable {α : Type*} (f g : α → ℕ)

/-- How far the elements reach. -/
def extent (as : List α) : ℕ := (as.map f).sum

/-- The number of elements that start before the offset. -/
def started : List α → ℤ → ℕ
  | [], _ => 0
  | a :: as, n => if 0 < n then started as (n - f a) + 1 else 0

/-- The offset in the first measure as one in the second: that behind the elements which start before it. -/
def convert (as : List α) (n : ℤ) : ℕ := extent g (as.take (started f as n))

variable {f g} {as : List α} {a : α} {n m : ℤ} {i : ℕ}

@[simp] theorem extent_nil : extent f [] = 0 := rfl

@[simp] theorem extent_cons : extent f (a :: as) = f a + extent f as := by
  rw [extent, List.map_cons, List.sum_cons, extent]

theorem extent_take_le (as : List α) (i : ℕ) : extent f (as.take i) ≤ extent f as := by
  rw [extent, extent, List.map_take]
  exact (List.take_sublist i (as.map f)).sum_le_sum fun _ _ => Nat.zero_le _

theorem extent_take_mono {j : ℕ} (le : i ≤ j) : extent f (as.take i) ≤ extent f (as.take j) := by
  rw [← min_eq_left le, ← List.take_take]
  exact extent_take_le _ i

theorem convert_nil : convert f g [] n = 0 := rfl

theorem convert_cons : convert f g (a :: as) n = if 0 < n then g a + convert f g as (n - f a) else 0 := by
  rw [convert, started]
  split
  · rw [List.take_succ_cons, extent_cons, convert]
  · rfl

theorem started_le (as : List α) (n : ℤ) : started f as n ≤ as.length := by
  induction as generalizing n with
  | nil => exact Nat.le_refl _
  | cons a as ih =>
    rw [started, List.length_cons]
    have le := ih (n - f a)
    split <;> omega

/-- The elements that start before the offset are those with less in front of them. -/
theorem lt_started_iff (as : List α) (n : ℤ) (i : ℕ) :
    i < started f as n ↔ i < as.length ∧ (extent f (as.take i) : ℤ) < n := by
  induction as generalizing n i with
  | nil => simp [started]
  | cons a as ih =>
    rw [started]
    split
    · next positive =>
      cases i with
      | zero => simp [positive]
      | succ i =>
        rw [Nat.add_lt_add_iff_right, ih, List.take_succ_cons, extent_cons, List.length_cons]
        omega
    · next negative =>
      refine iff_of_false (Nat.not_lt_zero i) fun both => ?_
      have least := Int.natCast_nonneg (extent f ((a :: as).take i))
      omega

/-- Behind an element, it is the last one that starts before the offset. -/
theorem started_eq_of_inside (inside : i < as.length) (behind : (extent f (as.take i) : ℤ) < n)
    (before : n ≤ extent f (as.take (i + 1))) : started f as n = i + 1 := by
  apply Nat.le_antisymm
  · by_contra more
    have next := ((lt_started_iff as n (i + 1)).mp (Nat.lt_of_not_le more)).2
    omega
  · exact (lt_started_iff as n i).mpr ⟨inside, behind⟩

theorem convert_of_inside (inside : i < as.length) (behind : (extent f (as.take i) : ℤ) < n)
    (before : n ≤ extent f (as.take (i + 1))) : convert f g as n = extent g (as.take (i + 1)) := by
  rw [convert, started_eq_of_inside inside behind before]

theorem convert_of_nonpos (nonpos : n ≤ 0) : convert f g as n = 0 := by
  cases as with
  | nil => rfl
  | cons a as => rw [convert_cons, if_neg (by omega)]

theorem extent_take_lt (positive : ∀ a ∈ as, 0 < f a) (inside : i < as.length) :
    extent f (as.take i) < extent f (as.take (i + 1)) := by
  have element := positive _ (List.getElem_mem inside)
  rw [List.take_add_one, List.getElem?_eq_getElem inside, extent, extent, List.map_append, List.sum_append]
  simp only [Option.toList_some, List.map_cons, List.map_nil, List.sum_singleton]
  omega

/-- A border between elements is the same border in the other measure. -/
theorem convert_extent (positive : ∀ a ∈ as, 0 < f a) (le : i ≤ as.length) :
    convert f g as (extent f (as.take i)) = extent g (as.take i) := by
  cases i with
  | zero => exact convert_of_nonpos (le_refl _)
  | succ i => exact convert_of_inside le (Int.ofNat_lt.mpr (extent_take_lt positive le)) (le_refl _)

/-- Behind the last element. -/
theorem convert_of_extent_le (positive : ∀ a ∈ as, 0 < f a) (le : (extent f as : ℤ) ≤ n) :
    convert f g as n = extent g as := by
  have all : started f as n = as.length := by
    apply Nat.le_antisymm (started_le as n)
    by_contra fewer
    have inside : started f as n < as.length := by omega
    have short := extent_take_lt positive inside
    have whole : extent f (as.take (started f as n + 1)) ≤ extent f as := extent_take_le as _
    exact Nat.lt_irrefl _ ((lt_started_iff as n _).mpr ⟨inside, by omega⟩)
  rw [convert, all, List.take_length]

theorem convert_mono (le : n ≤ m) : convert f g as n ≤ convert f g as m := by
  apply extent_take_mono
  by_contra more
  have first := (lt_started_iff as n (started f as m)).mp (Nat.lt_of_not_le more)
  exact Nat.lt_irrefl _ ((lt_started_iff as m _).mpr ⟨first.1, by omega⟩)

theorem convert_le (as : List α) (n : ℤ) : convert f g as n ≤ extent g as := extent_take_le as _

end Saad.General
