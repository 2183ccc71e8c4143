import Mathlib.Algebra.Ring.Int.Defs
import Mathlib.Algebra.Ring.Nat

/-! # The types `int` and `i64`

Numbers of 32 and 64 bits, whose operations wrap.
-/

namespace Saad

def int32 (n : ℤ) : ℤ := n.bmod (2 ^ 32)

theorem int32_of_fits {n : ℤ} (low : -2 ^ 31 ≤ n) (high : n < 2 ^ 31) : int32 n = n := by
  rw [int32]
  apply Int.bmod_eq_of_le <;> omega

theorem int32_range (n : ℤ) : -2 ^ 31 ≤ int32 n ∧ int32 n < 2 ^ 31 := by
  rw [int32]
  have low := @Int.le_bmod n (2 ^ 32) (by decide)
  have high := @Int.bmod_lt n (2 ^ 32) (by decide)
  omega

theorem int32_le {n : ℤ} (low : -2 ^ 31 ≤ n) : int32 n ≤ n := by
  rw [int32, Int.bmod_def]
  split <;> omega

/-- A number that doesn't fit loses at least one round. -/
theorem int32_le_of_big {n : ℤ} (big : 2 ^ 31 ≤ n) : int32 n ≤ n - 2 ^ 32 := by
  rw [int32, Int.bmod_def]
  split <;> omega

theorem int32_of_wraps {n : ℤ} (low : 2 ^ 31 ≤ n) (high : n < 2 ^ 32) : int32 n = n - 2 ^ 32 := by
  rw [int32, Int.bmod_def]
  split <;> omega

theorem int32_mul_int32 (a b : ℤ) : int32 (int32 a * b) = int32 (a * b) := Int.bmod_mul_bmod

theorem int32_add_int32 (a b : ℤ) : int32 (int32 a + b) = int32 (a + b) := Int.bmod_add_bmod

theorem int32_sub_int32 (a b : ℤ) : int32 (int32 a - int32 b) = int32 (a - b) := by
  simp only [int32, Int.sub_bmod_bmod]
  exact Int.bmod_sub_bmod

@[simp] theorem int32_int32 (a : ℤ) : int32 (int32 a) = int32 a := Int.bmod_bmod

def int64 (n : ℤ) : ℤ := n.bmod (2 ^ 64)

theorem int64_of_fits {n : ℤ} (low : -2 ^ 63 ≤ n) (high : n < 2 ^ 63) : int64 n = n := by
  rw [int64]
  apply Int.bmod_eq_of_le <;> omega

theorem int64_int64_add (a b : ℤ) : int64 (int64 a + b) = int64 (a + b) := Int.bmod_add_bmod

theorem int64_range (n : ℤ) : -2 ^ 63 ≤ int64 n ∧ int64 n < 2 ^ 63 := by
  rw [int64]
  have low := @Int.le_bmod n (2 ^ 64) (by decide)
  have high := @Int.bmod_lt n (2 ^ 64) (by decide)
  omega

end Saad
