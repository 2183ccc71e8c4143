import Mathlib.Data.BitVec
import Mathlib.Data.Set.Finite.Basic

/-! # Words and their own shifts

A word that is xored with itself shifted by at least one bit can be told from the result, as shifts are linear in the
bits and no word but zero is its own shift.
-/

namespace Saad.General

variable {w : ℕ} {x y : BitVec w} {k : ℕ}

theorem eq_zero_of_eq_ushiftRight (some_bit : 0 < k) (same : x = x >>> k) : x = 0#w := by
  have value := congrArg BitVec.toNat same
  rw [BitVec.toNat_ushiftRight, Nat.shiftRight_eq_div_pow] at value
  have half : 2 ≤ 2 ^ k := by
    calc 2 = 2 ^ 1 := rfl
      _ ≤ 2 ^ k := Nat.pow_le_pow_right (by decide) some_bit
  apply BitVec.eq_of_toNat_eq
  rw [BitVec.toNat_zero]
  by_contra positive
  have smaller := Nat.div_lt_self (Nat.pos_of_ne_zero positive) (show 1 < 2 ^ k by omega)
  omega

theorem eq_zero_of_eq_shiftLeft (some_bit : 0 < k) (same : x = x <<< k) : x = 0#w := by
  have bits : ∀ i, x.getLsbD i = false := by
    intro i
    induction i using Nat.strong_induction_on with
    | _ i ih =>
      rw [same, BitVec.getLsbD_shiftLeft]
      by_cases low : i < k
      · simp [low]
      · rw [ih (i - k) (by omega), Bool.and_false]
  apply BitVec.eq_of_getLsbD_eq
  intro i _
  rw [bits i, BitVec.getLsbD_zero]

theorem xor_eq_xor {a b c d : BitVec w} (same : a ^^^ c = b ^^^ d) : a ^^^ b = c ^^^ d := by
  apply BitVec.xor_eq_zero_iff.mp
  calc a ^^^ b ^^^ (c ^^^ d) = a ^^^ c ^^^ (b ^^^ d) := by ac_rfl
    _ = 0#w := BitVec.xor_eq_zero_iff.mpr same

/-- What is xored with its own shift to the right comes from one word only. -/
theorem xor_ushiftRight_injective (some_bit : 0 < k) : Function.Injective fun x : BitVec w => x ^^^ (x >>> k) := by
  intro x y same
  have apart := xor_eq_xor same
  rw [← BitVec.ushiftRight_xor_distrib] at apart
  exact BitVec.xor_eq_zero_iff.mp (eq_zero_of_eq_ushiftRight some_bit apart)

theorem xor_shiftLeft_injective (some_bit : 0 < k) : Function.Injective fun x : BitVec w => x ^^^ (x <<< k) := by
  intro x y same
  have apart := xor_eq_xor same
  rw [← BitVec.shiftLeft_xor_distrib] at apart
  exact BitVec.xor_eq_zero_iff.mp (eq_zero_of_eq_shiftLeft some_bit apart)

end Saad.General
