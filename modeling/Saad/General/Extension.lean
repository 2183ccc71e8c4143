import Mathlib.Data.BitVec
import Mathlib.Data.Int.Bitwise
import Mathlib.Tactic.Positivity

/-! # Integers of two signednesses

A word is read as a signed or as an unsigned number, and extended accordingly. Extending and then
keeping the low bits is a shorter extension, and arithmetic on the numbers that two words are read as
is what the signed and the unsigned operations of words compute.
-/

namespace Saad.General

variable {w n m : ℕ}

/-- The number that a word is read as. -/
def readInt (isSigned : Bool) (value : BitVec w) : ℤ :=
  if isSigned then value.toInt else value.toNat

/-- The word extended, or cut, to another width. -/
def extended (isSigned : Bool) (value : BitVec w) (m : ℕ) : BitVec m :=
  if isSigned then value.signExtend m else value.setWidth m

theorem extended_eq_ofInt (isSigned : Bool) (value : BitVec w) (m : ℕ) :
    extended isSigned value m = BitVec.ofInt m (readInt isSigned value) := by
  cases isSigned
  · simp only [extended, readInt, Bool.false_eq_true, if_false, BitVec.ofInt_natCast,
      BitVec.ofNat_toNat]
  · rfl

/-- The low bits of an extended word are those of a shorter extension. -/
theorem setWidth_extended (isSigned : Bool) (value : BitVec w) (narrow : m ≤ n) :
    (extended isSigned value n).setWidth m = extended isSigned value m := by
  cases isSigned
  · exact BitVec.setWidth_setWidth_of_le _ narrow
  · apply BitVec.eq_of_getLsbD_eq
    intro i bound
    simp only [extended, if_true, BitVec.getLsbD_setWidth, BitVec.getLsbD_signExtend, bound,
      lt_of_lt_of_le bound narrow, decide_true, Bool.true_and]

@[simp] theorem extended_self (isSigned : Bool) (value : BitVec w) :
    extended isSigned value w = value := by
  unfold extended
  split <;> simp

/-- The low bits of an extension, as many as the word has, are the word. -/
theorem setWidth_extended_self (isSigned : Bool) (value : BitVec w) (wider : w ≤ n) :
    (extended isSigned value n).setWidth w = value := by
  rw [setWidth_extended isSigned value wider, extended_self]

/-- Cutting a word does not depend on its signedness. -/
theorem extended_of_le (isSigned : Bool) (value : BitVec w) (narrow : m ≤ w) :
    extended isSigned value m = value.setWidth m := by
  rw [← setWidth_extended isSigned value narrow, extended_self]

theorem toInt_extended (value : BitVec w) (wider : w ≤ n) :
    (extended true value n).toInt = value.toInt := BitVec.toInt_signExtend_of_le wider

theorem toNat_extended (value : BitVec w) (wider : w ≤ n) :
    (extended false value n).toNat = value.toNat := by
  simp only [extended, Bool.false_eq_true, if_false, BitVec.toNat_setWidth]
  exact Nat.mod_eq_of_lt (value.isLt.trans_le (Nat.pow_le_pow_right (by decide) wider))

/-- The low bits of a number are those of fewer bits of it. -/
theorem setWidth_ofInt (narrow : m ≤ n) (z : ℤ) : (BitVec.ofInt n z).setWidth m = BitVec.ofInt m z := by
  have divides : ((2 ^ m : ℕ) : ℤ) ∣ ((2 ^ n : ℕ) : ℤ) := Int.natCast_dvd_natCast.mpr (Nat.pow_dvd_pow 2 narrow)
  have nonneg : 0 ≤ z % ((2 ^ n : ℕ) : ℤ) := Int.emod_nonneg z (by positivity)
  apply BitVec.eq_of_toNat_eq
  rw [BitVec.toNat_setWidth, BitVec.toNat_ofInt, BitVec.toNat_ofInt, ← Int.emod_emod_of_dvd z divides,
    Int.toNat_emod nonneg (Int.natCast_nonneg _), Int.toNat_natCast]

theorem extended_ne_zero {isSigned : Bool} {value : BitVec w} (wider : w ≤ n) (ne : value ≠ 0) :
    extended isSigned value n ≠ 0 := by
  intro zero
  apply ne
  rw [← setWidth_extended_self isSigned value wider, zero]
  simp

theorem setWidth_sub (x y : BitVec n) (narrow : m ≤ n) :
    (x - y).setWidth m = x.setWidth m - y.setWidth m := by
  rw [BitVec.sub_eq_add_neg, BitVec.setWidth_add _ _ narrow, BitVec.setWidth_neg_of_le narrow,
    ← BitVec.sub_eq_add_neg]

/-! ## Operations of both signednesses -/

theorem ofInt_readInt (isSigned : Bool) (value : BitVec w) :
    BitVec.ofInt w (readInt isSigned value) = value := by
  rw [← extended_eq_ofInt, extended_self]

theorem readInt_eq_zero {isSigned : Bool} {value : BitVec w} :
    readInt isSigned value = 0 ↔ value = 0#w := by
  cases isSigned
  · rw [readInt, if_neg (by decide), Int.natCast_eq_zero, ← BitVec.toNat_inj]
    simp
  · rw [readInt, if_pos rfl, ← BitVec.toInt_inj]
    simp

/-- The quotient, the remainder and the right shift of the given signedness. -/
def quotient (isSigned : Bool) (x y : BitVec w) : BitVec w := if isSigned then x.sdiv y else x / y

def remainder (isSigned : Bool) (x y : BitVec w) : BitVec w := if isSigned then x.srem y else x % y

def shiftedRight (isSigned : Bool) (x : BitVec w) (count : ℕ) : BitVec w :=
  if isSigned then x.sshiftRight count else x >>> count

/-- The quotient is that of the numbers, if it fits. -/
theorem readInt_quotient (isSigned : Bool) (x y : BitVec w)
    (fits : isSigned = true → ¬ (x = BitVec.intMin w ∧ y = -1#w)) :
    readInt isSigned (quotient isSigned x y) =
      (readInt isSigned x).tdiv (readInt isSigned y) := by
  cases isSigned
  · simp only [readInt, quotient, Bool.false_eq_true, if_false, BitVec.toNat_udiv]
    exact Int.natCast_ediv _ _
  · simp only [readInt, quotient, if_true]
    exact BitVec.toInt_sdiv_of_ne_or_ne x y (not_and_or.mp (fits rfl))

theorem readInt_remainder (isSigned : Bool) (x y : BitVec w) :
    readInt isSigned (remainder isSigned x y) =
      (readInt isSigned x).tmod (readInt isSigned y) := by
  cases isSigned
  · simp only [readInt, remainder, Bool.false_eq_true, if_false, BitVec.toNat_umod]
    exact Int.natCast_emod _ _
  · simp only [readInt, remainder, if_true]
    exact BitVec.toInt_srem x y

theorem readInt_shiftedRight (isSigned : Bool) (x : BitVec w) (count : ℕ) :
    readInt isSigned (shiftedRight isSigned x count) = readInt isSigned x / 2 ^ count := by
  cases isSigned
  · simp only [readInt, shiftedRight, Bool.false_eq_true, if_false, BitVec.toNat_ushiftRight,
      Nat.shiftRight_eq_div_pow]
    push_cast
    rfl
  · simp only [readInt, shiftedRight, if_true, BitVec.toInt_sshiftRight]
    rw [Int.shiftRight_eq_div_pow]
    push_cast
    rfl

end Saad.General
