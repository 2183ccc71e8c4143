import Saad.General.Binary64
import Saad.Html.Value

/-! # Operators on integers in templates

The comparisons convert both integers to a float of 64 bits, so integers that are rounded to the same float are equal to
them. The remainder is an instruction of the processor, which traps when the quotient doesn't fit.
-/

namespace Saad.Html

open General

/-- The library of the program. How numbers and values are printed is any function. -/
def binary64Library (sprintNumber : Binary64 → Text) (sprint : Any Binary64 → Text) : Library Binary64 where
  ofInt := Binary64.ofInt
  toInt := Binary64.toInt64
  neg := Binary64.neg
  add := Binary64.add
  sub := Binary64.sub
  mul := Binary64.mul
  div := Binary64.div
  equal := Binary64.equal
  less := Binary64.less
  lessEqual := Binary64.lessEqual
  sprintNumber := sprintNumber
  sprint := sprint

def FitsInt64 (n : ℤ) : Prop := -2 ^ 63 ≤ n ∧ n < 2 ^ 63

instance (n : ℤ) : Decidable (FitsInt64 n) := inferInstanceAs (Decidable (_ ∧ _))

/-- The remainder that `idiv` leaves. It traps for a divisor of 0, and when the quotient doesn't fit. -/
def idivRemainder (m n : ℤ) : Option ℤ :=
  if n ≠ 0 ∧ FitsInt64 (m.tdiv n) then some (m.tmod n) else none

/-- What `evalBinary` gives for two integers, or nothing where the program traps. -/
def evalIntegers {F : Type} (lib : Library F) (operator : BinaryOperator) (m n : ℤ) : Option (Value F) :=
  match operator with
  | .modulo => if n = 0 then some .none else (idivRemainder m n).map .integer
  | operator => some (evalOperator lib operator (.integer m) (.integer n))

theorem fitsInt64_iff (n : ℤ) : FitsInt64 n ↔ n.natAbs ≤ 2 ^ 63 ∧ n ≠ 2 ^ 63 := by
  rw [FitsInt64]
  omega

theorem fitsInt64_tmod {m : ℤ} (fits : FitsInt64 m) (n : ℤ) : FitsInt64 (m.tmod n) := by
  obtain ⟨small, not_most⟩ := (fitsInt64_iff m).mp fits
  have less : (m.tmod n).natAbs ≤ m.natAbs := by
    rw [Int.natAbs_tmod]
    exact Nat.mod_le _ _
  refine (fitsInt64_iff _).mpr ⟨less.trans small, fun most => ?_⟩
  obtain nonneg | negative := le_or_gt 0 m
  · omega
  · have sign := Int.tmod_nonneg n (show 0 ≤ -m by omega)
    rw [Int.neg_tmod] at sign
    omega

/-- The quotient of two integers fits, but for that of the smallest one by -1. -/
theorem fitsInt64_tdiv_iff {m n : ℤ} (fits : FitsInt64 m) (nonzero : n ≠ 0) :
    FitsInt64 (m.tdiv n) ↔ ¬(m = -2 ^ 63 ∧ n = -1) := by
  by_cases one : n.natAbs = 1
  · obtain rfl | rfl : n = 1 ∨ n = -1 := by omega
    · rw [Int.tdiv_one]
      exact iff_of_true fits fun both => absurd both.2 (by decide)
    · rw [Int.tdiv_neg, Int.tdiv_one]
      unfold FitsInt64 at fits ⊢
      omega
  · refine iff_of_true ?_ fun both => one (by rw [both.2]; rfl)
    have half : (m.tdiv n).natAbs ≤ m.natAbs / 2 := by
      rw [Int.natAbs_tdiv]
      exact Nat.div_le_div_left (by omega) (by decide)
    unfold FitsInt64 at fits ⊢
    omega

theorem idivRemainder_of_ne_zero {m n : ℤ} (fits : FitsInt64 m) (nonzero : n ≠ 0) :
    idivRemainder m n = if m = -2 ^ 63 ∧ n = -1 then none else some (m.tmod n) := by
  rw [idivRemainder]
  by_cases smallest : m = -2 ^ 63 ∧ n = -1
  · rw [if_pos smallest, if_neg fun both => (fitsInt64_tdiv_iff fits nonzero).mp both.2 smallest]
  · rw [if_neg smallest, if_pos ⟨nonzero, (fitsInt64_tdiv_iff fits nonzero).mpr smallest⟩]

/-- Where the program goes on it has the value of the operator. -/
theorem evalIntegers_eq {F : Type} (lib : Library F) (operator : BinaryOperator) {m n : ℤ} {value : Value F}
    (fits : FitsInt64 m) (evaluates : evalIntegers lib operator m n = some value) :
    value = evalOperator lib operator (.integer m) (.integer n) := by
  cases operator with
  | modulo =>
    have both : evalOperator lib .modulo (.integer m) (.integer n) =
        if n = 0 then .none else .integer (int64 (m.tmod n)) := rfl
    obtain ⟨least, most⟩ := fitsInt64_tmod fits n
    rw [both, int64_of_fits least most]
    rw [evalIntegers] at evaluates
    split at evaluates
    · next zero =>
      cases evaluates
      rw [if_pos zero]
    · next nonzero =>
      obtain ⟨rest, remains, rfl⟩ := Option.map_eq_some_iff.mp evaluates
      rw [idivRemainder] at remains
      split at remains
      · cases remains
        rw [if_neg nonzero]
      · cases remains
  | _ =>
    cases evaluates
    rfl

section Right

variable {F : Type} (lib : Library F) (a b : ℤ)

/-- What the operators should give for two integers. -/
structure OperatorsRight : Prop where
  equal : evalIntegers lib .equal a b = some (.boolean (a = b))
  notEqual : evalIntegers lib .notEqual a b = some (.boolean (a ≠ b))
  less : evalIntegers lib .less a b = some (.boolean (a < b))
  lessEqual : evalIntegers lib .lessEqual a b = some (.boolean (a ≤ b))
  greater : evalIntegers lib .greater a b = some (.boolean (a > b))
  greaterEqual : evalIntegers lib .greaterEqual a b = some (.boolean (a ≥ b))
  plus : ∃ sum, evalIntegers lib .plus a b = some (.integer sum) ∧ FitsInt64 sum ∧ sum % 2 ^ 64 = (a + b) % 2 ^ 64
  minus : ∃ difference, evalIntegers lib .minus a b = some (.integer difference) ∧ FitsInt64 difference ∧
    difference % 2 ^ 64 = (a - b) % 2 ^ 64
  times : ∃ product, evalIntegers lib .times a b = some (.integer product) ∧ FitsInt64 product ∧
    product % 2 ^ 64 = (a * b) % 2 ^ 64
  modulo_zero : b = 0 → evalIntegers lib .modulo a b = some .none
  modulo : b ≠ 0 → evalIntegers lib .modulo a b = some (.integer (a.tmod b))

variable {lib a b}

/-- The operators are right if and only if the floats of different integers are different, and the remainder isn't that
of the smallest integer by -1. -/
theorem operatorsRight_iff (sprintNumber : Binary64 → Text) (sprint : Any Binary64 → Text) (fits_a : FitsInt64 a)
    (fits_b : FitsInt64 b) : OperatorsRight (binary64Library sprintNumber sprint) a b ↔
      (a = b ∨ Binary64.ofInt a ≠ Binary64.ofInt b) ∧ ¬(a = -2 ^ 63 ∧ b = -1) := by
  have small_a : |a| ≤ 2 ^ 64 := abs_le.mpr ⟨by have := fits_a.1; omega, by have := fits_a.2; omega⟩
  have small_b : |b| ≤ 2 ^ 64 := abs_le.mpr ⟨by have := fits_b.1; omega, by have := fits_b.2; omega⟩
  have floats : Binary64.ofInt a ≠ Binary64.ofInt b ↔ nearest a ≠ nearest b := by
    rw [Binary64.ofInt_eq small_a, Binary64.ofInt_eq small_b, ne_eq, Binary64.finite.injEq]
  rw [floats]
  have boolean {operator : BinaryOperator} {p q : Prop} [Decidable p] [Decidable q]
      (gives : evalIntegers (binary64Library sprintNumber sprint) operator a b = some (.boolean p)) :
      evalIntegers (binary64Library sprintNumber sprint) operator a b = some (.boolean q) ↔ (p ↔ q) := by
    rw [gives, Option.some_inj, Value.boolean.injEq, decide_eq_decide]
  have is_equal : evalIntegers (binary64Library sprintNumber sprint) .equal a b =
      some (.boolean (nearest a = nearest b)) :=
    congrArg (fun same => some (Value.boolean same)) (Binary64.equal_ofInt small_a small_b)
  have is_notEqual : evalIntegers (binary64Library sprintNumber sprint) .notEqual a b =
      some (.boolean (¬nearest a = nearest b)) := by
    rw [decide_not]
    exact congrArg (fun same => some (Value.boolean !same)) (Binary64.equal_ofInt small_a small_b)
  have is_less : evalIntegers (binary64Library sprintNumber sprint) .less a b =
      some (.boolean (nearest a < nearest b)) :=
    congrArg (fun same => some (Value.boolean same)) (Binary64.less_ofInt small_a small_b)
  have is_greater : evalIntegers (binary64Library sprintNumber sprint) .greater a b =
      some (.boolean (nearest b < nearest a)) :=
    congrArg (fun same => some (Value.boolean same)) (Binary64.less_ofInt small_b small_a)
  have is_lessEqual : evalIntegers (binary64Library sprintNumber sprint) .lessEqual a b =
      some (.boolean (nearest a ≤ nearest b)) :=
    congrArg (fun same => some (Value.boolean same)) (Binary64.lessEqual_ofInt small_a small_b)
  have is_greaterEqual : evalIntegers (binary64Library sprintNumber sprint) .greaterEqual a b =
      some (.boolean (nearest b ≤ nearest a)) :=
    congrArg (fun same => some (Value.boolean same)) (Binary64.lessEqual_ofInt small_b small_a)
  constructor
  · intro right
    constructor
    · have same := (boolean is_equal).mp right.equal
      by_contra none
      rw [not_or, not_not] at none
      exact none.1 (same.mp none.2)
    · rintro ⟨rfl, rfl⟩
      have remains := right.modulo (by decide)
      rw [evalIntegers, if_neg (by decide), idivRemainder_of_ne_zero fits_a (by decide), if_pos ⟨rfl, rfl⟩] at remains
      cases remains
  · rintro ⟨apart, no_trap⟩
    have wraps (n : ℤ) : FitsInt64 (int64 n) ∧ int64 n % 2 ^ 64 = n % 2 ^ 64 := ⟨int64_range n, Int.bmod_emod⟩
    have same : nearest a = nearest b → a = b := fun rounded => apart.resolve_right (not_not.mpr rounded)
    have same' : nearest b = nearest a → b = a := fun rounded => (same rounded.symm).symm
    have both : nearest a = nearest b ↔ a = b := ⟨same, fun is => by rw [is]⟩
    refine ⟨(boolean is_equal).mpr both, (boolean is_notEqual).mpr (not_congr both),
      (boolean is_less).mpr (nearest_lt_iff same), (boolean is_lessEqual).mpr (nearest_le_iff same),
      (boolean is_greater).mpr (nearest_lt_iff same'), (boolean is_greaterEqual).mpr (nearest_le_iff same'),
      ⟨_, rfl, wraps _⟩, ⟨_, rfl, wraps _⟩, ⟨_, rfl, wraps _⟩, ?_, ?_⟩
    · intro zero
      rw [evalIntegers, if_pos zero]
    · intro nonzero
      rw [evalIntegers, if_neg nonzero, idivRemainder_of_ne_zero fits_a nonzero, if_neg no_trap, Option.map_some]

theorem operatorsRight_three_five : OperatorsRight (binary64Library (fun _ => []) fun _ => []) 3 5 ↔
    ((3 : ℤ) = 5 ∨ Binary64.ofInt 3 ≠ Binary64.ofInt 5) ∧ ¬((3 : ℤ) = -2 ^ 63 ∧ (5 : ℤ) = -1) :=
  operatorsRight_iff _ _ (by decide) (by decide)

/-- It is between 2^53 and 2^53 + 2, and the first of them is the even one in its last place. -/
theorem nearest_odd : nearest (2 ^ 53 + 1) = 2 ^ 53 := by
  have log : Int.log 2 (2 ^ 53 + 1 : ℚ) = 53 := by
    have nat := Int.log_natCast (R := ℚ) 2 (2 ^ 53 + 1)
    rw [Nat.log_eq_of_pow_le_of_lt_pow (m := 53) (by norm_num) (by norm_num)] at nat
    exact_mod_cast nat
  have place : lastPlace (2 ^ 53 + 1) = 1 := by
    rw [lastPlace, abs_of_pos (by positivity), log]
    rfl
  have half : roundEven ((2 ^ 53 + 1 : ℚ) / 2 ^ (1 : ℤ)) = 2 ^ 52 := by
    have floor : ⌊(2 ^ 53 + 1 : ℚ) / 2 ^ (1 : ℤ) + 1 / 2⌋ = 2 ^ 52 + 1 := by
      rw [Int.floor_eq_iff]
      norm_num
    rw [roundEven, floor, if_pos]
    · norm_num
    · norm_num
  rw [nearest, place, half]
  norm_num

theorem not_operatorsRight :
    ¬OperatorsRight (binary64Library (fun _ => []) fun _ => []) (2 ^ 53) (2 ^ 53 + 1) := by
  intro right
  have gives := Binary64.equal_ofInt (m := 2 ^ 53) (n := 2 ^ 53 + 1) (by norm_num) (by norm_num)
  have rounded : nearest ((2 ^ 53 : ℤ) : ℚ) = nearest ((2 ^ 53 + 1 : ℤ) : ℚ) := by
    have cast : ((2 ^ 53 + 1 : ℤ) : ℚ) = 2 ^ 53 + 1 := by norm_num
    rw [nearest_of_small (by norm_num), cast, nearest_odd]
    norm_num
  have equal : evalIntegers (binary64Library (fun _ => []) fun _ => []) .equal (2 ^ 53) (2 ^ 53 + 1) =
      some (.boolean true) := by
    rw [decide_eq_true rounded] at gives
    exact congrArg (fun same => some (Value.boolean same)) gives
  have different := equal.symm.trans right.equal
  exact absurd different (by simp)

end Right

end Saad.Html
