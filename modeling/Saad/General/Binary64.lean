import Mathlib.Data.Int.ConditionallyCompleteOrder
import Mathlib.Data.Int.Log
import Mathlib.Data.Rat.Floor
import Mathlib.Tactic.Positivity

/-! # Floating point numbers of 64 bits

A finite number is a rational number, and the result of an operation is the one nearest to the exact result, the even one
if there are two: 53 bits, and a last place of at least 2^-1074. Rounding keeps the order.
-/

namespace Saad.General

/-- The nearest integer, the even one if there are two. -/
def roundEven (q : ℚ) : ℤ :=
  if q + 1 / 2 = ⌊q + 1 / 2⌋ ∧ ⌊q + 1 / 2⌋ % 2 = 1 then ⌊q + 1 / 2⌋ - 1 else ⌊q + 1 / 2⌋

theorem roundEven_intCast (n : ℤ) : roundEven n = n := by
  have floor : ⌊(n : ℚ) + 1 / 2⌋ = n := by
    rw [Int.floor_intCast_add]
    norm_num
  rw [roundEven, floor, if_neg]
  rintro ⟨tie, -⟩
  norm_num at tie

theorem roundEven_mono : Monotone roundEven := by
  intro q p le
  have floors : ⌊q + 1 / 2⌋ ≤ ⌊p + 1 / 2⌋ := Int.floor_le_floor (by linarith)
  unfold roundEven
  split_ifs with first second second
  · omega
  · omega
  · obtain same | less := floors.eq_or_lt
    · -- Nothing below a tie is rounded to the same number.
      have at_least := Int.floor_le (q + 1 / 2)
      rw [same, ← second.1] at at_least
      obtain rfl : q = p := by linarith
      exact absurd second first
    · omega
  · exact floors

theorem roundEven_neg (q : ℚ) : roundEven (-q) = -roundEven q := by
  by_cases tie : q + 1 / 2 = ⌊q + 1 / 2⌋
  · have other : -q + 1 / 2 = ((1 - ⌊q + 1 / 2⌋ : ℤ) : ℚ) := by
      push_cast
      linarith
    have floor : ⌊-q + 1 / 2⌋ = 1 - ⌊q + 1 / 2⌋ := by rw [other, Int.floor_intCast]
    unfold roundEven
    rw [floor]
    split_ifs with first second second
    · omega
    · omega
    · omega
    · have even : ¬⌊q + 1 / 2⌋ % 2 = 1 := fun odd => second ⟨tie, odd⟩
      exact absurd ⟨other, by omega⟩ first
  · have between : ⌊-q + 1 / 2⌋ = -⌊q + 1 / 2⌋ := by
      rw [Int.floor_eq_iff]
      have below := Int.floor_le (q + 1 / 2)
      have above := Int.lt_floor_add_one (q + 1 / 2)
      have apart : (⌊q + 1 / 2⌋ : ℚ) < q + 1 / 2 := lt_of_le_of_ne below (Ne.symm tie)
      push_cast
      constructor <;> linarith
    have other : ¬(-q + 1 / 2 = ⌊-q + 1 / 2⌋) := by
      rw [between]
      push_cast
      intro same
      have above := Int.lt_floor_add_one (q + 1 / 2)
      have below := Int.floor_le (q + 1 / 2)
      have apart : (⌊q + 1 / 2⌋ : ℚ) < q + 1 / 2 := lt_of_le_of_ne below (Ne.symm tie)
      linarith
    unfold roundEven
    rw [if_neg (fun both => other both.1), if_neg (fun both => tie both.1), between]

/-- The exponent of the last place of a number. -/
def lastPlace (q : ℚ) : ℤ := max (Int.log 2 |q| - 52) (-1074)

/-- The nearest number of 53 bits. -/
def nearest (q : ℚ) : ℚ := roundEven (q / 2 ^ lastPlace q) * 2 ^ lastPlace q

theorem two_zpow_pos (e : ℤ) : (0 : ℚ) < 2 ^ e := zpow_pos (by norm_num) e

theorem nearest_neg (q : ℚ) : nearest (-q) = -nearest q := by
  rw [nearest, nearest, lastPlace, abs_neg, ← lastPlace, neg_div, roundEven_neg, Int.cast_neg, neg_mul]

theorem nearest_nonneg {q : ℚ} (nonneg : 0 ≤ q) : 0 ≤ nearest q := by
  have least : roundEven 0 ≤ roundEven (q / 2 ^ lastPlace q) :=
    roundEven_mono (div_nonneg nonneg (two_zpow_pos _).le)
  rw [← Int.cast_zero, roundEven_intCast] at least
  exact mul_nonneg (Int.cast_nonneg least) (two_zpow_pos _).le

/-- A number is in front of a multiple of its last place, or behind it, if its nearest one is. -/
theorem nearest_le_of_le {q : ℚ} {n : ℤ} (le : q ≤ n * 2 ^ lastPlace q) : nearest q ≤ n * 2 ^ lastPlace q := by
  have rounds : roundEven (q / 2 ^ lastPlace q) ≤ roundEven n :=
    roundEven_mono ((div_le_iff₀ (two_zpow_pos _)).mpr le)
  rw [roundEven_intCast] at rounds
  exact mul_le_mul_of_nonneg_right (Int.cast_le.mpr rounds) (two_zpow_pos _).le

theorem le_nearest_of_le {q : ℚ} {n : ℤ} (le : n * 2 ^ lastPlace q ≤ q) : n * 2 ^ lastPlace q ≤ nearest q := by
  have rounds : roundEven n ≤ roundEven (q / 2 ^ lastPlace q) :=
    roundEven_mono ((le_div_iff₀ (two_zpow_pos _)).mpr le)
  rw [roundEven_intCast] at rounds
  exact mul_le_mul_of_nonneg_right (Int.cast_le.mpr rounds) (two_zpow_pos _).le

theorem nearest_of_multiple {q : ℚ} {n : ℤ} (is : q = n * 2 ^ lastPlace q) : nearest q = q := by
  have cancels : q / 2 ^ lastPlace q = n := by
    rw [div_eq_iff (two_zpow_pos _).ne']
    exact is
  rw [nearest, cancels, roundEven_intCast]
  exact is.symm

theorem lastPlace_mono {q p : ℚ} (positive : 0 < q) (le : q ≤ p) : lastPlace q ≤ lastPlace p := by
  rw [lastPlace, lastPlace, abs_of_pos positive, abs_of_pos (positive.trans_le le)]
  have logs := Int.log_mono_right (b := 2) positive le
  omega

/-- A power of two above the last place is not passed. -/
theorem nearest_le_two_zpow {q : ℚ} {e : ℤ} (positive : 0 < q) (lt : lastPlace q + 52 < e) : nearest q ≤ 2 ^ e := by
  have log_q : Int.log 2 q ≤ lastPlace q + 52 := by
    rw [lastPlace, abs_of_pos positive]
    omega
  obtain ⟨k, is⟩ := Int.eq_ofNat_of_zero_le (show 0 ≤ e - lastPlace q by omega)
  have power : (2 : ℚ) ^ e = ((2 ^ k : ℤ) : ℚ) * 2 ^ lastPlace q := by
    push_cast
    rw [← zpow_natCast, ← zpow_add₀ (by norm_num)]
    congr 1
    omega
  rw [power]
  apply nearest_le_of_le
  rw [← power]
  calc
    q ≤ 2 ^ (Int.log 2 q + 1) := (Int.lt_zpow_succ_log_self (by norm_num) q).le
    _ ≤ 2 ^ e := zpow_le_zpow_right₀ (by norm_num) (by omega)

/-- The powers of two are between numbers with different last places. -/
theorem nearest_le_of_lastPlace_lt {q p : ℚ} (positive : 0 < q) (le : q ≤ p) (lt : lastPlace q < lastPlace p) :
    nearest q ≤ nearest p := by
  have positive_p := positive.trans_le le
  have log_p : Int.log 2 p = lastPlace p + 52 := by
    rw [lastPlace, lastPlace, abs_of_pos positive, abs_of_pos positive_p] at lt
    rw [lastPlace, abs_of_pos positive_p]
    omega
  have below : nearest q ≤ 2 ^ Int.log 2 p := nearest_le_two_zpow positive (by omega)
  have above : 2 ^ Int.log 2 p ≤ nearest p := by
    have power : (2 : ℚ) ^ Int.log 2 p = ((2 ^ 52 : ℤ) : ℚ) * 2 ^ lastPlace p := by
      rw [log_p, zpow_add₀ (by norm_num), mul_comm]
      norm_num
    rw [power]
    apply le_nearest_of_le
    rw [← power]
    exact Int.zpow_log_le_self (by norm_num) positive_p
  exact below.trans above

@[simp] theorem nearest_zero : nearest 0 = 0 := by
  apply nearest_of_multiple (n := 0)
  rw [Int.cast_zero, zero_mul]

theorem nearest_mono_of_nonneg {q p : ℚ} (nonneg : 0 ≤ q) (le : q ≤ p) : nearest q ≤ nearest p := by
  obtain rfl | positive := nonneg.eq_or_lt
  · rw [nearest_zero]
    exact nearest_nonneg le
  · obtain same | lt := (lastPlace_mono positive le).eq_or_lt
    · rw [nearest, nearest, same]
      have rounds := roundEven_mono (div_le_div_of_nonneg_right le (two_zpow_pos (lastPlace p)).le)
      exact mul_le_mul_of_nonneg_right (Int.cast_le.mpr rounds) (two_zpow_pos _).le
    · exact nearest_le_of_lastPlace_lt positive le lt

theorem nearest_mono : Monotone nearest := by
  intro q p le
  obtain nonneg | negative := le_or_gt 0 q
  · exact nearest_mono_of_nonneg nonneg le
  · have other := nearest_neg q
    obtain nonneg | negative_p := le_or_gt 0 p
    · have below := nearest_nonneg (show 0 ≤ -q by linarith)
      have above := nearest_nonneg nonneg
      linarith
    · have mono := nearest_mono_of_nonneg (show 0 ≤ -p by linarith) (neg_le_neg le)
      have other_p := nearest_neg p
      linarith

theorem nearest_two_pow (e : ℕ) : nearest (2 ^ e) = 2 ^ e := by
  have place : lastPlace (2 ^ e) = e - 52 := by
    have power := Int.log_zpow (R := ℚ) (b := 2) (by norm_num) e
    rw [Nat.cast_ofNat, zpow_natCast] at power
    rw [lastPlace, abs_of_pos (by positivity), power]
    omega
  apply nearest_of_multiple (n := 2 ^ 52)
  rw [place, zpow_sub₀ (by norm_num), zpow_natCast]
  norm_num
  ring

/-- What is rounded stays as it is. -/
theorem nearest_nearest_of_pos {q : ℚ} (positive : 0 < q) : nearest (nearest q) = nearest q := by
  obtain zero | some_ := (nearest_nonneg positive.le).eq_or_lt
  · rw [← zero, nearest_zero]
  obtain le | lt := le_or_gt (lastPlace (nearest q)) (lastPlace q)
  · obtain ⟨k, is⟩ := Int.eq_ofNat_of_zero_le (show 0 ≤ lastPlace q - lastPlace (nearest q) by omega)
    apply nearest_of_multiple (n := roundEven (q / 2 ^ lastPlace q) * 2 ^ k)
    push_cast
    rw [← zpow_natCast, mul_assoc, ← zpow_add₀ (by norm_num), ← is, sub_add_cancel]
    rfl
  · have log : Int.log 2 |nearest q| = lastPlace (nearest q) + 52 := by
      unfold lastPlace at lt ⊢
      omega
    rw [abs_of_pos some_] at log
    have above := Int.zpow_log_le_self (b := 2) (by norm_num) some_
    have below := nearest_le_two_zpow (e := lastPlace (nearest q) + 52) positive (by omega)
    rw [log] at above
    apply nearest_of_multiple (n := 2 ^ 52)
    rw [Nat.cast_ofNat] at above
    apply (le_antisymm below above).trans
    rw [zpow_add₀ (by norm_num), mul_comm]
    norm_num

theorem nearest_nearest (q : ℚ) : nearest (nearest q) = nearest q := by
  obtain negative | rfl | positive := lt_trichotomy q 0
  · have same := nearest_nearest_of_pos (neg_pos.mpr negative)
    rw [nearest_neg, nearest_neg, neg_inj] at same
    exact same
  · rw [nearest_zero, nearest_zero]
  · exact nearest_nearest_of_pos positive

/-- An integer is rounded to an integer. -/
theorem nearest_intCast (k : ℤ) : ∃ n : ℤ, nearest k = n := by
  obtain whole | part := le_or_gt 0 (lastPlace k)
  · obtain ⟨e, is⟩ := Int.eq_ofNat_of_zero_le whole
    refine ⟨roundEven (k / 2 ^ lastPlace k) * 2 ^ e, ?_⟩
    push_cast
    rw [nearest, ← zpow_natCast, is]
  · obtain ⟨e, is⟩ := Int.eq_ofNat_of_zero_le (show 0 ≤ -lastPlace k by omega)
    refine ⟨k, nearest_of_multiple (n := k * 2 ^ e) ?_⟩
    push_cast
    rw [← zpow_natCast, mul_assoc, ← zpow_add₀ (by norm_num), ← is, neg_add_cancel, zpow_zero, mul_one]

/-- An integer of at most 53 bits is a number. -/
theorem nearest_of_small {n : ℤ} (small : |n| ≤ 2 ^ 53) : nearest n = n := by
  by_cases whole : lastPlace n ≤ 0
  · obtain ⟨k, is⟩ := Int.eq_ofNat_of_zero_le (show 0 ≤ -lastPlace n by omega)
    apply nearest_of_multiple (n := n * 2 ^ k)
    push_cast
    rw [← zpow_natCast, mul_assoc, ← zpow_add₀ (by norm_num), ← is, neg_add_cancel, zpow_zero, mul_one]
  · have some_ : 0 < |(n : ℚ)| := by
      apply abs_pos.mpr
      rintro zero
      apply whole
      rw [zero, lastPlace, abs_zero, Int.log_zero_right]
      decide
    have log : 53 ≤ Int.log 2 |(n : ℚ)| := by
      rw [lastPlace] at whole
      omega
    have big : (2 : ℚ) ^ (53 : ℤ) ≤ |(n : ℚ)| :=
      (zpow_le_zpow_right₀ (by norm_num) log).trans (Int.zpow_log_le_self (by norm_num) some_)
    have bound : |(n : ℚ)| = 2 ^ (53 : ℤ) := by
      apply le_antisymm _ big
      rw [← Int.cast_abs]
      exact_mod_cast small
    have place : lastPlace n = 1 := by
      rw [lastPlace, bound]
      have power := Int.log_zpow (R := ℚ) (b := 2) (by norm_num) 53
      rw [Nat.cast_ofNat] at power
      rw [power]
      rfl
    obtain plus | minus := abs_eq (by positivity) |>.mp bound
    · apply nearest_of_multiple (n := 2 ^ 52)
      rw [place, plus]
      norm_num
    · apply nearest_of_multiple (n := -2 ^ 52)
      rw [place, minus]
      norm_num

/-- Integers that are rounded to different numbers are rounded in their order. -/
theorem nearest_lt_iff {m n : ℤ} (apart : nearest m = nearest n → m = n) : nearest m < nearest n ↔ m < n := by
  constructor
  · intro less
    by_contra not_less
    exact not_le.mpr less (nearest_mono (Int.cast_le.mpr (not_lt.mp not_less)))
  · intro less
    apply lt_of_le_of_ne (nearest_mono (Int.cast_le.mpr less.le))
    intro same
    exact less.ne (apart same)

theorem nearest_le_iff {m n : ℤ} (apart : nearest m = nearest n → m = n) : nearest m ≤ nearest n ↔ m ≤ n := by
  rw [← not_lt, ← not_lt, nearest_lt_iff fun same => (apart same.symm).symm]

/-- A number of 64 bits. The sign of zero is kept. -/
inductive Binary64 where
  | nan
  | infinite (negative : Bool)
  | negativeZero
  | finite (value : ℚ)
deriving DecidableEq

namespace Binary64

/-- The result of an operation whose exact result is the number. A zero has the sign. -/
def round (negative : Bool) (q : ℚ) : Binary64 :=
  if 2 ^ 1024 ≤ |nearest q| then .infinite (q < 0)
  else if nearest q = 0 then if negative then .negativeZero else .finite 0
  else .finite (nearest q)

def ofInt (n : ℤ) : Binary64 := round false n

def negative : Binary64 → Bool
  | .nan => false
  | .infinite negative => negative
  | .negativeZero => true
  | .finite value => value < 0

/-- The value of a finite number. -/
def value : Binary64 → Option ℚ
  | .nan | .infinite _ => none
  | .negativeZero => some 0
  | .finite value => some value

def neg : Binary64 → Binary64
  | .nan => .nan
  | .infinite negative => .infinite !negative
  | .negativeZero => .finite 0
  | .finite value => if value = 0 then .negativeZero else .finite (-value)

def add (a b : Binary64) : Binary64 :=
  match a.value, b.value with
  | some x, some y => round (a.negative && b.negative) (x + y)
  | none, some _ => a
  | some _, none => b
  | none, none => if a = b then a else .nan

def sub (a b : Binary64) : Binary64 := a.add b.neg

def mul (a b : Binary64) : Binary64 :=
  if a = .nan ∨ b = .nan then .nan
  else
    match a.value, b.value with
    | some x, some y => round (a.negative != b.negative) (x * y)
    | some x, none | none, some x => if x = 0 then .nan else .infinite (a.negative != b.negative)
    | none, none => .infinite (a.negative != b.negative)

def div (a b : Binary64) : Binary64 :=
  if a = .nan ∨ b = .nan then .nan
  else
    match a.value, b.value with
    | some x, some y =>
      if y = 0 then if x = 0 then .nan else .infinite (a.negative != b.negative)
      else round (a.negative != b.negative) (x / y)
    | some _, none => round (a.negative != b.negative) 0
    | none, some _ => .infinite (a.negative != b.negative)
    | none, none => .nan

/-- Neither is equal to nothing, itself included. -/
def equal (a b : Binary64) : Bool :=
  match a.value, b.value with
  | some x, some y => x = y
  | none, none => a ≠ .nan ∧ a = b
  | _, _ => false

def less (a b : Binary64) : Bool :=
  if a = .nan ∨ b = .nan then false
  else
    match a.value, b.value with
    | some x, some y => x < y
    | some _, none => !b.negative
    | none, some _ => a.negative
    | none, none => a.negative && !b.negative

def lessEqual (a b : Binary64) : Bool := a.less b || a.equal b

/-- The number cut to a signed integer of 64 bits, which is the smallest one if it doesn't fit. -/
def toInt64 (a : Binary64) : ℤ :=
  match a.value with
  | none => -2 ^ 63
  | some x =>
    let cut := if 0 ≤ x then ⌊x⌋ else ⌈x⌉
    if -2 ^ 63 ≤ cut ∧ cut < 2 ^ 63 then cut else -2 ^ 63

/-- The number cut to an integer of 64 bits without a sign, as the processor does it with a signed one. -/
def toUInt64 (a : Binary64) : BitVec 64 :=
  let limit : Binary64 := .finite (2 ^ 63)
  if limit.lessEqual a then BitVec.ofInt 64 (a.sub limit).toInt64 ^^^ BitVec.twoPow 64 63
  else BitVec.ofInt 64 a.toInt64

section Integers

variable {m n : ℤ}

theorem abs_nearest_lt (fits : |n| ≤ 2 ^ 64) : |nearest n| < 2 ^ 1024 := by
  have power := nearest_two_pow 64
  obtain ⟨least, most⟩ := abs_le.mp fits
  have above := nearest_mono (show (n : ℚ) ≤ 2 ^ 64 by exact_mod_cast most)
  have below := nearest_mono (show (-2 ^ 64 : ℚ) ≤ n by exact_mod_cast least)
  rw [power] at above
  rw [nearest_neg, power] at below
  apply lt_of_le_of_lt (abs_le.mpr ⟨below, above⟩)
  exact pow_lt_pow_right₀ (by norm_num) (by norm_num)

theorem ofInt_eq (fits : |n| ≤ 2 ^ 64) : ofInt n = .finite (nearest n) := by
  rw [ofInt, round, if_neg (not_le.mpr (abs_nearest_lt fits))]
  split
  · next zero => rw [zero, if_neg Bool.false_ne_true]
  · rfl

theorem value_round (negative : Bool) (q : ℚ) :
    (round negative q).value = if 2 ^ 1024 ≤ |nearest q| then none else some (nearest q) := by
  rw [round]
  split
  · rfl
  · split
    · next zero =>
      rw [zero]
      cases negative <;> rfl
    · rfl

theorem toInt64_of_value {a : Binary64} (is : a.value = some (n : ℚ)) (least : -2 ^ 63 ≤ n) (most : n < 2 ^ 63) :
    a.toInt64 = n := by
  rw [toInt64, is]
  simp only [Int.floor_intCast, Int.ceil_intCast, ite_self]
  exact if_pos ⟨least, most⟩

theorem toInt64_range (a : Binary64) : -2 ^ 63 ≤ a.toInt64 ∧ a.toInt64 < 2 ^ 63 := by
  rw [toInt64]
  split
  · decide
  · dsimp only
    split_ifs <;> omega

theorem value_ofInt (fits : |n| ≤ 2 ^ 64) : (ofInt n).value = some (nearest n) := by
  rw [ofInt_eq fits]
  rfl

theorem value_of_nearest (negative : Bool) {q : ℚ} (is : nearest q = n) (least : -2 ^ 63 ≤ n) (most : n < 2 ^ 63) :
    (round negative q).value = some (n : ℚ) := by
  have fits : |(n : ℚ)| ≤ 2 ^ 63 := by
    rw [← Int.cast_abs]
    exact_mod_cast abs_le.mpr ⟨least, most.le⟩
  rw [value_round, is, if_neg]
  exact not_le.mpr (fits.trans_lt (pow_lt_pow_right₀ (by norm_num) (by norm_num)))

/-- A number is equal to the signed integer that it is cut to when it is one. -/
theorem equal_toInt64_iff (negative : Bool) (q : ℚ) :
    (round negative q).equal (ofInt (round negative q).toInt64) = true ↔
      ∃ n : ℤ, -2 ^ 63 ≤ n ∧ n < 2 ^ 63 ∧ nearest q = n := by
  have range := toInt64_range (round negative q)
  have cut := value_ofInt (n := (round negative q).toInt64) (abs_le.mpr ⟨by omega, by omega⟩)
  constructor
  · intro equal_
    rw [equal, cut] at equal_
    cases is : (round negative q).value with
    | none => simp [is] at equal_
    | some x =>
      rw [is] at equal_
      have same := of_decide_eq_true equal_
      have value := is.symm.trans (value_round negative q)
      split at value
      · cases value
      rw [Option.some.injEq] at value
      obtain ⟨n, whole⟩ := nearest_intCast (round negative q).toInt64
      rw [← value]
      by_cases fits : -2 ^ 63 ≤ n ∧ n < 2 ^ 63
      · exact ⟨n, fits.1, fits.2, same.trans whole⟩
      · -- the number that doesn't fit was cut to the smallest one, which is a float
        have smallest : (round negative q).toInt64 = -2 ^ 63 := by
          rw [toInt64, is, same, whole]
          simp only [Int.floor_intCast, Int.ceil_intCast, ite_self]
          exact if_neg fits
        refine ⟨-2 ^ 63, by omega, by omega, ?_⟩
        rw [same, smallest, Int.cast_neg, nearest_neg, Int.cast_pow, Int.cast_ofNat, nearest_two_pow]
  · rintro ⟨n, least, most, is⟩
    have value := value_of_nearest negative is least most
    rw [equal, cut, value, toInt64_of_value value least most]
    apply decide_eq_true
    rw [← is, nearest_nearest]

theorem less_zero {a : Binary64} (is : a.value = some (n : ℚ)) : a.less (.finite 0) = decide (n < 0) := by
  have number : ¬(a = .nan ∨ Binary64.finite 0 = .nan) := by
    rintro (rfl | absurd_) <;> contradiction
  rw [less, if_neg number, is]
  exact decide_eq_decide.mpr Int.cast_lt_zero

theorem value_neg {a : Binary64} (is : a.value = some (n : ℚ)) : a.neg.value = some ((-n : ℤ) : ℚ) := by
  cases a with
  | nan | infinite _ => cases is
  | negativeZero =>
    obtain zero := Option.some.inj is
    rw [Int.cast_neg, ← zero]
    rfl
  | finite value =>
    obtain rfl := Option.some.inj is
    rw [neg]
    split
    · next zero =>
      rw [Int.cast_neg, zero]
      rfl
    · rw [Int.cast_neg]
      rfl

theorem toUInt64_of_value {a : Binary64} (is : a.value = some (n : ℚ)) (least : 0 ≤ n) (most : n ≤ 2 ^ 63) :
    a.toUInt64 = BitVec.ofInt 64 n := by
  have number : a ≠ .nan := by
    rintro rfl
    cases is
  have compared : (finite (2 ^ 63)).lessEqual a = decide (2 ^ 63 ≤ n) := by
    rw [lessEqual, less, equal, if_neg (by simp [number]), is]
    simp only [value]
    rw [← Bool.decide_or]
    apply decide_eq_decide.mpr
    rw [← le_iff_lt_or_eq]
    exact_mod_cast Iff.rfl
  rw [toUInt64]
  simp only [compared, decide_eq_true_eq]
  split
  · obtain rfl : n = 2 ^ 63 := by omega
    have rest : (a.sub (finite (2 ^ 63))).toInt64 = 0 := by
      rw [sub, neg, if_neg (by norm_num), add, is]
      simp only [value]
      apply toInt64_of_value _ (by decide) (by decide)
      rw [value_round]
      norm_num
    rw [rest]
    decide
  · rw [toInt64_of_value is (by omega) (by omega)]

theorem equal_ofInt (fits_m : |m| ≤ 2 ^ 64) (fits_n : |n| ≤ 2 ^ 64) :
    equal (ofInt m) (ofInt n) = decide (nearest m = nearest n) := by
  rw [ofInt_eq fits_m, ofInt_eq fits_n]
  rfl

theorem less_ofInt (fits_m : |m| ≤ 2 ^ 64) (fits_n : |n| ≤ 2 ^ 64) :
    less (ofInt m) (ofInt n) = decide (nearest m < nearest n) := by
  rw [ofInt_eq fits_m, ofInt_eq fits_n, less, if_neg (by simp)]
  rfl

theorem lessEqual_ofInt (fits_m : |m| ≤ 2 ^ 64) (fits_n : |n| ≤ 2 ^ 64) :
    lessEqual (ofInt m) (ofInt n) = decide (nearest m ≤ nearest n) := by
  rw [lessEqual, less_ofInt fits_m fits_n, equal_ofInt fits_m fits_n, ← Bool.decide_or]
  exact decide_eq_decide.mpr le_iff_lt_or_eq.symm

end Integers

end Binary64

end Saad.General
