import Mathlib.Tactic.FieldSimp
import Saad.Std.TimeWriter

/-! # Durations as text

A text of a duration is a sign and numbers with units. Every duration is written as a text that denotes
it, but for the smallest number, which has no opposite.
-/

namespace Saad

open Time

section Units

inductive DurationUnit where
  | h | m | s | ms | us | ns
deriving DecidableEq

namespace DurationUnit

/-- Nanoseconds of the unit. -/
def size : DurationUnit → ℕ
  | h => 60 * (60 * 1000000000)
  | m => 60 * 1000000000
  | s => 1000000000
  | ms => 1000000
  | us => 1000
  | ns => 1

def text : DurationUnit → Text
  | h => asciiBytes "h"
  | m => asciiBytes "m"
  | s => asciiBytes "s"
  | ms => asciiBytes "ms"
  | us => asciiBytes "us"
  | ns => asciiBytes "ns"

end DurationUnit

/-- A number of a unit with its fraction. -/
def withFraction (d : ℤ) (unit : DurationUnit) : Option Text := do
  let whole ← Writer.number (d.tdiv unit.size) 1
  let rest ← Writer.decimals (d.tmod unit.size) unit.size
  some (whole ++ (rest ++ unit.text))

/-- A whole number of a unit. -/
def wholeNumber (d : ℤ) (unit : DurationUnit) : Option Text :=
  (Writer.number (d.tdiv unit.size) 1).map (· ++ unit.text)

/-- The minutes, which are written behind hours even when there are none, and the seconds. -/
def fromMinutes (hours : Bool) (d : ℤ) : Option Text :=
  if d ≥ DurationUnit.m.size ∨ hours then do
    let m ← wholeNumber d .m
    let s ← withFraction (d.tmod DurationUnit.m.size) .s
    some (m ++ s)
  else withFraction d .s

/-- A duration without its sign. -/
def unsignedText (d : ℤ) : Option Text :=
  if d < DurationUnit.s.size then
    withFraction d (if d ≥ DurationUnit.ms.size then .ms else if d ≥ DurationUnit.us.size then .us else .ns)
  else if d ≥ DurationUnit.h.size then do
    let h ← wholeNumber d .h
    let behind ← fromMinutes true (d.tmod DurationUnit.h.size)
    some (h ++ behind)
  else fromMinutes false d

/-- A duration as text. None when an index is outside of an array, or when a loop doesn't end. -/
def durationText (d : ℤ) : Option Text :=
  if d = 0 then some (asciiBytes "0s")
  else if d < 0 then (unsignedText (int64 (-d))).map (byteOf '-' :: ·)
  else unsignedText d

end Units

section Meaning

/-- A number with a unit in a text. The digits behind the dot don't end with a zero. -/
structure DurationPart where
  whole : ℕ
  fraction : Text
  unit : DurationUnit
  digits : ∀ c ∈ fraction, isDigit c = true
  no_zero : byteOf '0' ∉ fraction.getLast?

namespace DurationPart

def text (part : DurationPart) : Text :=
  decimalText part.whole ++ ((if part.fraction = [] then [] else byteOf '.' :: part.fraction) ++ part.unit.text)

/-- The nanoseconds of the part. -/
def value (part : DurationPart) : ℚ :=
  (part.whole + digitsValue part.fraction / 10 ^ part.fraction.length) * part.unit.size

end DurationPart

/-- The units become smaller, and a number behind a bigger unit is below 60. -/
def Descending (parts : List DurationPart) : Prop :=
  parts.IsChain fun part next => next.unit.size < part.unit.size ∧ next.whole < 60

/-- What a text of a duration says: the sum of its parts, with the sign in front. -/
def Denotes (text : Text) (d : ℤ) : Prop :=
  ∃ (negative : Bool) (parts : List DurationPart), parts ≠ [] ∧ Descending parts ∧
    text = (if negative then [byteOf '-'] else []) ++ parts.flatMap DurationPart.text ∧
    (d : ℚ) = (if negative then -1 else 1) * (parts.map DurationPart.value).sum

end Meaning

section Fractions

variable {value digits : ℤ} {turns k : ℕ}

theorem unitDigits_pow (enough : k < turns) : Writer.unitDigits turns (10 ^ k) = some (k : ℤ) := by
  induction turns generalizing k with
  | zero => omega
  | succ turns ih =>
    rw [Writer.unitDigits]
    cases k with
    | zero => rfl
    | succ k =>
      have above : (1 : ℤ) < 10 ^ (k + 1) := one_lt_pow₀ (by decide) (by omega)
      have shorter : ((10 : ℤ) ^ (k + 1)).tdiv 10 = 10 ^ k := by
        rw [pow_succ]
        exact Int.mul_tdiv_cancel _ (by decide)
      rw [if_pos above, shorter, ih (by omega)]
      push_cast
      rfl

/-- The zeros at the end are all left out. -/
theorem withoutZeros_spec (positive : 0 < value) (enough : value < 10 ^ turns) :
    ∃ (rest : ℤ) (zeros : ℕ), Writer.withoutZeros turns value digits = some (rest, digits - zeros) ∧
      value = rest * 10 ^ zeros ∧ rest % 10 ≠ 0 := by
  induction turns generalizing value digits with
  | zero => simp at enough; omega
  | succ turns ih =>
    rw [Writer.withoutZeros, Int.tmod_eq_emod_of_nonneg positive.le, Int.tdiv_eq_ediv_of_nonneg positive.le]
    by_cases zero : value % 10 = 0
    · rw [pow_succ] at enough
      obtain ⟨rest, zeros, gives, is, last⟩ := @ih (value / 10) (digits - 1) (by omega) (by omega)
      refine ⟨rest, zeros + 1, ?_, ?_, last⟩
      · rw [if_pos zero, gives]
        push_cast
        rw [sub_sub, add_comm]
      · rw [pow_succ, ← mul_assoc, ← is]
        omega
    · exact ⟨value, 0, by simp [zero], by simp, zero⟩

theorem digitsValue_append_singleton (ds : Text) (c : BitVec 8) :
    digitsValue (ds ++ [c]) = digitsValue ds * 10 + digitNumber c := by
  rw [digitsValue, List.foldl_append]
  rfl

/-- The digits of a number that isn't a multiple of ten don't end with a zero. -/
theorem no_zero_of_digitsValue {ds : Text} (last : digitsValue ds % 10 ≠ 0) : byteOf '0' ∉ ds.getLast? := by
  intro zero
  obtain ⟨before, rfl⟩ := List.getLast?_eq_some_iff.mp zero
  rw [digitsValue_append_singleton] at last
  have none : digitNumber (byteOf '0') = 0 := by decide
  omega

/-- A fraction of a unit: a dot and digits, or nothing. -/
theorem decimals_spec {rest : ℤ} (not_negative : 0 ≤ rest) (below : rest < 10 ^ k) (small : k ≤ 18) :
    ∃ ds : Text, Writer.decimals rest (10 ^ k) = some (if ds = [] then [] else byteOf '.' :: ds) ∧
      (∀ c ∈ ds, isDigit c = true) ∧ byteOf '0' ∉ ds.getLast? ∧
      rest = digitsValue ds * 10 ^ (k - ds.length) ∧ ds.length ≤ k := by
  unfold Writer.decimals
  by_cases none : rest = 0
  · exact ⟨[], by simp [none], by simp, by simp, by simp [none], by simp⟩
  · have power : (10 : ℤ) ^ k ≤ 10 ^ 18 := pow_le_pow_right₀ (by decide) small
    obtain ⟨value, zeros, gives, is, last⟩ :=
      @withoutZeros_spec rest k 64 (by omega) (by omega)
    have zeros_pos : (0 : ℤ) < 10 ^ zeros := by positivity
    have value_pos : 0 < value := by
      rw [is] at not_negative none
      have := nonneg_of_mul_nonneg_left not_negative zeros_pos
      omega
    have fewer : zeros < k := by
      rw [← pow_lt_pow_iff_right₀ (show (1 : ℤ) < 10 by decide)]
      calc (10 : ℤ) ^ zeros ≤ value * 10 ^ zeros := le_mul_of_one_le_left zeros_pos.le value_pos
        _ < 10 ^ k := is ▸ below
    have fits : value < 10 ^ (k - zeros) := by
      rw [is, ← Nat.sub_add_cancel fewer.le, pow_add] at below
      exact lt_of_mul_lt_mul_right below zeros_pos.le
    obtain ⟨length, all, number⟩ := number_spec value_pos.le fits (by omega)
    have written := Writer.number_eq (show -2 ^ 63 < value by omega)
      (by have := le_mul_of_one_le_right value_pos.le (show (1 : ℤ) ≤ 10 ^ zeros by omega); omega) (k - zeros)
    refine ⟨Time.number value (k - zeros), ?_, all, no_zero_of_digitsValue (by omega), ?_, by omega⟩
    · have some_digits : Time.number value (k - zeros) ≠ [] := by
        rw [← List.length_pos_iff, length]
        omega
      have width : (k : ℤ) - zeros = (k - zeros : ℕ) := by omega
      rw [if_neg none, unitDigits_pow (by omega), if_neg some_digits]
      simp only [bind, Option.bind, gives, width, written]
    · rw [length, number, Nat.sub_sub_self fewer.le]
      exact is

end Fractions

section Parts

variable {d : ℤ} {unit : DurationUnit}

theorem number_one (not_negative : 0 ≤ d) (small : d < 2 ^ 63) :
    Writer.number d 1 = some (decimalText d.toNat) := by
  have written := Writer.number_eq (show -2 ^ 63 < d by omega) small 1
  have digits := List.length_pos_iff.mpr (decimalText_ne_nil d.natAbs)
  push_cast at written
  rw [written, number, if_neg (by omega), Nat.sub_eq_zero_of_le digits, List.replicate_zero, List.append_nil,
    List.nil_append, show d.natAbs = d.toNat by omega]

/-- A part without a fraction. -/
def DurationPart.ofWhole (whole : ℕ) (unit : DurationUnit) : DurationPart where
  whole := whole
  fraction := []
  unit := unit
  digits := by simp
  no_zero := by simp

theorem DurationPart.value_ofWhole (whole : ℕ) (unit : DurationUnit) :
    (DurationPart.ofWhole whole unit).value = whole * unit.size := by
  simp [value, ofWhole]

theorem DurationUnit.size_pos (unit : DurationUnit) : (0 : ℤ) < unit.size := by cases unit <;> decide

/-- The parts are written, and have the value. -/
def Written (result : Option Text) (parts : List DurationPart) (d : ℤ) : Prop :=
  result = some (parts.flatMap DurationPart.text) ∧ (d : ℚ) = (parts.map DurationPart.value).sum

/-- A number with a fraction is a part. -/
theorem withFraction_spec (not_negative : 0 ≤ d) (small : d < 2 ^ 63) {k : ℕ} (power : unit.size = 10 ^ k)
    (digits : k ≤ 18) : ∃ part : DurationPart, Written (withFraction d unit) [part] d ∧ part.unit = unit ∧
      part.whole = (d / unit.size).toNat := by
  have positive : (0 : ℤ) < 10 ^ k := by positivity
  have size : (unit.size : ℤ) = 10 ^ k := by exact_mod_cast power
  have below : d / 10 ^ k ≤ d := Int.ediv_le_self _ not_negative
  have whole0 : 0 ≤ d / 10 ^ k := Int.ediv_nonneg not_negative positive.le
  obtain ⟨ds, written, all, no_zero, is, short⟩ :=
    decimals_spec (Int.emod_nonneg d positive.ne') (Int.emod_lt_of_pos d positive) digits
  refine ⟨⟨(d / 10 ^ k).toNat, ds, unit, all, no_zero⟩, ⟨?_, ?_⟩, rfl, by rw [size]⟩
  · unfold withFraction
    rw [size, Int.tdiv_eq_ediv_of_nonneg not_negative, Int.tmod_eq_emod_of_nonneg not_negative,
      number_one whole0 (by omega), written]
    simp [DurationPart.text]
  · have split : (d : ℚ) = ((d / 10 ^ k).toNat : ℚ) * 10 ^ k + digitsValue ds * 10 ^ (k - ds.length) := by
      have natural : ((d / 10 ^ k).toNat : ℤ) = d / 10 ^ k := Int.toNat_of_nonneg whole0
      have parts : ((d / 10 ^ k).toNat : ℤ) * 10 ^ k + digitsValue ds * 10 ^ (k - ds.length) = d := by
        rw [← is, natural, mul_comm]
        exact Int.mul_ediv_add_emod d (10 ^ k)
      exact_mod_cast parts.symm
    have powers : (10 : ℚ) ^ k = 10 ^ ds.length * 10 ^ (k - ds.length) := by
      rw [← pow_add, Nat.add_sub_cancel' short]
    rw [List.map_singleton, List.sum_singleton, DurationPart.value, split, power]
    push_cast
    rw [add_mul, powers]
    field_simp

/-- A whole number of a unit goes in front of what is left. -/
theorem Written.cons (not_negative : 0 ≤ d) (small : d < 2 ^ 63) {rest : Option Text} {parts : List DurationPart}
    (behind : Written rest parts (d % unit.size)) :
    Written (do let text ← wholeNumber d unit; let behind ← rest; some (text ++ behind))
      (DurationPart.ofWhole (d / unit.size).toNat unit :: parts) d := by
  obtain ⟨rfl, value⟩ := behind
  have whole0 : 0 ≤ d / unit.size := Int.ediv_nonneg not_negative unit.size_pos.le
  have below : d / unit.size ≤ d := Int.ediv_le_self _ not_negative
  constructor
  · rw [wholeNumber, Int.tdiv_eq_ediv_of_nonneg not_negative, number_one whole0 (by omega)]
    simp [DurationPart.text, DurationPart.ofWhole]
  · have split : d = (d / unit.size).toNat * unit.size + d % unit.size := by
      rw [Int.toNat_of_nonneg whole0, mul_comm]
      exact (Int.mul_ediv_add_emod d unit.size).symm
    rw [List.map_cons, List.sum_cons, ← value, DurationPart.value_ofWhole]
    exact_mod_cast split

end Parts

section Right

variable {d : ℤ}

theorem seconds_spec (not_negative : 0 ≤ d) (small : d < 2 ^ 63) : ∃ part : DurationPart,
    Written (withFraction d .s) [part] d ∧ part.unit = .s ∧ part.whole = (d / 1000000000).toNat :=
  @withFraction_spec d .s not_negative small 9 rfl (by decide)

/-- Below an hour, minutes and seconds. -/
theorem minutes_spec (not_negative : 0 ≤ d) (small : d < 2 ^ 63) : ∃ part : DurationPart,
    Written (do let m ← wholeNumber d .m; let s ← withFraction (d.tmod DurationUnit.m.size) .s; some (m ++ s))
      [.ofWhole (d / 60000000000).toNat .m, part] d ∧ part.unit = .s ∧ part.whole < 60 := by
  have below := Int.emod_lt_of_pos d (show (0 : ℤ) < 60000000000 by decide)
  have above := Int.emod_nonneg d (show (60000000000 : ℤ) ≠ 0 by decide)
  obtain ⟨part, written, is, whole⟩ := @seconds_spec (d % 60000000000) above (by omega)
  refine ⟨part, ?_, is, by omega⟩
  rw [Int.tmod_eq_emod_of_nonneg not_negative]
  exact Written.cons not_negative small written

theorem fromMinutes_spec (not_negative : 0 ≤ d) (small : d < 2 ^ 63) :
    ∃ parts, parts ≠ [] ∧ Descending parts ∧ Written (fromMinutes false d) parts d := by
  unfold fromMinutes
  split
  · obtain ⟨part, written, is, whole⟩ := minutes_spec not_negative small
    exact ⟨_, by simp, by simp [Descending, DurationPart.ofWhole, is, whole, DurationUnit.size], written⟩
  · obtain ⟨part, written, -, -⟩ := seconds_spec not_negative small
    exact ⟨_, by simp, by simp [Descending], written⟩

theorem fromHours_spec (not_negative : 0 ≤ d) (small : d < 2 ^ 63) : ∃ parts, parts ≠ [] ∧ Descending parts ∧
    Written (do
      let h ← wholeNumber d .h
      let behind ← fromMinutes true (d.tmod DurationUnit.h.size)
      some (h ++ behind)) parts d := by
  have below := Int.emod_lt_of_pos d (show (0 : ℤ) < 3600000000000 by decide)
  have above := Int.emod_nonneg d (show (3600000000000 : ℤ) ≠ 0 by decide)
  obtain ⟨part, written, is, whole⟩ := @minutes_spec (d % 3600000000000) above (by omega)
  have minutes : (d % 3600000000000 / 60000000000).toNat < 60 := by omega
  refine ⟨.ofWhole (d / 3600000000000).toNat .h ::
    [.ofWhole (d % 3600000000000 / 60000000000).toNat .m, part], by simp, ?_, ?_⟩
  · simp only [Descending, List.isChain_cons_cons, List.IsChain.singleton, DurationPart.ofWhole, is, whole, minutes,
      DurationUnit.size]
    decide
  · rw [Int.tmod_eq_emod_of_nonneg not_negative, fromMinutes, if_pos (Or.inr rfl)]
    exact Written.cons not_negative small written

/-- A duration that isn't negative is written as parts with its value. -/
theorem unsignedText_spec (not_negative : 0 ≤ d) (small : d < 2 ^ 63) :
    ∃ parts, parts ≠ [] ∧ Descending parts ∧ Written (unsignedText d) parts d := by
  have one (unit : DurationUnit) (k : ℕ) (power : unit.size = 10 ^ k) (digits : k ≤ 18) :
      ∃ parts, parts ≠ [] ∧ Descending parts ∧ Written (withFraction d unit) parts d := by
    obtain ⟨part, written, -, -⟩ := withFraction_spec not_negative small power digits
    exact ⟨[part], by simp, by simp [Descending], written⟩
  unfold unsignedText
  split_ifs
  · exact one .ms 6 rfl (by decide)
  · exact one .us 3 rfl (by decide)
  · exact one .ns 0 rfl (by decide)
  · exact fromHours_spec not_negative small
  · exact fromMinutes_spec not_negative small

end Right

/-- A part begins with a digit. -/
theorem DurationPart.text_head (part : DurationPart) : ∃ c rest, part.text = c :: rest ∧ isDigit c = true := by
  obtain ⟨c, digits, is⟩ := List.exists_cons_of_ne_nil (decimalText_ne_nil part.whole)
  refine ⟨c, _, by rw [text, is]; rfl, isDigit_of_mem_decimalText (n := part.whole) ?_⟩
  rw [is]
  exact List.mem_cons_self

/-- A second sign denotes nothing. -/
theorem not_denotes_minus (rest : Text) (d : ℤ) : ¬Denotes (byteOf '-' :: byteOf '-' :: rest) d := by
  rintro ⟨negative, parts, nonempty, -, is, -⟩
  obtain ⟨part, parts, rfl⟩ := List.exists_cons_of_ne_nil nonempty
  obtain ⟨c, behind, begins, digit⟩ := part.text_head
  have no_digit : isDigit (byteOf '-') = false := by decide
  rw [List.flatMap_cons, begins] at is
  cases negative with
  | false =>
    obtain ⟨same, -⟩ := List.cons.inj is
    rw [← same, no_digit] at digit
    cases digit
  | true =>
    obtain ⟨same, -⟩ := List.cons.inj (List.cons.inj is).2
    rw [← same, no_digit] at digit
    cases digit

theorem durationText_smallest : durationText (-2 ^ 63) = some (asciiBytes "--(ns") := by decide

/-- A duration is written so that its text denotes it, but for the smallest number. -/
theorem durationText_denotes_iff (d : ℤ) (low : -2 ^ 63 ≤ d) (high : d < 2 ^ 63) :
    (∃ text, durationText d = some text ∧ Denotes text d) ↔ d ≠ -2 ^ 63 := by
  constructor
  · rintro ⟨text, written, denotes⟩ rfl
    rw [durationText_smallest] at written
    cases written
    exact not_denotes_minus _ _ denotes
  · intro other
    unfold durationText
    by_cases zero : d = 0
    · subst zero
      refine ⟨_, if_pos rfl, false, [.ofWhole 0 .s], by simp, by simp [Descending], by decide, ?_⟩
      simp [DurationPart.value_ofWhole]
    · rw [if_neg zero]
      by_cases negative : d < 0
      · rw [if_pos negative, int64_of_fits (by omega) (by omega)]
        obtain ⟨parts, nonempty, descending, written, value⟩ := @unsignedText_spec (-d) (by omega) (by omega)
        rw [written]
        refine ⟨_, rfl, true, parts, nonempty, descending, rfl, ?_⟩
        rw [← value]
        push_cast
        simp
      · rw [if_neg negative]
        obtain ⟨parts, nonempty, descending, written, value⟩ := @unsignedText_spec d (by omega) high
        rw [written]
        refine ⟨_, rfl, false, parts, nonempty, descending, rfl, ?_⟩
        rw [← value]
        simp

/-- The duration before the smallest one. -/
theorem durationText_denotes_iff_before :
    (∃ text, durationText (1 - 2 ^ 63) = some text ∧ Denotes text (1 - 2 ^ 63)) ↔ (1 - 2 ^ 63 : ℤ) ≠ -2 ^ 63 :=
  durationText_denotes_iff (1 - 2 ^ 63) (by decide) (by decide)

theorem durationText_not_denotes :
    ¬∀ d : ℤ, -2 ^ 63 ≤ d → d < 2 ^ 63 → ∃ text, durationText d = some text ∧ Denotes text d := by
  intro all
  obtain ⟨text, written, denotes⟩ := all (-2 ^ 63) (by decide) (by decide)
  rw [durationText_smallest] at written
  cases written
  exact not_denotes_minus _ _ denotes

end Saad
