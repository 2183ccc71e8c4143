import Mathlib.Algebra.Group.End
import Mathlib.Algebra.Order.Ring.Int
import Mathlib.Tactic.Ring

/-! # The proleptic Gregorian calendar

A date is valid by construction. The day after a date is a permutation of the dates, so the date any
number of days later or earlier is a power of it.
-/

namespace Saad.General

def isLeap (year : ℤ) : Bool := year % 4 = 0 && (year % 100 != 0 || year % 400 = 0)

def daysInMonth (year month : ℤ) : ℤ :=
  if month = 2 then if isLeap year then 29 else 28
  else if month = 4 ∨ month = 6 ∨ month = 9 ∨ month = 11 then 30
  else 31

theorem daysInMonth_range (year month : ℤ) : 28 ≤ daysInMonth year month ∧ daysInMonth year month ≤ 31 := by
  unfold daysInMonth
  split_ifs <;> omega

theorem isLeap_iff {year : ℤ} : isLeap year = true ↔ year % 4 = 0 ∧ (year % 100 ≠ 0 ∨ year % 400 = 0) := by
  simp [isLeap]

@[ext]
structure Date where
  year : ℤ
  month : ℤ
  day : ℤ
  month_pos : 1 ≤ month
  month_le : month ≤ 12
  day_pos : 1 ≤ day
  day_le : day ≤ daysInMonth year month
deriving DecidableEq

namespace Date

/-- The numbers of the date. -/
def parts (date : Date) : ℤ × ℤ × ℤ := (date.year, date.month, date.day)

theorem parts_injective : Function.Injective parts := by
  intro date other same
  obtain ⟨year, month, day⟩ : _ ∧ _ ∧ _ := by simpa [parts] using same
  exact Date.ext year month day

/-- The first day of a month. -/
def firstOf (year month : ℤ) (pos : 1 ≤ month) (le : month ≤ 12) : Date where
  year := year
  month := month
  day := 1
  month_pos := pos
  month_le := le
  day_pos := le_rfl
  day_le := (daysInMonth_range year month).1.trans' (by decide)

/-- The last day of a month. -/
def lastOf (year month : ℤ) (pos : 1 ≤ month) (le : month ≤ 12) : Date where
  year := year
  month := month
  day := daysInMonth year month
  month_pos := pos
  month_le := le
  day_pos := (daysInMonth_range year month).1.trans' (by decide)
  day_le := le_rfl

/-- The day after. -/
def next (date : Date) : Date :=
  if inMonth : date.day < daysInMonth date.year date.month then
    { date with
      day := date.day + 1
      day_pos := by have := date.day_pos; omega
      day_le := inMonth }
  else if inYear : date.month < 12 then
    firstOf date.year (date.month + 1) (by have := date.month_pos; omega) inYear
  else firstOf (date.year + 1) 1 le_rfl (by decide)

/-- The day before. -/
def prev (date : Date) : Date :=
  if inMonth : 1 < date.day then
    { date with
      day := date.day - 1
      day_pos := by omega
      day_le := by have := date.day_le; omega }
  else if inYear : 1 < date.month then
    lastOf date.year (date.month - 1) (by omega) (by have := date.month_le; omega)
  else lastOf (date.year - 1) 12 (by decide) le_rfl

theorem prev_next (date : Date) : date.next.prev = date := by
  have day_le := date.day_le
  have day_pos := date.day_pos
  have month_le := date.month_le
  have month_pos := date.month_pos
  unfold next
  split_ifs with inMonth inYear
  · have later : 1 < date.day + 1 := by omega
    simp only [prev, dif_pos later, Int.add_sub_cancel]
  · have first : ¬(1 : ℤ) < 1 := by decide
    have behind : 1 < date.month + 1 := by omega
    simp only [prev, firstOf, lastOf, dif_neg first, dif_pos behind, Int.add_sub_cancel]
    ext
    · rfl
    · rfl
    · exact (not_lt.mp inMonth).antisymm day_le
  · have first : ¬(1 : ℤ) < 1 := by decide
    have december : date.month = 12 := by omega
    simp only [prev, firstOf, lastOf, dif_neg first, Int.add_sub_cancel]
    ext
    · rfl
    · exact december.symm
    · rw [december] at inMonth day_le
      exact (not_lt.mp inMonth).antisymm day_le

theorem next_prev (date : Date) : date.prev.next = date := by
  have day_le := date.day_le
  have day_pos := date.day_pos
  have month_le := date.month_le
  have month_pos := date.month_pos
  unfold prev
  split_ifs with inMonth inYear
  · have earlier : date.day - 1 < daysInMonth date.year date.month := by omega
    simp only [next, dif_pos earlier, Int.sub_add_cancel]
  · have first : date.day = 1 := by omega
    have before : date.month - 1 < 12 := by omega
    simp only [next, lastOf, firstOf, lt_irrefl, dif_neg, not_false_eq_true, dif_pos before, Int.sub_add_cancel]
    ext
    · rfl
    · rfl
    · exact first.symm
  · have first : date.day = 1 := by omega
    have january : date.month = 1 := by omega
    simp only [next, lastOf, firstOf, lt_irrefl, dif_neg, not_false_eq_true, Int.sub_add_cancel]
    ext
    · rfl
    · exact january.symm
    · exact first.symm

/-- The day after, as a permutation of the dates. -/
def succ : Equiv.Perm Date where
  toFun := next
  invFun := prev
  left_inv := prev_next
  right_inv := next_prev

/-- A number that goes up by one from each date to the next goes up by the number of days. -/
theorem number_succ_zpow {number : Date → ℤ} (step : ∀ date, number date.next = number date + 1)
    (days : ℤ) (date : Date) : number ((succ ^ days) date) = number date + days := by
  induction days with
  | zero => simp
  | succ n ih =>
    rw [add_comm (n : ℤ) 1, zpow_one_add, Equiv.Perm.mul_apply]
    exact (step _).trans (by rw [ih]; ring)
  | pred n ih =>
    have forward : (succ ^ (-(n : ℤ))) date = ((succ ^ (-(n : ℤ) - 1)) date).next := by
      have split : (succ ^ (-(n : ℤ))) = succ * succ ^ (-(n : ℤ) - 1) := by
        rw [← zpow_one_add]
        congr 1
        ring
      rw [split]
      rfl
    rw [forward, step] at ih
    omega

end Date

end Saad.General
