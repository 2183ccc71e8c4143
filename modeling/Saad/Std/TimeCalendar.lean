import Mathlib.Tactic.IntervalCases
import Saad.General.Gregorian
import Saad.Std.TimeRoundTrip

/-! # The formulas of the calendar

`daysFromCivil` goes up by one from each date to the next, and `civilFromDays` takes it back. So both
are the calendar, for all dates.
-/

namespace Saad.Time

open General

section Formulas

/-- The year that begins in March. -/
def marchYear (year month : ℤ) : ℤ := if month ≤ 2 then year - 1 else year

/-- The months since March. -/
def marchMonth (month : ℤ) : ℤ := if month ≤ 2 then month + 9 else month - 3

/-- Without eras: all leap days are counted. -/
theorem daysFromCivil_eq (year month day : ℤ) : daysFromCivil year month day =
    365 * marchYear year month + marchYear year month / 4 - marchYear year month / 100 +
      marchYear year month / 400 + (153 * marchMonth month + 2) / 5 + day - 719469 := by
  unfold daysFromCivil marchYear marchMonth
  simp only [floorDiv_eq (show (0 : ℤ) < 400 by decide)]
  split <;> omega

theorem daysFromCivil_day (year month day : ℤ) :
    daysFromCivil year month day = daysFromCivil year month 1 + day - 1 := by
  rw [daysFromCivil_eq, daysFromCivil_eq]
  omega

/-- The days of a month lead to the first of the next one. -/
theorem daysFromCivil_nextMonth (year : ℤ) {month : ℤ} (pos : 1 ≤ month) (le : month < 12) :
    daysFromCivil year (month + 1) 1 = daysFromCivil year month 1 + daysInMonth year month := by
  rw [daysFromCivil_eq, daysFromCivil_eq]
  unfold daysInMonth
  by_cases february : month = 2
  · subst february
    have leap := @isLeap_iff year
    simp only [marchYear, marchMonth]
    by_cases is_leap : isLeap year = true
    · rw [if_pos is_leap]
      rw [leap] at is_leap
      norm_num
      omega
    · rw [if_neg is_leap]
      rw [leap] at is_leap
      norm_num
      omega
  · simp only [if_neg february]
    unfold marchYear marchMonth
    interval_cases month
    all_goals first | exact absurd rfl february | (norm_num; omega)

theorem daysFromCivil_nextYear (year : ℤ) : daysFromCivil (year + 1) 1 1 = daysFromCivil year 12 1 + 31 := by
  rw [daysFromCivil_eq, daysFromCivil_eq]
  simp only [marchYear, marchMonth]
  norm_num
  omega

/-- The number of a date, since January 1, 1970. -/
def dayNumber (date : Date) : ℤ := daysFromCivil date.year date.month date.day

theorem dayNumber_next (date : Date) : dayNumber date.next = dayNumber date + 1 := by
  have day_le := date.day_le
  have month_le := date.month_le
  unfold Date.next
  split_ifs with inMonth inYear
  · have before := daysFromCivil_day date.year date.month date.day
    have after := daysFromCivil_day date.year date.month (date.day + 1)
    unfold dayNumber
    dsimp only
    omega
  · have month := daysFromCivil_nextMonth date.year date.month_pos inYear
    unfold dayNumber Date.firstOf
    rw [daysFromCivil_day date.year date.month]
    dsimp only
    omega
  · have year := daysFromCivil_nextYear date.year
    have december : date.month = 12 := by omega
    have length : daysInMonth date.year 12 = 31 := rfl
    unfold dayNumber Date.firstOf
    rw [daysFromCivil_day date.year date.month]
    rw [december] at inMonth day_le ⊢
    dsimp only
    omega

end Formulas

section Inverse

/-- In a month, the formula of the days counts less than a month after its first day. -/
theorem marchMonth_eq {mp day : ℤ} (low : 0 ≤ mp) (high : mp ≤ 11) (day_pos : 1 ≤ day)
    (day_le : (153 * mp + 2) / 5 + day ≤ (153 * (mp + 1) + 2) / 5) :
    (5 * ((153 * mp + 2) / 5 + day - 1) + 2) / 153 = mp := by
  interval_cases mp <;> omega

/-- A date is less than a month behind the first of its month, and in its year. -/
theorem day_in_year (date : Date) :
    0 ≤ marchMonth date.month ∧ marchMonth date.month ≤ 11 ∧
      (153 * marchMonth date.month + 2) / 5 + date.day ≤ (153 * (marchMonth date.month + 1) + 2) / 5 ∧
      (153 * marchMonth date.month + 2) / 5 + date.day ≤
        if isLeap (marchYear date.year date.month + 1) then 366 else 365 := by
  obtain ⟨year, month, day, month_pos, month_le, day_pos, day_le⟩ := date
  unfold marchMonth marchYear
  unfold daysInMonth at day_le
  dsimp only at day_le ⊢
  by_cases february : month = 2
  · subst february
    by_cases is_leap : isLeap year = true
    · norm_num [is_leap] at day_le ⊢
      omega
    · norm_num [is_leap] at day_le ⊢
      omega
  · rw [if_neg february] at day_le
    interval_cases month
    all_goals first | exact absurd rfl february | (norm_num at day_le ⊢; split <;> omega)

section Parts

variable {era c q a e mp day : ℤ}

/-- A year by its era, its century, its four years and the year in them. -/
theorem leapYears_eq (c0 : 0 ≤ c) (c3 : c ≤ 3) (q0 : 0 ≤ q) (q24 : q ≤ 24) (a0 : 0 ≤ a) (a3 : a ≤ 3) :
    (400 * era + (100 * c + 4 * q + a)) / 4 = 100 * era + 25 * c + q ∧
      (400 * era + (100 * c + 4 * q + a)) / 100 = 4 * era + c ∧
      (400 * era + (100 * c + 4 * q + a)) / 400 = era :=
  ⟨ediv_eq a (by omega) (by omega) (by omega), ediv_eq (4 * q + a) (by omega) (by omega) (by omega),
    ediv_eq (100 * c + 4 * q + a) (by omega) (by omega) (by omega)⟩

/-- The last day of a year of 366 days is in the last of four years, and not in the last of a century. -/
theorem lastDay_of_leap (c0 : 0 ≤ c) (c3 : c ≤ 3) (q0 : 0 ≤ q) (q24 : q ≤ 24) (a0 : 0 ≤ a) (a3 : a ≤ 3)
    (inYear : e < if isLeap (400 * era + (100 * c + 4 * q + a) + 1) then 366 else 365) :
    e ≤ 365 ∧ (e = 365 → a = 3 ∧ (q = 24 → c = 3)) := by
  by_cases is_leap : isLeap (400 * era + (100 * c + 4 * q + a) + 1) = true
  · rw [if_pos is_leap] at inYear
    obtain ⟨fours, hundreds⟩ := isLeap_iff.mp is_leap
    have last : a = 3 := by omega
    refine ⟨by omega, fun _ => ⟨last, fun century => ?_⟩⟩
    subst last century
    obtain no_century | no_era := hundreds
    · exact absurd (by omega) no_century
    · omega
  · rw [if_neg is_leap] at inYear
    exact ⟨by omega, fun full => by omega⟩

theorem civilFromDays_of_parts (c0 : 0 ≤ c) (c3 : c ≤ 3) (q0 : 0 ≤ q) (q24 : q ≤ 24) (a0 : 0 ≤ a) (a3 : a ≤ 3)
    (e0 : 0 ≤ e) (e365 : e ≤ 365) (last : e = 365 → a = 3 ∧ (q = 24 → c = 3)) (mp_eq : (5 * e + 2) / 153 = mp) :
    civilFromDays (era * 146097 + (36524 * c + 1461 * q + 365 * a + e) - 719468) =
      (if (if mp ≥ 10 then mp - 9 else mp + 3) ≤ 2 then 100 * c + 4 * q + a + era * 400 + 1
        else 100 * c + 4 * q + a + era * 400,
        if mp ≥ 10 then mp - 9 else mp + 3, e - (153 * mp + 2) / 5 + 1) := by
  have era_eq : (era * 146097 + (36524 * c + 1461 * q + 365 * a + e)) / 146097 = era :=
    ediv_eq (36524 * c + 1461 * q + 365 * a + e) (by omega) (by omega) (by omega)
  have fours : (100 * c + 4 * q + a) / 4 = 25 * c + q := ediv_eq a (by omega) (by omega) (by omega)
  have hundreds : (100 * c + 4 * q + a) / 100 = c := ediv_eq (4 * q + a) (by omega) (by omega) (by omega)
  have day_eq : 36524 * c + 1461 * q + 365 * a + e -
      (365 * (100 * c + 4 * q + a) + (100 * c + 4 * q + a) / 4 - (100 * c + 4 * q + a) / 100) = e := by
    rw [fours, hundreds]
    ring
  have year_eq := yearOfEra_eq rfl c0 c3 q0 q24 a0 a3 e0 e365 last
  unfold civilFromDays
  dsimp only
  rw [Int.sub_add_cancel, floorDiv_eq (by decide), era_eq, add_sub_cancel_left, year_eq, day_eq, mp_eq]

end Parts

theorem civilFromDays_dayNumber (date : Date) : civilFromDays (dayNumber date) = date.parts := by
  obtain ⟨mp0, mp11, inMonth, inYear⟩ := day_in_year date
  have day_pos := date.day_pos
  have number := daysFromCivil_eq date.year date.month date.day
  have year_back : (if (if marchMonth date.month ≥ 10 then marchMonth date.month - 9 else marchMonth date.month + 3) ≤ 2
      then marchYear date.year date.month + 1 else marchYear date.year date.month) = date.year := by
    have month_pos := date.month_pos
    have month_le := date.month_le
    unfold marchMonth marchYear
    split_ifs <;> omega
  have month_back : (if marchMonth date.month ≥ 10 then marchMonth date.month - 9 else marchMonth date.month + 3) =
      date.month := by
    have month_pos := date.month_pos
    have month_le := date.month_le
    unfold marchMonth
    split_ifs <;> omega
  have mp_eq := marchMonth_eq mp0 mp11 day_pos inMonth
  generalize marchYear date.year date.month = Y at *
  generalize marchMonth date.month = mp at *
  obtain ⟨era, c, q, a, rfl, c0, c3, q0, q24, a0, a3⟩ : ∃ era c q a : ℤ,
      Y = 400 * era + (100 * c + 4 * q + a) ∧ 0 ≤ c ∧ c ≤ 3 ∧ 0 ≤ q ∧ q ≤ 24 ∧ 0 ≤ a ∧ a ≤ 3 :=
    ⟨Y / 400, Y % 400 / 100, Y % 100 / 4, Y % 4, by omega⟩
  obtain ⟨fours, hundreds, eras⟩ := @leapYears_eq era c q a c0 c3 q0 q24 a0 a3
  generalize month_days : (153 * mp + 2) / 5 = before at *
  have before0 : 0 ≤ before := by omega
  have inYear_day : before + date.day - 1 <
      if isLeap (400 * era + (100 * c + 4 * q + a) + 1) then 366 else 365 := by omega
  obtain ⟨e365, last⟩ := lastDay_of_leap c0 c3 q0 q24 a0 a3 inYear_day
  have number_eq : dayNumber date =
      era * 146097 + (36524 * c + 1461 * q + 365 * a + (before + date.day - 1)) - 719468 := by
    rw [dayNumber, number, fours, hundreds, eras]
    ring
  rw [number_eq, civilFromDays_of_parts c0 c3 q0 q24 a0 a3 (by omega) e365 last mp_eq, month_days, Date.parts]
  have year_is : (if (if mp ≥ 10 then mp - 9 else mp + 3) ≤ 2 then 100 * c + 4 * q + a + era * 400 + 1
      else 100 * c + 4 * q + a + era * 400) = date.year := by
    rw [← year_back]
    split <;> omega
  rw [year_is, month_back]
  congr 2
  ring

end Inverse

end Saad.Time
