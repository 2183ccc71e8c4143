import Saad.Std.TimeCalendar

/-! # The formulas of the calendar in `i64`

The division of the source rounds to zero and each operation wraps. As long as the days from March of
the year 0 fit, nothing is lost: what wraps before the last subtraction wraps back.
-/

namespace Saad

theorem int64_sub_int64 (a b : ℤ) : int64 (a - int64 b) = int64 (a - b) := Int.sub_bmod_bmod

theorem int64_int64_sub (a b : ℤ) : int64 (int64 a - b) = int64 (a - b) := Int.bmod_sub_bmod

theorem int64_int64_add_sub (a b c : ℤ) : int64 (int64 a + b - c) = int64 (a + b - c) := by
  rw [add_sub_assoc, int64_int64_add, add_sub_assoc]

theorem int64_int64_sub_add (a b c : ℤ) : int64 (int64 a - b + c) = int64 (a - b + c) := by
  rw [sub_add_eq_add_sub, add_sub_assoc, int64_int64_add, ← add_sub_assoc, ← sub_add_eq_add_sub]

end Saad

namespace Saad.Time

open General

section Definitions

def floorDiv64 (a b : ℤ) : ℤ :=
  let q := int64 (a.tdiv b)
  if a.tmod b ≠ 0 ∧ (a < 0) ≠ (b < 0) then int64 (q - 1) else q

/-- `daysFromCivil` -/
def daysFromCivil64 (year month day : ℤ) : ℤ :=
  let y := if month ≤ 2 then int64 (year - 1) else year
  let era := floorDiv64 y 400
  let yearOfEra := int64 (y - int64 (era * 400))
  let shifted := if month ≤ 2 then int64 (month + 9) else int64 (month - 3)
  let dayOfYear := int64 (int64 ((int64 (int64 (153 * shifted) + 2)).tdiv 5 + day) - 1)
  let dayOfEra := int64 (int64 (int64 (int64 (yearOfEra * 365) + yearOfEra.tdiv 4) - yearOfEra.tdiv 100) + dayOfYear)
  int64 (int64 (int64 (era * 146097) + dayOfEra) - 719468)

/-- `civilFromDays` -/
def civilFromDays64 (days : ℤ) : ℤ × ℤ × ℤ :=
  let z := int64 (days + 719468)
  let era := floorDiv64 z 146097
  let dayOfEra := int64 (z - int64 (era * 146097))
  let yearOfEra := (int64 (int64 (int64 (dayOfEra - dayOfEra.tdiv 1460) + dayOfEra.tdiv 36524) -
    dayOfEra.tdiv 146096)).tdiv 365
  let dayOfYear := int64 (dayOfEra - int64 (int64 (int64 (365 * yearOfEra) + yearOfEra.tdiv 4) - yearOfEra.tdiv 100))
  let mp := (int64 (int64 (5 * dayOfYear) + 2)).tdiv 153
  let day := int64 (int64 (dayOfYear - (int64 (int64 (153 * mp) + 2)).tdiv 5) + 1)
  let month := if mp ≥ 10 then int64 (mp - 9) else int64 (mp + 3)
  let year := int64 (yearOfEra + int64 (era * 400))
  (if month ≤ 2 then int64 (year + 1) else year, month, day)

/-- The number of the weekday, from sunday, of a number of days. -/
def weekday (days : ℤ) : ℤ := (int64 (days.tmod 7 + 11)).tmod 7

/-- The day of the year of a number of days, as an `int`. -/
def yearDay (days : ℤ) : ℤ :=
  int32 (int64 (int64 (days - daysFromCivil64 (civilFromDays64 days).1 1 1) + 1))

end Definitions

section Wrapping

theorem floorDiv64_eq {a b : ℤ} (low : -2 ^ 63 ≤ a) (high : a < 2 ^ 63) (positive : 1 < b) :
    floorDiv64 a b = a / b := by
  have quotient : -2 ^ 62 ≤ a.tdiv b ∧ a.tdiv b ≤ 2 ^ 62 := by
    have bound := Int.natAbs_tdiv a b
    have half : a.natAbs / b.natAbs ≤ a.natAbs / 2 := Nat.div_le_div_left (by omega) (by decide)
    change _ = a.natAbs / b.natAbs at bound
    omega
  have fits : int64 (a.tdiv b) = a.tdiv b := int64_of_fits (by omega) (by omega)
  rw [← floorDiv_eq (by omega)]
  unfold floorDiv64 floorDiv
  dsimp only
  rw [fits]
  split
  · exact int64_of_fits (by omega) (by omega)
  · rfl

/-- The days fit from March of the year 0. -/
def DaysFit (days : ℤ) : Prop := -2 ^ 63 ≤ days ∧ days + 719468 < 2 ^ 63

instance (days : ℤ) : Decidable (DaysFit days) := inferInstanceAs (Decidable (_ ∧ _))

/-- The year of a day of an era, in `i64`. -/
theorem yearOfEra64_eq {d : ℤ} (low : 0 ≤ d) (high : d < 146097) :
    (int64 (int64 (int64 (d - d.tdiv 1460) + d.tdiv 36524) - d.tdiv 146096)).tdiv 365 =
      (d - d / 1460 + d / 36524 - d / 146096) / 365 := by
  simp only [Int.tdiv_eq_ediv_of_nonneg low, int64_int64_sub, int64_int64_add]
  have range : 0 ≤ d - d / 1460 + d / 36524 - d / 146096 ∧ d - d / 1460 + d / 36524 - d / 146096 < 2 ^ 63 := by
    omega
  rw [int64_of_fits (by omega) range.2, Int.tdiv_eq_ediv_of_nonneg range.1]

/-- The day of a year of an era, in `i64`. -/
theorem dayOfYear64_eq {d y : ℤ} (low : 0 ≤ y) (fits : 0 ≤ d - (365 * y + y / 4 - y / 100))
    (small : d - (365 * y + y / 4 - y / 100) < 366) :
    int64 (d - int64 (int64 (int64 (365 * y) + y.tdiv 4) - y.tdiv 100)) = d - (365 * y + y / 4 - y / 100) := by
  simp only [Int.tdiv_eq_ediv_of_nonneg low, int64_int64_sub, int64_int64_add, int64_sub_int64]
  exact int64_of_fits (by omega) (by omega)

theorem month64_eq {e : ℤ} (low : 0 ≤ e) (high : e < 366) :
    (int64 (int64 (5 * e) + 2)).tdiv 153 = (5 * e + 2) / 153 := by
  rw [int64_int64_add, int64_of_fits (by omega) (by omega), Int.tdiv_eq_ediv_of_nonneg (by omega)]

theorem day64_eq {e mp : ℤ} (low : 0 ≤ e) (high : e < 366) (mp0 : 0 ≤ mp) (mp12 : mp < 12) :
    int64 (int64 (e - (int64 (int64 (153 * mp) + 2)).tdiv 5) + 1) = e - (153 * mp + 2) / 5 + 1 := by
  rw [int64_int64_add, int64_int64_add, int64_of_fits (show -2 ^ 63 ≤ 153 * mp + 2 by omega) (by omega),
    Int.tdiv_eq_ediv_of_nonneg (by omega)]
  exact int64_of_fits (by omega) (by omega)

theorem civilFromDays64_eq {days : ℤ} (fit : DaysFit days) : civilFromDays64 days = civilFromDays days := by
  obtain ⟨low, high⟩ := fit
  have z_eq : int64 (days + 719468) = days + 719468 := int64_of_fits (by omega) high
  unfold civilFromDays64 civilFromDays
  dsimp only
  rw [z_eq, floorDiv64_eq (by omega) high (by decide), floorDiv_eq (by decide)]
  generalize z_is : days + 719468 = z at *
  have day_range : 0 ≤ z - z / 146097 * 146097 ∧ z - z / 146097 * 146097 < 146097 := by omega
  have era_range : -2 ^ 47 ≤ z / 146097 ∧ z / 146097 < 2 ^ 47 := by omega
  have day_eq : int64 (z - int64 (z / 146097 * 146097)) = z - z / 146097 * 146097 :=
    (int64_sub_int64 _ _).trans (int64_of_fits (by omega) (by omega))
  rw [day_eq]
  generalize z - z / 146097 * 146097 = d at *
  generalize z / 146097 = era at *
  obtain ⟨d0, d146097⟩ := day_range
  rw [yearOfEra64_eq d0 d146097]
  obtain ⟨y0, y400, e0, e366⟩ := yearOfEra_spec d0 d146097 rfl
  generalize (d - d / 1460 + d / 36524 - d / 146096) / 365 = y at *
  rw [dayOfYear64_eq y0 e0 e366]
  generalize d - (365 * y + y / 4 - y / 100) = e at *
  rw [month64_eq e0 e366]
  have mp_range : 0 ≤ (5 * e + 2) / 153 ∧ (5 * e + 2) / 153 < 12 := by omega
  generalize (5 * e + 2) / 153 = mp at *
  obtain ⟨mp0, mp12⟩ := mp_range
  rw [day64_eq e0 e366 mp0 mp12, int64_of_fits (show -2 ^ 63 ≤ mp - 9 by omega) (by omega),
    int64_of_fits (show -2 ^ 63 ≤ mp + 3 by omega) (by omega),
    int64_of_fits (show -2 ^ 63 ≤ era * 400 by omega) (by omega),
    int64_of_fits (show -2 ^ 63 ≤ y + era * 400 by omega) (by omega),
    int64_of_fits (show -2 ^ 63 ≤ y + era * 400 + 1 by omega) (by omega)]

/-- The days of a date wrap as a whole. -/
theorem daysFromCivil64_eq {year month day : ℤ} (low : -2 ^ 62 ≤ year) (high : year ≤ 2 ^ 62) (month1 : 1 ≤ month)
    (month12 : month ≤ 12) (day1 : 1 ≤ day) (day31 : day ≤ 31) :
    daysFromCivil64 year month day = int64 (daysFromCivil year month day) := by
  unfold daysFromCivil64 daysFromCivil
  dsimp only
  rw [int64_of_fits (show -2 ^ 63 ≤ year - 1 by omega) (by omega),
    int64_of_fits (show -2 ^ 63 ≤ month + 9 by omega) (by omega),
    int64_of_fits (show -2 ^ 63 ≤ month - 3 by omega) (by omega)]
  have y_range : -2 ^ 63 ≤ (if month ≤ 2 then year - 1 else year) ∧
      (if month ≤ 2 then year - 1 else year) < 2 ^ 63 := by
    split <;> omega
  have mp_range : 0 ≤ (if month ≤ 2 then month + 9 else month - 3) ∧
      (if month ≤ 2 then month + 9 else month - 3) ≤ 11 := by
    split <;> omega
  generalize (if month ≤ 2 then year - 1 else year) = y at *
  generalize (if month ≤ 2 then month + 9 else month - 3) = mp at *
  rw [floorDiv64_eq y_range.1 y_range.2 (by decide), floorDiv_eq (by decide)]
  have year_eq : int64 (y - int64 (y / 400 * 400)) = y - y / 400 * 400 :=
    (int64_sub_int64 _ _).trans (int64_of_fits (by omega) (by omega))
  have era_range : 0 ≤ y - y / 400 * 400 ∧ y - y / 400 * 400 < 400 := by omega
  rw [year_eq]
  generalize y - y / 400 * 400 = yearOfEra at *
  generalize y / 400 = era at *
  have months : (int64 (int64 (153 * mp) + 2)).tdiv 5 = (153 * mp + 2) / 5 := by
    rw [int64_int64_add, int64_of_fits (by omega) (by omega), Int.tdiv_eq_ediv_of_nonneg (by omega)]
  have dayOfYear : int64 (int64 ((153 * mp + 2) / 5 + day) - 1) = (153 * mp + 2) / 5 + day - 1 :=
    (int64_int64_sub _ _).trans (int64_of_fits (by omega) (by omega))
  have dayOfEra : int64 (int64 (int64 (int64 (yearOfEra * 365) + yearOfEra.tdiv 4) - yearOfEra.tdiv 100) +
      ((153 * mp + 2) / 5 + day - 1)) =
      yearOfEra * 365 + yearOfEra / 4 - yearOfEra / 100 + ((153 * mp + 2) / 5 + day - 1) := by
    rw [int64_int64_add, int64_int64_sub_add, sub_add, add_sub_assoc, int64_int64_add,
      Int.tdiv_eq_ediv_of_nonneg era_range.1, Int.tdiv_eq_ediv_of_nonneg era_range.1, ← add_sub_assoc, ← sub_add]
    apply int64_of_fits
    · omega
    · omega
  rw [months, dayOfYear, dayOfEra, int64_int64_sub, int64_int64_add_sub]

end Wrapping

section Calendar

theorem first_month_pos : (1 : ℤ) ≤ 1 := by decide

theorem first_month_le : (1 : ℤ) ≤ 12 := by decide

/-- January 1, 1970. -/
def epoch : Date := Date.firstOf 1970 1 first_month_pos first_month_le

theorem dayNumber_epoch : dayNumber epoch = 0 := by decide

/-- The date that number of days after January 1, 1970, or before it. -/
def dateOfDay (days : ℤ) : Date := (Date.succ ^ days) epoch

theorem dayNumber_dateOfDay (days : ℤ) : dayNumber (dateOfDay days) = days := by
  rw [dateOfDay, Date.number_succ_zpow dayNumber_next, dayNumber_epoch, zero_add]

theorem civilFromDays_eq (days : ℤ) : civilFromDays days = (dateOfDay days).parts := by
  rw [← civilFromDays_dayNumber, dayNumber_dateOfDay]

/-- A date is found by its number. -/
theorem dateOfDay_dayNumber (date : Date) : dateOfDay (dayNumber date) = date := by
  apply Date.parts_injective
  rw [← civilFromDays_eq, civilFromDays_dayNumber]

theorem dateOfDay_succ (days : ℤ) : dateOfDay (days + 1) = (dateOfDay days).next := by
  rw [dateOfDay, add_comm, zpow_one_add]
  rfl

/-- The number of days between two dates leads from the one to the other. -/
theorem succ_zpow_of_dayNumber {date other : Date} {days : ℤ} (between : dayNumber other = dayNumber date + days) :
    (Date.succ ^ days) date = other := by
  rw [← dateOfDay_dayNumber other, between, add_comm, dateOfDay, zpow_add, Equiv.Perm.mul_apply]
  congr 1
  exact (dateOfDay_dayNumber date).symm

/-- The first day of the year of a date. -/
def newYear (date : Date) : Date := Date.firstOf date.year 1 first_month_pos first_month_le

theorem newYear_le (date : Date) :
    dayNumber (newYear date) ≤ dayNumber date ∧ dayNumber date < dayNumber (newYear date) + 400 := by
  obtain ⟨year, month, day, month_pos, month_le, day_pos, day_le⟩ := date
  have day31 := (daysInMonth_range year month).2
  unfold dayNumber newYear Date.firstOf
  dsimp only at *
  rw [daysFromCivil_eq, daysFromCivil_eq]
  unfold marchYear marchMonth
  rw [if_pos (show (1 : ℤ) ≤ 2 by decide), if_pos (show (1 : ℤ) ≤ 2 by decide)]
  split <;> omega

/-- A year of a day that fits is far from where years wrap. -/
theorem year_range {days : ℤ} (fit : DaysFit days) :
    -2 ^ 62 ≤ (dateOfDay days).year ∧ (dateOfDay days).year ≤ 2 ^ 62 := by
  obtain ⟨low, high⟩ := fit
  have number := dayNumber_dateOfDay days
  have first := newYear_le (dateOfDay days)
  have formula := daysFromCivil_eq (dateOfDay days).year 1 1
  change dayNumber (newYear (dateOfDay days)) = _ at formula
  unfold marchYear marchMonth at formula
  rw [if_pos (by decide), if_pos (by decide)] at formula
  omega

theorem daysFromCivil64_dateOfDay {days : ℤ} (fit : DaysFit days) :
    daysFromCivil64 (dateOfDay days).year (dateOfDay days).month (dateOfDay days).day = days := by
  have month_pos := (dateOfDay days).month_pos
  have month_le := (dateOfDay days).month_le
  have day_pos := (dateOfDay days).day_pos
  have day_le := (dateOfDay days).day_le.trans (daysInMonth_range _ _).2
  rw [daysFromCivil64_eq (year_range fit).1 (year_range fit).2 month_pos month_le day_pos day_le]
  change int64 (dayNumber (dateOfDay days)) = days
  rw [dayNumber_dateOfDay]
  obtain ⟨low, high⟩ := fit
  exact int64_of_fits low (by omega)

theorem weekday_eq {days : ℤ} : weekday days = (days + 4) % 7 := by
  have range : -7 < days.tmod 7 ∧ days.tmod 7 < 7 := by
    have below := Int.tmod_lt_of_pos days (show (0 : ℤ) < 7 by decide)
    have above := Int.lt_tmod_of_pos days (show (0 : ℤ) < 7 by decide)
    omega
  have quotient := Int.mul_tdiv_add_tmod days 7
  unfold weekday
  rw [int64_of_fits (by omega) (by omega), Int.tmod_eq_emod_of_nonneg (by omega)]
  omega

theorem yearDay_eq {days : ℤ} (fit : DaysFit days) :
    yearDay days = days - dayNumber (newYear (dateOfDay days)) + 1 := by
  have first := newYear_le (dateOfDay days)
  rw [dayNumber_dateOfDay] at first
  have years := year_range fit
  unfold yearDay
  rw [civilFromDays64_eq fit, civilFromDays_eq, Date.parts,
    daysFromCivil64_eq years.1 years.2 le_rfl (by decide) le_rfl (by decide)]
  change int32 (int64 (int64 (days - int64 (dayNumber (newYear (dateOfDay days)))) + 1)) = _
  rw [int64_sub_int64, int64_int64_add, int64_of_fits (by omega) (by omega)]
  exact int32_of_fits (by omega) (by omega)

/-- The formulas of the calendar are the calendar, as far as they fit: for the dates before and after
January 1, 1970, for their numbers, their days of the week and of the year. -/
theorem calendar_right :
    dateOfDay 0 = epoch ∧ (∀ days, dateOfDay (days + 1) = (dateOfDay days).next) ∧
      (∀ date, ∃ days, dateOfDay days = date) ∧
      ∀ days, DaysFit days →
        civilFromDays64 days = (dateOfDay days).parts ∧
        daysFromCivil64 (dateOfDay days).year (dateOfDay days).month (dateOfDay days).day = days ∧
        weekday days = (4 + days) % 7 ∧
        1 ≤ yearDay days ∧ (Date.succ ^ (yearDay days - 1)) (newYear (dateOfDay days)) = dateOfDay days := by
  refine ⟨rfl, dateOfDay_succ, fun date => ⟨_, dateOfDay_dayNumber date⟩, fun days fit => ?_⟩
  refine ⟨(civilFromDays64_eq fit).trans (civilFromDays_eq days), daysFromCivil64_dateOfDay fit, ?_, ?_, ?_⟩
  · rw [weekday_eq, add_comm]
  · have first := (newYear_le (dateOfDay days)).1
    rw [dayNumber_dateOfDay] at first
    rw [yearDay_eq fit]
    omega
  · apply succ_zpow_of_dayNumber
    rw [yearDay_eq fit, dayNumber_dateOfDay]
    ring

/-- The day before the first era. -/
theorem calendar_right_before :
    civilFromDays64 (-719469) = (dateOfDay (-719469)).parts ∧ weekday (-719469) = (4 + -719469) % 7 :=
  ⟨(calendar_right.2.2.2 (-719469) (by decide)).1, (calendar_right.2.2.2 (-719469) (by decide)).2.2.1⟩

theorem lex_next (date : Date) : Prod.Lex (· < ·) (Prod.Lex (· < ·) (· < ·)) date.parts date.next.parts := by
  unfold Date.next
  split_ifs with inMonth inYear
  · exact .right _ (.right _ (Int.lt_succ _))
  · exact .right _ (.left _ _ (Int.lt_succ _))
  · exact .left _ _ (Int.lt_succ _)

/-- Of two days, the later one has the later date. -/
theorem civilFromDays64_lex {days later : ℤ} (fit : DaysFit days) (fitLater : DaysFit later) (lt : days < later) :
    Prod.Lex (· < ·) (Prod.Lex (· < ·) (· < ·)) (civilFromDays64 days) (civilFromDays64 later) := by
  rw [civilFromDays64_eq fit, civilFromDays64_eq fitLater, civilFromDays_eq, civilFromDays_eq]
  clear fit fitLater
  induction later, Int.add_one_le_iff.mpr lt using Int.leInduction with
  | base =>
    rw [dateOfDay_succ]
    exact lex_next _
  | succ later _ ih =>
    have behind := lex_next (dateOfDay later)
    rw [dateOfDay_succ]
    simp only [Prod.lex_def] at ih behind ⊢
    omega

/-- The last day of 1969 and the first one of 1970. -/
theorem civilFromDays64_lex_epoch :
    Prod.Lex (· < ·) (Prod.Lex (· < ·) (· < ·)) (civilFromDays64 (-1)) (civilFromDays64 0) :=
  civilFromDays64_lex (by decide) (by decide) (by decide)

end Calendar

end Saad.Time
