import Mathlib.Data.List.TakeWhile
import Saad.Std.TimeFormat
import Saad.Std.TimeTexts

/-! # The times of texts

`parse` gives a time exactly for the forms within its bounds. Its time shows the text, where the date is
one of the calendar and the hour 24 is the end of a day.
-/

namespace Saad.Time

section Parts

variable {width : ℕ} {text rest : Text} {n : ℤ}

theorem digits_of_some {value : ℤ} (reads : digits width text value = some (n, rest)) :
    ∃ ds : Digits width, text = ds.text ++ rest ∧ n = value * 10 ^ width + ds.value := by
  induction width generalizing text value with
  | zero =>
    cases reads
    exact ⟨⟨[], rfl, by simp⟩, rfl, by simp [Digits.value]⟩
  | succ width ih =>
    cases text with
    | nil => cases reads
    | cons c text =>
      rw [digits] at reads
      split at reads
      · next digit =>
        obtain ⟨ds, rfl, rfl⟩ := ih reads
        refine ⟨⟨c :: ds.text, by simp [ds.length], ?_⟩, rfl, ?_⟩
        · exact List.forall_mem_cons.mpr ⟨digit, ds.digits⟩
        · simp only [Digits.value, digitsValue_cons, ds.length]
          push_cast
          ring
      · cases reads

theorem digits_text (ds : Digits width) : digits width (ds.text ++ rest) 0 = some (ds.value, rest) := by
  have reads := @digits_append ds.text rest ds.digits 0
  rw [ds.length, Int.zero_mul, Int.zero_add] at reads
  exact reads

theorem eat_of_some {c : BitVec 8} (eats : eat c text = some rest) : text = c :: rest := by
  cases text with
  | nil => cases eats
  | cons byte text =>
    rw [eat] at eats
    split at eats
    · next same =>
      cases eats
      rw [same]
    · cases eats

theorem eat_of_head {c : BitVec 8} (other : ∀ byte ∈ text.head?, byte ≠ c) : eat c text = none := by
  cases text with
  | nil => rfl
  | cons byte text => exact if_neg (other byte rfl)

theorem fractionDigits_eq (text : Text) (nanosecond scale : ℤ) : fractionDigits text nanosecond scale =
    (nanosecond + scaledValue (text.takeWhile isDigit) scale, text.dropWhile isDigit) := by
  induction text generalizing nanosecond scale with
  | nil => simp [fractionDigits, scaledValue]
  | cons c text ih =>
    rw [fractionDigits]
    split
    · next digit =>
      rw [ih, List.takeWhile_cons_of_pos digit, List.dropWhile_cons_of_pos digit, scaledValue, add_assoc]
    · next no_digit =>
      rw [List.takeWhile_cons_of_neg no_digit, List.dropWhile_cons_of_neg no_digit, scaledValue, add_zero]

/-- The digits of a fraction stay below a second. -/
theorem scaledValue_range {ds : Text} (all : ∀ c ∈ ds, isDigit c = true) (k : ℕ) :
    0 ≤ scaledValue ds (10 ^ k / 10) ∧ scaledValue ds (10 ^ k / 10) < 10 ^ k := by
  induction ds generalizing k with
  | nil => simp [scaledValue]
  | cons c ds ih =>
    obtain ⟨digit, others⟩ := List.forall_mem_cons.mp all
    have small := digitNumber_lt digit
    rw [scaledValue]
    cases k with
    | zero =>
      obtain ⟨low, high⟩ := ih others 0
      simp only [pow_zero] at low high ⊢
      norm_num at low high ⊢
      exact ⟨low, high⟩
    | succ k =>
      have scale : (10 : ℤ) ^ (k + 1) / 10 = 10 ^ k := by
        rw [pow_succ]
        exact Int.mul_ediv_cancel _ (by decide)
      obtain ⟨low, high⟩ := ih others k
      have positive : (0 : ℤ) < 10 ^ k := by positivity
      rw [scale, pow_succ]
      have first : (digitNumber c : ℤ) * 10 ^ k ≤ 9 * 10 ^ k :=
        Int.mul_le_mul_of_nonneg_right (by omega) positive.le
      have not_negative : 0 ≤ (digitNumber c : ℤ) * 10 ^ k := by positivity
      omega

end Parts

section Reading

variable {text rest : Text}

theorem readFraction_of_some {nanosecond : ℤ} (reads : readFraction text = some (nanosecond, rest)) :
    ∃ fraction : Option FractionText, text = fraction.elim [] FractionText.text ++ rest ∧
      nanosecond = scaledValue (fraction.elim [] FractionText.digits) 100000000 := by
  have behind (comma : Bool) (digits : Text) (is : text = (if comma then byteOf ',' else byteOf '.') :: digits)
      (reads : (if (fractionDigits digits 0 100000000).2.length = digits.length then none
        else some ((fractionDigits digits 0 100000000).1, (fractionDigits digits 0 100000000).2)) =
          some (nanosecond, rest)) :
      ∃ fraction : Option FractionText, text = fraction.elim [] FractionText.text ++ rest ∧
        nanosecond = scaledValue (fraction.elim [] FractionText.digits) 100000000 := by
    rw [fractionDigits_eq] at reads
    dsimp only at reads
    split at reads
    · cases reads
    · next some_digits =>
      cases reads
      refine ⟨some ⟨comma, digits.takeWhile isDigit, ?_, fun c member => List.mem_takeWhile_imp member⟩, ?_, by simp⟩
      · intro none
        have whole := List.takeWhile_append_dropWhile (p := isDigit) (l := digits)
        rw [none, List.nil_append] at whole
        exact some_digits (congrArg List.length whole)
      · rw [is]
        simp [FractionText.text]
  unfold readFraction at reads
  cases dot : eat (byteOf '.') text with
  | some digits =>
    rw [dot] at reads
    exact behind false digits (eat_of_some dot) reads
  | none =>
    cases comma : eat (byteOf ',') text with
    | some digits =>
      rw [dot, comma] at reads
      exact behind true digits (eat_of_some comma) reads
    | none =>
      rw [dot, comma] at reads
      cases reads
      exact ⟨none, rfl, rfl⟩

theorem readFraction_text (fraction : Option FractionText) (zone : ZoneText) :
    readFraction (fraction.elim [] FractionText.text ++ zone.text) =
      some (scaledValue (fraction.elim [] FractionText.digits) 100000000, zone.text) := by
  unfold readFraction
  cases fraction with
  | none =>
    have dot := eat_of_head fun c head => (zone.head.2 c head).2.1
    have comma := eat_of_head fun c head => (zone.head.2 c head).2.2
    simp [dot, comma, scaledValue]
  | some fraction =>
    have eats : (eat (byteOf '.') (fraction.text ++ zone.text) <|> eat (byteOf ',') (fraction.text ++ zone.text)) =
        some (fraction.digits ++ zone.text) := by
      unfold FractionText.text
      cases fraction.comma
      · rfl
      · rfl
    obtain ⟨all, behind⟩ := takeWhile_append fraction.all zone.head.1
    have some_digits := List.length_pos_iff.mpr fraction.nonempty
    rw [Option.elim_some, eats]
    dsimp only
    rw [fractionDigits_eq, all, behind]
    dsimp only
    rw [if_neg (by rw [List.length_append]; omega), Int.zero_add]
    rfl

theorem readSeconds_of_some {second nanosecond : ℤ} (reads : readSeconds text = some (second, nanosecond, rest)) :
    ∃ seconds : Option SecondsText, text = seconds.elim [] SecondsText.text ++ rest ∧ second ≤ 60 ∧
      second = seconds.elim 0 (fun seconds => seconds.second.value) ∧
      nanosecond = scaledValue ((seconds.bind SecondsText.fraction).elim [] FractionText.digits) 100000000 := by
  unfold readSeconds at reads
  split at reads
  · cases reads
    exact ⟨none, rfl, by decide, rfl, rfl⟩
  · next behind colon =>
    obtain ⟨⟨value, rest'⟩, digits, reads⟩ := Option.bind_eq_some_iff.mp reads
    dsimp only at reads
    split at reads
    · cases reads
    · next bounded =>
      obtain ⟨⟨nanos, last⟩, fractionReads, reads⟩ := Option.bind_eq_some_iff.mp reads
      cases reads
      obtain ⟨ds, rfl, rfl⟩ := digits_of_some digits
      obtain ⟨fraction, rfl, rfl⟩ := readFraction_of_some fractionReads
      refine ⟨some ⟨ds, fraction⟩, ?_, by omega, by simp, rfl⟩
      rw [eat_of_some colon]
      simp [SecondsText.text]

theorem readSeconds_text (seconds : Option SecondsText) (zone : ZoneText)
    (bounded : seconds.elim 0 (fun seconds => seconds.second.value) ≤ 60) :
    readSeconds (seconds.elim [] SecondsText.text ++ zone.text) =
      some (seconds.elim 0 (fun seconds => seconds.second.value),
        scaledValue ((seconds.bind SecondsText.fraction).elim [] FractionText.digits) 100000000, zone.text) := by
  unfold readSeconds
  cases seconds with
  | none =>
    have colon := eat_of_head fun c head => (zone.head.2 c head).1
    simp [colon, scaledValue]
  | some seconds =>
    simp only [Option.elim_some, SecondsText.text, List.cons_append, List.append_assoc, eat_cons, bind, Option.bind,
      digits_text, readFraction_text]
    rw [if_neg (by simpa using bounded)]

theorem readOffset_of_some {sign offset : ℤ} (reads : readOffset sign text = some (offset, [])) :
    ∃ (hours : Digits 2) (minutes : OffsetMinutes), text = hours.text ++ minutes.text ∧ minutes.value ≤ 59 ∧
      offset = sign * (hours.value * 3600 + minutes.value * 60) := by
  obtain ⟨⟨value, rest⟩, digits, reads⟩ := Option.bind_eq_some_iff.mp reads
  obtain ⟨⟨minute, rest'⟩, minutes, reads⟩ := Option.bind_eq_some_iff.mp reads
  obtain ⟨hours, rfl, rfl⟩ := digits_of_some digits
  dsimp only at reads minutes
  split at reads
  · cases reads
  · next bounded =>
    cases reads
    unfold readMinutes at minutes
    cases colon : eat (byteOf ':') rest with
    | none =>
      rw [colon, Option.getD_none] at minutes
      split at minutes
      · next ends =>
        cases minutes
        exact ⟨hours, .absent, by rw [ends]; rfl, by decide, by simp [OffsetMinutes.value]⟩
      · obtain ⟨ds, rfl, rfl⟩ := digits_of_some minutes
        exact ⟨hours, .written false ds, by simp [OffsetMinutes.text], by simpa [OffsetMinutes.value] using bounded,
          by simp [OffsetMinutes.value]⟩
    | some behind =>
      rw [colon, Option.getD_some] at minutes
      rw [eat_of_some colon]
      split at minutes
      · next ends =>
        cases minutes
        exact ⟨hours, .dangling, by rw [ends]; rfl, by decide, by simp [OffsetMinutes.value]⟩
      · obtain ⟨ds, rfl, rfl⟩ := digits_of_some minutes
        exact ⟨hours, .written true ds, by simp [OffsetMinutes.text], by simpa [OffsetMinutes.value] using bounded,
          by simp [OffsetMinutes.value]⟩

theorem readOffset_text (sign : ℤ) (hours : Digits 2) (minutes : OffsetMinutes) (bounded : minutes.value ≤ 59) :
    readOffset sign (hours.text ++ minutes.text) = some (sign * (hours.value * 3600 + minutes.value * 60), []) := by
  have colon (ds : Digits 2) : eat (byteOf ':') ds.text = none := by
    apply eat_of_head
    intro c head same
    have digit := ds.digits c (List.mem_of_mem_head? head)
    rw [same] at digit
    cases digit
  have reads : readMinutes ((eat (byteOf ':') minutes.text).getD minutes.text) = some (minutes.value, []) := by
    have written (ds : Digits 2) : readMinutes ds.text = some (ds.value, []) := by
      have whole := @digits_text 2 [] ds
      rw [List.append_nil] at whole
      rw [readMinutes, if_neg ds.ne_nil, whole]
    cases minutes with
    | absent => rfl
    | dangling => rfl
    | written separator ds =>
      cases separator
      · simp [OffsetMinutes.text, OffsetMinutes.value, colon, written]
      · simp [OffsetMinutes.text, OffsetMinutes.value, eat_cons, written]
  unfold readOffset
  simp only [bind, Option.bind, digits_text, reads]
  rw [if_neg (by omega)]

theorem readZone_of_some {offset : ℤ} (reads : readZone text = some (offset, [])) :
    ∃ zone : ZoneText, text = zone.text ∧ zone.minutes.value ≤ 59 ∧ offset = zone.value := by
  cases text with
  | nil =>
    cases reads
    exact ⟨.absent, rfl, by decide, rfl⟩
  | cons c text =>
    rw [readZone] at reads
    split_ifs at reads with utc plus minus
    · cases reads
      rcases utc with rfl | rfl
      · exact ⟨.utc false, rfl, by decide, rfl⟩
      · exact ⟨.utc true, rfl, by decide, rfl⟩
    · obtain ⟨hours, minutes, rfl, bounded, rfl⟩ := readOffset_of_some reads
      exact ⟨.offset false hours minutes, by rw [plus]; rfl, bounded, by simp [ZoneText.value]⟩
    · obtain ⟨hours, minutes, rfl, bounded, rfl⟩ := readOffset_of_some reads
      exact ⟨.offset true hours minutes, by rw [minus]; rfl, bounded, by simp [ZoneText.value]⟩
    · cases reads

theorem readZone_text (zone : ZoneText) (bounded : zone.minutes.value ≤ 59) :
    readZone zone.text = some (zone.value, []) := by
  cases zone with
  | absent => rfl
  | utc lower => cases lower <;> rfl
  | offset negative hours minutes =>
    cases negative
    · exact readOffset_text 1 hours minutes bounded
    · exact readOffset_text (-1) hours minutes bounded

end Reading

section Accepting

variable {text : Text} {t : Time}

/-- The bounds of a clock that `parse` checks. -/
structure ClockText.Bounded (clock : ClockText) : Prop where
  hour : clock.hour.value ≤ 24
  minute : clock.minute.value ≤ 59
  second : clock.numbers.second ≤ 60
  minutes : clock.zone.minutes.value ≤ 59

theorem separator_of_some {rest : Text}
    (eats : (eat (byteOf 'T') text <|> eat (byteOf 't') text <|> eat (byteOf ' ') text) = some rest) :
    ∃ separator : ClockSeparator, text = separator.byte :: rest := by
  cases upper : eat (byteOf 'T') text with
  | some behind =>
    rw [upper] at eats
    cases eats
    exact ⟨.upper, eat_of_some upper⟩
  | none =>
    cases lower : eat (byteOf 't') text with
    | some behind =>
      rw [upper, lower] at eats
      cases eats
      exact ⟨.lower, eat_of_some lower⟩
    | none =>
      rw [upper, lower] at eats
      exact ⟨.blank, eat_of_some eats⟩

theorem readClock_of_some {numbers : Clock} (reads : readClock text = some (numbers, [])) :
    ∃ clock : Option ClockText, text = clock.elim [] ClockText.text ∧ (∀ c ∈ clock, c.Bounded) ∧
      numbers = clock.elim {} ClockText.numbers := by
  unfold readClock at reads
  split at reads
  · cases reads
    exact ⟨none, rfl, by simp, rfl⟩
  · next behind separated =>
    obtain ⟨separator, rfl⟩ := separator_of_some separated
    obtain ⟨⟨h, afterHour⟩, hourReads, reads⟩ := Option.bind_eq_some_iff.mp reads
    obtain ⟨hour, rfl, rfl⟩ := digits_of_some hourReads
    dsimp only at reads
    split at reads
    · cases reads
    · next hour24 =>
      obtain ⟨afterColon, colon, reads⟩ := Option.bind_eq_some_iff.mp reads
      obtain ⟨⟨m, afterMinute⟩, minuteReads, reads⟩ := Option.bind_eq_some_iff.mp reads
      obtain ⟨minute, rfl, rfl⟩ := digits_of_some minuteReads
      dsimp only at reads
      split at reads
      · cases reads
      · next minute59 =>
        obtain ⟨⟨s, n, afterSecond⟩, secondReads, reads⟩ := Option.bind_eq_some_iff.mp reads
        obtain ⟨⟨offset, last⟩, zoneReads, reads⟩ := Option.bind_eq_some_iff.mp reads
        cases reads
        obtain ⟨seconds, rfl, second60, rfl, rfl⟩ := readSeconds_of_some secondReads
        obtain ⟨zone, rfl, minutes59, rfl⟩ := readZone_of_some zoneReads
        refine ⟨some ⟨separator, hour, minute, seconds, zone⟩, ?_, ?_, ?_⟩
        · rw [eat_of_some colon]
          rfl
        · intro c is
          cases is
          exact ⟨by simpa using hour24, by simpa using minute59, second60, minutes59⟩
        · simp [ClockText.numbers, ClockText.fraction]

theorem readClock_text (clock : Option ClockText) (bounded : ∀ c ∈ clock, c.Bounded) :
    readClock (clock.elim [] ClockText.text) = some (clock.elim {} ClockText.numbers, []) := by
  cases clock with
  | none => rfl
  | some clock =>
    obtain ⟨hour, minute, second, minutes⟩ := bounded clock rfl
    have separated (rest : Text) : (eat (byteOf 'T') (clock.separator.byte :: rest) <|>
        eat (byteOf 't') (clock.separator.byte :: rest) <|> eat (byteOf ' ') (clock.separator.byte :: rest)) =
          some rest := by
      cases clock.separator <;> rfl
    have seconds := readSeconds_text clock.seconds clock.zone second
    unfold readClock
    rw [Option.elim_some, ClockText.text, separated]
    simp only [bind, Option.bind, digits_text]
    rw [if_neg (by omega), eat_cons]
    simp only [digits_text]
    rw [if_neg (by omega), seconds]
    simp only [readZone_text clock.zone minutes]
    rfl

theorem TimeText.bounded_of_clock {form : TimeText} (month : 1 ≤ form.month.value ∧ form.month.value ≤ 12)
    (day : 1 ≤ form.day.value ∧ form.day.value ≤ 31) (clock : ∀ c ∈ form.clock, c.Bounded) : form.Bounded := by
  obtain ⟨year, months, days, _ | c⟩ := form
  · exact ⟨month, day, by simp [numbers], by simp [numbers], by simp [numbers], by simp [zone, ZoneText.minutes,
      OffsetMinutes.value]⟩
  · obtain ⟨hour, minute, second, minutes⟩ := clock c rfl
    exact ⟨month, day, hour, minute, second, minutes⟩

theorem TimeText.Bounded.clock {form : TimeText} (bounded : form.Bounded) : ∀ c ∈ form.clock, c.Bounded := by
  intro c is
  obtain ⟨year, months, days, clock⟩ := form
  cases is
  exact ⟨bounded.hour, bounded.minute, bounded.second, bounded.minutes⟩

/-- `parse` gives a time exactly for the forms within its bounds, and the time of their numbers. -/
theorem parse_eq_some_iff : parse text = some t ↔ ∃ form : TimeText, form.text = text ∧ form.Bounded ∧ form.time = t := by
  constructor
  · intro reads
    unfold parse at reads
    obtain ⟨⟨y, afterYear⟩, yearReads, reads⟩ := Option.bind_eq_some_iff.mp reads
    obtain ⟨afterDash, dash, reads⟩ := Option.bind_eq_some_iff.mp reads
    obtain ⟨⟨m, afterMonth⟩, monthReads, reads⟩ := Option.bind_eq_some_iff.mp reads
    dsimp only at reads
    split at reads
    · cases reads
    · next months =>
      obtain ⟨afterDash', dash', reads⟩ := Option.bind_eq_some_iff.mp reads
      obtain ⟨⟨d, afterDay⟩, dayReads, reads⟩ := Option.bind_eq_some_iff.mp reads
      dsimp only at reads
      split at reads
      · cases reads
      · next days =>
        obtain ⟨⟨numbers, last⟩, clockReads, reads⟩ := Option.bind_eq_some_iff.mp reads
        dsimp only at reads
        split at reads
        · cases reads
        · next ends =>
          obtain rfl : last = [] := not_not.mp ends
          cases reads
          obtain ⟨clock, rfl, bounded, rfl⟩ := readClock_of_some clockReads
          obtain ⟨day, rfl, rfl⟩ := digits_of_some dayReads
          obtain rfl := eat_of_some dash'
          obtain ⟨month, rfl, rfl⟩ := digits_of_some monthReads
          obtain rfl := eat_of_some dash
          obtain ⟨year, rfl, rfl⟩ := digits_of_some yearReads
          refine ⟨⟨year, month, day, clock⟩, rfl, ?_, ?_⟩
          · apply TimeText.bounded_of_clock (by simpa using months) (by simpa using days) bounded
          · simp [TimeText.time, TimeText.numbers]
  · rintro ⟨form, rfl, bounded, rfl⟩
    have clock := readClock_text form.clock bounded.clock
    unfold parse TimeText.text
    have months := bounded.month
    have days := bounded.day
    simp only [bind, Option.bind, digits_text, eat_cons]
    rw [if_neg (by omega), if_neg (by omega), clock]
    rfl

end Accepting

section Showing

open General

/-- `month` -/
def month32 (t : Time) : ℤ := int32 t.civil64.2.1

/-- `day` -/
def day32 (t : Time) : ℤ := int32 t.civil64.2.2

/-- The digits behind the seconds of a text. -/
def TimeText.fraction (form : TimeText) : Text := form.clock.elim [] ClockText.fraction

/-- The calendar has the date, the hour 24 is the end of a day, and minutes stand behind the separator
of an offset. -/
structure TimeText.Correct (form : TimeText) : Prop where
  day : form.day.value ≤ daysInMonth form.year.value form.month.value
  midnight : form.numbers.hour = 24 →
    form.numbers.minute = 0 ∧ form.numbers.second = 0 ∧ digitsValue form.fraction = 0
  minutes : form.zone.minutes ≠ .dangling

/-- The parts of a time are the numbers of a text, in the zone of the text. A time at the end of a day or
in a leap second is shown as the one behind it. -/
def Shows (t : Time) (form : TimeText) : Prop :=
  t.offset = form.numbers.offset ∧
    (form.numbers.hour < 24 → form.numbers.second < 60 →
      t.year32 = form.year.value ∧ t.month32 = form.month.value ∧ t.day32 = form.day.value ∧
        t.hour32 = form.numbers.hour ∧ t.minute32 = form.numbers.minute ∧ t.second32 = form.numbers.second)

/-- What `parse` accepts has a correct form which its time shows, and what it doesn't accept has none. -/
def ParsesRight (text : Text) : Prop :=
  match parse text with
  | some t => ∃ form : TimeText, form.text = text ∧ form.Bounded ∧ form.Correct ∧ Shows t form
  | none => ∀ form : TimeText, form.text = text → ¬(form.Bounded ∧ form.Correct)

variable {form : TimeText}

theorem Digits.value_range {width : ℕ} (ds : Digits width) : 0 ≤ ds.value ∧ ds.value < 10 ^ width := by
  have below := digitsValue_lt ds.digits
  rw [ds.length] at below
  unfold value
  exact ⟨Int.natCast_nonneg _, by exact_mod_cast below⟩

theorem TimeText.numbers_range (form : TimeText) :
    0 ≤ form.numbers.hour ∧ 0 ≤ form.numbers.minute ∧ 0 ≤ form.numbers.second ∧
      0 ≤ form.numbers.nanosecond ∧ form.numbers.nanosecond < 1000000000 := by
  obtain ⟨year, month, day, _ | clock⟩ := form
  · simp [numbers]
  · have nanosecond := @scaledValue_range clock.fraction (by
      unfold ClockText.fraction
      cases clock.seconds.bind SecondsText.fraction with
      | none => simp
      | some fraction => exact fraction.all) 9
    have second : 0 ≤ clock.numbers.second := by
      unfold ClockText.numbers
      cases clock.seconds with
      | none => exact le_rfl
      | some seconds => exact seconds.second.value_range.1
    exact ⟨clock.hour.value_range.1, clock.minute.value_range.1, second, nanosecond.1, nanosecond.2⟩

/-- A time whose local seconds are those of a date and a clock shows them. -/
theorem parts_of_date {t : Time} {date : Date} {clock : ℤ} (not_negative : 0 ≤ clock) (inDay : clock < 86400)
    (is : t.seconds + t.offset = dayNumber date * 86400 + clock) (low : -1000000000 ≤ dayNumber date)
    (high : dayNumber date ≤ 1000000000) : t.civil64 = date.parts ∧ t.secondOfDay64 = clock := by
  have fits : int64 (t.seconds + t.offset) = dayNumber date * 86400 + clock := by
    rw [is]
    exact int64_of_fits (by omega) (by omega)
  have days : t.days64 = dayNumber date := by
    rw [days64_eq, fits]
    omega
  constructor
  · rw [civil64_eq, days, dateOfDay_dayNumber]
  · rw [secondOfDay64_eq, fits]
    omega

/-- The date of a correct form. -/
def TimeText.date (bounded : form.Bounded) (correct : form.Correct) : Date where
  year := form.year.value
  month := form.month.value
  day := form.day.value
  month_pos := bounded.month.1
  month_le := bounded.month.2
  day_pos := bounded.day.1
  day_le := correct.day

theorem shows_time (bounded : form.Bounded) (correct : form.Correct) : Shows form.time form := by
  obtain ⟨hour0, minute0, second0, nanosecond0, nanosecond1⟩ := form.numbers_range
  have minute59 := bounded.minute
  have month := bounded.month
  have day := bounded.day
  have time_eq : form.time = _ :=
    @date_eq form.year.value form.month.value form.day.value form.numbers.hour form.numbers.minute form.numbers.second
      form.numbers.nanosecond form.numbers.offset month.1 month.2 nanosecond0 nanosecond1
  refine ⟨by rw [time_eq], fun hour24 second60 => ?_⟩
  have number : dayNumber (form.date bounded correct) =
      daysFromCivil form.year.value form.month.value 1 + form.day.value - 1 :=
    daysFromCivil_day form.year.value form.month.value form.day.value
  have year := form.year.value_range
  have range : -1000000000 ≤ dayNumber (form.date bounded correct) ∧
      dayNumber (form.date bounded correct) ≤ 1000000000 := by
    rw [number, daysFromCivil_eq]
    unfold marchYear marchMonth
    split_ifs <;> omega
  obtain ⟨civil, clock⟩ := @parts_of_date form.time (form.date bounded correct)
    (form.numbers.hour * 3600 + form.numbers.minute * 60 + form.numbers.second) (by omega) (by omega)
    (by rw [time_eq, number]; dsimp only; ring) range.1 range.2
  have small {n : ℤ} (low : 0 ≤ n) (high : n < 100000) : int32 n = n := int32_of_fits (by omega) (by omega)
  refine ⟨?_, ?_, ?_, ?_, ?_, ?_⟩
  · rw [year32, civil]
    exact small year.1 (show form.year.value < 100000 by omega)
  · rw [month32, civil]
    exact small (show 0 ≤ form.month.value by omega) (show form.month.value < 100000 by omega)
  · rw [day32, civil]
    exact small (show 0 ≤ form.day.value by omega) (show form.day.value < 100000 by omega)
  · rw [hour32, clock, Int.tdiv_eq_ediv_of_nonneg (by omega), small (by omega) (by omega)]
    omega
  · rw [minute32, clock, Int.tmod_eq_emod_of_nonneg (by omega), Int.tdiv_eq_ediv_of_nonneg (by omega),
      small (by omega) (by omega)]
    omega
  · rw [second32, clock, Int.tmod_eq_emod_of_nonneg (by omega), small (by omega) (by omega)]
    omega

/-- The text of the 30th day of February. -/
def february30 : TimeText where
  year := ⟨asciiBytes "2026", rfl, by decide⟩
  month := ⟨asciiBytes "02", rfl, by decide⟩
  day := ⟨asciiBytes "30", rfl, by decide⟩
  clock := none

end Showing

end Saad.Time
