import Saad.Std.Time

/-! # Times read back from their text -/

namespace Saad.Time

section Division

theorem floorDiv_eq {a b : ℤ} (positive : 0 < b) : floorDiv a b = a / b := by
  have not_negative : ¬b < 0 := by omega
  have inexact : a.tmod b ≠ 0 ↔ ¬b ∣ a := (not_congr Int.dvd_iff_tmod_eq_zero).symm
  simp only [floorDiv, Int.tdiv_eq_ediv, Int.sign_eq_one_of_pos positive, inexact]
  by_cases divides : b ∣ a
  · simp [divides]
  · by_cases negative : a < 0
    · simp [divides, negative, not_negative, Int.not_le.mpr negative]
    · simp [negative, not_negative, Int.not_lt.mp negative]

theorem floorMod_eq {a b : ℤ} (positive : 0 < b) : floorMod a b = a % b := by
  rw [floorMod, floorDiv_eq positive, Int.emod_def, Int.mul_comm]

theorem ediv_eq {n b q : ℤ} (r : ℤ) (is : n = b * q + r) (low : 0 ≤ r) (high : r < b) : n / b = q :=
  ((Int.ediv_emod_unique (by omega)).mpr ⟨by rw [is, Int.add_comm], low, high⟩).1

end Division

section Calendar

/-- A day of an era by its century, its four years, its year in them and its day in that. -/
theorem exists_parts {d : ℤ} (low : 0 ≤ d) (high : d < 146097) :
    ∃ c q a e : ℤ, d = 36524 * c + 1461 * q + 365 * a + e ∧ 0 ≤ c ∧ c ≤ 3 ∧ 0 ≤ q ∧ q ≤ 24 ∧
      0 ≤ a ∧ a ≤ 3 ∧ 0 ≤ e ∧ e ≤ 365 ∧ (e = 365 → a = 3 ∧ (q = 24 → c = 3)) := by
  obtain ⟨c, r, rfl, c0, c3, r0, short⟩ :
      ∃ c r, d = 36524 * c + r ∧ 0 ≤ c ∧ c ≤ 3 ∧ 0 ≤ r ∧ (r < 36524 ∨ c = 3 ∧ r = 36524) := by
    by_cases last : d = 146096
    · exact ⟨3, 36524, by omega⟩
    · exact ⟨d / 36524, d % 36524, by omega⟩
  obtain ⟨q, s, rfl, q0, s0, s1461⟩ : ∃ q s, r = 1461 * q + s ∧ 0 ≤ q ∧ 0 ≤ s ∧ s < 1461 :=
    ⟨r / 1461, r % 1461, by omega⟩
  by_cases leap : s = 1460
  · exact ⟨c, q, 3, 365, by omega⟩
  · exact ⟨c, q, s / 365, s % 365, by omega⟩

theorem yearOfEra_eq {d c q a e : ℤ} (is : d = 36524 * c + 1461 * q + 365 * a + e) (c0 : 0 ≤ c)
    (c3 : c ≤ 3) (q0 : 0 ≤ q) (q24 : q ≤ 24) (a0 : 0 ≤ a) (a3 : a ≤ 3) (e0 : 0 ≤ e) (e365 : e ≤ 365)
    (leap : e = 365 → a = 3 ∧ (q = 24 → c = 3)) :
    (d - d / 1460 + d / 36524 - d / 146096) / 365 = 100 * c + 4 * q + a := by
  have century : d / 36524 - d / 146096 = c := by
    by_cases last : d = 146096
    · omega
    · rw [ediv_eq (q := c) (1461 * q + 365 * a + e) (by omega) (by omega) (by omega),
        ediv_eq (q := 0) d (by omega) (by omega) (by omega)]
      omega
  by_cases late : 1460 ≤ 24 * c + q + 365 * a + e
  · have : d / 1460 = 25 * c + q + 1 :=
      ediv_eq (24 * c + q + 365 * a + e - 1460) (by omega) (by omega) (by omega)
    exact ediv_eq (e - 1) (by omega) (by omega) (by omega)
  · have : d / 1460 = 25 * c + q :=
      ediv_eq (24 * c + q + 365 * a + e) (by omega) (by omega) (by omega)
    exact ediv_eq e (by omega) (by omega) (by omega)

/-- The year of a day of an era, and the day in that year. -/
theorem yearOfEra_spec {d y : ℤ} (low : 0 ≤ d) (high : d < 146097)
    (is : (d - d / 1460 + d / 36524 - d / 146096) / 365 = y) :
    0 ≤ y ∧ y < 400 ∧ 0 ≤ d - (365 * y + y / 4 - y / 100) ∧ d - (365 * y + y / 4 - y / 100) < 366 := by
  obtain ⟨c, q, a, e, parts, c0, c3, q0, q24, a0, a3, e0, e365, leap⟩ := exists_parts low high
  rw [yearOfEra_eq parts c0 c3 q0 q24 a0 a3 e0 e365 leap] at is
  have fours : y / 4 = 25 * c + q := ediv_eq a (by omega) (by omega) (by omega)
  have hundreds : y / 100 = c := ediv_eq (4 * q + a) (by omega) (by omega) (by omega)
  omega

/-- The parts of a date are in their ranges, and its days are those it was made from. -/
theorem civilFromDays_spec {days year month day : ℤ} (is : civilFromDays days = (year, month, day)) :
    1 ≤ month ∧ month ≤ 12 ∧ 1 ≤ day ∧ day ≤ 31 ∧ daysFromCivil year month 1 + day - 1 = days := by
  rw [civilFromDays, floorDiv_eq (by decide)] at is
  generalize era_eq : (days + 719468) / 146097 = era at is
  generalize d_eq : days + 719468 - era * 146097 = d at is
  generalize y_eq : (d - d / 1460 + d / 36524 - d / 146096) / 365 = y at is
  generalize e_eq : d - (365 * y + y / 4 - y / 100) = e at is
  generalize mp_eq : (5 * e + 2) / 153 = mp at is
  obtain ⟨y0, y400, e0, e366⟩ := yearOfEra_spec (by omega) (by omega) y_eq
  obtain ⟨rfl, rfl, rfl⟩ : _ ∧ _ ∧ _ := by simpa using is
  refine ⟨?_, ?_, ?_, ?_, ?_⟩
  · split <;> omega
  · split <;> omega
  · omega
  · omega
  · have y_of : floorDiv (y + era * 400) 400 = era := by
      rw [floorDiv_eq (by decide)]
      omega
    by_cases january : mp ≥ 10
    · simp only [if_pos january, if_pos (show mp - 9 ≤ 2 by omega), daysFromCivil]
      rw [Int.add_sub_cancel, y_of, Int.add_sub_cancel, Int.sub_add_cancel]
      omega
    · simp only [if_neg january, if_neg (show ¬mp + 3 ≤ 2 by omega), daysFromCivil, y_of]
      rw [Int.add_sub_cancel, Int.add_sub_cancel]
      omega

end Calendar

section Numbers

variable {v : ℤ} {w : ℕ} {ds rest : Text}

theorem eat_cons (c : BitVec 8) (rest : Text) : eat c (c :: rest) = some rest := if_pos rfl

theorem digits_append (all : ∀ c ∈ ds, isDigit c = true) (value : ℤ) :
    digits ds.length (ds ++ rest) value = some (value * 10 ^ ds.length + digitsValue ds, rest) := by
  induction ds generalizing value with
  | nil => simp [digits]
  | cons c ds ih =>
    obtain ⟨digit, others⟩ := List.forall_mem_cons.mp all
    rw [List.length_cons, List.cons_append, digits, if_pos digit, ih others, digitsValue_cons]
    push_cast
    ring_nf

/-- A number that fits into its width has that many digits. -/
theorem number_spec (not_negative : 0 ≤ v) (fits : v < 10 ^ w) (wide : 0 < w) :
    (number v w).length = w ∧ (∀ c ∈ number v w, isDigit c = true) ∧ digitsValue (number v w) = v := by
  obtain ⟨n, rfl⟩ := Int.eq_ofNat_of_zero_le not_negative
  have short : (decimalText n).length ≤ w := length_decimalText_le wide (by exact_mod_cast fits)
  have is : number n w = List.replicate (w - (decimalText n).length) (byteOf '0') ++ decimalText n := by
    rw [number, if_neg (by omega), List.nil_append, Int.natAbs_natCast]
  rw [is]
  refine ⟨?_, ?_, ?_⟩
  · rw [List.length_append, List.length_replicate]
    omega
  · intro c member
    rcases List.mem_append.mp member with zero | digit
    · rw [List.eq_of_mem_replicate zero]
      decide
    · exact isDigit_of_mem_decimalText digit
  · rw [digitsValue_zeros, digitsValue_decimalText]

theorem digits_number (not_negative : 0 ≤ v) (fits : v < 10 ^ w) (wide : 0 < w) :
    digits w (number v w ++ rest) 0 = some (v, rest) := by
  obtain ⟨length, all, value⟩ := number_spec not_negative fits wide
  have reads := @digits_append _ rest all 0
  rw [length, value, Int.zero_mul, Int.zero_add] at reads
  exact reads

theorem zero_notMem_number (v : ℤ) (w : ℕ) : (0 : BitVec 8) ∉ number v w := by
  intro member
  simp only [number, List.mem_append, List.mem_replicate] at member
  rcases member with (sign | ⟨-, zero⟩) | digit
  · split at sign
    · exact absurd (List.mem_singleton.mp sign) (by decide)
    · cases sign
  · exact absurd zero (by decide)
  · exact absurd (isDigit_of_mem_decimalText digit) (by decide)

end Numbers

section Fractions

variable {value : ℤ} {n : ℕ} {ds rest : Text}

/-- Only zeros are left out. -/
theorem trimmed_spec (not_negative : 0 ≤ value) (fits : value < 10 ^ n) :
    (trimmed n value).2 ≤ n ∧ 0 ≤ (trimmed n value).1 ∧ (trimmed n value).1 < 10 ^ (trimmed n value).2 ∧
      (trimmed n value).1 * 10 ^ (n - (trimmed n value).2) = value := by
  induction n generalizing value with
  | zero => simp [trimmed, not_negative] at fits ⊢; omega
  | succ n ih =>
    rw [trimmed, Int.tdiv_eq_ediv_of_nonneg not_negative, Int.tmod_eq_emod_of_nonneg not_negative]
    split
    · next zero =>
      rw [pow_succ] at fits
      obtain ⟨le, low, high, back⟩ := @ih (value / 10) (by omega) (by omega)
      refine ⟨by omega, low, high, ?_⟩
      rw [Nat.sub_add_comm le, pow_succ, ← Int.mul_assoc, back]
      omega
    · simp [not_negative, fits]

theorem fractionDigits_append (all : ∀ c ∈ ds, isDigit c = true) (short : ds.length ≤ n)
    (ends : ∀ c ∈ rest.head?, isDigit c = false) (nanosecond : ℤ) :
    fractionDigits (ds ++ rest) nanosecond (10 ^ n / 10) =
      (nanosecond + digitsValue ds * 10 ^ (n - ds.length), rest) := by
  induction ds generalizing n nanosecond with
  | nil =>
    cases rest with
    | nil => simp [fractionDigits]
    | cons c rest => simp [fractionDigits, ends c (by simp)]
  | cons c ds ih =>
    obtain ⟨digit, others⟩ := List.forall_mem_cons.mp all
    cases n with
    | zero => simp at short
    | succ n =>
      have scale : (10 : ℤ) ^ (n + 1) / 10 = 10 ^ n := by
        rw [pow_succ]
        exact Int.mul_ediv_cancel _ (by decide)
      have fewer : ds.length ≤ n := Nat.le_of_succ_le_succ short
      rw [List.cons_append, fractionDigits, if_pos digit, scale, ih others fewer, digitsValue_cons,
        List.length_cons, Nat.succ_sub_succ]
      refine congrArg (·, rest) ?_
      have split : (10 : ℤ) ^ n = 10 ^ ds.length * 10 ^ (n - ds.length) := by
        rw [← pow_add, Nat.add_sub_cancel' fewer]
      push_cast
      rw [split]
      ring

end Fractions

section RoundTrip

variable {t : Time} {rest : Text}

theorem readFraction_fraction {nanoseconds : ℤ} (not_negative : 0 ≤ nanoseconds)
    (fits : nanoseconds < 1000000000)
    (ends : ∀ c ∈ rest.head?, isDigit c = false ∧ c ≠ byteOf '.' ∧ c ≠ byteOf ',') :
    readFraction (fraction nanoseconds ++ rest) = some (nanoseconds, rest) := by
  obtain ⟨le, low, high, back⟩ := trimmed_spec (n := 9) not_negative (by omega)
  rw [fraction]
  generalize trimmed 9 nanoseconds = parts at le low high back
  obtain ⟨value, n⟩ := parts
  dsimp only at le low high back ⊢
  split
  · next zero =>
    subst zero
    have none : (eat (byteOf '.') rest <|> eat (byteOf ',') rest) = none := by
      cases rest with
      | nil => rfl
      | cons c rest =>
        obtain ⟨-, dot, comma⟩ := ends c rfl
        simp [eat, dot, comma]
    rw [List.nil_append, readFraction, none]
    refine congrArg (fun n => some (n, rest)) ?_
    omega
  · next some =>
    obtain ⟨length, all, digits⟩ := number_spec low high (Nat.pos_of_ne_zero some)
    have reads := fractionDigits_append (n := 9) all (length.le.trans le) (fun c head => (ends c head).1) 0
    have scale : (10 : ℤ) ^ 9 / 10 = 100000000 := by decide
    rw [scale, length, digits, back, Int.zero_add] at reads
    rw [List.cons_append, readFraction, eat_cons]
    simp only [Option.orElse_eq_orElse, Option.orElse_eq_or, Option.some_or, reads]
    rw [if_neg]
    rw [List.length_append]
    omega

theorem zone_head (offset : ℤ) (c : BitVec 8) (head : c ∈ (zone offset).head?) :
    isDigit c = false ∧ c ≠ byteOf '.' ∧ c ≠ byteOf ',' := by
  rw [zone] at head
  split at head
  · cases head
    decide
  · dsimp only at head
    split at head <;> cases head <;> decide

theorem readOffset_number {total : ℤ} (sign : ℤ) (not_negative : 0 ≤ total) (fits : total < 360000) :
    readOffset sign (number (total / 3600) 2 ++ byteOf ':' :: number (total % 3600 / 60) 2) =
      some (sign * (total / 3600 * 3600 + total % 3600 / 60 * 60), []) := by
  have minutes := @digits_number (total % 3600 / 60) 2 [] (by omega) (by omega) (by decide)
  rw [List.append_nil] at minutes
  have some : number (total % 3600 / 60) 2 ≠ [] := by
    have := (number_spec (v := total % 3600 / 60) (w := 2) (by omega) (by omega) (by decide)).1
    rintro nil
    rw [nil] at this
    cases this
  rw [readOffset, digits_number (by omega) (by omega) (by decide)]
  simp only [bind, Option.bind, eat_cons, Option.getD_some, readMinutes, if_neg some, minutes]
  rw [if_neg (by omega)]

theorem readZone_zone {offset : ℤ} (whole : offset % 60 = 0) (low : -360000 < offset)
    (high : offset < 360000) : readZone (zone offset) = some (offset, []) := by
  rw [zone]
  split
  · next utc =>
    subst utc
    rfl
  · have reads := @readOffset_number offset.natAbs
    dsimp only
    split
    · next negative =>
      rw [readZone, if_neg (by decide), if_neg (by decide), if_pos rfl, reads _ (by omega) (by omega)]
      refine congrArg (fun n => some (n, [])) ?_
      omega
    · next positive =>
      rw [readZone, if_neg (by decide), if_pos rfl, reads _ (by omega) (by omega)]
      refine congrArg (fun n => some (n, [])) ?_
      omega

theorem civil (t : Time) : civilFromDays t.days = (t.year, t.month, t.day) := by
  rw [year, month, day]

/-- The text has no NUL. -/
theorem zero_notMem_toString (t : Time) : (0 : BitVec 8) ∉ t.toString := by
  have fraction : (0 : BitVec 8) ∉ fraction t.nanoseconds := by
    rw [Time.fraction]
    dsimp only
    split
    · simp
    · rw [List.mem_cons, not_or]
      exact ⟨by decide, zero_notMem_number _ _⟩
  have zone : (0 : BitVec 8) ∉ zone t.offset := by
    rw [Time.zone]
    split
    · decide
    · have sign : ∀ offset : ℤ, (0 : BitVec 8) ≠ if offset < 0 then byteOf '-' else byteOf '+' := by
        intro offset
        split <;> decide
      simp only [List.mem_cons, List.mem_append, not_or]
      exact ⟨sign _, zero_notMem_number _ _, by decide, zero_notMem_number _ _⟩
  simp only [toString, List.mem_append, List.mem_cons, not_or]
  obtain ⟨minus, letter, colon⟩ :
      (0 : BitVec 8) ≠ byteOf '-' ∧ (0 : BitVec 8) ≠ byteOf 'T' ∧ (0 : BitVec 8) ≠ byteOf ':' := by
    decide
  have number := zero_notMem_number
  exact ⟨number _ _, minus, number _ _, minus, number _ _, letter, number _ _, colon, number _ _,
    colon, number _ _, fraction, zone⟩

theorem secondOfDay_range (t : Time) : 0 ≤ t.secondOfDay ∧ t.secondOfDay < 86400 := by
  rw [secondOfDay, floorMod_eq (by decide)]
  omega

theorem date_eq {year month day hour minute second nanosecond offset : ℤ} (month1 : 1 ≤ month)
    (month12 : month ≤ 12) (low : 0 ≤ nanosecond) (high : nanosecond < 1000000000) :
    date year month day hour minute second nanosecond offset =
      ⟨(daysFromCivil year month 1 + day - 1) * 86400 + hour * 3600 + minute * 60 + second - offset,
        nanosecond, offset⟩ := by
  have same_year : floorDiv (month - 1) 12 = 0 := by
    rw [floorDiv_eq (by decide)]
    omega
  have same_second : floorDiv nanosecond 1000000000 = 0 := by
    rw [floorDiv_eq (by decide)]
    omega
  simp only [date, add, floorMod, same_year, same_second, Int.zero_mul, Int.sub_zero, Int.add_zero,
    Int.zero_add, Int.sub_add_cancel, Int.tmod_eq_of_lt low high, Int.tdiv_eq_zero_of_lt low high]

/-- The date and the clock of a time are that time. -/
theorem date_parts (low : 0 ≤ t.nanoseconds) (high : t.nanoseconds < 1000000000) :
    date t.year t.month t.day t.hour t.minute t.second t.nanoseconds t.offset = t := by
  obtain ⟨month1, month12, -, -, days⟩ := civilFromDays_spec t.civil
  have seconds : t.days * 86400 + t.secondOfDay = t.seconds + t.offset := by
    rw [Time.days, secondOfDay, floorDiv_eq (by decide), floorMod_eq (by decide)]
    omega
  have clock : t.hour * 3600 + t.minute * 60 + t.second = t.secondOfDay := by
    rw [hour, minute, second]
    omega
  rw [date_eq month1 month12 low high, days]
  refine congrArg (fun seconds => (⟨seconds, t.nanoseconds, t.offset⟩ : Time)) ?_
  omega

/-- A time with a year of four digits and an offset of whole minutes is read back. -/
theorem parse_toString (year0 : 0 ≤ t.year) (year9999 : t.year ≤ 9999) (whole : t.offset % 60 = 0)
    (low : 0 ≤ t.nanoseconds) (high : t.nanoseconds < 1000000000) (west : -360000 < t.offset)
    (east : t.offset < 360000) : parse t.toString = some t := by
  obtain ⟨month1, month12, day1, day31, -⟩ := civilFromDays_spec t.civil
  obtain ⟨second0, second86400⟩ := t.secondOfDay_range
  have hour : 0 ≤ t.hour ∧ t.hour < 24 := by
    rw [hour]
    omega
  have minute : 0 ≤ t.minute ∧ t.minute < 60 := by
    rw [minute]
    omega
  have second : 0 ≤ t.second ∧ t.second < 60 := by
    rw [second]
    omega
  have clock : readClock (byteOf 'T' :: (number t.hour 2 ++ byteOf ':' :: (number t.minute 2 ++ byteOf ':' ::
      (number t.second 2 ++ (fraction t.nanoseconds ++ zone t.offset))))) =
      some (⟨t.hour, t.minute, t.second, t.nanoseconds, t.offset⟩, []) := by
    have fraction := @readFraction_fraction (zone t.offset) _ low high (zone_head t.offset)
    have seconds : readSeconds (byteOf ':' :: (number t.second 2 ++ (Time.fraction t.nanoseconds ++ zone t.offset))) =
        some (t.second, t.nanoseconds, zone t.offset) := by
      rw [readSeconds, eat_cons]
      simp only [bind, Option.bind, digits_number second.1 (by omega : t.second < 10 ^ 2) (by decide)]
      rw [if_neg (by omega), fraction]
    rw [readClock, eat_cons]
    simp only [Option.orElse_eq_orElse, Option.orElse_eq_or, Option.some_or, bind, Option.bind,
      digits_number hour.1 (by omega : t.hour < 10 ^ 2) (by decide)]
    rw [if_neg (by omega), eat_cons]
    simp only [digits_number minute.1 (by omega : t.minute < 10 ^ 2) (by decide)]
    rw [if_neg (by omega), seconds]
    simp only [readZone_zone whole west east]
  rw [parse, toString]
  simp only [bind, Option.bind, digits_number year0 (by omega : t.year < 10 ^ 4) (by decide), eat_cons,
    digits_number (by omega : 0 ≤ t.month) (by omega : t.month < 10 ^ 2) (by decide)]
  rw [if_neg (by omega)]
  simp only [digits_number (by omega : 0 ≤ t.day) (by omega : t.day < 10 ^ 2) (by decide)]
  rw [if_neg (by omega), clock]
  simp [date_parts low high]

end RoundTrip

section Ranges

variable {text rest : Text} {t : Time}

theorem digits_range {count : ℕ} {value n : ℤ} (reads : digits count text value = some (n, rest))
    (not_negative : 0 ≤ value) : 0 ≤ n ∧ n < (value + 1) * 10 ^ count := by
  induction count generalizing text value with
  | zero =>
    cases reads
    omega
  | succ count ih =>
    cases text with
    | nil => cases reads
    | cons c text =>
      rw [digits] at reads
      split at reads
      · next digit =>
        have lt := digitNumber_lt digit
        obtain ⟨low, high⟩ := ih reads (by omega)
        refine ⟨low, high.trans_le ?_⟩
        rw [pow_succ, Int.mul_comm (10 ^ count), ← Int.mul_assoc]
        exact Int.mul_le_mul_of_nonneg_right (by omega) (by positivity)
      · cases reads

theorem readMinutes_range {minutes : ℤ} (reads : readMinutes text = some (minutes, rest)) :
    0 ≤ minutes := by
  rw [readMinutes] at reads
  split at reads
  · cases reads
    exact le_rfl
  · exact (digits_range reads le_rfl).1

theorem readOffset_range {sign offset : ℤ} (unit : sign = 1 ∨ sign = -1)
    (reads : readOffset sign text = some (offset, rest)) : -360000 < offset ∧ offset < 360000 := by
  obtain ⟨⟨hours, behind⟩, hoursRead, reads⟩ := Option.bind_eq_some_iff.mp reads
  obtain ⟨⟨minutes, last⟩, minutesRead, reads⟩ := Option.bind_eq_some_iff.mp reads
  obtain ⟨hours0, hours100⟩ := digits_range hoursRead le_rfl
  have minutes0 := readMinutes_range minutesRead
  dsimp only at reads
  split at reads
  · cases reads
  · obtain ⟨rfl, rfl⟩ := Prod.mk.inj (Option.some.inj reads)
    rcases unit with rfl | rfl <;> omega

theorem readZone_range {offset : ℤ} (reads : readZone text = some (offset, rest)) :
    -360000 < offset ∧ offset < 360000 := by
  cases text with
  | nil =>
    cases reads
    decide
  | cons c text =>
    rw [readZone] at reads
    split_ifs at reads
    · cases reads
      decide
    · exact readOffset_range (.inl rfl) reads
    · exact readOffset_range (.inr rfl) reads
    · cases reads
      decide

theorem readClock_range {clock : Clock} (reads : readClock text = some (clock, rest)) :
    -360000 < clock.offset ∧ clock.offset < 360000 := by
  rw [readClock] at reads
  split at reads
  · cases reads
    decide
  · obtain ⟨_, _, reads⟩ := Option.bind_eq_some_iff.mp reads
    dsimp only at reads
    split at reads
    · cases reads
    · obtain ⟨_, _, reads⟩ := Option.bind_eq_some_iff.mp reads
      obtain ⟨_, _, reads⟩ := Option.bind_eq_some_iff.mp reads
      split at reads
      · cases reads
      · obtain ⟨_, _, reads⟩ := Option.bind_eq_some_iff.mp reads
        obtain ⟨zone, zoneRead, reads⟩ := Option.bind_eq_some_iff.mp reads
        cases reads
        exact readZone_range zoneRead

theorem date_range (year month day hour minute second nanosecond offset : ℤ) :
    let t := date year month day hour minute second nanosecond offset
    0 ≤ t.nanoseconds ∧ t.nanoseconds < 1000000000 ∧ t.offset = offset := by
  dsimp only [date, add]
  rw [floorMod_eq (by decide)]
  omega

/-- The offset of a time that was read is less than 100 hours. -/
theorem parse_range (reads : parse text = some t) :
    0 ≤ t.nanoseconds ∧ t.nanoseconds < 1000000000 ∧ -360000 < t.offset ∧ t.offset < 360000 := by
  obtain ⟨_, _, reads⟩ := Option.bind_eq_some_iff.mp reads
  obtain ⟨_, _, reads⟩ := Option.bind_eq_some_iff.mp reads
  obtain ⟨_, _, reads⟩ := Option.bind_eq_some_iff.mp reads
  dsimp only at reads
  split at reads
  · cases reads
  · obtain ⟨_, _, reads⟩ := Option.bind_eq_some_iff.mp reads
    obtain ⟨_, _, reads⟩ := Option.bind_eq_some_iff.mp reads
    split at reads
    · cases reads
    · obtain ⟨⟨clock, behind⟩, clockRead, reads⟩ := Option.bind_eq_some_iff.mp reads
      have offset := readClock_range clockRead
      dsimp only at reads
      split at reads
      · cases reads
      · obtain rfl := Option.some.inj reads
        obtain ⟨low, high, same⟩ := date_range _ _ _ clock.hour clock.minute clock.second
          clock.nanosecond clock.offset
        rw [same]
        exact ⟨low, high, offset⟩

end Ranges

end Saad.Time
