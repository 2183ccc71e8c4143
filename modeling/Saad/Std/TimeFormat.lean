import Saad.Std.TimeWriter

/-! # Times by a layout

`format` goes through the layout as the source does: the first of the texts in the order of the source
that stands next says what is written for it. A time with a year of four digits is read back from what
`toString` writes.
-/

namespace Saad

namespace Time

section Parts

/-- The seconds, the nanoseconds and the offset fit into their types. -/
structure Fits (t : Time) : Prop where
  seconds : -2 ^ 63 ≤ t.seconds ∧ t.seconds < 2 ^ 63
  nanoseconds : -2 ^ 31 ≤ t.nanoseconds ∧ t.nanoseconds < 2 ^ 31
  offset : -2 ^ 31 ≤ t.offset ∧ t.offset < 2 ^ 31

def floorMod64 (a b : ℤ) : ℤ := int64 (a - int64 (floorDiv64 a b * b))

/-- `days` -/
def days64 (t : Time) : ℤ := floorDiv64 (int64 (t.seconds + t.offset)) 86400

/-- `secondOfDay` -/
def secondOfDay64 (t : Time) : ℤ := floorMod64 (int64 (t.seconds + t.offset)) 86400

/-- The year, the month and the day in the zone of the time. -/
def civil64 (t : Time) : ℤ × ℤ × ℤ := civilFromDays64 t.days64

/-- `year`, which is an `int` -/
def year32 (t : Time) : ℤ := int32 t.civil64.1

/-- `hour` -/
def hour32 (t : Time) : ℤ := int32 (t.secondOfDay64.tdiv 3600)

/-- `minute` -/
def minute32 (t : Time) : ℤ := int32 ((t.secondOfDay64.tmod 3600).tdiv 60)

/-- `second` -/
def second32 (t : Time) : ℤ := int32 (t.secondOfDay64.tmod 60)

def hour12 (hour : ℤ) : ℤ := if hour.tmod 12 = 0 then 12 else hour.tmod 12

def monthNames : List String :=
  ["January", "February", "March", "April", "May", "June", "July", "August", "September", "October", "November",
    "December"]

def dayNames : List String :=
  ["Sunday", "Monday", "Tuesday", "Wednesday", "Thursday", "Friday", "Saturday"]

end Parts

section Layouts

/-- What a part of a layout stands for. -/
inductive Item where
  | monthName (short : Bool)
  | dayName (short : Bool)
  | year
  | yearOfCentury
  | yearDay
  | month (width : ℤ)
  | day (padded : Bool) (width : ℤ)
  | hour
  | hour12 (width : ℤ)
  | minute (width : ℤ)
  | second (width : ℤ)
  | half (upper : Bool)
  | zone (z colon minutes : Bool)
  | fraction (digits : ℕ) (trim : Bool)
  | byte (c : BitVec 8)
deriving DecidableEq

/-- The parts of layouts, in the order in which they are looked for. -/
def layoutItems : List (String × Item) :=
  [("January", .monthName false), ("Jan", .monthName true), ("Monday", .dayName false), ("Mon", .dayName true),
    ("2006", .year), ("002", .yearDay), ("01", .month 2), ("02", .day false 2), ("03", .hour12 2),
    ("04", .minute 2), ("05", .second 2), ("06", .yearOfCentury), ("_2", .day true 1), ("15", .hour),
    ("1", .month 1), ("2", .day false 1), ("3", .hour12 1), ("4", .minute 1), ("5", .second 1),
    ("PM", .half true), ("pm", .half false),
    ("Z07:00", .zone true true true), ("Z0700", .zone true false true), ("Z07", .zone true false false),
    ("-07:00", .zone false true true), ("-0700", .zone false false true), ("-07", .zone false false false)]

/-- The part at the place `i` of a layout, and its length. -/
def layoutItem (i : ℕ) (c : BitVec 8) (behind : Text) : Item × ℕ :=
  match layoutItems.find? fun item => startsWith (c :: behind) (asciiBytes item.1) with
  | some (text, item) => (item, text.length)
  | none =>
    match behind with
    | digit :: digits =>
      if c = byteOf '.' ∧ (digit = byteOf '0' ∨ digit = byteOf '9') ∧ i > 0 then
        let count := 1 + (digits.takeWhile (· = digit)).length
        (.fraction count (digit = byteOf '9'), count + 1)
      else (.byte c, 1)
    | [] => (.byte c, 1)

/-- The parts of a layout from the place `i` on, where `skip` more bytes belong to the part before. -/
def layoutParts : ℕ → ℕ → Text → List Item
  | _, _, [] => []
  | i, skip + 1, _ :: behind => layoutParts (i + 1) skip behind
  | i, 0, c :: behind =>
    let (item, length) := layoutItem i c behind
    item :: layoutParts (i + 1) (length - 1) behind

/-- An element of an array of names, the first one at the index 0. -/
def nameAt (names : List String) (index : ℤ) (short : Bool) : Option Text :=
  if index < 0 then none
  else (names[index.toNat]?).map fun name => if short then (asciiBytes name).take 3 else asciiBytes name

/-- What is written for a part. -/
def writeItem (t : Time) : Item → Option Text
  | .monthName short => nameAt monthNames (t.civil64.2.1 - 1) short
  | .dayName short => nameAt dayNames (weekday t.days64) short
  | .year => Writer.number t.civil64.1 4
  | .yearOfCentury => Writer.number (floorMod64 t.civil64.1 100) 2
  | .yearDay => Writer.number (Time.yearDay t.days64) 3
  | .month width => Writer.number t.civil64.2.1 width
  | .day padded width =>
    (Writer.number t.civil64.2.2 width).map ((if padded ∧ t.civil64.2.2 < 10 then [byteOf ' '] else []) ++ ·)
  | .hour => Writer.number t.hour32 2
  | .hour12 width => Writer.number (Time.hour12 t.hour32) width
  | .minute width => Writer.number t.minute32 width
  | .second width => Writer.number t.second32 width
  | .half upper =>
    some (asciiBytes (if upper then if t.hour32 < 12 then "AM" else "PM" else if t.hour32 < 12 then "am" else "pm"))
  | .zone z colon minutes => Writer.zone t.offset z colon minutes
  | .fraction digits trim => Writer.fraction t.nanoseconds digits trim
  | .byte c => some [c]

def writeItems (t : Time) : List Item → Option Text
  | [] => some []
  | item :: items => do
    let text ← writeItem t item
    let behind ← writeItems t items
    some (text ++ behind)

/-- The time as text by a layout. None when an index is outside of an array. -/
def format (t : Time) (layout : Text) : Option Text := writeItems t (layoutParts 0 0 layout)

/-- The layout of `toString`. -/
def rfc3339 : Text := asciiBytes "2006-01-02T15:04:05.999999999Z07:00"

theorem layoutParts_rfc3339 : layoutParts 0 0 rfc3339 =
    [.year, .byte (byteOf '-'), .month 2, .byte (byteOf '-'), .day false 2, .byte (byteOf 'T'), .hour,
      .byte (byteOf ':'), .minute 2, .byte (byteOf ':'), .second 2, .fraction 9 true, .zone true true true] := by
  decide

end Layouts

section Fitting

variable {t : Time}

theorem floorMod64_eq {a b : ℤ} (low : -2 ^ 63 ≤ a) (high : a < 2 ^ 63) (positive : 1 < b) (small : b < 2 ^ 63) :
    floorMod64 a b = a % b := by
  have below := Int.emod_nonneg a (show b ≠ 0 by omega)
  have above := Int.emod_lt_of_pos a (show 0 < b by omega)
  have split := Int.mul_ediv_add_emod a b
  rw [floorMod64, floorDiv64_eq low high positive, int64_sub_int64, mul_comm, show a - b * (a / b) = a % b by omega]
  exact int64_of_fits (by omega) (by omega)

theorem days64_eq (t : Time) : t.days64 = int64 (t.seconds + t.offset) / 86400 := by
  have range := int64_range (t.seconds + t.offset)
  exact floorDiv64_eq range.1 range.2 (by decide)

theorem secondOfDay64_eq (t : Time) : t.secondOfDay64 = int64 (t.seconds + t.offset) % 86400 := by
  have range := int64_range (t.seconds + t.offset)
  exact floorMod64_eq range.1 range.2 (by decide) (by decide)

/-- The days of every time fit. -/
theorem daysFit (t : Time) : DaysFit t.days64 := by
  have range := int64_range (t.seconds + t.offset)
  rw [days64_eq]
  constructor
  · omega
  · omega

theorem civil64_eq (t : Time) : t.civil64 = (dateOfDay t.days64).parts :=
  (civilFromDays64_eq t.daysFit).trans (civilFromDays_eq _)

/-- Far from the ends of the numbers, the zone doesn't wrap the seconds. -/
theorem seconds_fit (fits : t.Fits) (low : -1000000000 ≤ t.days64) (high : t.days64 ≤ 1000000000) :
    int64 (t.seconds + t.offset) = t.seconds + t.offset := by
  obtain ⟨seconds, -, offset⟩ := fits
  rw [days64_eq] at low high
  have wraps := Int.bmod_eq_self_sub_mul_bdiv (t.seconds + t.offset) (2 ^ 64)
  change int64 (t.seconds + t.offset) = _ at wraps
  omega

/-- The years of four digits are in these days. -/
theorem days_of_year (year0 : 0 ≤ t.civil64.1) (year9999 : t.civil64.1 ≤ 9999) :
    -1000000000 ≤ t.days64 ∧ t.days64 ≤ 1000000000 := by
  have first := newYear_le (dateOfDay t.days64)
  rw [dayNumber_dateOfDay] at first
  have number : dayNumber (newYear (dateOfDay t.days64)) = daysFromCivil t.civil64.1 1 1 := by
    rw [civil64_eq]
    rfl
  rw [number, daysFromCivil_eq] at first
  unfold marchYear marchMonth at first
  rw [if_pos (by decide), if_pos (by decide)] at first
  omega

/-- In these years, the parts are those of whole numbers. -/
theorem parts_eq (fits : t.Fits) (year0 : 0 ≤ t.civil64.1) (year9999 : t.civil64.1 ≤ 9999) :
    t.civil64 = (t.year, t.month, t.day) ∧ t.hour32 = t.hour ∧ t.minute32 = t.minute ∧ t.second32 = t.second := by
  obtain ⟨low, high⟩ := days_of_year year0 year9999
  have seconds := seconds_fit fits low high
  have days_eq : t.days64 = t.days := by rw [days64_eq, seconds, days, floorDiv_eq (by decide)]
  have clock : t.secondOfDay64 = t.secondOfDay := by
    rw [secondOfDay64_eq, seconds, secondOfDay, floorMod_eq (by decide)]
  obtain ⟨second0, second86400⟩ := t.secondOfDay_range
  refine ⟨?_, ?_, ?_, ?_⟩
  · rw [civil64, days_eq, civilFromDays64_eq (days_eq ▸ t.daysFit), civil]
  · rw [hour32, clock, hour, Int.tdiv_eq_ediv_of_nonneg second0]
    exact int32_of_fits (by omega) (by omega)
  · rw [minute32, clock, minute, Int.tmod_eq_emod_of_nonneg second0, Int.tdiv_eq_ediv_of_nonneg (by omega)]
    exact int32_of_fits (by omega) (by omega)
  · rw [second32, clock, second, Int.tmod_eq_emod_of_nonneg second0]
    exact int32_of_fits (by omega) (by omega)

end Fitting

section Writing

variable {t : Time} {nanoseconds offset : ℤ}

theorem writer_fraction_eq (low : 0 ≤ nanoseconds) (high : nanoseconds < 1000000000) :
    Writer.fraction nanoseconds 9 true = some (fraction nanoseconds) := by
  obtain ⟨le, not_negative, fits, -⟩ := @trimmed_spec nanoseconds 9 low (by omega)
  have power : (10 : ℤ) ^ (trimmed 9 nanoseconds).2 ≤ 10 ^ 9 := pow_le_pow_right₀ (by decide) le
  unfold Writer.fraction fraction
  simp only [min_self, Nat.sub_self, Writer.withoutDigits, if_true, true_and]
  generalize trimmed 9 nanoseconds = parts at *
  rw [Writer.number_eq (by omega) (by omega)]
  split
  · rfl
  · rfl

theorem writer_zone_eq (low : -2 ^ 31 ≤ offset) (high : offset < 2 ^ 31) :
    Writer.zone offset true true true = some (zone offset) := by
  have total : (if offset < 0 then int64 (-offset) else offset) = offset.natAbs := by
    split
    · rw [int64_of_fits (by omega) (by omega)]
      omega
    · omega
  unfold Writer.zone zone
  by_cases utc : offset = 0
  · rw [if_pos ⟨rfl, utc⟩, if_pos utc]
  · have not_negative : (0 : ℤ) ≤ offset.natAbs := by omega
    rw [if_neg (by simp [utc]), if_neg utc, total]
    dsimp only
    have hours := Writer.number_eq (show -2 ^ 63 < (offset.natAbs : ℤ) / 3600 by omega) (by omega) 2
    have minutes := Writer.number_eq (show -2 ^ 63 < (offset.natAbs : ℤ) % 3600 / 60 by omega) (by omega) 2
    rw [Int.tdiv_eq_ediv_of_nonneg not_negative, Int.tmod_eq_emod_of_nonneg not_negative,
      Int.tdiv_eq_ediv_of_nonneg (by omega)]
    push_cast at hours minutes ⊢
    simp [hours, minutes]

/-- A time with a year of four digits is written as whole numbers are. -/
theorem format_rfc3339 (fits : t.Fits) (year0 : 0 ≤ t.civil64.1) (year9999 : t.civil64.1 ≤ 9999)
    (low : 0 ≤ t.nanoseconds) (high : t.nanoseconds < 1000000000) : t.format rfc3339 = some t.toString := by
  obtain ⟨date, hour, minute, second⟩ := parts_eq fits year0 year9999
  rw [date] at year0 year9999
  obtain ⟨month1, month12, day1, day31, -⟩ := civilFromDays_spec t.civil
  obtain ⟨second0, second86400⟩ := t.secondOfDay_range
  have years := Writer.number_eq (show -2 ^ 63 < t.year by omega) (by omega) 4
  have months := Writer.number_eq (show -2 ^ 63 < t.month by omega) (by omega) 2
  have days := Writer.number_eq (show -2 ^ 63 < t.day by omega) (by omega) 2
  have hours := Writer.number_eq (show -2 ^ 63 < t.hour by rw [Time.hour]; omega) (by rw [Time.hour]; omega) 2
  have minutes := Writer.number_eq (show -2 ^ 63 < t.minute by rw [Time.minute]; omega) (by rw [Time.minute]; omega) 2
  have seconds := Writer.number_eq (show -2 ^ 63 < t.second by rw [Time.second]; omega) (by rw [Time.second]; omega) 2
  push_cast at years months days hours minutes seconds
  rw [format, layoutParts_rfc3339]
  simp only [writeItems, writeItem, date, hour, minute, second, years, months, days, hours, minutes, seconds,
    writer_fraction_eq low high, writer_zone_eq fits.offset.1 fits.offset.2]
  simp [toString]

end Writing

/-- A time with a calendar year of four digits and an offset of whole minutes is read back. -/
theorem parse_format (t : Time) (fits : t.Fits) (low : 0 ≤ t.nanoseconds) (high : t.nanoseconds < 1000000000)
    (whole : t.offset % 60 = 0) (west : -360000 < t.offset) (east : t.offset < 360000) (year0 : 0 ≤ t.civil64.1)
    (year9999 : t.civil64.1 ≤ 9999) : ∃ text, t.format rfc3339 = some text ∧ parse text = some t := by
  have date := (parts_eq fits year0 year9999).1
  refine ⟨t.toString, format_rfc3339 fits year0 year9999 low high, ?_⟩
  rw [date] at year0 year9999
  exact parse_toString year0 year9999 whole low high west east

/-- Half a second before 1970, west of UTC. -/
theorem parse_format_before :
    ∃ text, format ⟨-1, 500000000, -19800⟩ rfc3339 = some text ∧ parse text = some ⟨-1, 500000000, -19800⟩ :=
  parse_format ⟨-1, 500000000, -19800⟩ ⟨by decide, by decide, by decide⟩ (by decide) (by decide) (by decide)
    (by decide) (by decide) (by decide) (by decide)

/-- The year 4294969296 is 2000 as an `int`, but it is written with ten digits. -/
theorem parse_format_year32 :
    ¬∀ t : Time, t.Fits → 0 ≤ t.nanoseconds → t.nanoseconds < 1000000000 → t.offset % 60 = 0 →
      -360000 < t.offset → t.offset < 360000 → 0 ≤ t.year32 → t.year32 ≤ 9999 →
      ∃ text, t.format rfc3339 = some text ∧ parse text = some t := by
  intro all
  obtain ⟨text, written, reads⟩ := all ⟨135536077748188800, 0, 0⟩ ⟨by decide, by decide, by decide⟩ (by decide)
    (by decide) (by decide) (by decide) (by decide) (by decide) (by decide)
  have not_read : (format ⟨135536077748188800, 0, 0⟩ rfc3339).bind parse = none := by decide
  rw [written, Option.bind_some, reads] at not_read
  cases not_read

end Time

end Saad
