import Saad.Std.Decimal

/-! # Times as text

`toString` is `format` with the layout `2006-01-02T15:04:05.999999999Z07:00`. The numbers are whole
numbers: nothing overflows in a time that `parse` gives, nor in one with a year of four digits.
-/

namespace Saad

/-- Seconds since January 1, 1970 UTC, the nanoseconds after them, and the offset of the zone. -/
structure Time where
  seconds : ℤ := 0
  nanoseconds : ℤ := 0
  offset : ℤ := 0
deriving DecidableEq, Repr

namespace Time

def floorDiv (a b : ℤ) : ℤ :=
  let q := a.tdiv b
  if a.tmod b ≠ 0 ∧ (a < 0) ≠ (b < 0) then q - 1 else q

def floorMod (a b : ℤ) : ℤ := a - floorDiv a b * b

section Calendar

/-- Days since January 1, 1970 of a date. -/
def daysFromCivil (year month day : ℤ) : ℤ :=
  let y := if month ≤ 2 then year - 1 else year
  let era := floorDiv y 400
  let yearOfEra := y - era * 400
  let shifted := if month ≤ 2 then month + 9 else month - 3
  let dayOfYear := (153 * shifted + 2) / 5 + day - 1
  let dayOfEra := yearOfEra * 365 + yearOfEra / 4 - yearOfEra / 100 + dayOfYear
  era * 146097 + dayOfEra - 719468

/-- The year, the month and the day of a number of days. -/
def civilFromDays (days : ℤ) : ℤ × ℤ × ℤ :=
  let z := days + 719468
  let era := floorDiv z 146097
  let dayOfEra := z - era * 146097
  let yearOfEra := (dayOfEra - dayOfEra / 1460 + dayOfEra / 36524 - dayOfEra / 146096) / 365
  let dayOfYear := dayOfEra - (365 * yearOfEra + yearOfEra / 4 - yearOfEra / 100)
  let mp := (5 * dayOfYear + 2) / 153
  let day := dayOfYear - (153 * mp + 2) / 5 + 1
  let month := if mp ≥ 10 then mp - 9 else mp + 3
  let year := yearOfEra + era * 400
  (if month ≤ 2 then year + 1 else year, month, day)

/-- Days since January 1, 1970, in the zone of the time. -/
def days (t : Time) : ℤ := floorDiv (t.seconds + t.offset) 86400

def secondOfDay (t : Time) : ℤ := floorMod (t.seconds + t.offset) 86400

def year (t : Time) : ℤ := (civilFromDays t.days).1

def month (t : Time) : ℤ := (civilFromDays t.days).2.1

def day (t : Time) : ℤ := (civilFromDays t.days).2.2

def hour (t : Time) : ℤ := t.secondOfDay / 3600

def minute (t : Time) : ℤ := t.secondOfDay % 3600 / 60

def second (t : Time) : ℤ := t.secondOfDay % 60

/-- The time after the duration in nanoseconds. -/
def add (t : Time) (d : ℤ) : Time :=
  let total := t.nanoseconds + d.tmod 1000000000
  { t with
    seconds := t.seconds + d.tdiv 1000000000 + floorDiv total 1000000000
    nanoseconds := floorMod total 1000000000 }

/-- The time of a date and a clock. -/
def date (year month day hour minute second nanosecond offset : ℤ) : Time :=
  let y := year + floorDiv (month - 1) 12
  let m := floorMod (month - 1) 12 + 1
  let days := daysFromCivil y m 1 + day - 1
  let local_ := days * 86400 + hour * 3600 + minute * 60 + second
  add { seconds := local_ - offset, nanoseconds := 0, offset } nanosecond

end Calendar

section Writing

/-- At least `width` digits, with zeros in front. -/
def number (value : ℤ) (width : ℕ) : Text :=
  let digits := decimalText value.natAbs
  (if value < 0 then [byteOf '-'] else []) ++
    List.replicate (width - digits.length) (byteOf '0') ++ digits

/-- The digits of a fraction without the zeros at the end, and how many there are. -/
def trimmed : ℕ → ℤ → ℤ × ℕ
  | 0, value => (value, 0)
  | n + 1, value => if value.tmod 10 = 0 then trimmed n (value.tdiv 10) else (value, n + 1)

/-- A fraction of a second with 9 digits, where the zeros at its end are left out. -/
def fraction (nanoseconds : ℤ) : Text :=
  let (value, n) := trimmed 9 nanoseconds
  if n = 0 then [] else byteOf '.' :: number value n

/-- An offset as `+01:00`, or `Z` for UTC. -/
def zone (offset : ℤ) : Text :=
  if offset = 0 then [byteOf 'Z']
  else
    let total : ℤ := offset.natAbs
    (if offset < 0 then byteOf '-' else byteOf '+') ::
      (number (total / 3600) 2 ++ byteOf ':' :: number (total % 3600 / 60) 2)

def toString (t : Time) : Text :=
  number t.year 4 ++ byteOf '-' :: (number t.month 2 ++ byteOf '-' :: (number t.day 2 ++
    byteOf 'T' :: (number t.hour 2 ++ byteOf ':' :: (number t.minute 2 ++ byteOf ':' ::
      (number t.second 2 ++ (fraction t.nanoseconds ++ zone t.offset))))))

end Writing

section Reading

/-- The text behind the character, if it is the next one. -/
def eat (c : BitVec 8) : Text → Option Text
  | [] => none
  | byte :: rest => if byte = c then some rest else none

/-- A number of exactly that many digits. -/
def digits : ℕ → Text → ℤ → Option (ℤ × Text)
  | 0, text, value => some (value, text)
  | _ + 1, [], _ => none
  | count + 1, c :: rest, value =>
    if isDigit c then digits count rest (value * 10 + digitNumber c) else none

/-- The digits of a fraction. -/
def fractionDigits : Text → ℤ → ℤ → ℤ × Text
  | [], nanosecond, _ => (nanosecond, [])
  | c :: rest, nanosecond, scale =>
    if isDigit c then fractionDigits rest (nanosecond + digitNumber c * scale) (scale / 10)
    else (nanosecond, c :: rest)

structure Clock where
  hour : ℤ := 0
  minute : ℤ := 0
  second : ℤ := 0
  nanosecond : ℤ := 0
  offset : ℤ := 0

/-- The nanoseconds behind the seconds. -/
def readFraction (text : Text) : Option (ℤ × Text) :=
  match eat (byteOf '.') text <|> eat (byteOf ',') text with
  | none => some (0, text)
  | some rest =>
    let (nanosecond, behind) := fractionDigits rest 0 100000000
    if behind.length = rest.length then none else some (nanosecond, behind)

def readSeconds (text : Text) : Option (ℤ × ℤ × Text) :=
  match eat (byteOf ':') text with
  | none => some (0, 0, text)
  | some rest => do
    let (second, rest) ← digits 2 rest 0
    if second > 60 then none
    else
      let (nanosecond, rest) ← readFraction rest
      some (second, nanosecond, rest)

/-- The minutes of an offset can be missing. -/
def readMinutes (text : Text) : Option (ℤ × Text) := if text = [] then some (0, []) else digits 2 text 0

/-- The hours and the minutes of an offset. -/
def readOffset (sign : ℤ) (text : Text) : Option (ℤ × Text) := do
  let (hours, rest) ← digits 2 text 0
  let (minutes, rest) ← readMinutes ((eat (byteOf ':') rest).getD rest)
  if minutes > 59 then none else some (sign * (hours * 3600 + minutes * 60), rest)

def readZone : Text → Option (ℤ × Text)
  | [] => some (0, [])
  | c :: rest =>
    if c = byteOf 'Z' ∨ c = byteOf 'z' then some (0, rest)
    else if c = byteOf '+' then readOffset 1 rest
    else if c = byteOf '-' then readOffset (-1) rest
    else some (0, c :: rest)

def readClock (text : Text) : Option (Clock × Text) :=
  match eat (byteOf 'T') text <|> eat (byteOf 't') text <|> eat (byteOf ' ') text with
  | none => some ({}, text)
  | some rest => do
    let (hour, rest) ← digits 2 rest 0
    if hour > 24 then none
    else
      let rest ← eat (byteOf ':') rest
      let (minute, rest) ← digits 2 rest 0
      if minute > 59 then none
      else
        let (second, nanosecond, rest) ← readSeconds rest
        let (offset, rest) ← readZone rest
        some ({ hour, minute, second, nanosecond, offset }, rest)

/-- Reads a time of RFC 3339 and ISO 8601. -/
def parse (text : Text) : Option Time := do
  let (year, rest) ← digits 4 text 0
  let rest ← eat (byteOf '-') rest
  let (month, rest) ← digits 2 rest 0
  if month < 1 ∨ month > 12 then none
  else
    let rest ← eat (byteOf '-') rest
    let (day, rest) ← digits 2 rest 0
    if day < 1 ∨ day > 31 then none
    else
      let (clock, rest) ← readClock rest
      if rest ≠ [] then none
      else
        some (date year month day clock.hour clock.minute clock.second clock.nanosecond clock.offset)

end Reading

end Time

end Saad
