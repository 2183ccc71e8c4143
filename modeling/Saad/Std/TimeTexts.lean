import Saad.Std.TimeRoundTrip

/-! # The texts that are times

The form of a text as `parse` reads it, with its numbers. A text has one form at most, and `parse` gives
a time exactly for the texts that have one, within the bounds that it checks.
-/

namespace Saad.Time

section Forms

/-- That many digits. -/
@[ext]
structure Digits (width : ℕ) where
  text : Text
  length : text.length = width
  digits : ∀ c ∈ text, isDigit c = true

def Digits.value {width : ℕ} (ds : Digits width) : ℤ := digitsValue ds.text

/-- The digits behind the seconds. -/
@[ext]
structure FractionText where
  comma : Bool
  digits : Text
  nonempty : digits ≠ []
  all : ∀ c ∈ digits, isDigit c = true

def FractionText.text (fraction : FractionText) : Text :=
  (if fraction.comma then byteOf ',' else byteOf '.') :: fraction.digits

/-- The minutes of an offset: none, only the separator, or the minutes. -/
inductive OffsetMinutes where
  | absent
  | dangling
  | written (colon : Bool) (minutes : Digits 2)

namespace OffsetMinutes

def text : OffsetMinutes → Text
  | absent => []
  | dangling => [byteOf ':']
  | written colon minutes => (if colon then [byteOf ':'] else []) ++ minutes.text

def value : OffsetMinutes → ℤ
  | written _ minutes => minutes.value
  | _ => 0

end OffsetMinutes

inductive ZoneText where
  | absent
  | utc (lower : Bool)
  | offset (negative : Bool) (hours : Digits 2) (minutes : OffsetMinutes)

namespace ZoneText

def text : ZoneText → Text
  | absent => []
  | utc lower => [if lower then byteOf 'z' else byteOf 'Z']
  | offset negative hours minutes => (if negative then byteOf '-' else byteOf '+') :: (hours.text ++ minutes.text)

/-- Seconds east of UTC. -/
def value : ZoneText → ℤ
  | offset negative hours minutes => (if negative then -1 else 1) * (hours.value * 3600 + minutes.value * 60)
  | _ => 0

def minutes : ZoneText → OffsetMinutes
  | offset _ _ minutes => minutes
  | _ => .absent

end ZoneText

structure SecondsText where
  second : Digits 2
  fraction : Option FractionText

def SecondsText.text (seconds : SecondsText) : Text :=
  byteOf ':' :: (seconds.second.text ++ seconds.fraction.elim [] FractionText.text)

/-- What stands between the date and the clock. -/
inductive ClockSeparator where
  | upper
  | lower
  | blank
deriving DecidableEq

def ClockSeparator.byte : ClockSeparator → BitVec 8
  | upper => byteOf 'T'
  | lower => byteOf 't'
  | blank => byteOf ' '

structure ClockText where
  separator : ClockSeparator
  hour : Digits 2
  minute : Digits 2
  seconds : Option SecondsText
  zone : ZoneText

def ClockText.text (clock : ClockText) : Text :=
  clock.separator.byte :: (clock.hour.text ++ byteOf ':' :: (clock.minute.text ++
    (clock.seconds.elim [] SecondsText.text ++ clock.zone.text)))

/-- A date, or a date and a clock. -/
structure TimeText where
  year : Digits 4
  month : Digits 2
  day : Digits 2
  clock : Option ClockText

def TimeText.text (form : TimeText) : Text :=
  form.year.text ++ byteOf '-' :: (form.month.text ++ byteOf '-' :: (form.day.text ++
    form.clock.elim [] ClockText.text))

end Forms

section Numbers

/-- The value of the digits, each with a tenth of the scale of the one before. -/
def scaledValue : Text → ℤ → ℤ
  | [], _ => 0
  | c :: digits, scale => digitNumber c * scale + scaledValue digits (scale / 10)

namespace ClockText

def fraction (clock : ClockText) : Text :=
  (clock.seconds.bind SecondsText.fraction).elim [] FractionText.digits

/-- The numbers of the text, 0 for those that are absent. -/
def numbers (clock : ClockText) : Clock where
  hour := clock.hour.value
  minute := clock.minute.value
  second := clock.seconds.elim 0 fun seconds => seconds.second.value
  nanosecond := scaledValue clock.fraction 100000000
  offset := clock.zone.value

end ClockText

def TimeText.numbers (form : TimeText) : Clock := form.clock.elim {} ClockText.numbers

/-- The zone of a text. -/
def TimeText.zone (form : TimeText) : ZoneText := form.clock.elim .absent ClockText.zone

/-- The bounds that `parse` checks. -/
structure TimeText.Bounded (form : TimeText) : Prop where
  month : 1 ≤ form.month.value ∧ form.month.value ≤ 12
  day : 1 ≤ form.day.value ∧ form.day.value ≤ 31
  hour : form.numbers.hour ≤ 24
  minute : form.numbers.minute ≤ 59
  second : form.numbers.second ≤ 60
  minutes : form.zone.minutes.value ≤ 59

/-- The time that `parse` makes of the numbers. -/
def TimeText.time (form : TimeText) : Time :=
  date form.year.value form.month.value form.day.value form.numbers.hour form.numbers.minute form.numbers.second
    form.numbers.nanosecond form.numbers.offset

end Numbers

section OneForm

variable {width : ℕ} {rest rest' : Text}

theorem Digits.append_inj {ds ds' : Digits width} (same : ds.text ++ rest = ds'.text ++ rest') :
    ds = ds' ∧ rest = rest' := by
  obtain ⟨text, rest⟩ := List.append_inj same (ds.length.trans ds'.length.symm)
  exact ⟨Digits.ext text, rest⟩

/-- No digit stands next. -/
def NoDigit (rest : Text) : Prop := ∀ c ∈ rest.head?, isDigit c = false

theorem takeWhile_append {ds : Text} (all : ∀ c ∈ ds, isDigit c = true) (ends : NoDigit rest) :
    (ds ++ rest).takeWhile isDigit = ds ∧ (ds ++ rest).dropWhile isDigit = rest := by
  rw [List.takeWhile_append_of_pos all, List.dropWhile_append_of_pos all]
  cases rest with
  | nil => simp
  | cons c rest => simp [ends c rfl]

theorem Digits.ne_nil (ds : Digits 2) : ds.text ≠ [] := by
  rw [← List.length_pos_iff, ds.length]
  decide

theorem OffsetMinutes.text_injective : Function.Injective OffsetMinutes.text := by
  have colon : isDigit (byteOf ':') = false := by decide
  intro minutes other same
  have length := congrArg List.length same
  cases minutes with
  | absent =>
    cases other with
    | absent => rfl
    | dangling => cases same
    | written separator digits => cases separator <;> simp [text, digits.length] at length
  | dangling =>
    cases other with
    | absent => cases same
    | dangling => rfl
    | written separator digits => cases separator <;> simp [text, digits.length] at length
  | written separator digits =>
    cases other with
    | absent => cases separator <;> simp [text, digits.length] at length
    | dangling => cases separator <;> simp [text, digits.length] at length
    | written separator' digits' =>
      cases separator
      · cases separator'
        · rw [Digits.ext same]
        · simp [text, digits.length, digits'.length] at length
      · cases separator'
        · simp [text, digits.length, digits'.length] at length
        · rw [Digits.ext (List.cons.inj same).2]

theorem ZoneText.text_injective : Function.Injective ZoneText.text := by
  intro zone other same
  cases zone with
  | absent =>
    cases other with
    | absent => rfl
    | utc lower => cases same
    | offset negative hours minutes => cases same
  | utc lower =>
    cases other with
    | absent => cases same
    | utc lower' =>
      cases lower <;> cases lower' <;> first | rfl | exact absurd same (by decide)
    | offset negative hours minutes =>
      cases lower <;> cases negative <;> exact absurd (List.cons.inj same).1 (by decide)
  | offset negative hours minutes =>
    cases other with
    | absent => cases same
    | utc lower =>
      cases lower <;> cases negative <;> exact absurd (List.cons.inj same).1 (by decide)
    | offset negative' hours' minutes' =>
      obtain ⟨sign, behind⟩ := List.cons.inj same
      obtain ⟨rfl, last⟩ := Digits.append_inj behind
      obtain rfl := OffsetMinutes.text_injective last
      cases negative <;> cases negative' <;> first | rfl | exact absurd sign (by decide)

/-- Behind the seconds, a zone begins with none of their characters. -/
theorem ZoneText.head (zone : ZoneText) :
    NoDigit zone.text ∧ ∀ c ∈ zone.text.head?, c ≠ byteOf ':' ∧ c ≠ byteOf '.' ∧ c ≠ byteOf ',' := by
  cases zone with
  | absent => simp [NoDigit, text]
  | utc lower => cases lower <;> simp [NoDigit, text] <;> decide
  | offset negative hours minutes => cases negative <;> simp [NoDigit, text] <;> decide

theorem fraction_append_inj {fraction other : Option FractionText} {zone zone' : ZoneText}
    (same : fraction.elim [] FractionText.text ++ zone.text = other.elim [] FractionText.text ++ zone'.text) :
    fraction = other ∧ zone.text = zone'.text := by
  have apart (zone : ZoneText) (fraction : FractionText) (rest : Text) : zone.text ≠ fraction.text ++ rest := by
    intro same
    obtain ⟨-, dot, comma⟩ := zone.head.2 (if fraction.comma then byteOf ',' else byteOf '.') (by rw [same]; rfl)
    cases separator : fraction.comma
    · simp [separator] at dot
    · simp [separator] at comma
  cases fraction with
  | none =>
    cases other with
    | none => exact ⟨rfl, same⟩
    | some other => exact absurd same (apart zone other zone'.text)
  | some fraction =>
    cases other with
    | none => exact absurd same.symm (apart zone' fraction zone.text)
    | some other =>
      obtain ⟨separator, behind⟩ := List.cons.inj same
      have first := takeWhile_append fraction.all zone.head.1
      have second := takeWhile_append other.all zone'.head.1
      change fraction.digits ++ zone.text = other.digits ++ zone'.text at behind
      rw [behind] at first
      refine ⟨congrArg some (FractionText.ext ?_ (first.1.symm.trans second.1)), first.2.symm.trans second.2⟩
      cases comma : fraction.comma <;> cases comma' : other.comma <;> simp [comma, comma'] at separator ⊢ <;>
        exact absurd separator (by decide)

theorem seconds_append_inj {seconds other : Option SecondsText} {zone zone' : ZoneText}
    (same : seconds.elim [] SecondsText.text ++ zone.text = other.elim [] SecondsText.text ++ zone'.text) :
    seconds = other ∧ zone = zone' := by
  have apart (zone : ZoneText) (rest : Text) : zone.text ≠ byteOf ':' :: rest := by
    intro same
    exact (zone.head.2 (byteOf ':') (by rw [same]; rfl)).1 rfl
  cases seconds with
  | none =>
    cases other with
    | none => exact ⟨rfl, ZoneText.text_injective same⟩
    | some other => exact absurd same (apart zone _)
  | some seconds =>
    cases other with
    | none => exact absurd same.symm (apart zone' _)
    | some other =>
      simp only [Option.elim_some, SecondsText.text, List.cons_append, List.append_assoc, List.cons.injEq, true_and]
        at same
      obtain ⟨second, behind⟩ := Digits.append_inj same
      obtain ⟨fraction, zone⟩ := fraction_append_inj behind
      cases seconds
      cases other
      cases second
      cases fraction
      exact ⟨rfl, ZoneText.text_injective zone⟩

theorem ClockText.text_injective : Function.Injective ClockText.text := by
  intro clock other same
  obtain ⟨separator, behind⟩ := List.cons.inj same
  obtain ⟨hour, behind⟩ := Digits.append_inj behind
  obtain ⟨minute, behind⟩ := Digits.append_inj (List.cons.inj behind).2
  obtain ⟨seconds, zone⟩ := seconds_append_inj behind
  have separators : ∀ first second : ClockSeparator, first.byte = second.byte → first = second := by
    intro first second
    cases first <;> cases second <;> decide
  cases clock
  cases other
  cases separators _ _ separator
  cases hour
  cases minute
  cases seconds
  cases zone
  rfl

/-- A text has one form at most. -/
theorem TimeText.text_injective : Function.Injective TimeText.text := by
  intro form other same
  obtain ⟨year, behind⟩ := Digits.append_inj same
  obtain ⟨month, behind⟩ := Digits.append_inj (List.cons.inj behind).2
  obtain ⟨day, behind⟩ := Digits.append_inj (List.cons.inj behind).2
  have clock : form.clock = other.clock := by
    cases first : form.clock with
    | none =>
      cases second : other.clock with
      | none => rfl
      | some clock => rw [first, second] at behind; cases behind
    | some clock =>
      cases second : other.clock with
      | none => rw [first, second] at behind; cases behind
      | some clock' =>
        rw [first, second] at behind
        rw [ClockText.text_injective behind]
  cases form
  cases other
  cases year
  cases month
  cases day
  cases clock
  rfl

end OneForm

end Saad.Time
