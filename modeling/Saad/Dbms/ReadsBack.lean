import Saad.Dbms.Tables
import Saad.Std.TimeRoundTrip

/-! # Values that are read back from their texts -/

namespace Saad.Dbms

section Specification

/-- The value of a sign and digits. -/
def IntegerText (text : Text) (n : ℤ) : Prop :=
  ∃ digits : Text, digits ≠ [] ∧ (∀ c ∈ digits, isDigit c = true) ∧
    (text = digits ∧ n = digitsValue digits ∨ text = byteOf '+' :: digits ∧ n = digitsValue digits ∨
      text = byteOf '-' :: digits ∧ n = -(digitsValue digits : ℤ))

/-- The text of a parameter, which is none for NULL. -/
def Param.sent : Param → Option (Option Text)
  | .text bytes => some (some bytes)
  | .null => some none
  | .unsupported => none

/-- The value has a text, and an equal value is read from it into a zeroed one. -/
def RoundTrips (t : Ty) (v : t.Val) : Prop :=
  ∃ text, (paramText t v).bind Param.sent = some text ∧
    ∀ column, readValue column t text t.zero = (v, [])

/-- A value that is sent as NULL. -/
def IsNull : (t : Ty) → t.Val → Prop
  | .optional _, none => True
  | .optional item, some value => IsNull item value
  | .pointer _, none => True
  | .pointer pointerTo, some value => pointerTo.isPointer = false ∧ IsNull pointerTo value
  | .bool, _ | .int _, _ | .enum _, _ | .string, _ | .time, _ => False

/-- The values that are read back. -/
def Readable : (t : Ty) → t.Val → Prop
  | .bool, _ => True
  | .int kind, _ => kind ≠ .char
  | .enum type, (data : type.backingType.Bits) =>
    ∃ name, type.nameOf (type.readValue data) = some name ∧
      ∃ first, type.values.find? (fun option => sameName option.1 name) = some first ∧
        BitVec.ofInt (8 * type.backingType.size) first.2 = data
  | .string, (text : Text) => text.length < 2 ^ 30
  | .time, (time : Time) =>
    0 ≤ time.nanoseconds ∧ time.nanoseconds < 1000000000 ∧ -360000 < time.offset ∧ time.offset < 360000
  | .optional _, none => True
  | .optional item, some value => ¬IsNull item value ∧ Readable item value
  | .pointer _, none => True
  | .pointer pointerTo, some value =>
    pointerTo.isStruct = false ∧ pointerTo.isPointer = false ∧ Readable pointerTo value

/-- Strings and names without NUL, times with a year of four digits and an offset of whole minutes, and
pointers that aren't null. A name is an identifier, which is shorter than 1 GiB. -/
def Supported : (t : Ty) → t.Val → Prop
  | .bool, _ | .int _, _ => True
  | .enum type, _ => ∀ option ∈ type.values, (0 : BitVec 8) ∉ option.1 ∧ option.1.length < 2 ^ 30
  | .string, (text : Text) => (0 : BitVec 8) ∉ text
  | .time, (time : Time) => 0 ≤ time.year ∧ time.year ≤ 9999 ∧ time.offset % 60 = 0
  | .optional _, none => True
  | .optional item, some value => Supported item value
  | .pointer _, none => False
  | .pointer pointerTo, some value => Supported pointerTo value

/-- A text is read as a whole number if it is one in the range of the type, as exactly that number, and
nothing changes otherwise. -/
structure ReadsInteger (column text : Text) (kind : Primitive) (data : kind.Bits) : Prop where
  reads : (readInteger column text kind data).2 = [] ↔ ∃ n, IntegerText text n ∧ kind.InRange n
  value : ∀ n, IntegerText text n → kind.InRange n →
    kind.valueOf (readInteger column text kind data).1 = n
  unchanged : (readInteger column text kind data).2 ≠ [] → (readInteger column text kind data).1 = data

end Specification

section Integers

variable {column text : Text} {kind : Primitive}

theorem isNot_ne_nil (column text what : Text) : isNot column text what ≠ [] :=
  List.append_ne_nil_of_left_ne_nil (List.append_ne_nil_of_right_ne_nil _ (by decide)) _

theorem doesNotFit_ne_nil (column text type : Text) : doesNotFit column text type ≠ [] :=
  List.append_ne_nil_of_left_ne_nil (List.append_ne_nil_of_right_ne_nil _ (by decide)) _

/-- The magnitude is read when it is digits that fit into a u64. -/
theorem readMagnitude_ok_iff {digits : Text} {start magnitude : ℕ} (small : start < 2 ^ 64) :
    readMagnitude column text kind digits start = .ok magnitude ↔
      (∀ c ∈ digits, isDigit c = true) ∧ magnitude < 2 ^ 64 ∧
        magnitude = start * 10 ^ digits.length + digitsValue digits := by
  induction digits generalizing start with
  | nil =>
    rw [readMagnitude]
    constructor
    · rintro ⟨⟩
      exact ⟨by simp, small, by simp⟩
    · rintro ⟨-, -, rfl⟩
      simp
  | cons c digits ih =>
    rw [readMagnitude, List.forall_mem_cons]
    by_cases digit : isDigit c = true
    · have lt := digitNumber_lt digit
      have next := digitsValue_step start c digits
      rw [if_neg (by simp [digit])]
      by_cases big : start > (18446744073709551615 - digitNumber c) / 10
      · rw [if_pos big]
        constructor
        · rintro ⟨⟩
        · rintro ⟨-, fits, is⟩
          rw [← next] at is
          have least : start * 10 + digitNumber c ≤ magnitude := by
            rw [is]
            exact (Nat.le_mul_of_pos_right _ (by positivity)).trans (Nat.le_add_right _ _)
          omega
      · rw [if_neg big, ih (by omega), next]
        simp only [digit, true_and]
    · rw [if_pos (by simp [digit])]
      constructor
      · rintro ⟨⟩
      · rintro ⟨⟨is, -⟩, -⟩
        exact absurd is digit

theorem readMagnitude_error {digits err : Text} {start : ℕ}
    (fails : readMagnitude column text kind digits start = .error err) : err ≠ [] := by
  induction digits generalizing start with
  | nil => cases fails
  | cons c digits ih =>
    rw [readMagnitude] at fails
    split_ifs at fails
    · cases fails
      exact isNot_ne_nil _ _ _
    · cases fails
      exact doesNotFit_ne_nil _ _ _
    · exact ih fails

theorem fits_iff (kind : Primitive) (negative : Bool) (magnitude : ℕ) :
    fits kind negative magnitude = true ↔
      kind.InRange (if negative then -(magnitude : ℤ) else magnitude) := by
  cases kind <;> cases negative <;> simp [fits, Primitive.InRange, Primitive.unsigned, Primitive.size] <;> omega

theorem writeBits_ofInt (kind : Primitive) (n : ℤ) :
    writeBits kind (BitVec.ofInt 64 n) = BitVec.ofInt (8 * kind.size) n := by
  apply BitVec.eq_of_toNat_eq
  rw [writeBits, BitVec.toNat_setWidth, BitVec.toNat_ofInt, BitVec.toNat_ofInt]
  cases kind <;> simp only [Primitive.size] <;> omega

theorem valueOf_ofInt {n : ℤ} (range : kind.InRange n) :
    kind.valueOf (BitVec.ofInt (8 * kind.size) n) = n := by
  rw [Primitive.InRange] at range
  rw [Primitive.valueOf]
  split at range
  · next unsigned =>
    rw [if_pos unsigned, BitVec.toNat_ofInt, Nat.cast_pow, Nat.cast_ofNat,
      Int.emod_eq_of_lt range.1 range.2, Int.toNat_of_nonneg range.1]
  · next signed =>
    rw [if_neg signed, BitVec.toInt_ofInt_eq_self (by cases kind <;> decide) range.1 range.2]

/-- The bits in memory are those of their value. -/
theorem ofInt_valueOf (kind : Primitive) (data : kind.Bits) :
    BitVec.ofInt (8 * kind.size) (kind.valueOf data) = data := by
  rw [Primitive.valueOf]
  split
  · rw [BitVec.ofInt_natCast, BitVec.ofNat_toNat, BitVec.setWidth_eq]
  · exact BitVec.ofInt_toInt

theorem inRange_valueOf (kind : Primitive) (data : kind.Bits) : kind.InRange (kind.valueOf data) := by
  rw [Primitive.InRange, Primitive.valueOf]
  split
  · exact ⟨Int.natCast_nonneg _, by exact_mod_cast data.isLt⟩
  · exact ⟨BitVec.le_toInt data, BitVec.toInt_lt⟩

/-- The digits behind a sign. -/
theorem integerText_iff {n : ℤ} :
    IntegerText text n ↔
      ∃ digits : Text, digits ≠ [] ∧ (∀ c ∈ digits, isDigit c = true) ∧
        (if text.head? = some (byteOf '-') ∨ text.head? = some (byteOf '+') then text.drop 1 else text) = digits ∧
        n = if text.head? = some (byteOf '-') then -(digitsValue digits : ℤ) else digitsValue digits := by
  have unsigned {digits : Text} (nonempty : digits ≠ []) (all : ∀ c ∈ digits, isDigit c = true) :
      digits.head? ≠ some (byteOf '-') ∧ digits.head? ≠ some (byteOf '+') := by
    obtain ⟨c, rest, rfl⟩ := List.exists_cons_of_ne_nil nonempty
    have digit := all c List.mem_cons_self
    have both : ∀ c : BitVec 8, isDigit c = true → c ≠ byteOf '-' ∧ c ≠ byteOf '+' := by decide
    simpa using both c digit
  constructor
  · rintro ⟨digits, nonempty, all, ⟨rfl, rfl⟩ | ⟨rfl, rfl⟩ | ⟨rfl, rfl⟩⟩
    · obtain ⟨minus, plus⟩ := unsigned nonempty all
      exact ⟨text, nonempty, all, by simp [minus, plus], by simp [minus]⟩
    · have different : byteOf '+' ≠ byteOf '-' := by decide
      exact ⟨digits, nonempty, all, by simp, by simp [different]⟩
    · exact ⟨digits, nonempty, all, by simp, by simp⟩
  · rintro ⟨digits, nonempty, all, is, rfl⟩
    refine ⟨digits, nonempty, all, ?_⟩
    cases text with
    | nil => exact .inl ⟨by simpa using is, by simp⟩
    | cons c rest =>
      by_cases minus : c = byteOf '-'
      · subst minus
        exact .inr (.inr ⟨by simpa using is, by simp⟩)
      · by_cases plus : c = byteOf '+'
        · subst plus
          exact .inr (.inl ⟨by simpa using is, by simp [minus]⟩)
        · exact .inl ⟨by simpa [minus, plus] using is, by simp [minus]⟩

/-- A whole number is read if it has a sign and digits, and is in the range of the type. -/
theorem readInteger_spec (column text : Text) (kind : Primitive) (data : kind.Bits) :
    (∃ n, IntegerText text n ∧ kind.InRange n ∧
      readInteger column text kind data = (BitVec.ofInt (8 * kind.size) n, [])) ∨
    (¬∃ n, IntegerText text n ∧ kind.InRange n) ∧ (readInteger column text kind data).1 = data ∧
      (readInteger column text kind data).2 ≠ [] := by
  simp only [integerText_iff]
  rw [readInteger]
  generalize (if text.head? = some (byteOf '-') ∨ text.head? = some (byteOf '+') then text.drop 1
    else text) = digits
  by_cases empty : digits = []
  · simp only [if_pos empty]
    refine .inr ⟨?_, trivial, isNot_ne_nil _ _ _⟩
    rintro ⟨n, ⟨digits', nonempty, -, is, -⟩, -⟩
    exact nonempty (is ▸ empty)
  · simp only [if_neg empty]
    cases reads : readMagnitude column text kind digits 0 with
    | error err =>
      refine .inr ⟨?_, rfl, readMagnitude_error reads⟩
      rintro ⟨n, ⟨digits', -, all, rfl, is⟩, range⟩
      have small : digitsValue digits < 2 ^ 64 := by
        rw [Primitive.InRange] at range
        cases kind <;> simp [Primitive.unsigned, Primitive.size] at range <;> split at is <;> omega
      have ok := (@readMagnitude_ok_iff column text kind digits 0 (digitsValue digits) (by decide)).mpr
        ⟨all, small, by omega⟩
      rw [reads] at ok
      cases ok
    | ok magnitude =>
      obtain ⟨all, small, rfl⟩ := (readMagnitude_ok_iff (by decide)).mp reads
      rw [Nat.zero_mul, Nat.zero_add] at *
      have value : (if text.head? = some (byteOf '-') then 0 - BitVec.ofNat 64 (digitsValue digits)
          else BitVec.ofNat 64 (digitsValue digits)) =
          BitVec.ofInt 64 (if text.head? = some (byteOf '-') then -(digitsValue digits : ℤ)
            else digitsValue digits) := by
        split
        · rw [BitVec.ofInt_neg, BitVec.ofInt_natCast]
          exact BitVec.zero_sub _
        · rw [BitVec.ofInt_natCast]
      simp only [value, writeBits_ofInt]
      have range := fits_iff kind (decide (text.head? = some (byteOf '-'))) (digitsValue digits)
      simp only [decide_eq_true_eq] at range
      by_cases fit : fits kind (decide (text.head? = some (byteOf '-'))) (digitsValue digits) = true
      · simp only [if_pos fit]
        exact .inl ⟨_, ⟨digits, empty, all, rfl, rfl⟩, range.mp fit, rfl⟩
      · simp only [if_neg fit]
        refine .inr ⟨?_, trivial, doesNotFit_ne_nil _ _ _⟩
        rintro ⟨n, ⟨digits', -, -, rfl, rfl⟩, inRange⟩
        exact fit (range.mpr inRange)

end Integers

section Texts

variable {text : Text} {column : Text}

theorem toCString_eq (no_nul : (0 : BitVec 8) ∉ text) : toCString text = text := by
  induction text with
  | nil => rfl
  | cons c text ih =>
    obtain ⟨first, others⟩ := not_or.mp (List.mem_cons.not.mp no_nul)
    rw [toCString, List.takeWhile_cons_of_pos (by simpa using Ne.symm first)]
    exact congrArg (c :: ·) (ih others)

theorem length_toCString_le (text : Text) : (toCString text).length ≤ text.length :=
  (List.takeWhile_prefix _).length_le

/-- A short text is written as it is. -/
theorem finish_addString (no_nul : (0 : BitVec 8) ∉ text) (short : text.length < 2 ^ 30) :
    finish (newBuilder.addString text) = some (.text text) := by
  obtain ⟨sb, adds, rfl⟩ := StringBuilder.addString_empty short
  rw [finish, newBuilder, adds, Option.map_some, toCString_eq no_nul]

theorem decimalText_range {n : ℕ} (small : n < 2 ^ 64) :
    0 < (decimalText n).length ∧ (decimalText n).length ≤ 20 :=
  ⟨List.length_pos_iff.mpr (decimalText_ne_nil n),
    length_decimalText_le (by decide) (small.trans (by decide))⟩

theorem addUInt64_empty {n : ℕ} (small : n < 2 ^ 64) :
    ∃ sb, addUInt64 newBuilder n = some sb ∧ sb.text = decimalText n := by
  obtain ⟨some, short⟩ := decimalText_range small
  obtain ⟨grown, reserves, valid, text, -⟩ :=
    @StringBuilder.reserve_empty (decimalText n).length (by omega) (by omega)
  obtain ⟨sb, adds, -, all⟩ := @StringBuilder.Valid.addChars _ valid (decimalText n) (by
    rw [text, List.length_nil]
    omega)
  refine ⟨sb, ?_, by rw [all, text, List.nil_append]⟩
  rw [addUInt64, newBuilder, reserves]
  exact adds

theorem addInt64_empty {n : ℤ} (low : -2 ^ 63 ≤ n) (high : n < 2 ^ 63) :
    ∃ sb, addInt64 newBuilder n = some sb ∧ sb.text = intText n := by
  rw [addInt64, intText]
  split
  · obtain ⟨some, short⟩ := decimalText_range (n := n.natAbs) (by omega)
    obtain ⟨grown, reserves, ⟨capacity, -⟩, text, room⟩ :=
      @StringBuilder.reserve_empty 1 (by decide) (by decide)
    have writes : newBuilder.addChar (byteOf '-') = .some { grown with text := [byteOf '-'] } := by
      rw [StringBuilder.addChar, newBuilder, reserves]
      refine (if_pos ?_).trans ?_
      · rw [text]
        exact room
      · rw [text]
        rfl
    have valid : StringBuilder.Valid { grown with text := [byteOf '-'] } := ⟨capacity, room⟩
    obtain ⟨next, reserves', valid', text', -⟩ := @StringBuilder.Valid.reserve _ (decimalText n.natAbs).length valid
      (by omega) (by
        rw [List.length_singleton]
        omega)
    obtain ⟨sb, adds, -, all⟩ := @StringBuilder.Valid.addChars _ valid' (decimalText n.natAbs) (by
      rw [text', List.length_singleton]
      omega)
    refine ⟨sb, ?_, by rw [all, text']; rfl⟩
    rw [writes]
    change addUInt64 _ _ = _
    rw [addUInt64, reserves']
    exact adds
  · exact addUInt64_empty (by omega)

end Texts

section Atoms

variable {column : Text}

theorem sent_finish {sb : Option StringBuilder} {text : Option Text}
    (sent : (finish sb).bind Param.sent = some text) :
    ∃ built, sb = some built ∧ text = some (toCString built.text) := by
  cases sb with
  | none => cases sent
  | some built => exact ⟨built, rfl, (Option.some.inj sent).symm⟩

theorem roundTrips_bool (value : Bool) : RoundTrips .bool value := by
  have texts : ∀ value : Bool, (0 : BitVec 8) ∉ (if value then asciiBytes "true" else asciiBytes "false") ∧
      (if value then asciiBytes "true" else asciiBytes "false").length < 10 := by decide
  have reads (column : Text) :
      readBool column (if value then asciiBytes "true" else asciiBytes "false") false = (value, []) := by
    cases value with
    | true =>
      rw [readBool]
      exact if_pos (.inr (.inl rfl))
    | false =>
      rw [readBool, if_neg (by decide)]
      exact if_pos (.inr (.inl rfl))
  obtain ⟨no_nul, short⟩ := texts value
  refine ⟨some (if value then asciiBytes "true" else asciiBytes "false"), ?_, reads⟩
  rw [paramText, finish_addString no_nul (by omega)]
  rfl

theorem integerText_unsigned (n : ℕ) : IntegerText (decimalText n) n :=
  ⟨decimalText n, decimalText_ne_nil n, fun _ member => isDigit_of_mem_decimalText member,
    .inl ⟨rfl, by rw [digitsValue_decimalText]⟩⟩

theorem integerText_intText (n : ℤ) : IntegerText (intText n) n := by
  rw [intText]
  split
  · refine ⟨decimalText n.natAbs, decimalText_ne_nil _, fun _ member => isDigit_of_mem_decimalText member,
      .inr (.inr ⟨rfl, ?_⟩)⟩
    rw [digitsValue_decimalText]
    omega
  · have text := integerText_unsigned n.toNat
    rwa [Int.toNat_of_nonneg (by omega)] at text

theorem IntegerText.unique {text : Text} {m n : ℤ} (first : IntegerText text m)
    (second : IntegerText text n) : m = n := by
  obtain ⟨digits, -, -, rfl, is⟩ := integerText_iff.mp first
  obtain ⟨digits', -, -, rfl, is'⟩ := integerText_iff.mp second
  exact is.trans is'.symm

theorem zero_notMem_decimalText (n : ℕ) : (0 : BitVec 8) ∉ decimalText n := fun member =>
  absurd (isDigit_of_mem_decimalText member) (by decide)

theorem zero_notMem_intText (n : ℤ) : (0 : BitVec 8) ∉ intText n := by
  rw [intText]
  split
  · rw [List.mem_cons, not_or]
    exact ⟨by decide, zero_notMem_decimalText _⟩
  · exact zero_notMem_decimalText _

/-- A whole number that isn't a char is written as its digits. -/
theorem addInteger_spec {kind : Primitive} (number : kind ≠ .char) (data : kind.Bits) :
    ∃ text, finish (addInteger newBuilder kind data) = some (.text text) ∧
      IntegerText text (kind.valueOf data) := by
  have range := inRange_valueOf kind data
  rw [addInteger, if_neg number]
  split
  · next unsigned =>
    rw [Primitive.InRange, if_pos unsigned] at range
    have small : (kind.valueOf data).toNat < 2 ^ 64 := by
      cases kind <;> simp only [Primitive.size] at range <;> omega
    obtain ⟨sb, adds, text⟩ := addUInt64_empty small
    refine ⟨decimalText (kind.valueOf data).toNat, ?_, ?_⟩
    · rw [adds, finish, Option.map_some, text, toCString_eq (zero_notMem_decimalText _)]
    · have is := integerText_unsigned (kind.valueOf data).toNat
      rwa [Int.toNat_of_nonneg range.1] at is
  · next signed =>
    rw [Primitive.InRange, if_neg signed] at range
    obtain ⟨sb, adds, text⟩ := addInt64_empty (n := kind.valueOf data)
      (by cases kind <;> simp only [Primitive.size] at range <;> omega)
      (by cases kind <;> simp only [Primitive.size] at range <;> omega)
    refine ⟨intText (kind.valueOf data), ?_, integerText_intText _⟩
    rw [adds, finish, Option.map_some, text, toCString_eq (zero_notMem_intText _)]

theorem readInteger_of_text {kind : Primitive} {text : Text} {n : ℤ} (is : IntegerText text n)
    (range : kind.InRange n) (column : Text) (data : kind.Bits) :
    readInteger column text kind data = (BitVec.ofInt (8 * kind.size) n, []) := by
  rcases readInteger_spec column text kind data with ⟨m, same, -, reads⟩ | ⟨none, -⟩
  · rw [reads, same.unique is]
  · exact absurd ⟨n, is, range⟩ none

/-- The bytes of a char are read as a number, which is never that char. -/
theorem readInteger_char_ne (column : Text) (data : BitVec 8) :
    readInteger column (toCString [data]) .char 0 ≠ (data, []) := by
  intro reads
  rcases readInteger_spec column (toCString [data]) .char 0 with ⟨n, text, -, number⟩ | ⟨-, -, fails⟩
  · rw [number] at reads
    have same : BitVec.ofInt 8 n = data := (Prod.mk.inj reads).1
    obtain ⟨digits, nonempty, all, is⟩ := text
    have one : digits = toCString [data] ∧ n = digitsValue digits := by
      rcases is with ⟨is, value⟩ | ⟨is, -⟩ | ⟨is, -⟩
      · exact ⟨is.symm, value⟩
      · have length := congrArg List.length is
        have short := length_toCString_le [data]
        rw [List.length_cons] at length
        rw [List.length_singleton] at short
        exact absurd (List.length_eq_zero_iff.mp (by omega)) nonempty
      · have length := congrArg List.length is
        have short := length_toCString_le [data]
        rw [List.length_cons] at length
        rw [List.length_singleton] at short
        exact absurd (List.length_eq_zero_iff.mp (by omega)) nonempty
    obtain ⟨rfl, rfl⟩ := one
    have bytes : ∀ data : BitVec 8, isDigit data = true → BitVec.ofNat 8 (digitNumber data) ≠ data := by
      decide
    have notNul : data ≠ 0 := by
      rintro rfl
      exact nonempty rfl
    have char : toCString [data] = [data] := toCString_eq (by simpa using notNul.symm)
    rw [char] at all same
    rw [digitsValue_cons, digitsValue_nil, List.length_nil, pow_zero, Nat.mul_one, Nat.add_zero,
      BitVec.ofInt_natCast] at same
    exact bytes data (all data (List.mem_singleton.mpr rfl)) same
  · rw [reads] at fails
    exact fails rfl

theorem addChar_empty (c : BitVec 8) : (newBuilder.addChar c).map StringBuilder.text = some [c] := by
  obtain ⟨grown, reserves, -, text, room⟩ := @StringBuilder.reserve_empty 1 (by decide) (by decide)
  rw [StringBuilder.addChar, newBuilder, reserves]
  change (StringBuilder.write grown [c]).map StringBuilder.text = _
  rw [StringBuilder.write, if_pos (by rw [text]; exact room), text]
  rfl

theorem roundTrips_int_iff (kind : Primitive) (data : kind.Bits) :
    RoundTrips (.int kind) data ↔ kind ≠ .char := by
  constructor
  · rintro ⟨text, sent, reads⟩ rfl
    obtain ⟨sb, adds, rfl⟩ := sent_finish sent
    have chars : sb.text = [data] := by
      have adds' := congrArg (Option.map StringBuilder.text) adds
      rw [addInteger, if_pos rfl, addChar_empty] at adds'
      exact (Option.some.inj adds').symm.trans (congrArg (fun c => [c]) (BitVec.setWidth_eq data))
    rw [chars] at reads
    exact readInteger_char_ne [] data (reads [])
  · intro number
    obtain ⟨text, writes, is⟩ := addInteger_spec number data
    refine ⟨some text, ?_, fun column => ?_⟩
    · rw [paramText, writes]
      rfl
    · change readInteger column text kind (0 : kind.Bits) = (data, [])
      rw [readInteger_of_text is (inRange_valueOf kind data), ofInt_valueOf]

theorem sameName_underscore (a b : Text) : sameName a (byteOf '_' :: b) = sameName a b := by
  induction a with
  | nil => simp [sameName]
  | cons c a ih =>
    rw [sameName, sameName]
    split
    · exact ih
    · simp

theorem sameName_self (name : Text) : sameName name name = true := by
  induction name with
  | nil => rfl
  | cons c name ih =>
    rw [sameName]
    split
    · next underscore => rw [underscore, sameName_underscore, ih]
    · next letter => simp [letter, ih]

theorem roundTrips_enum_iff (type : EnumType) (data : type.backingType.Bits)
    (names : ∀ option ∈ type.values, (0 : BitVec 8) ∉ option.1 ∧ option.1.length < 2 ^ 30) :
    RoundTrips (.enum type) data ↔ Readable (.enum type) data := by
  cases named : type.nameOf (type.readValue data) with
  | none =>
    constructor
    · rintro ⟨text, sent, -⟩
      rw [paramText, named] at sent
      cases sent
    · rintro ⟨name, is, -⟩
      rw [named] at is
      cases is
  | some name =>
    obtain ⟨option, found, rfl⟩ := Option.map_eq_some_iff.mp named
    obtain ⟨no_nul, short⟩ := names option (List.mem_of_find?_eq_some found)
    have writes : paramText (.enum type) data = some (.text option.1) := by
      rw [paramText, named]
      exact finish_addString no_nul short
    obtain ⟨first, same⟩ : ∃ first, type.values.find? (fun other => sameName other.1 option.1) = some first :=
      Option.isSome_iff_exists.mp (List.find?_isSome.mpr
        ⟨option, List.mem_of_find?_eq_some found, sameName_self option.1⟩)
    have reads (column : Text) : readEnum column option.1 type (0 : type.backingType.Bits) =
        (BitVec.ofInt (8 * type.backingType.size) first.2, []) := by
      rw [readEnum, same]
      dsimp only
      rw [writeBits_ofInt]
    constructor
    · rintro ⟨text, sent, back⟩
      rw [writes] at sent
      obtain rfl := Option.some.inj sent
      refine ⟨option.1, named, first, same, ?_⟩
      exact (Prod.mk.inj ((reads []).symm.trans (back []))).1
    · rintro ⟨name, is, first', same', bits⟩
      obtain rfl := Option.some.inj (named.symm.trans is)
      obtain rfl := Option.some.inj (same.symm.trans same')
      refine ⟨some option.1, ?_, fun column => ?_⟩
      · rw [writes]
        rfl
      · rw [← bits]
        exact reads column

theorem roundTrips_string_iff (text : Text) (no_nul : (0 : BitVec 8) ∉ text) :
    RoundTrips .string text ↔ text.length < 2 ^ 30 := by
  constructor
  · rintro ⟨sent, is, reads⟩
    obtain ⟨sb, adds, rfl⟩ := sent_finish is
    have whole : toCString sb.text = text := (Prod.mk.inj (reads [])).1
    by_contra long
    have shorter := StringBuilder.addString_empty_lt (Nat.not_lt.mp long) adds
    have prefix_ := length_toCString_le sb.text
    rw [whole] at prefix_
    omega
  · intro short
    refine ⟨some text, ?_, fun column => rfl⟩
    rw [paramText, finish_addString no_nul short]
    rfl

theorem readValue_time (column value : Text) (data : Time) :
    readValue column .time (some value) data =
      match Time.parse value with
      | none => (data, isNot column value (asciiBytes "a time"))
      | some t => (t, []) := rfl

theorem roundTrips_time_iff (time : Time) (supported : Supported .time time) :
    RoundTrips .time time ↔ Readable .time time := by
  obtain ⟨year0, year9999, whole⟩ := supported
  have writes : paramText .time time = some (.text time.toString) := by
    rw [paramText, toCString_eq time.zero_notMem_toString]
  constructor
  · rintro ⟨sent, is, reads⟩
    rw [writes] at is
    obtain rfl := Option.some.inj is
    have back := reads []
    rw [Ty.zero, readValue_time] at back
    cases parsed : Time.parse time.toString with
    | none =>
      rw [parsed] at back
      exact absurd (Prod.mk.inj back).2 (isNot_ne_nil _ _ _)
    | some t =>
      rw [parsed] at back
      obtain rfl : t = time := (Prod.mk.inj back).1
      exact Time.parse_range parsed
  · rintro ⟨low, high, west, east⟩
    refine ⟨some time.toString, ?_, fun column => ?_⟩
    · rw [writes]
      rfl
    · rw [Ty.zero, readValue_time, Time.parse_toString year0 year9999 whole low high west east]

end Atoms

section Nested

theorem paramText_enum (type : EnumType) (data : type.backingType.Bits) :
    paramText (.enum type) data =
      match type.nameOf (type.readValue data) with
      | none => some .unsupported
      | some name => finish (newBuilder.addString name) := rfl

theorem paramText_pointer (pointerTo : Ty) (value : pointerTo.Val) :
    paramText (.pointer pointerTo) (some value) =
      if pointerTo.isPointer then some .unsupported else paramText pointerTo value := rfl

theorem readValue_optional (column value : Text) (item : Ty) (data : (Ty.optional item).Val) :
    readValue column (.optional item) (some value) data =
      (some (readValue column item (some value) item.zero).1,
        (readValue column item (some value) item.zero).2) := rfl

theorem readValue_pointer (column value : Text) (pointerTo : Ty) (data : (Ty.pointer pointerTo).Val) :
    readValue column (.pointer pointerTo) (some value) data =
      if pointerTo.isStruct then (data, cannotRead column (Ty.pointer pointerTo).name)
      else (some (readValue column pointerTo (some value) pointerTo.zero).1,
        (readValue column pointerTo (some value) pointerTo.zero).2) := rfl

theorem finish_ne_null (sb : Option StringBuilder) : finish sb ≠ some .null := by
  cases sb <;> simp [finish]

theorem paramText_null_iff (t : Ty) (v : t.Val) : paramText t v = some .null ↔ IsNull t v := by
  induction t with
  | bool => exact iff_of_false (finish_ne_null _) id
  | int kind => exact iff_of_false (finish_ne_null _) id
  | enum type =>
    refine iff_of_false (fun null => ?_) id
    have param := (paramText_enum type v).symm.trans null
    split at param
    · cases param
    · exact finish_ne_null _ param
  | string => exact iff_of_false (finish_ne_null _) id
  | time => exact iff_of_false (by simp [paramText]) id
  | optional item ih =>
    cases v with
    | none => exact iff_of_true rfl trivial
    | some value => exact ih value
  | pointer pointerTo ih =>
    cases v with
    | none => exact iff_of_true rfl trivial
    | some value =>
      rw [IsNull, ← ih value, paramText_pointer]
      split
      · next pointer => simp [pointer]
      · next other => simp [Bool.eq_false_iff.mpr other]

/-- A value that is sent has a text, or is sent as NULL. -/
theorem sent_cases {t : Ty} {v : t.Val} {text : Option Text}
    (sent : (paramText t v).bind Param.sent = some text) :
    text = none ∧ IsNull t v ∨ ∃ bytes, text = some bytes ∧ ¬IsNull t v := by
  rw [← paramText_null_iff]
  cases param : paramText t v with
  | none =>
    rw [param] at sent
    cases sent
  | some param' =>
    rw [param] at sent
    cases param' with
    | text bytes => exact .inr ⟨bytes, (Option.some.inj sent).symm, by simp⟩
    | null => exact .inl ⟨(Option.some.inj sent).symm, rfl⟩
    | unsupported => cases sent

theorem roundTrips_optional_iff (item : Ty) (value : item.Val) :
    RoundTrips (.optional item) (some value) ↔ ¬IsNull item value ∧ RoundTrips item value := by
  constructor
  · rintro ⟨text, sent, reads⟩
    rcases sent_cases (t := item) sent with ⟨rfl, -⟩ | ⟨bytes, rfl, notNull⟩
    · cases (Prod.mk.inj (reads [])).1
    · refine ⟨notNull, some bytes, sent, fun column => ?_⟩
      obtain ⟨read, err⟩ := Prod.mk.inj (reads column)
      exact Prod.ext (Option.some.inj read) err
  · rintro ⟨notNull, text, sent, reads⟩
    rcases sent_cases sent with ⟨rfl, null⟩ | ⟨bytes, rfl, -⟩
    · exact absurd null notNull
    · refine ⟨some bytes, sent, fun column => ?_⟩
      rw [readValue_optional, reads column]
      rfl

theorem not_isNull {t : Ty} (noStruct : t.isStruct = false) (noPointer : t.isPointer = false) (v : t.Val) :
    ¬IsNull t v := by
  cases t with
  | bool | int | enum | string => exact id
  | time | optional => cases noStruct
  | pointer => cases noPointer

theorem roundTrips_pointer_iff (pointerTo : Ty) (value : pointerTo.Val) :
    RoundTrips (.pointer pointerTo) (some value) ↔
      pointerTo.isStruct = false ∧ pointerTo.isPointer = false ∧ RoundTrips pointerTo value := by
  have writes (noPointer : pointerTo.isPointer = false) :
      paramText (.pointer pointerTo) (some value) = paramText pointerTo value :=
    if_neg (by simp [noPointer])
  constructor
  · rintro ⟨text, sent, reads⟩
    have noPointer : pointerTo.isPointer = false := by
      by_contra pointer
      have unsupported : paramText (.pointer pointerTo) (some value) = some .unsupported :=
        if_pos (by simpa using pointer)
      rw [unsupported] at sent
      cases sent
    rw [writes noPointer] at sent
    cases text with
    | none => cases (Prod.mk.inj (reads [])).1
    | some bytes =>
      have back := reads []
      rw [readValue_pointer] at back
      split at back
      · cases (Prod.mk.inj back).1
      · next noStruct =>
        refine ⟨by simpa using noStruct, noPointer, some bytes, sent, fun column => ?_⟩
        have read := reads column
        rw [readValue_pointer, if_neg noStruct] at read
        obtain ⟨value', err⟩ := Prod.mk.inj read
        exact Prod.ext (Option.some.inj value') err
  · rintro ⟨noStruct, noPointer, text, sent, reads⟩
    rcases sent_cases sent with ⟨rfl, null⟩ | ⟨bytes, rfl, -⟩
    · exact absurd null (not_isNull noStruct noPointer value)
    · refine ⟨some bytes, by rw [writes noPointer, sent], fun column => ?_⟩
      rw [readValue_pointer, if_neg (by simp [noStruct]), reads column]

/-- Which values are read back. -/
theorem roundTrips_iff_readable (t : Ty) (v : t.Val) (supported : Supported t v) :
    RoundTrips t v ↔ Readable t v := by
  induction t with
  | bool => exact iff_of_true (roundTrips_bool v) trivial
  | int kind => exact roundTrips_int_iff kind v
  | enum type => exact roundTrips_enum_iff type v supported
  | string => exact roundTrips_string_iff v supported
  | time => exact roundTrips_time_iff v supported
  | optional item ih =>
    cases v with
    | none => exact iff_of_true ⟨none, rfl, fun column => rfl⟩ trivial
    | some value => rw [roundTrips_optional_iff, ih value supported, Readable]
  | pointer pointerTo ih =>
    cases v with
    | none => exact absurd supported id
    | some value => rw [roundTrips_pointer_iff, ih value supported, Readable]

end Nested

theorem readsInteger (column text : Text) (kind : Primitive) (data : kind.Bits) :
    ReadsInteger column text kind data := by
  rcases readInteger_spec column text kind data with ⟨n, is, range, reads⟩ | ⟨none, same, fails⟩
  · refine ⟨iff_of_true (by rw [reads]) ⟨n, is, range⟩, fun m is' _ => ?_, fun fails => ?_⟩
    · rw [reads, valueOf_ofInt range, is'.unique is]
    · exact absurd (by rw [reads]) fails
  · exact ⟨iff_of_false fails none, fun n is range => absurd ⟨n, is, range⟩ none, fun _ => same⟩

end Saad.Dbms
