import Saad.Lexer.LexInOrder

/-! # The values of number literals

The digits of a number in base 16, 2 or 8 are added up one by one, with an overflow that is found by a
division. A decimal number goes through `strtoull`, which gives the biggest number for all that are bigger.
-/

namespace Saad.Lexer

section Literals

/-- The base that a literal is written in. -/
def literalBase (src : Text) : ℕ :=
  if src.head? = some (byteOf '0') ∧ src.tail.head?.any fun c => (asciiBytes "xXbBoO").contains c then
    let letter := toLower (src.tail.headD 0)
    if letter = byteOf 'x' then 16 else if letter = byteOf 'b' then 2 else 8
  else 10

/-- The digits of a literal, behind the letter of its base and without `_`. -/
def literalDigits (src : Text) : Text :=
  (if literalBase src = 10 then src else src.drop 2).filter (· != byteOf '_')

/-- What the number of a literal is. -/
def literalNumber (src : Text) : ℕ := valueIn (literalBase src) (literalDigits src)

/-- A literal that is accepted has its number as its value, and is accepted only when that fits 64 bits. -/
def NumberRight (src : Text) (value : BitVec 64) (isBigger : Bool) (errors : List (Pos × LexError)) : Prop :=
  (errors = [] → value.toNat = literalNumber src ∧ (isBigger = true ↔ 2 ^ 63 - 1 < literalNumber src)) ∧
    (2 ^ 64 ≤ literalNumber src → errors ≠ [])

end Literals

section Based

variable {base : ℕ} {number : BasedNumber} {digits : Text}

/-- The number that the digits of a base so far are. -/
def readDigits (base : ℕ) (digits : Text) : BasedNumber :=
  digits.foldl (fun number c => number.add base (letterNumber c)) {}

theorem letterNumber_le : ∀ c : BitVec 8, letterNumber c ≤ 36 := by decide

/-- Without an overflow the value is that of the digits, and an overflow says that they are too many. -/
theorem readDigits_spec (positive : 0 < base) (digits : Text) :
    (readDigits base digits).digits = digits.length ∧
      ((readDigits base digits).badDigit = true ↔ ∃ c ∈ digits, base ≤ letterNumber c) ∧
      ((readDigits base digits).overflow = false → (readDigits base digits).value.toNat = valueIn base digits) ∧
      ((readDigits base digits).overflow = true ↔ 2 ^ 64 ≤ valueIn base digits) := by
  induction digits using List.reverseRecOn with
  | nil => simp [readDigits, valueIn]
  | append_singleton digits c ih =>
    obtain ⟨count, bad, exact_value, tooBig⟩ := ih
    have next : readDigits base (digits ++ [c]) = (readDigits base digits).add base (letterNumber c) := by
      rw [readDigits, List.foldl_append]
      rfl
    have value : valueIn base (digits ++ [c]) = valueIn base digits * base + letterNumber c := by
      rw [valueIn, List.foldl_append]
      rfl
    have small := letterNumber_le c
    generalize readDigits base digits = number at *
    have grows : valueIn base digits ≤ valueIn base digits * base + letterNumber c :=
      (Nat.le_mul_of_pos_right _ positive).trans (Nat.le_add_right _ _)
    -- the test by a division asks whether the next value is too big
    have test : (2 ^ 64 - 1 - letterNumber c) / base < number.value.toNat ↔
        2 ^ 64 ≤ number.value.toNat * base + letterNumber c := by
      rw [Nat.div_lt_iff_lt_mul positive]
      omega
    rw [next, value]
    refine ⟨?_, ?_, ?_, ?_⟩
    · rw [BasedNumber.add, count, List.length_append, List.length_singleton]
    · rw [BasedNumber.add, Bool.or_eq_true, bad, decide_eq_true_eq]
      simp only [List.mem_append, List.mem_singleton, or_and_right, exists_or, exists_eq_left]
    · intro fits
      rw [BasedNumber.add, Bool.or_eq_false_iff, decide_eq_false_iff_not, test] at fits
      obtain ⟨before, fits⟩ := fits
      rw [exact_value before] at fits
      rw [BasedNumber.add, BitVec.toNat_add, BitVec.toNat_mul, BitVec.toNat_ofNat, BitVec.toNat_ofNat,
        exact_value before]
      simp only [Nat.add_mod_mod, Nat.mod_add_mod, Nat.mul_mod_mod]
      exact Nat.mod_eq_of_lt (by omega)
    · rw [BasedNumber.add, Bool.or_eq_true, decide_eq_true_eq, test]
      cases before : number.overflow with
      | true =>
        have large := tooBig.mp before
        exact ⟨fun _ => by omega, fun _ => .inl rfl⟩
      | false =>
        rw [exact_value before]
        simp

/-- A number without an error is that of its digits, and one that doesn't fit 64 bits is an error. -/
theorem basedError_spec (positive : 0 < base) (letter : BitVec 8) (digits : Text) :
    (basedError base letter (readDigits base digits) = none →
      (readDigits base digits).value.toNat = valueIn base digits) ∧
    (2 ^ 64 ≤ valueIn base digits → basedError base letter (readDigits base digits) ≠ none) := by
  obtain ⟨count, -, exact_value, tooBig⟩ := readDigits_spec positive digits
  unfold basedError
  split_ifs with nothing bad overflow
  · exact ⟨fun no_error => absurd no_error (by simp), fun _ => by simp⟩
  · exact ⟨fun no_error => absurd no_error (by simp), fun _ => by simp⟩
  · exact ⟨fun no_error => absurd no_error (by simp), fun _ => by simp⟩
  · exact ⟨fun _ => exact_value (Bool.eq_false_iff.mpr overflow), fun large => absurd (tooBig.mpr large) overflow⟩

variable {cur : Cursor} {step : Step} {token : Token} {value : BitVec 64} {isBigger : Bool}

/-- The numbers in base 16, 2 and 8 are right. -/
theorem lexBased_right (zero : cur.peekNextChar = byteOf '0')
    (letter : (asciiBytes "xXbBoO").contains (cur.peekChar 1)) (steps : lexBased cur = some step)
    (pushes : step.token = some token) (is : token.value = .integer value isBigger) :
    literalBase (cur.upTo step.cursor) ≠ 10 ∧ NumberRight (cur.upTo step.cursor) value isBigger step.errors := by
  have some_letter : cur.peekChar 1 ≠ 0 := by
    intro nul
    rw [nul] at letter
    exact absurd letter (by decide)
  obtain ⟨c, tail, rest⟩ := cur.exists_cons (by rw [zero]; decide)
  obtain rfl : c = byteOf '0' := (cur.peekNextChar_cons rest).symm.trans zero
  obtain ⟨x, digits, rfl⟩ : ∃ x digits, tail = x :: digits := by
    have inside := Cursor.lt_of_peekChar_ne some_letter
    rw [rest, List.length_cons] at inside
    exact List.exists_cons_of_length_pos (by omega)
  have second : cur.peekChar 1 = x := by
    rw [Cursor.peekChar, rest]
    rfl
  rw [second] at letter
  have next : (cur.skip 2).rest = digits := by
    rw [Cursor.rest_skip, rest]
    rfl
  set base := if toLower x = byteOf 'x' then 16 else if toLower x = byteOf 'b' then 2 else 8 with is_base
  have positive : 0 < base ∧ base ≠ 10 := by
    rw [is_base]
    split_ifs <;> decide
  obtain ⟨n, le, reads, -⟩ := @readBasedDigits_spec (cur.skip 2) ((cur.skip 2).rest.length + 1) base {}
    (Nat.lt_succ_self _)
  rw [next] at le
  have inside : 2 + n ≤ cur.rest.length := by
    rw [rest, List.length_cons, List.length_cons]
    omega
  unfold lexBased at steps
  rw [second] at steps
  dsimp only at steps
  rw [← is_base, Cursor.eatCharacters_eq (by rw [rest]; simp), Option.bind_eq_bind, Option.bind_some, reads] at steps
  cases steps
  cases pushes
  cases is
  rw [next, Cursor.skip_skip, Cursor.upTo_skip inside]
  have src : cur.rest.take (2 + n) = byteOf '0' :: x :: digits.take n := by
    rw [rest, Nat.add_comm]
    rfl
  have base_of : literalBase (byteOf '0' :: x :: digits.take n) = base := if_pos ⟨rfl, letter⟩
  have digits_of : literalDigits (byteOf '0' :: x :: digits.take n) = (digits.take n).filter (· != byteOf '_') := by
    rw [literalDigits, base_of, if_neg positive.2]
    rfl
  rw [src, base_of]
  refine ⟨positive.2, ?_⟩
  unfold NumberRight literalNumber
  rw [base_of, digits_of]
  obtain ⟨right, error⟩ := basedError_spec positive.1 (toLower x) ((digits.take n).filter (· != byteOf '_'))
  unfold readDigits at right error
  cases found : basedError base (toLower x) (((digits.take n).filter (· != byteOf '_')).foldl
      (fun number c => number.add base (letterNumber c)) {}) with
  | some error =>
    exact ⟨fun no_error => absurd no_error (by simp), fun _ => by simp⟩
  | none =>
    rw [right found]
    exact ⟨fun _ => ⟨rfl, decide_eq_true_iff⟩, fun large => absurd found (error large)⟩

end Based

section Decimal

variable {cur : Cursor} {step : Step} {token : Token} {value : BitVec 64} {isBigger : Bool} {digits : Text}

theorem isDigitOf_ten : ∀ c : BitVec 8, isDigit c = true → isDigitOf 10 c = true := by decide

/-- Digits are read as their number, or as the biggest one. -/
theorem strtoull_digits (all : ∀ c ∈ digits, isDigit c) (nonempty : digits ≠ []) :
    (strtoull 10 digits).1 = if 2 ^ 64 ≤ valueIn 10 digits then 2 ^ 64 - 1 else valueIn 10 digits := by
  obtain ⟨first, others, rfl⟩ := List.exists_cons_of_ne_nil nonempty
  obtain ⟨space, minus, plus⟩ := not_space_or_sign_of_digit first (all first List.mem_cons_self)
  have start : readSign ((first :: others).dropWhile isWhiteSpace) = (false, first :: others) := by
    rw [List.dropWhile_cons_of_neg (by simp [space]), readSign, minus, plus]
    rfl
  have taken : (first :: others).takeWhile (isDigitOf 10) = first :: others :=
    List.takeWhile_eq_self_iff.mpr fun c mem => isDigitOf_ten c (all c mem)
  unfold strtoull
  rw [start]
  simp only [OfNat.ofNat_ne_zero, if_false, taken, List.cons_ne_nil, Bool.false_eq_true]

theorem not_letter_of_digit : ∀ c : BitVec 8, (isDigit c = true ∨ c = byteOf '_') →
    (asciiBytes "xXbBoO").contains c = false := by decide

/-- A literal of digits, and of `_` behind the first one, is a decimal one. -/
theorem literalBase_digits {c : BitVec 8} {others : Text}
    (all : ∀ d ∈ others, isDigit d = true ∨ d = byteOf '_') : literalBase (c :: others) = 10 := by
  apply if_neg
  rintro ⟨-, letter⟩
  cases others with
  | nil => cases letter
  | cons d others =>
    have not_letter := not_letter_of_digit d (all d List.mem_cons_self)
    rw [List.tail_cons, List.head?_cons, Option.any_some, not_letter] at letter
    cases letter

/-- A decimal number is right exactly when it fits 64 bits. -/
theorem lexNumber_right (digit : isDigit cur.peekNextChar) (steps : lexNumber cur = some step)
    (pushes : step.token = some token) (is : token.value = .integer value isBigger) :
    literalBase (cur.upTo step.cursor) = 10 ∧
      (NumberRight (cur.upTo step.cursor) value isBigger step.errors ↔
        literalNumber (cur.upTo step.cursor) < 2 ^ 64) := by
  obtain ⟨c, tail, rest⟩ := cur.exists_cons (isDigit_ne_nul _ digit)
  rw [cur.peekNextChar_cons rest] at digit
  obtain ⟨n, le, eats, chars⟩ := eatDigits_spec (cur.skip 1)
  have next : (cur.skip 1).rest = tail := by
    rw [Cursor.rest_skip, rest]
    rfl
  rw [next] at le
  have others : ∀ d ∈ tail.take n, isDigit d = true ∨ d = byteOf '_' := by
    intro d mem
    obtain ⟨k, lt, rfl⟩ := List.mem_iff_getElem.mp mem
    rw [List.length_take] at lt
    have char := chars k (by omega)
    rw [Cursor.peekChar, next, List.getElem?_eq_getElem (by omega), Option.getD_some] at char
    rwa [List.getElem_take]
  unfold lexNumber at steps
  rw [Cursor.eatCharacter_eq (by rw [rest]; exact Nat.succ_pos _), Option.bind_eq_bind, Option.bind_some, eats,
    Option.bind_some] at steps
  split_ifs at steps with fraction
  · obtain ⟨point, -, steps⟩ := Option.bind_eq_some_iff.mp steps
    obtain ⟨last, -, steps⟩ := Option.bind_eq_some_iff.mp steps
    cases steps
    cases pushes
    cases is
  · cases steps
    cases pushes
    have src : cur.upTo ((cur.skip 1).skip n) = c :: tail.take n := by
      rw [Cursor.skip_skip, Cursor.upTo_skip (by rw [rest, List.length_cons]; omega), rest, Nat.add_comm]
      rfl
    rw [src] at is ⊢
    dsimp only at is ⊢
    have base := @literalBase_digits c _ others
    refine ⟨base, ?_⟩
    have digits : literalDigits (c :: tail.take n) = (c :: tail.take n).filter (· != byteOf '_') := by
      rw [literalDigits, base, if_pos rfl]
    have all : ∀ d ∈ (c :: tail.take n).filter (· != byteOf '_'), isDigit d := by
      intro d mem
      obtain ⟨mem, not_underscore⟩ := List.mem_filter.mp mem
      obtain rfl | mem := List.mem_cons.mp mem
      · exact digit
      · exact (others d mem).resolve_right (bne_iff_ne.mp not_underscore)
    have nonempty : (c :: tail.take n).filter (· != byteOf '_') ≠ [] := by
      have kept : (c != byteOf '_') = true := by
        rw [bne_iff_ne]
        rintro rfl
        exact absurd digit (by decide)
      exact List.ne_nil_of_mem (List.mem_filter.mpr ⟨List.mem_cons_self, kept⟩)
    unfold NumberRight literalNumber
    rw [base, digits]
    rw [integerValue, strtoull_digits all nonempty] at is
    generalize valueIn 10 ((c :: tail.take n).filter (· != byteOf '_')) = number at is ⊢
    cases is
    constructor
    · rintro ⟨-, error⟩
      by_contra large
      exact error (by omega) rfl
    · intro fits
      rw [if_neg (by omega)]
      refine ⟨fun _ => ⟨?_, decide_eq_true_iff⟩, fun large => absurd fits (by omega)⟩
      rw [BitVec.toNat_ofNat, Nat.mod_eq_of_lt fits]

end Decimal

section Turns

variable {cur : Cursor} {step : Step} {token : Token} {value : BitVec 64} {isBigger afterDot : Bool}

/-- A turn at a digit reads a number. -/
theorem lexStep_digit (digit : isDigit cur.peekNextChar) : lexStep afterDot cur =
    if cur.peekNextChar = byteOf '0' ∧ (asciiBytes "xXbBoO").contains (cur.peekChar 1) then lexBased cur
    else lexNumber cur := by
  have not_blank : ¬(cur.peekNextChar = byteOf ' ' ∨ cur.peekNextChar = byteOf '\t' ∨ cur.peekNextChar = byteOf '\n') := by
    rintro (blank | blank | blank)
    all_goals
      rw [blank] at digit
      exact absurd digit (by decide)
  have not_comment : ¬(cur.peekNextChar = byteOf '/' ∧ cur.peekChar 1 = byteOf '/') := by
    rintro ⟨slash, -⟩
    rw [slash] at digit
    exact absurd digit (by decide)
  unfold lexStep
  dsimp only
  rw [if_neg not_blank, if_neg not_comment, if_pos digit]

theorem number_right_iff (digit : isDigit cur.peekNextChar) (steps : lexStep afterDot cur = some step)
    (pushes : step.token = some token) (is : token.value = .integer value isBigger) :
    NumberRight (cur.upTo step.cursor) value isBigger step.errors ↔
      (literalBase (cur.upTo step.cursor) = 10 → literalNumber (cur.upTo step.cursor) < 2 ^ 64) := by
  rw [lexStep_digit digit] at steps
  split_ifs at steps with based
  · obtain ⟨base, right⟩ := lexBased_right based.1 based.2 steps pushes is
    exact ⟨fun _ ten => absurd ten base, fun _ => right⟩
  · obtain ⟨base, right⟩ := lexNumber_right digit steps pushes is
    rw [right]
    exact ⟨fun fits _ => fits, fun fits => fits base⟩

end Turns

/-- A number that starts at a digit of a text is right exactly when it isn't a decimal one of more than 64 bits. -/
theorem numberLiteral_right_iff {cur : Cursor} {step : Step} {token : Token} {value : BitVec 64} {afterDot isBigger : Bool}
    (digit : isDigit cur.peekNextChar) (steps : lexStep afterDot cur = some step) (pushes : step.token = some token)
    (is : token.value = .integer value isBigger) :
    NumberRight (cur.upTo step.cursor) value isBigger step.errors ↔
      (literalBase (cur.upTo step.cursor) = 10 → literalNumber (cur.upTo step.cursor) < 2 ^ 64) :=
  number_right_iff digit steps pushes is

/-- The number 42. -/
theorem numberLiteral_right_small :
    NumberRight ((⟨[52, 50], ⟨0, 1, 1⟩⟩ : Cursor).upTo ⟨[], ⟨2, 1, 3⟩⟩) 42 false [] ↔
      (literalBase ((⟨[52, 50], ⟨0, 1, 1⟩⟩ : Cursor).upTo ⟨[], ⟨2, 1, 3⟩⟩) = 10 →
        literalNumber ((⟨[52, 50], ⟨0, 1, 1⟩⟩ : Cursor).upTo ⟨[], ⟨2, 1, 3⟩⟩) < 2 ^ 64) :=
  @numberLiteral_right_iff ⟨[52, 50], ⟨0, 1, 1⟩⟩
    ⟨⟨[], ⟨2, 1, 3⟩⟩, some ⟨.integer, ⟨0, 1, 1⟩, ⟨2, 1, 3⟩, .integer 42 false⟩, []⟩ _ 42 false false (by decide) rfl rfl
    rfl

/-- The number 2 ^ 64 is accepted in base 10. -/
theorem numberLiteral_not_right : ¬∀ (cur : Cursor) (step : Step) (token : Token) (value : BitVec 64)
    (afterDot isBigger : Bool), isDigit cur.peekNextChar → lexStep afterDot cur = some step → step.token = some token →
    token.value = .integer value isBigger → NumberRight (cur.upTo step.cursor) value isBigger step.errors := by
  intro all
  have right := all ⟨asciiBytes "18446744073709551616", ⟨0, 1, 1⟩⟩
    ⟨⟨[], ⟨20, 1, 21⟩⟩, some ⟨.integer, ⟨0, 1, 1⟩, ⟨20, 1, 21⟩, .integer (-1) true⟩, []⟩ _ _ false _ (by decide) rfl rfl rfl
  exact right.2 (by decide) rfl

end Saad.Lexer
