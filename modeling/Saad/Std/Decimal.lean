import Saad.Std.Int32
import Saad.Std.Text

/-! # The value of decimal digits -/

namespace Saad

/-- The number of a digit, `c - '0'`. -/
def digitNumber (c : BitVec 8) : ℕ := (c - byteOf '0').toNat

/-- The value of decimal digits. -/
def digitsValue (digits : Text) : ℕ := digits.foldl (fun n c => n * 10 + digitNumber c) 0

section Digits

variable {c : BitVec 8} {digits rest : Text} {n : ℕ}

theorem digitNumber_lt (digit : isDigit c = true) : digitNumber c < 10 := by
  have all : ∀ c : BitVec 8, isDigit c = true → digitNumber c < 10 := by decide
  exact all c digit

theorem foldl_digits_eq (digits : Text) (start : ℕ) :
    digits.foldl (fun n c => n * 10 + digitNumber c) start =
      start * 10 ^ digits.length + digitsValue digits := by
  induction digits generalizing start with
  | nil => simp [digitsValue]
  | cons c digits ih =>
    rw [digitsValue, List.foldl_cons, List.foldl_cons, ih, ih (0 * 10 + digitNumber c), List.length_cons]
    ring

@[simp] theorem digitsValue_nil : digitsValue [] = 0 := rfl

theorem digitsValue_cons (c : BitVec 8) (digits : Text) :
    digitsValue (c :: digits) = digitNumber c * 10 ^ digits.length + digitsValue digits := by
  rw [digitsValue, List.foldl_cons, foldl_digits_eq]
  simp

/-- A digit is read onto the value in front of it. -/
theorem digitsValue_step (start : ℕ) (c : BitVec 8) (digits : Text) :
    (start * 10 + digitNumber c) * 10 ^ digits.length + digitsValue digits =
      start * 10 ^ (c :: digits).length + digitsValue (c :: digits) := by
  rw [digitsValue_cons, List.length_cons]
  ring

theorem digitsValue_lt (all : ∀ c ∈ digits, isDigit c = true) :
    digitsValue digits < 10 ^ digits.length := by
  induction digits with
  | nil => simp
  | cons c digits ih =>
    obtain ⟨digit, others⟩ := List.forall_mem_cons.mp all
    have lt := digitNumber_lt digit
    have behind := ih others
    rw [digitsValue_cons, List.length_cons, pow_succ]
    calc digitNumber c * 10 ^ digits.length + digitsValue digits
        < digitNumber c * 10 ^ digits.length + 10 ^ digits.length := by omega
      _ = (digitNumber c + 1) * 10 ^ digits.length := by ring
      _ ≤ 10 * 10 ^ digits.length := Nat.mul_le_mul_right _ lt
      _ = 10 ^ digits.length * 10 := Nat.mul_comm _ _

theorem digitsValue_zeros (count : ℕ) (digits : Text) :
    digitsValue (List.replicate count (byteOf '0') ++ digits) = digitsValue digits := by
  induction count with
  | zero => rfl
  | succ count ih =>
    rw [List.replicate_succ, List.cons_append, digitsValue_cons, ih]
    have zero : digitNumber (byteOf '0') = 0 := by decide
    rw [zero, Nat.zero_mul, Nat.zero_add]

theorem isDigit_of_mem_decimalText (member : c ∈ decimalText n) : isDigit c = true := by
  have bounds := digit_of_mem_decimalText member
  have all : ∀ c : BitVec 8, 48 ≤ c.toNat → c.toNat ≤ 57 → isDigit c = true := by decide
  exact all c bounds.1 bounds.2

theorem digitsValue_decimalText (n : ℕ) : digitsValue (decimalText n) = n := by
  have chars (cs : List Char) (bounds : ∀ c ∈ cs, 48 ≤ c.toNat ∧ c.toNat ≤ 57) (start : ℕ) :
      (cs.map byteOf).foldl (fun n c => n * 10 + digitNumber c) start = Nat.ofDigitChars 10 cs start := by
    induction cs generalizing start with
    | nil => rfl
    | cons c cs ih =>
      obtain ⟨now, later⟩ := List.forall_mem_cons.mp bounds
      have number : digitNumber (byteOf c) = c.toNat - '0'.toNat := by
        have zero : '0'.toNat = 48 := rfl
        rw [digitNumber, byteOf, byteOf, zero, BitVec.toNat_sub, BitVec.toNat_ofNat, BitVec.toNat_ofNat]
        omega
      rw [List.map_cons, List.foldl_cons, ih later, Nat.ofDigitChars_cons, number, Nat.mul_comm]
  rw [digitsValue, decimalText, asciiBytes, toList_toString]
  exact (chars _ (fun c member => toNat_of_mem_digits member) 0).trans Nat.ofDigitChars_ten_toDigits

theorem byteOf_digitChar {digit : ℕ} (small : digit < 10) :
    byteOf digit.digitChar = BitVec.ofNat 8 digit + byteOf '0' := by
  have all : ∀ digit < 10, byteOf (Nat.digitChar digit) = BitVec.ofNat 8 digit + byteOf '0' := by decide
  exact all digit small

theorem decimalText_of_small (small : n < 10) : decimalText n = [BitVec.ofNat 8 n + byteOf '0'] := by
  rw [← byteOf_digitChar small, decimalText, asciiBytes, toList_toString, Nat.toDigits_of_lt_base small]
  rfl

theorem decimalText_of_big (big : 10 ≤ n) :
    decimalText n = decimalText (n / 10) ++ [BitVec.ofNat 8 (n % 10) + byteOf '0'] := by
  rw [← byteOf_digitChar (Nat.mod_lt n (by decide))]
  simp only [decimalText, asciiBytes, toList_toString]
  rw [Nat.toDigits_of_base_le (by decide) big, List.map_append]
  rfl

end Digits

end Saad

/-! # The C functions that read numbers

`strtoull` and `atoi` leave out blanks in front of a number and read up to the first byte that isn't
a digit of it.
-/

namespace Saad

/-- What `isspace` takes. -/
def isWhiteSpace (c : BitVec 8) : Bool := c == 0x20 || (0x09 ≤ c && c ≤ 0x0D)

/-- The value of a digit or letter in a base of up to 36, and 36 for other bytes. -/
def letterNumber (c : BitVec 8) : ℕ :=
  if isDigit c then (c - byteOf '0').toNat
  else if isLower c then (c - byteOf 'a').toNat + 10
  else if isUpper c then (c - byteOf 'A').toNat + 10
  else 36

def isDigitOf (base : ℕ) (c : BitVec 8) : Bool := letterNumber c < base

/-- The number that digits are in a base. -/
def valueIn (base : ℕ) (digits : Text) : ℕ := digits.foldl (fun n c => n * base + letterNumber c) 0

/-- If a minus or plus is in front of the number, and what is behind it. -/
def readSign : Text → Bool × Text
  | [] => (false, [])
  | c :: rest =>
    if c == byteOf '-' then (true, rest) else if c == byteOf '+' then (false, rest)
    else (false, c :: rest)

/-- The base that the start of a number says, and what is behind that start. -/
def readBase (text : Text) : ℕ × Text :=
  if text.head? = some (byteOf '0') then
    if (text.tail.head?.any fun c => toLower c == byteOf 'x') && text.tail.tail.head?.any isHexDigit then
      (16, text.drop 2)
    else (8, text)
  else (10, text)

/-- The number at the start of a text, and what is behind it. A base of 0 is what the number says. A
number that is too big becomes the biggest one. -/
def strtoull (base : ℕ) (text : Text) : ℕ × Text :=
  let (negative, number) := readSign (text.dropWhile isWhiteSpace)
  let (base, number) := if base = 0 then readBase number else (base, number)
  let digits := number.takeWhile (isDigitOf base)
  if digits = [] then (0, text)
  else
    let value := valueIn base digits
    (if 2 ^ 64 ≤ value then 2 ^ 64 - 1 else if negative then (2 ^ 64 - value) % 2 ^ 64 else value,
      number.drop digits.length)

/-- The number at the start of a text, as an `int`. -/
def atoi (text : Text) : ℤ :=
  let (negative, number) := readSign (text.dropWhile isWhiteSpace)
  let value : ℤ := digitsValue (number.takeWhile isDigit)
  int32 (if negative then -value else value)

/-- The first place of a text in another one and what is behind it. -/
def strstr (text part : Text) : Option Text := text.tails.find? part.isPrefixOf

section Digits

variable {n : ℕ} {rest : Text}

theorem not_space_or_sign_of_digit : ∀ c : BitVec 8, isDigit c = true →
    isWhiteSpace c = false ∧ (c == byteOf '-') = false ∧ (c == byteOf '+') = false := by
  decide

/-- The digits of a number, as far as something else begins. -/
theorem takeWhile_decimalText (n : ℕ) (ends : rest.head?.all fun c => !isDigit c) :
    (decimalText n ++ rest).takeWhile isDigit = decimalText n := by
  have none_behind : rest.takeWhile isDigit = [] := by
    cases rest with
    | nil => rfl
    | cons c rest =>
      apply List.takeWhile_cons_of_neg
      simpa using ends
  rw [List.takeWhile_append_of_pos fun c member => isDigit_of_mem_decimalText member, none_behind,
    List.append_nil]

/-- A number that `%d` wrote is read back. -/
theorem atoi_decimalText (fits : n < 2 ^ 31) (ends : rest.head?.all fun c => !isDigit c) :
    atoi (decimalText n ++ rest) = n := by
  obtain ⟨first, digits, text⟩ := List.exists_cons_of_ne_nil (decimalText_ne_nil n)
  have digit : isDigit first = true := by
    apply isDigit_of_mem_decimalText (n := n)
    rw [text]
    exact List.mem_cons_self
  obtain ⟨space, minus, plus⟩ := not_space_or_sign_of_digit first digit
  have start : readSign ((decimalText n ++ rest).dropWhile isWhiteSpace) = (false, decimalText n ++ rest) := by
    rw [text, List.cons_append, List.dropWhile_cons_of_neg (by simp [space]), readSign, minus, plus]
    rfl
  rw [atoi, start]
  simp only [takeWhile_decimalText n ends, digitsValue_decimalText]
  exact int32_of_fits (by omega) (by omega)

end Digits

/-- The start of a text doesn't matter if the part can't begin there. -/
theorem strstr_append {c : BitVec 8} {before text part : Text} (free : c ∉ before) :
    strstr (before ++ text) (c :: part) = strstr text (c :: part) := by
  induction before with
  | nil => rfl
  | cons first before ih =>
    obtain ⟨different, free⟩ := List.ne_and_not_mem_of_not_mem_cons free
    have later : (c :: part).isPrefixOf (first :: (before ++ text)) = false := by
      simp [List.isPrefixOf, different]
    rw [List.cons_append, strstr, List.tails_cons, List.find?_cons, later]
    exact ih free

end Saad
