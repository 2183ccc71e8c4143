import Saad.Dbms.ReadsBack
import Saad.General.Binary64
import Saad.Json.Decode
import Saad.Json.ParseComplete

/-! # Integers from how a number is written

`assignInteger` reads the digits of a number. A number with a fraction or an exponent goes through a float of 64 bits.
The kinds of integers and the writing of their bits are the ones that `readInteger` has for columns.
-/

namespace Saad.Json

open General Dbms

section Numbers

def behindSign (text : Text) : Text := if peek text = byteOf '-' then text.drop 1 else text

def wholeDigits (text : Text) : Text := (behindSign text).takeWhile isDigit

/-- The fraction and the exponent. -/
def behindWhole (text : Text) : Text := (behindSign text).dropWhile isDigit

def exponentOf (text : Text) : ℤ :=
  if peek text = byteOf '-' then -digitsValue (text.drop 1)
  else if peek text = byteOf '+' then digitsValue (text.drop 1)
  else digitsValue text

/-- The number that a text stands for. -/
def denoted (text : Text) : ℚ :=
  let behind := behindWhole text
  let pointed := peek behind = byteOf '.'
  let decimals := if pointed then (behind.drop 1).takeWhile isDigit else []
  let exponent := if pointed then (behind.drop 1).dropWhile isDigit else behind
  (if peek text = byteOf '-' then -1 else 1) * digitsValue (wholeDigits text ++ decimals) *
    10 ^ (exponentOf (exponent.drop 1) - decimals.length)

/-- The number as `strtod` rounds it. -/
def parseF64 (text : Text) : Binary64 := .round (peek text = byteOf '-') (denoted text)

end Numbers

section Assigning

/-- The loop over the characters: the magnitude, and if all of them were read. None is a magnitude that is too big. -/
def scanMagnitude : ℕ → Text → Option (ℕ × Bool)
  | magnitude, [] => some (magnitude, true)
  | magnitude, ch :: text =>
    if ch = byteOf '-' then scanMagnitude magnitude text
    else if !isDigit ch then some (magnitude, false)
    else if magnitude > (18446744073709551615 - digitNumber ch) / 10 then none
    else scanMagnitude (magnitude * 10 + digitNumber ch) text

/-- The range of the type, and the write. -/
def assignMagnitude (text : Text) (negative : Bool) (magnitude : ℕ) (kind : Primitive) (data : kind.Bits)
    (path : Text) : kind.Bits × Text :=
  if fits kind negative magnitude then
    (writeBits kind (if negative then 0 - BitVec.ofNat 64 magnitude else BitVec.ofNat 64 magnitude), [])
  else (data, failAt path (text ++ asciiBytes " doesn't fit in a " ++ kind.name))

/-- The memory afterwards, and an error that is empty when there is none. -/
def assignInteger (text : Text) (number : Binary64) (kind : Primitive) (data : kind.Bits) (path : Text) :
    kind.Bits × Text :=
  match scanMagnitude 0 text with
  | none => (data, failAt path (text ++ asciiBytes " is too big for a " ++ kind.name))
  | some (magnitude, true) => assignMagnitude text (text.head? = some (byteOf '-')) magnitude kind data path
  | some (_, false) =>
    -- 1.0 or 2e3
    if !number.equal (.ofInt number.toInt64) then
      (data, failAt path (text ++ asciiBytes " is not a whole number, as a " ++ kind.name ++ asciiBytes " must be"))
    else
      let negative := number.less (.finite 0)
      let magnitude := (if negative then number.neg else number).toUInt64
      assignMagnitude text negative magnitude.toNat kind data path

end Assigning

section Specification

variable (kind : Primitive) (text : Text) (data : kind.Bits) (path : Text)

/-- The integers of the type are written, and everything else is an error that leaves the memory as it was. -/
structure AssignsInteger : Prop where
  assigns : ∀ n : ℤ, denoted text = n → kind.InRange n →
    (assignInteger text (parseF64 text) kind data path).2 = [] ∧
      kind.valueOf (assignInteger text (parseF64 text) kind data path).1 = n
  refuses : (¬∃ n : ℤ, denoted text = n ∧ kind.InRange n) →
    (assignInteger text (parseF64 text) kind data path).2 ≠ [] ∧
      (assignInteger text (parseF64 text) kind data path).1 = data

/-- What the way over the float needs. -/
structure FloatServes : Prop where
  /-- An integer of the type is a float, and neither it nor the digits in front of the point are too big. -/
  reaches : ∀ n : ℤ, denoted text = n → kind.InRange n →
    digitsValue (wholeDigits text) < 2 ^ 64 ∧ n < 2 ^ 63 ∧ nearest n = n
  /-- Nothing else is rounded to an integer of the type. -/
  only : ∀ n : ℤ, kind.InRange n → digitsValue (wholeDigits text) < 2 ^ 64 → n < 2 ^ 63 →
    nearest (denoted text) = n → denoted text = n

end Specification

section Outcomes

variable {kind : Primitive} {data : kind.Bits} {wanted : ℤ → Prop} {result : kind.Bits × Text} {text : Text}

/-- The wanted number is written, or there is none in the range of the type. -/
def Outcome (kind : Primitive) (data : kind.Bits) (wanted : ℤ → Prop) (result : kind.Bits × Text) : Prop :=
  (∃ n, wanted n ∧ kind.InRange n ∧ result = (BitVec.ofInt (8 * kind.size) n, [])) ∨
    (∀ n, wanted n → ¬kind.InRange n) ∧ result.1 = data ∧ result.2 ≠ []

theorem failAt_ne_nil {message : Text} (path : Text) (nonempty : message ≠ []) : failAt path message ≠ [] := by
  rw [failAt]
  split
  · exact nonempty
  · exact List.append_ne_nil_of_right_ne_nil _ nonempty

theorem refused {message : Text} (path : Text) (nonempty : message ≠ []) (none_ : ∀ n, wanted n → ¬kind.InRange n) :
    Outcome kind data wanted (data, failAt path message) :=
  .inr ⟨none_, rfl, failAt_ne_nil path nonempty⟩

theorem name_ne_nil (kind : Primitive) : kind.name ≠ [] := by
  cases kind <;> decide

theorem assignMagnitude_outcome (text : Text) (negative : Bool) (magnitude : ℕ) (kind : Primitive)
    (data : kind.Bits) (path : Text) :
    Outcome kind data (fun n => n = if negative then -(magnitude : ℤ) else magnitude)
      (assignMagnitude text negative magnitude kind data path) := by
  rw [assignMagnitude]
  by_cases fit : fits kind negative magnitude = true
  · rw [if_pos fit]
    refine .inl ⟨_, rfl, (fits_iff kind negative magnitude).mp fit, ?_⟩
    rw [← writeBits_ofInt]
    cases negative
    · rfl
    · rw [if_pos rfl, if_pos rfl, BitVec.ofInt_neg, BitVec.ofInt_natCast]
      congr
  · rw [if_neg fit]
    apply refused path (List.append_ne_nil_of_right_ne_nil _ (name_ne_nil kind))
    rintro n rfl range
    exact fit ((fits_iff kind negative magnitude).mpr range)

/-- The outcome is right when the number that it is for is the one that the text stands for. -/
theorem Outcome.right_iff {path : Text} (single : ∀ m n, wanted m → wanted n → m = n)
    (outcome : Outcome kind data wanted (assignInteger text (parseF64 text) kind data path)) :
    AssignsInteger kind text data path ↔ ∀ n : ℤ, kind.InRange n → (wanted n ↔ denoted text = n) := by
  obtain ⟨m, is_wanted, range, result⟩ | ⟨none_, unchanged, err⟩ := outcome
  · constructor
    · rintro ⟨assigns, refuses⟩ n range_n
      rw [result] at assigns refuses
      have stands : denoted text = m := by
        by_contra other
        by_cases exists_ : ∃ n : ℤ, denoted text = n ∧ kind.InRange n
        · obtain ⟨k, is, range_k⟩ := exists_
          have value := (assigns k is range_k).2
          rw [valueOf_ofInt range] at value
          exact other (value ▸ is)
        · exact (refuses exists_).1 rfl
      constructor
      · intro wants
        rw [single n m wants is_wanted]
        exact stands
      · intro is
        rw [stands, Int.cast_inj] at is
        exact is ▸ is_wanted
    · intro agrees
      have stands := (agrees m range).mp is_wanted
      constructor
      · intro n is _
        rw [stands, Int.cast_inj] at is
        rw [result]
        exact ⟨rfl, (valueOf_ofInt range).trans is⟩
      · intro none_
        exact absurd ⟨m, stands, range⟩ none_
  · constructor
    · rintro ⟨assigns, -⟩ n range
      constructor
      · intro wants
        exact absurd range (none_ n wants)
      · intro is
        exact absurd (assigns n is range).1 err
    · intro agrees
      constructor
      · intro n is range
        exact absurd range (none_ n ((agrees n range).mpr is))
      · intro _
        exact ⟨err, unchanged⟩

end Outcomes

section Reading

variable {kind : Primitive} {data : kind.Bits} {text digits : Text} {path : Text}

theorem scanMagnitude_append {magnitude : ℕ} (small : magnitude < 2 ^ 64) (all : ∀ c ∈ digits, isDigit c = true)
    (rest : Text) :
    scanMagnitude magnitude (digits ++ rest) =
      if magnitude * 10 ^ digits.length + digitsValue digits < 2 ^ 64 then
        scanMagnitude (magnitude * 10 ^ digits.length + digitsValue digits) rest
      else none := by
  induction digits generalizing magnitude with
  | nil => rw [List.length_nil, pow_zero, mul_one, digitsValue_nil, add_zero, if_pos small, List.nil_append]
  | cons c digits ih =>
    obtain ⟨digit, others⟩ := List.forall_mem_cons.mp all
    have lt := digitNumber_lt digit
    have no_minus : c ≠ byteOf '-' := by
      rintro rfl
      cases digit
    have next := digitsValue_step magnitude c digits
    rw [List.cons_append, scanMagnitude, if_neg no_minus, if_neg (by simp [digit])]
    by_cases big : magnitude > (18446744073709551615 - digitNumber c) / 10
    · have least := ((Nat.le_mul_of_pos_right (magnitude * 10 + digitNumber c)
        (show 0 < 10 ^ digits.length by positivity)).trans (Nat.le_add_right _ _)).trans_eq next
      rw [if_pos big, if_neg (by omega)]
    · rw [if_neg big, ih (by omega) others, next]

theorem Integer.all (integer : Integer text) : text ≠ [] ∧ ∀ c ∈ text, isDigit c = true := by
  cases integer with
  | zero => decide
  | digits ch rest digit _ others => exact ⟨List.cons_ne_nil _ _, List.forall_mem_cons.mpr ⟨digit, others⟩⟩

/-- Behind the digits of a number is a point or the letter of the exponent. -/
theorem Number.behindWhole (number : Number text) :
    isDigit (peek (behindWhole text)) = false ∧ peek (Json.behindWhole text) ≠ byteOf '-' := by
  cases number with
  | mk sign integer fraction exponent signed is_integer is_fraction is_exponent =>
    obtain ⟨nonempty, all⟩ := is_integer.all
    have start := Digits.peek ⟨nonempty, all⟩ (fraction ++ exponent)
    have sign_off : behindSign (sign ++ integer ++ fraction ++ exponent) = integer ++ (fraction ++ exponent) := by
      rw [List.append_assoc, List.append_assoc, behindSign]
      rcases signed with rfl | rfl
      · rw [List.nil_append, if_neg]
        intro minus
        rw [minus] at start
        cases start
      · rfl
    have no_digit := is_fraction.peek (by simpa using (is_exponent.peek numberEnds_nil).1)
    rw [Json.behindWhole, sign_off, dropWhile_digits all no_digit]
    refine ⟨no_digit, ?_⟩
    cases is_fraction with
    | none =>
      cases is_exponent with
      | none => decide
      | digits e sign text known _ _ =>
        rcases known with rfl | rfl
        · exact (by decide : byteOf 'e' ≠ byteOf '-')
        · exact (by decide : byteOf 'E' ≠ byteOf '-')
    | digits _ _ => exact (by decide : byteOf '.' ≠ byteOf '-')

theorem scanMagnitude_number (number : Number text) :
    scanMagnitude 0 text =
      if digitsValue (wholeDigits text) < 2 ^ 64 then
        some (digitsValue (wholeDigits text), decide (behindWhole text = []))
      else none := by
  obtain ⟨no_digit, no_minus⟩ := number.behindWhole
  have sign_off : scanMagnitude 0 text = scanMagnitude 0 (wholeDigits text ++ behindWhole text) := by
    rw [wholeDigits, behindWhole, List.takeWhile_append_dropWhile, behindSign]
    split
    · next minus =>
      obtain ⟨rest, rfl⟩ := (peek_eq_iff (by decide)).mp minus
      rfl
    · rfl
  rw [sign_off, @scanMagnitude_append (wholeDigits text) 0 (by decide) (takeWhile_digits _), Nat.zero_mul, Nat.zero_add]
  congr
  cases behind : behindWhole text with
  | nil => rfl
  | cons ch rest =>
    rw [behind, peek_cons] at no_digit no_minus
    rw [scanMagnitude, if_neg no_minus, no_digit]
    rfl

theorem bounds_of_inRange {n : ℤ} (range : kind.InRange n) : -2 ^ 63 ≤ n ∧ n < 2 ^ 64 := by
  rw [Primitive.InRange] at range
  cases kind <;> simp [Primitive.unsigned, Primitive.size] at range <;> omega

theorem assignInteger_plain (number : Number text) (plain : behindWhole text = []) (float : Binary64) :
    Outcome kind data (fun n => denoted text = n) (assignInteger text float kind data path) := by
  have minus : text.head? = some (byteOf '-') ↔ peek text = byteOf '-' := by
    cases text with
    | nil => decide
    | cons c text => rw [List.head?_cons, Option.some_inj, peek_cons]
  have same : (fun n : ℤ => denoted text = n) = fun n => n = if decide (text.head? = some (byteOf '-')) then
      -(digitsValue (wholeDigits text) : ℤ) else digitsValue (wholeDigits text) := by
    funext n
    rw [denoted, plain, eq_comm (a := n), ← Int.cast_inj (α := ℚ)]
    simp [peek, exponentOf, minus]
  rw [assignInteger, scanMagnitude_number number, plain]
  by_cases small : digitsValue (wholeDigits text) < 2 ^ 64
  · rw [if_pos small, same]
    exact assignMagnitude_outcome ..
  · rw [if_neg small]
    apply refused path (List.append_ne_nil_of_right_ne_nil _ (name_ne_nil kind))
    intro n is range
    have bounds := bounds_of_inRange range
    rw [congrFun same n] at is
    split at is <;> omega

theorem assignInteger_float (number : Number text) (behind : behindWhole text ≠ []) :
    Outcome kind data
      (fun n => digitsValue (wholeDigits text) < 2 ^ 64 ∧ n < 2 ^ 63 ∧ nearest (denoted text) = n)
      (assignInteger text (parseF64 text) kind data path) := by
  rw [assignInteger, scanMagnitude_number number, decide_eq_false behind]
  by_cases small : digitsValue (wholeDigits text) < 2 ^ 64
  · rw [if_pos small]
    dsimp only
    have cut := Binary64.equal_toInt64_iff (peek text = byteOf '-') (denoted text)
    rw [← parseF64] at cut
    by_cases whole : (parseF64 text).equal (.ofInt (parseF64 text).toInt64) = true
    · obtain ⟨n, least, most, is⟩ := cut.mp whole
      have value : (parseF64 text).value = some (n : ℚ) := Binary64.value_of_nearest _ is least most
      have magnitude : (if decide (n < 0) then (parseF64 text).neg else parseF64 text).toUInt64.toNat = n.natAbs := by
        by_cases negative : n < 0
        · rw [if_pos (decide_eq_true negative),
            Binary64.toUInt64_of_value (Binary64.value_neg value) (by omega) (by omega), BitVec.toNat_ofInt]
          omega
        · rw [if_neg (by simpa using negative), Binary64.toUInt64_of_value value (by omega) (by omega),
            BitVec.toNat_ofInt]
          omega
      have same : (fun m : ℤ => digitsValue (wholeDigits text) < 2 ^ 64 ∧ m < 2 ^ 63 ∧ nearest (denoted text) = m) =
          fun m => m = if decide (n < 0) then -(n.natAbs : ℤ) else n.natAbs := by
        funext m
        rw [is, Int.cast_inj]
        simp only [decide_eq_true_eq, eq_iff_iff]
        split <;> omega
      rw [whole, Binary64.less_zero value, magnitude, same]
      exact assignMagnitude_outcome ..
    · rw [eq_false_of_ne_true whole]
      apply refused path (List.append_ne_nil_of_right_ne_nil _ (by decide))
      rintro n ⟨-, most, is⟩ range
      exact whole (cut.mpr ⟨n, (bounds_of_inRange range).1, most, is⟩)
  · rw [if_neg small]
    apply refused path (List.append_ne_nil_of_right_ne_nil _ (name_ne_nil kind))
    exact fun n wants _ => small wants.1

end Reading

end Saad.Json
