import Mathlib.Data.List.TakeWhile
import Saad.Json.Parse

/-! # Spaces, words and numbers are skipped as the grammar says

The grammar may stop at any place of a run of spaces or of digits, the parser goes to the end of it.
What comes behind a number in a JSON text can't continue it.
-/

namespace Saad.Json

section Spaces

variable {text rest : Text}

theorem spaces_skipSpace (text : Text) : Spaces text (skipSpace text) := by
  induction text with
  | nil => exact .nil []
  | cons ch text ih =>
    rw [skipSpace, List.dropWhile_cons]
    split
    · next space => exact .cons ch text _ space ih
    · exact .nil _

theorem Spaces.skipSpace_eq (spaces : Spaces text rest) : skipSpace text = skipSpace rest := by
  induction spaces with
  | nil rest => rfl
  | cons ch text rest space spaces ih =>
    rw [skipSpace, List.dropWhile_cons, if_pos space]
    exact ih

theorem Spaces.trans {behind : Text} (spaces : Spaces text rest) (more : Spaces rest behind) :
    Spaces text behind := by
  induction spaces with
  | nil rest => exact more
  | cons ch text rest space spaces ih => exact .cons ch text behind space (ih more)

theorem Spaces.length_le (spaces : Spaces text rest) : rest.length ≤ text.length := by
  induction spaces with
  | nil rest => exact Nat.le_refl _
  | cons ch text rest space spaces ih => exact Nat.le_succ_of_le ih

theorem skipSpace_cons {ch : BitVec 8} (no_space : isSpace ch = false) (rest : Text) :
    skipSpace (ch :: rest) = ch :: rest := by
  rw [skipSpace, List.dropWhile_cons, no_space]
  rfl

theorem length_skipSpace_le (text : Text) : (skipSpace text).length ≤ text.length :=
  (spaces_skipSpace text).length_le

/-- A character that is there is not the 0 of the end. -/
theorem peek_eq_iff {ch : BitVec 8} (no_end : ch ≠ 0) :
    peek rest = ch ↔ ∃ behind, rest = ch :: behind := by
  cases rest with
  | nil =>
    constructor
    · intro same
      exact absurd same.symm no_end
    · rintro ⟨behind, same⟩
      cases same
  | cons first behind =>
    constructor
    · intro same
      exact ⟨behind, by rw [← same]; rfl⟩
    · rintro ⟨other, same⟩
      rw [same]
      rfl

theorem isDigit_peek_iff : isDigit (peek rest) = true ↔
    ∃ ch behind, rest = ch :: behind ∧ isDigit ch = true := by
  cases rest with
  | nil => simp [peek, isDigit, byteOf]
  | cons ch behind => simp [peek]

end Spaces

section Numbers

variable {text rest behind : Text}

/-- What can't continue a number. -/
def NumberEnds (rest : Text) : Prop :=
  isDigit (peek rest) = false ∧ peek rest ≠ byteOf '.' ∧ peek rest ≠ byteOf 'e' ∧
    peek rest ≠ byteOf 'E'

theorem dropWhile_digits (digits : ∀ c ∈ text, isDigit c = true)
    (ends : isDigit (peek rest) = false) : (text ++ rest).dropWhile isDigit = rest := by
  rw [List.dropWhile_append_of_pos digits]
  cases rest with
  | nil => rfl
  | cons ch rest => rw [List.dropWhile_cons, if_neg (by simpa [peek] using ends)]

theorem takeWhile_digits (rest : Text) : ∀ c ∈ rest.takeWhile isDigit, isDigit c = true :=
  fun _ member => List.mem_takeWhile_imp member

/-- The digits that are skipped. -/
theorem digits_of_peek (digit : isDigit (peek rest) = true) :
    ∃ text, Digits text ∧ rest = text ++ rest.dropWhile isDigit := by
  obtain ⟨ch, more, rfl, first⟩ := isDigit_peek_iff.mp digit
  refine ⟨(ch :: more).takeWhile isDigit, ⟨?_, takeWhile_digits _⟩,
    (List.takeWhile_append_dropWhile).symm⟩
  rw [List.takeWhile_cons, if_pos first]
  exact List.cons_ne_nil _ _

theorem Digits.peek (digits : Digits text) (rest : Text) : isDigit (peek (text ++ rest)) = true := by
  obtain ⟨nonempty, digits⟩ := digits
  cases text with
  | nil => exact absurd rfl nonempty
  | cons ch text => exact digits ch List.mem_cons_self

theorem skipInteger_ok (skips : skipInteger rest = .ok behind) :
    ∃ text, Integer text ∧ rest = text ++ behind := by
  rw [skipInteger] at skips
  split at skips
  · next zero =>
    obtain ⟨more, rfl⟩ := (peek_eq_iff (by decide)).mp zero
    obtain rfl := Except.ok.inj skips
    exact ⟨[byteOf '0'], .zero, rfl⟩
  · next no_zero =>
    split at skips
    · next digit =>
      obtain rfl := Except.ok.inj skips
      obtain ⟨ch, more, rfl, first⟩ := isDigit_peek_iff.mp digit
      refine ⟨ch :: more.takeWhile isDigit, .digits ch _ first no_zero (takeWhile_digits more), ?_⟩
      rw [List.dropWhile_cons, if_pos first, List.cons_append, List.takeWhile_append_dropWhile]
    · cases skips

theorem skipInteger_of_integer (integer : Integer text) (ends : isDigit (peek rest) = false) :
    skipInteger (text ++ rest) = .ok rest := by
  cases integer with
  | zero => rfl
  | digits ch more digit no_zero digits =>
    have no_first : ¬peek (ch :: more ++ rest) = byteOf '0' := no_zero
    rw [skipInteger, if_neg no_first, if_pos (show isDigit (peek (ch :: more ++ rest)) = true from digit),
      dropWhile_digits _ ends]
    intro c member
    obtain rfl | member := List.mem_cons.mp member
    · exact digit
    · exact digits c member

theorem skipFraction_ok (skips : skipFraction rest = .ok behind) :
    ∃ text, Fraction text ∧ rest = text ++ behind := by
  rw [skipFraction] at skips
  split at skips
  · next point =>
    obtain ⟨more, rfl⟩ := (peek_eq_iff (by decide)).mp point
    rw [List.drop_one, List.tail_cons] at skips
    split at skips
    · cases skips
    · next digit =>
      obtain rfl := Except.ok.inj skips
      obtain ⟨text, digits, same⟩ := digits_of_peek (by simpa using digit)
      exact ⟨byteOf '.' :: text, .digits text digits, congrArg (byteOf '.' :: ·) same⟩
  · obtain rfl := Except.ok.inj skips
    exact ⟨[], .none, rfl⟩

theorem skipFraction_of_fraction (fraction : Fraction text) (ends : isDigit (peek rest) = false)
    (no_point : peek rest ≠ byteOf '.') : skipFraction (text ++ rest) = .ok rest := by
  cases fraction with
  | none => rw [List.nil_append, skipFraction, if_neg no_point]
  | digits text digits =>
    have point : peek (byteOf '.' :: text ++ rest) = byteOf '.' := rfl
    rw [skipFraction, if_pos point, List.cons_append, List.drop_one, List.tail_cons,
      digits.peek rest, if_neg (by decide), dropWhile_digits digits.2 ends]

theorem skipExponent_ok (skips : skipExponent rest = .ok behind) :
    ∃ text, Exponent text ∧ rest = text ++ behind := by
  rw [skipExponent] at skips
  split at skips
  · next letter =>
    obtain ⟨e, more, rfl, known⟩ : ∃ e more, rest = e :: more ∧ (e = byteOf 'e' ∨ e = byteOf 'E') := by
      obtain letter | letter := letter
      · obtain ⟨more, rfl⟩ := (peek_eq_iff (by decide)).mp letter
        exact ⟨_, more, rfl, .inl rfl⟩
      · obtain ⟨more, rfl⟩ := (peek_eq_iff (by decide)).mp letter
        exact ⟨_, more, rfl, .inr rfl⟩
    simp only [List.drop_one, List.tail_cons] at skips
    obtain ⟨sign, last, rfl, signed, rest_eq⟩ : ∃ sign last, more = sign ++ last ∧
        (sign = [] ∨ sign = [byteOf '+'] ∨ sign = [byteOf '-']) ∧
        (if peek more = byteOf '+' ∨ peek more = byteOf '-' then more.tail else more) = last := by
      split
      · next signs =>
        obtain signs | signs := signs
        · obtain ⟨last, rfl⟩ := (peek_eq_iff (by decide)).mp signs
          exact ⟨_, last, rfl, .inr (.inl rfl), rfl⟩
        · obtain ⟨last, rfl⟩ := (peek_eq_iff (by decide)).mp signs
          exact ⟨_, last, rfl, .inr (.inr rfl), rfl⟩
      · exact ⟨[], more, rfl, .inl rfl, rfl⟩
    rw [rest_eq] at skips
    split at skips
    · cases skips
    · next digit =>
      obtain rfl := Except.ok.inj skips
      obtain ⟨text, digits, same⟩ := digits_of_peek (by simpa using digit)
      refine ⟨e :: sign ++ text, .digits e sign text known signed digits, ?_⟩
      rw [List.append_assoc, ← same]
      rfl
  · obtain rfl := Except.ok.inj skips
    exact ⟨[], .none, rfl⟩

theorem skipExponent_of_exponent (exponent : Exponent text) (ends : NumberEnds rest) :
    skipExponent (text ++ rest) = .ok rest := by
  obtain ⟨no_digit, -, no_e, no_E⟩ := ends
  cases exponent with
  | none => rw [List.nil_append, skipExponent, if_neg (by simp [no_e, no_E])]
  | digits e sign text known signed digits =>
    have letter : peek (e :: sign ++ text ++ rest) = byteOf 'e' ∨
        peek (e :: sign ++ text ++ rest) = byteOf 'E' := known
    have behind_sign : (if peek (sign ++ text ++ rest) = byteOf '+' ∨
        peek (sign ++ text ++ rest) = byteOf '-' then (sign ++ text ++ rest).drop 1
        else sign ++ text ++ rest) = text ++ rest := by
      obtain rfl | rfl | rfl := signed
      · have digit := digits.peek rest
        rw [List.nil_append, if_neg]
        rintro (same | same)
        · rw [same] at digit
          exact absurd digit (by decide)
        · rw [same] at digit
          exact absurd digit (by decide)
      · rfl
      · rfl
    rw [skipExponent, if_pos letter]
    simp only [List.cons_append, List.drop_succ_cons, List.drop_zero]
    rw [behind_sign, digits.peek rest]
    simp only [Bool.not_true, Bool.false_eq_true, if_false]
    rw [dropWhile_digits digits.2 no_digit]

theorem skipNumber_ok (skips : skipNumber rest = .ok behind) :
    ∃ text, Number text ∧ rest = text ++ behind := by
  obtain ⟨sign, last, rfl, signed, rest_eq⟩ : ∃ sign last, rest = sign ++ last ∧
      (sign = [] ∨ sign = [byteOf '-']) ∧
      (if peek rest = byteOf '-' then rest.drop 1 else rest) = last := by
    split
    · next minus =>
      obtain ⟨last, rfl⟩ := (peek_eq_iff (by decide)).mp minus
      exact ⟨_, last, rfl, .inr rfl, rfl⟩
    · exact ⟨[], rest, rfl, .inl rfl, rfl⟩
  rw [skipNumber, rest_eq] at skips
  obtain ⟨more, first, behind_integer⟩ := General.bind_eq_ok_iff.mp skips
  obtain ⟨further, second, behind_fraction⟩ := General.bind_eq_ok_iff.mp behind_integer
  obtain ⟨integer, is_integer, rfl⟩ := skipInteger_ok first
  obtain ⟨fraction, is_fraction, rfl⟩ := skipFraction_ok second
  obtain ⟨exponent, is_exponent, rfl⟩ := skipExponent_ok behind_fraction
  refine ⟨_, .mk sign integer fraction exponent signed is_integer is_fraction is_exponent, ?_⟩
  simp only [List.append_assoc]

/-- What comes behind the integer can't continue it. -/
theorem Exponent.peek (exponent : Exponent text) (ends : NumberEnds rest) :
    isDigit (peek (text ++ rest)) = false ∧ peek (text ++ rest) ≠ byteOf '.' := by
  cases exponent with
  | none => exact ⟨ends.1, ends.2.1⟩
  | digits e sign text known signed digits =>
    obtain rfl | rfl := known
    · exact ⟨rfl, by simp [Json.peek, byteOf]⟩
    · exact ⟨rfl, by simp [Json.peek, byteOf]⟩

theorem Fraction.peek (fraction : Fraction text) (ends : isDigit (peek rest) = false) :
    isDigit (peek (text ++ rest)) = false := by
  cases fraction with
  | none => exact ends
  | digits text digits => rfl

theorem skipNumber_of_number (number : Number text) (ends : NumberEnds rest) :
    skipNumber (text ++ rest) = .ok rest := by
  cases number with
  | mk sign integer fraction exponent signed is_integer is_fraction is_exponent =>
    obtain ⟨no_digit, no_point⟩ := is_exponent.peek ends
    have behind_sign : (if peek (sign ++ (integer ++ (fraction ++ (exponent ++ rest)))) = byteOf '-'
        then (sign ++ (integer ++ (fraction ++ (exponent ++ rest)))).drop 1
        else sign ++ (integer ++ (fraction ++ (exponent ++ rest)))) =
        integer ++ (fraction ++ (exponent ++ rest)) := by
      obtain rfl | rfl := signed
      · rw [List.nil_append, if_neg]
        cases is_integer with
        | zero => exact (by decide : ¬byteOf '0' = byteOf '-')
        | digits ch more digit no_zero digits =>
          rintro (rfl : ch = byteOf '-')
          exact absurd digit (by decide)
      · rfl
    simp only [List.append_assoc]
    rw [skipNumber, behind_sign,
      skipInteger_of_integer is_integer (is_fraction.peek no_digit)]
    simp only [bind, Except.bind]
    rw [skipFraction_of_fraction is_fraction no_digit no_point]
    simp only []
    exact skipExponent_of_exponent is_exponent ends

end Numbers

end Saad.Json
