import Mathlib.Data.List.DropRight
import Saad.Std.Text

/-! # The parts of a message of HTTP

Headers, the request with its fields, and the small readers of texts that the server and the client
share. A text lives on in an arena, which no function here depends on.
-/

namespace Saad.Http

structure Header where
  name : Text
  value : Text
deriving DecidableEq, Repr

/-- `equalFold`, which has no case for ASCII letters. -/
def equalFold (a b : Text) : Bool := a.map toLower == b.map toLower

/-- The value of the first header with the name. -/
def findHeader (headers : List Header) (name : Text) : Option Text :=
  (headers.find? fun h => equalFold h.name name).map Header.value

structure Request where
  method : Text := []
  target : Text := []
  path : Text := []
  query : Text := []
  version : Text := []
  headers : List Header := []
  body : Text := []
deriving DecidableEq, Repr

/-- `%XX` and `+`. -/
def decodeEscapes : Text → Text
  | ch :: high :: low :: rest =>
    if ch = byteOf '+' then byteOf ' ' :: decodeEscapes (high :: low :: rest)
    else if ch = byteOf '%' ∧ isHexDigit high ∧ isHexDigit low then
      BitVec.ofInt 8 (digitValue high * 16 + digitValue low) :: decodeEscapes rest
    else ch :: decodeEscapes (high :: low :: rest)
  | ch :: rest => (if ch = byteOf '+' then byteOf ' ' else ch) :: decodeEscapes rest
  | [] => []

/-- Text that has neither is given back as it is. -/
def decodeUrl (text : Text) : Text :=
  if indexOf text [byteOf '%'] = none ∧ indexOf text [byteOf '+'] = none then text
  else decodeEscapes text

def isBlank (c : BitVec 8) : Bool := c == byteOf ' ' || c == byteOf '\t'

/-- The text without the blanks at its ends. -/
def trimSpaces (text : Text) : Text := (text.dropWhile isBlank).rdropWhile isBlank

/-- No blank stands at an end of the text. -/
structure Trimmed (text : Text) : Prop where
  front : ∀ c ∈ text.head?, isBlank c = false
  back : ∀ c ∈ text.getLast?, isBlank c = false

theorem rdropWhile_append {p : BitVec 8 → Bool} {text after : Text} (all : ∀ c ∈ after, p c = true)
    (last : ∀ c ∈ text.getLast?, p c = false) : (text ++ after).rdropWhile p = text := by
  rw [List.rdropWhile, List.reverse_append, List.dropWhile_append_of_pos (by simpa using all)]
  cases reversed : text.reverse with
  | nil => simpa using reversed
  | cons c rest =>
    have back : text = rest.reverse ++ [c] := by
      rw [← List.reverse_reverse text, reversed, List.reverse_cons]
    have no_blank : ¬p c = true := by simpa using last c (by simp [back])
    rw [List.dropWhile_cons_of_neg no_blank, back, List.reverse_cons]

/-- Blanks around a text are left out. -/
theorem trimSpaces_append {before text after : Text} (blanks_before : ∀ c ∈ before, isBlank c = true)
    (trimmed : Trimmed text) (blanks_after : ∀ c ∈ after, isBlank c = true) :
    trimSpaces (before ++ text ++ after) = text := by
  rw [trimSpaces, List.append_assoc, List.dropWhile_append_of_pos blanks_before]
  cases text with
  | nil =>
    rw [List.nil_append, List.rdropWhile_eq_nil_iff]
    intro c member
    exact blanks_after c (List.dropWhile_subset _ member)
  | cons c rest =>
    have no_blank : ¬isBlank c = true := by simpa using trimmed.front c (by simp)
    rw [List.cons_append, List.dropWhile_cons_of_neg no_blank]
    exact rdropWhile_append blanks_after trimmed.back

/-- A text without blanks at its ends is kept as it is. -/
theorem Trimmed.trimSpaces {text : Text} (trimmed : Trimmed text) : trimSpaces text = text := by
  simpa using @trimSpaces_append [] _ [] (by simp) trimmed (by simp)

theorem trimmed_decimalText (n : ℕ) : Trimmed (decimalText n) := by
  have no_blank : ∀ c ∈ decimalText n, isBlank c = false := by
    intro c member
    have bounds := digit_of_mem_decimalText member
    have all : ∀ c : BitVec 8, 48 ≤ c.toNat → isBlank c = false := by decide
    exact all c bounds.1
  exact ⟨fun c member => no_blank c (List.mem_of_mem_head? member),
    fun c member => no_blank c (List.mem_of_getLast? member)⟩

end Saad.Http
