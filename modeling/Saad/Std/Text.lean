import Mathlib.Data.Nat.Digits.Defs
import Saad.General.Occurrence

/-! # Texts

A text is its bytes, without the NUL behind it. The functions are those of the standard library on
strings and characters.
-/

namespace Saad

open General

abbrev Text := List (BitVec 8)

instance instLawfulBEqText : LawfulBEq Text := inferInstance

def asciiBytes (text : String) : List (BitVec 8) := text.toList.map fun c => BitVec.ofNat 8 c.toNat

/-- A character of ASCII. -/
def byteOf (c : Char) : BitVec 8 := BitVec.ofNat 8 c.toNat

/-- The decimal digits, as `%d` prints a number that is not negative. -/
def decimalText (n : ℕ) : Text := asciiBytes (toString n)

/-- The decimal digits, with a minus in front of them for a negative number. -/
def intText (n : ℤ) : Text :=
  if n < 0 then byteOf '-' :: decimalText n.natAbs else decimalText n.toNat

section Decimals

theorem toList_toString (n : ℕ) : (toString n).toList = Nat.toDigits 10 n := Nat.toList_repr

theorem toNat_of_mem_digits {n : ℕ} {c : Char} (member : c ∈ Nat.toDigits 10 n) :
    48 ≤ c.toNat ∧ c.toNat ≤ 57 := by
  have digit := Nat.isDigit_of_mem_toDigits (by decide) (by decide) member
  rw [Char.isDigit, Bool.and_eq_true, decide_eq_true_eq, decide_eq_true_eq] at digit
  exact digit

theorem digit_of_mem_decimalText {n : ℕ} {byte : BitVec 8} (member : byte ∈ decimalText n) :
    48 ≤ byte.toNat ∧ byte.toNat ≤ 57 := by
  rw [decimalText, asciiBytes, toList_toString] at member
  obtain ⟨c, digit, rfl⟩ := List.mem_map.mp member
  have bounds := toNat_of_mem_digits digit
  rw [BitVec.toNat_ofNat, Nat.mod_eq_of_lt (by omega)]
  exact bounds

theorem decimalText_injective : Function.Injective decimalText := by
  have back : ∀ n, (decimalText n).map (fun byte => Char.ofNat byte.toNat) = Nat.toDigits 10 n := by
    intro n
    rw [decimalText, asciiBytes, toList_toString, List.map_map]
    conv_rhs => rw [← List.map_id (Nat.toDigits 10 n)]
    apply List.map_congr_left
    intro c member
    have bounds := toNat_of_mem_digits member
    rw [Function.comp_apply, BitVec.toNat_ofNat, Nat.mod_eq_of_lt (by omega), Char.ofNat_toNat, id]
  intro first second equal
  calc first = Nat.ofDigitChars 10 (Nat.toDigits 10 first) 0 := Nat.ofDigitChars_ten_toDigits.symm
    _ = Nat.ofDigitChars 10 (Nat.toDigits 10 second) 0 := by rw [← back, ← back, equal]
    _ = second := Nat.ofDigitChars_ten_toDigits

theorem decimalText_ne_nil (n : ℕ) : decimalText n ≠ [] := by
  rw [decimalText, asciiBytes, toList_toString, ← List.length_pos_iff, List.length_map]
  exact Nat.length_toDigits_pos

theorem length_decimalText_le {n digits : ℕ} (positive : 0 < digits) (lt : n < 10 ^ digits) :
    (decimalText n).length ≤ digits := by
  rw [decimalText, asciiBytes, toList_toString, List.length_map]
  exact (Nat.length_toDigits_le_iff (by omega) positive).mpr lt

end Decimals

section Characters

def isDigit (c : BitVec 8) : Bool := byteOf '0' ≤ c && c ≤ byteOf '9'

def isUpper (c : BitVec 8) : Bool := byteOf 'A' ≤ c && c ≤ byteOf 'Z'

def isLower (c : BitVec 8) : Bool := byteOf 'a' ≤ c && c ≤ byteOf 'z'

def isLetter (c : BitVec 8) : Bool := isLower c || isUpper c

def isHexDigit (c : BitVec 8) : Bool :=
  isDigit c || (byteOf 'a' ≤ c && c ≤ byteOf 'f') || (byteOf 'A' ≤ c && c ≤ byteOf 'F')

def toLower (c : BitVec 8) : BitVec 8 := if isUpper c then c + 32 else c

def toUpper (c : BitVec 8) : BitVec 8 := if isLower c then c - 32 else c

/-- The value of a digit or of a hex digit, and -1 of other characters. -/
def digitValue (c : BitVec 8) : ℤ :=
  if isDigit c then (c - byteOf '0').toNat
  else if byteOf 'a' ≤ c && c ≤ byteOf 'f' then (c - byteOf 'a' + 10).toNat
  else if byteOf 'A' ≤ c && c ≤ byteOf 'F' then (c - byteOf 'A' + 10).toNat
  else -1

end Characters

section Strings

/-- If the bytes of `str` are the next ones. None when the source ends on the way. -/
def matchesHere : Text → Text → Option Bool
  | _, [] => some true
  | [], _ :: _ => none
  | byte :: src, expected :: str => if byte = expected then matchesHere src str else some false

def scanFor (str : Text) : Text → Option ℕ
  | [] => none
  | byte :: rest =>
    match matchesHere (byte :: rest) str with
    | some true => some 0
    | some false => (scanFor str rest).map (· + 1)
    | none => none

/-- The first place of a text in another one. An empty text is nowhere. -/
def indexOf (s str : Text) : Option ℕ := if s = [] ∨ str = [] then none else scanFor str s

def startsWith (s str : Text) : Bool := str.isPrefixOf s

def endsWith (s str : Text) : Bool := str.isSuffixOf s

variable {s str before after : Text} {n : ℕ}

theorem matchesHere_eq_true_iff : matchesHere s str = some true ↔ str <+: s := by
  fun_induction matchesHere s str with
  | case1 s => simp
  | case2 expected str => simp
  | case3 byte src str ih =>
    rw [ih, List.cons_prefix_cons]
    simp
  | case4 byte src expected str different =>
    simp [List.cons_prefix_cons, Ne.symm different]

/-- A source that ends on the way is shorter. -/
theorem length_lt_of_matchesHere (ends : matchesHere s str = none) : s.length < str.length := by
  fun_induction matchesHere s str with
  | case1 s => simp at ends
  | case2 expected str => simp
  | case3 byte src str ih =>
    have shorter := ih ends
    simpa using shorter
  | case4 byte src expected str different => simp at ends

theorem scanFor_eq_some_iff (nonempty : str ≠ []) : scanFor str s = some n ↔ FirstAt str s n := by
  induction s generalizing n with
  | nil =>
    constructor
    · intro found
      simp [scanFor] at found
    · intro here
      have fits := here.length_le nonempty
      have positive := List.length_pos_of_ne_nil nonempty
      simp only [List.length_nil] at fits
      omega
  | cons byte rest ih =>
    rw [scanFor]
    split
    · next matched =>
      have here := firstAt_zero (matchesHere_eq_true_iff.mp matched)
      constructor
      · rintro ⟨⟩
        exact here
      · intro there
        rw [here.unique there]
    · next unmatched =>
      have absent : ¬str <+: byte :: rest := by
        intro stands
        rw [matchesHere_eq_true_iff.mpr stands] at unmatched
        cases unmatched
      constructor
      · intro found
        obtain ⟨k, behind, rfl⟩ := Option.map_eq_some_iff.mp found
        exact (firstAt_succ_iff absent).mpr (ih.mp behind)
      · intro here
        cases n with
        | zero => exact absurd here.stands absent
        | succ k => rw [ih.mpr ((firstAt_succ_iff absent).mp here), Option.map_some]
    · next ends =>
      have shorter := length_lt_of_matchesHere ends
      constructor
      · rintro ⟨⟩
      · intro here
        have fits := here.length_le nonempty
        omega

theorem indexOf_eq_some_iff (nonempty : str ≠ []) : indexOf s str = some n ↔ FirstAt str s n := by
  rw [indexOf]
  split
  · next empty =>
    obtain rfl | rfl := empty
    · rw [← scanFor_eq_some_iff nonempty, scanFor]
    · exact absurd rfl nonempty
  · exact scanFor_eq_some_iff nonempty

theorem indexOf_eq_none_iff (nonempty : str ≠ []) : indexOf s str = none ↔ ¬str <:+: s := by
  constructor
  · intro absent occurs
    obtain ⟨n, here⟩ := exists_firstAt occurs
    rw [(indexOf_eq_some_iff nonempty).mpr here] at absent
    cases absent
  · intro absent
    cases found : indexOf s str with
    | none => rfl
    | some n => exact absurd ((indexOf_eq_some_iff nonempty).mp found).isInfix absent

theorem indexOf_fits (found : indexOf s str = some n) :
    0 < str.length ∧ n + str.length ≤ s.length := by
  have nonempty : str ≠ [] := by
    rintro rfl
    simp [indexOf] at found
  exact ⟨List.length_pos_of_ne_nil nonempty,
    ((indexOf_eq_some_iff nonempty).mp found).length_le nonempty⟩

/-- The parts of a text between the separators. -/
def split (s sep : Text) : List Text :=
  match _ : indexOf s sep with
  | none => [s]
  | some i => s.take i :: split (s.drop (i + sep.length)) sep
termination_by s.length
decreasing_by
  next found =>
    have fits := indexOf_fits found
    rw [List.length_drop]
    omega

/-- The place of a character that isn't in front of it. -/
theorem indexOf_char {c : BitVec 8} (absent : c ∉ before) :
    indexOf (before ++ c :: after) [c] = some before.length :=
  (indexOf_eq_some_iff (by simp)).mpr (firstAt_singleton absent after)

theorem indexOf_char_eq_none_iff {c : BitVec 8} : indexOf s [c] = none ↔ c ∉ s := by
  rw [indexOf_eq_none_iff (by simp), singleton_infix_iff]

end Strings

end Saad
