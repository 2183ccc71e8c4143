import Saad.Std.Text

/-! # File URIs

A path is written as a URI with escapes, and read back from one. The first slash in front of a drive letter is
added by the one side and taken away by the other.
-/

namespace Saad.Source

section Definitions

def max0 (n : ℤ) : ℤ := if n < 0 then 0 else n

/-- The loop of `pathOf`. An escape is read wherever two more bytes are left. -/
def unescape : Text → Text
  | ch :: high :: low :: rest =>
    if ch = byteOf '%' then BitVec.ofInt 8 (max0 (digitValue high) * 16 + max0 (digitValue low)) :: unescape rest
    else ch :: unescape (high :: low :: rest)
  | ch :: rest => ch :: unescape rest
  | [] => []

/-- A Windows path is /c:/Users/..., without the first slash. -/
def withoutDriveSlash (path : Text) : Text :=
  if 3 ≤ path.length ∧ path[0]? = some (byteOf '/') ∧ path[2]? = some (byteOf ':') then path.drop 1 else path

/-- The path of a file URI. Empty if it isn't a file URI. -/
def pathOf (uri : Text) : Text :=
  if asciiBytes "file://" <+: uri then withoutDriveSlash (unescape (uri.drop 7)) else []

def isUriCharacter (ch : BitVec 8) : Bool :=
  isLetter ch || isDigit ch || (asciiBytes "/-._~:").contains ch

def hexDigit (n : BitVec 8) : Text := ((asciiBytes "0123456789ABCDEF").drop n.toNat).take 1

def uriCharacter (ch : BitVec 8) : Text :=
  if ch = byteOf '\\' then [byteOf '/']
  else if isUriCharacter ch then [ch]
  else byteOf '%' :: (hexDigit (ch / 16) ++ hexDigit (ch % 16))

/-- The file URI of a path. -/
def uriOf (path : Text) : Text :=
  asciiBytes "file://" ++
    (if 2 ≤ path.length ∧ path[1]? = some (byteOf ':') then [byteOf '/'] else []) ++ path.flatMap uriCharacter

/-- The path with '\' written as '/'. -/
def slashed (path : Text) : Text := path.map fun ch => if ch = byteOf '\\' then byteOf '/' else ch

end Definitions

section Escapes

variable {ch : BitVec 8} {rest path : Text}

theorem unescape_cons (plain : ch ≠ byteOf '%') : unescape (ch :: rest) = ch :: unescape rest := by
  cases rest with
  | nil => rfl
  | cons high rest =>
    cases rest with
    | nil => rfl
    | cons low rest => rw [unescape, if_neg plain]

theorem hexDigit_read {n : BitVec 8} (lt : n.toNat < 16) :
    ∃ digit, hexDigit n = [digit] ∧ max0 (digitValue digit) = n.toNat := by
  have read : ∀ i : Fin 16, ∃ digit ∈ (hexDigit (BitVec.ofNat 8 i)).head?,
      hexDigit (BitVec.ofNat 8 i) = [digit] ∧ max0 (digitValue digit) = (i : ℕ) := by decide
  obtain ⟨digit, _, found⟩ := read ⟨n.toNat, lt⟩
  rw [BitVec.ofNat_toNat, BitVec.setWidth_eq] at found
  exact ⟨digit, found⟩

/-- The two digits of a byte are read as the byte. -/
theorem hexDigits_read (ch : BitVec 8) : ∃ high low, hexDigit (ch / 16) = [high] ∧ hexDigit (ch % 16) = [low] ∧
    BitVec.ofInt 8 (max0 (digitValue high) * 16 + max0 (digitValue low)) = ch := by
  have quotient : (ch / 16).toNat = ch.toNat / 16 := BitVec.toNat_udiv
  have remainder : (ch % 16).toNat = ch.toNat % 16 := BitVec.toNat_umod
  have byte := ch.isLt
  obtain ⟨high, first, highValue⟩ := hexDigit_read (show (ch / 16).toNat < 16 by omega)
  obtain ⟨low, second, lowValue⟩ := hexDigit_read (show (ch % 16).toNat < 16 by omega)
  refine ⟨high, low, first, second, ?_⟩
  rw [highValue, lowValue, quotient, remainder]
  have whole : ((ch.toNat / 16 : ℕ) : ℤ) * 16 + ((ch.toNat % 16 : ℕ) : ℤ) = (ch.toNat : ℕ) := by omega
  rw [whole, BitVec.ofInt_natCast, BitVec.ofNat_toNat, BitVec.setWidth_eq]

theorem ne_percent_of_isUriCharacter (plain : isUriCharacter ch = true) : ch ≠ byteOf '%' := by
  rintro rfl
  exact absurd plain (by decide)

/-- Each character of a path is read back, whatever follows it. -/
theorem unescape_uriCharacter : unescape (uriCharacter ch ++ rest) =
    (if ch = byteOf '\\' then byteOf '/' else ch) :: unescape rest := by
  unfold uriCharacter
  split
  · exact unescape_cons (by decide)
  split
  · next plain => exact unescape_cons (ne_percent_of_isUriCharacter plain)
  · obtain ⟨high, low, first, second, value⟩ := hexDigits_read ch
    rw [first, second, List.cons_append, List.append_assoc, List.singleton_append, List.singleton_append, unescape,
      if_pos rfl, value]

theorem unescape_flatMap (path : Text) : unescape (path.flatMap uriCharacter) = slashed path := by
  induction path with
  | nil => rfl
  | cons ch path ih =>
    rw [List.flatMap_cons, unescape_uriCharacter, ih]
    rfl

end Escapes

section Paths

variable {path other : Text}

theorem slashed_getElem? (i : ℕ) : (slashed path)[i]? = some (byteOf ':') ↔ path[i]? = some (byteOf ':') := by
  rw [slashed, List.getElem?_map]
  constructor
  · intro found
    obtain ⟨ch, at_, same⟩ := Option.map_eq_some_iff.mp found
    split at same
    · exact absurd same (by decide)
    · rw [at_, same]
  · intro found
    rw [found, Option.map_some]
    rfl

/-- The path without a drive starts as `/c:` does, with any character for the letter. -/
def LooksLikeDrive (path : Text) : Prop :=
  (slashed path)[0]? = some (byteOf '/') ∧ path[1]? ≠ some (byteOf ':') ∧ path[2]? = some (byteOf ':')

theorem length_of_getElem? {i : ℕ} {ch : BitVec 8} (found : path[i]? = some ch) : i + 1 ≤ path.length := by
  obtain ⟨inside, _⟩ := List.getElem?_eq_some_iff.mp found
  exact inside

/-- What is read back is the path, without its first slash where that looks like the one in front of a drive. -/
theorem pathOf_uriOf [Decidable (LooksLikeDrive path)] :
    pathOf (uriOf path) = if LooksLikeDrive path then (slashed path).drop 1 else slashed path := by
  have start : asciiBytes "file://" <+: uriOf path := by
    rw [uriOf, List.append_assoc]
    exact List.prefix_append ..
  have seven : (asciiBytes "file://").length = 7 := by decide
  rw [pathOf, if_pos start, uriOf, List.append_assoc, List.drop_append_of_le_length (by rw [seven]),
    List.drop_of_length_le (by rw [seven]), List.nil_append]
  by_cases drive : path[1]? = some (byteOf ':')
  · have long := length_of_getElem? drive
    have colon := (slashed_getElem? 1).mpr drive
    have notLike : ¬ LooksLikeDrive path := fun like => like.2.1 drive
    rw [if_pos ⟨long, drive⟩, List.singleton_append, unescape_cons (by decide), unescape_flatMap, withoutDriveSlash,
      if_pos, if_neg notLike, List.drop_one, List.tail_cons]
    refine ⟨?_, rfl, colon⟩
    rw [List.length_cons, slashed, List.length_map]
    omega
  · rw [if_neg fun both => drive both.2, List.nil_append, unescape_flatMap, withoutDriveSlash]
    refine if_congr ⟨fun like => ?_, fun like => ?_⟩ rfl rfl
    · exact ⟨like.2.1, drive, (slashed_getElem? 2).mp like.2.2⟩
    · have colon := (slashed_getElem? 2).mpr like.2.2
      exact ⟨length_of_getElem? colon, like.1, colon⟩

/-- Both paths are read back from their URIs, and one URI is of one path. -/
structure UrisRight (path other : Text) : Prop where
  read : pathOf (uriOf path) = slashed path
  readOther : pathOf (uriOf other) = slashed other
  apart : uriOf path = uriOf other → slashed path = slashed other

theorem pathOf_uriOf_iff : pathOf (uriOf path) = slashed path ↔ ¬ LooksLikeDrive path := by
  classical
  rw [pathOf_uriOf]
  split
  · next like =>
    have long : 1 ≤ (slashed path).length := length_of_getElem? like.1
    refine iff_of_false (fun same => ?_) (by simpa using like)
    have lengths := congrArg List.length same
    rw [List.length_drop] at lengths
    omega
  · next notLike => exact iff_of_true rfl notLike

/-- Exactly the paths without a drive that look like one with a slash in front are read back wrong. -/
theorem urisRight_iff (path other : Text) :
    UrisRight path other ↔ ¬ LooksLikeDrive path ∧ ¬ LooksLikeDrive other := by
  constructor
  · intro right
    exact ⟨pathOf_uriOf_iff.mp right.read, pathOf_uriOf_iff.mp right.readOther⟩
  · rintro ⟨notLike, otherNotLike⟩
    have read := pathOf_uriOf_iff.mpr notLike
    have readOther := pathOf_uriOf_iff.mpr otherNotLike
    refine ⟨read, readOther, fun same => ?_⟩
    calc
      slashed path = pathOf (uriOf path) := read.symm
      _ = pathOf (uriOf other) := by rw [same]
      _ = slashed other := readOther

/-- The file `b.sd` in the folder `a:` of the root has the URI of a file on a drive. -/
theorem not_urisRight : ¬ UrisRight (asciiBytes "/a:/b.sd") (asciiBytes "a:/b.sd") := by
  intro right
  exact absurd right.read (by decide)

end Paths

end Saad.Source
