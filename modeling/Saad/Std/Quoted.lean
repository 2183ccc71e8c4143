import Saad.Std.BuilderSound

/-! # Strings and characters in quotes

What `addQuoted` and `addQuotedChar` append to a builder, as `fmt` writes a string or a character inside of
another value.
-/

namespace Saad

section Texts

/-- The text of a character between quotes. -/
def escapedText (quote c : BitVec 8) : Text :=
  if c = byteOf '\\' then asciiBytes "\\\\"
  else if c = byteOf '\n' then asciiBytes "\\n"
  else if c = 13 then asciiBytes "\\r"
  else if c = byteOf '\t' then asciiBytes "\\t"
  else if c = 0 then asciiBytes "\\0"
  else if c = quote then [byteOf '\\', c]
  else [c]

def quotedText (s : Text) : Text := byteOf '"' :: (s.flatMap (escapedText (byteOf '"')) ++ [byteOf '"'])

def quotedChar (c : BitVec 8) : Text := byteOf '\'' :: (escapedText (byteOf '\'') c ++ [byteOf '\''])

end Texts

namespace StringBuilder

section Definitions

def addEscaped (quote : BitVec 8) (sb : StringBuilder) (c : BitVec 8) : Option StringBuilder :=
  if c = byteOf '\\' then sb.addString (asciiBytes "\\\\")
  else if c = byteOf '\n' then sb.addString (asciiBytes "\\n")
  else if c = 13 then sb.addString (asciiBytes "\\r")
  else if c = byteOf '\t' then sb.addString (asciiBytes "\\t")
  else if c = 0 then sb.addString (asciiBytes "\\0")
  else do
    let sb ← if c = quote then sb.addChar (byteOf '\\') else some sb
    sb.addChar c

def addQuoted (sb : StringBuilder) (s : Text) : Option StringBuilder := do
  let sb ← sb.addChar (byteOf '"')
  let sb ← s.foldlM (addEscaped (byteOf '"')) sb
  sb.addChar (byteOf '"')

def addQuotedChar (sb : StringBuilder) (c : BitVec 8) : Option StringBuilder := do
  let sb ← sb.addChar (byteOf '\'')
  let sb ← sb.addEscaped (byteOf '\'') c
  sb.addChar (byteOf '\'')

end Definitions

section Appending

variable {sb grown : StringBuilder} {c quote : BitVec 8} {s : Text}

theorem text_addChar (adds : sb.addChar c = some grown) : grown.text = sb.text ++ [c] := by
  obtain ⟨reserved, reserves, writes⟩ := Option.bind_eq_some_iff.mp adds
  rw [write_text writes, reserve_text reserves]

theorem text_addString (short : s.length < 2 ^ 31) (adds : sb.addString s = some grown) :
    grown.text = sb.text ++ s := by
  have count : int32 s.length = s.length := int32_of_fits (by omega) (by omega)
  unfold addString at adds
  rw [count] at adds
  dsimp only at adds
  split at adds
  · next none =>
    cases adds
    rw [List.length_eq_zero_iff.mp (show s.length = 0 by omega), List.append_nil]
  · obtain ⟨reserved, reserves, writes⟩ := Option.bind_eq_some_iff.mp adds
    rw [write_text writes, reserve_text reserves, Int.toNat_natCast, List.take_length]

theorem text_addEscaped (adds : sb.addEscaped quote c = some grown) :
    grown.text = sb.text ++ escapedText quote c := by
  unfold addEscaped at adds
  unfold escapedText
  split_ifs at adds ⊢
  · exact text_addString (by decide) adds
  · exact text_addString (by decide) adds
  · exact text_addString (by decide) adds
  · exact text_addString (by decide) adds
  · exact text_addString (by decide) adds
  · obtain ⟨middle, escapes, adds⟩ := Option.bind_eq_some_iff.mp adds
    rw [text_addChar adds, text_addChar escapes, List.append_assoc]
    rfl
  · obtain ⟨middle, same, adds⟩ := Option.bind_eq_some_iff.mp adds
    cases same
    exact text_addChar adds

theorem text_addEscapes (adds : s.foldlM (addEscaped quote) sb = some grown) :
    grown.text = sb.text ++ s.flatMap (escapedText quote) := by
  induction s generalizing sb with
  | nil =>
    cases adds
    simp
  | cons c s ih =>
    rw [List.foldlM_cons] at adds
    obtain ⟨next, escapes, others⟩ := Option.bind_eq_some_iff.mp adds
    rw [ih others, text_addEscaped escapes, List.flatMap_cons, List.append_assoc]

/-- The string is appended in quotes. -/
theorem text_addQuoted (adds : sb.addQuoted s = some grown) : grown.text = sb.text ++ quotedText s := by
  obtain ⟨opened, opens, adds⟩ := Option.bind_eq_some_iff.mp adds
  obtain ⟨middle, escapes, closes⟩ := Option.bind_eq_some_iff.mp adds
  rw [text_addChar closes, text_addEscapes escapes, text_addChar opens, quotedText]
  simp only [List.append_assoc]
  rfl

/-- The character is appended in quotes. -/
theorem text_addQuotedChar (adds : sb.addQuotedChar c = some grown) : grown.text = sb.text ++ quotedChar c := by
  obtain ⟨opened, opens, adds⟩ := Option.bind_eq_some_iff.mp adds
  obtain ⟨middle, escapes, closes⟩ := Option.bind_eq_some_iff.mp adds
  rw [text_addChar closes, text_addEscaped escapes, text_addChar opens, quotedChar]
  simp only [List.append_assoc]
  rfl

end Appending

end StringBuilder

end Saad
