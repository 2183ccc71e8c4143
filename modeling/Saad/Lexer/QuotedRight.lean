import Saad.Lexer.LexFile
import Saad.Std.Quoted

/-! # The bytes of string literals

`decode_string_literal`: what the text between the quotes of a literal is in memory.
-/

namespace Saad.Lowering

/-- An escape behind its `\`. One that isn't known stays as it is written. -/
def decodeEscape (e : BitVec 8) : Text :=
  if e = byteOf 'n' then [10]
  else if e = byteOf 't' then [9]
  else if e = byteOf 'r' then [13]
  else if e = byteOf '0' then [0]
  else if e = byteOf '\\' then [92]
  else if e = byteOf '"' then [34]
  else if e = byteOf '\'' then [39]
  else [byteOf '\\', e]

def decodeStringLiteral : Text → Text
  | [] => []
  | [c] => [c]
  | c :: e :: rest =>
    if c = byteOf '\\' then decodeEscape e ++ decodeStringLiteral rest else c :: decodeStringLiteral (e :: rest)

section Lemmas

variable {c e : BitVec 8} {rest : Text}

theorem decodeStringLiteral_escape : decodeStringLiteral (byteOf '\\' :: e :: rest) =
    decodeEscape e ++ decodeStringLiteral rest := by
  rw [decodeStringLiteral, if_pos rfl]

theorem decodeStringLiteral_plain (plain : c ≠ byteOf '\\') :
    decodeStringLiteral (c :: rest) = c :: decodeStringLiteral rest := by
  cases rest with
  | nil => rfl
  | cons e rest => rw [decodeStringLiteral, if_neg plain]

end Lemmas

end Saad.Lowering

/-! # Quoted strings and characters are read back

The writer, the lexer and the compiler share the escapes. Every string that is written in quotes is read as the
token of that string, and a character is as long as it is one byte of ASCII.
-/

namespace Saad.Lexer

open Lowering

section Escapes

variable {quote c : BitVec 8} {s : Text}

/-- A character is written as an escape, which means it, or as it is. -/
theorem escapedText_cases (quotes : quote = byteOf '"' ∨ quote = byteOf '\'') :
    (∃ e, escapedText quote c = [byteOf '\\', e] ∧ e ≠ 0 ∧ e ≠ byteOf 'x' ∧ decodeEscape e = [c] ∧
        escapedCharacter e = some c.toNat ∧ c.toNat < 128) ∨
      (escapedText quote c = [c] ∧ c ≠ byteOf '\\' ∧ c ≠ byteOf '\n' ∧ c ≠ 0 ∧ c ≠ quote) := by
  unfold escapedText
  split_ifs with backslash newline carriage tab nul same
  · subst backslash
    exact .inl ⟨byteOf '\\', by decide⟩
  · subst newline
    exact .inl ⟨byteOf 'n', by decide⟩
  · subst carriage
    exact .inl ⟨byteOf 'r', by decide⟩
  · subst tab
    exact .inl ⟨byteOf 't', by decide⟩
  · subst nul
    exact .inl ⟨byteOf '0', by decide⟩
  · subst same
    obtain rfl | rfl := quotes
    · exact .inl ⟨byteOf '"', by decide⟩
    · exact .inl ⟨byteOf '\'', by decide⟩
  · exact .inr ⟨rfl, backslash, newline, nul, same⟩

/-- The escapes of the writer are those of the compiler. -/
theorem decodeStringLiteral_escaped (s : Text) :
    decodeStringLiteral (s.flatMap (escapedText (byteOf '"'))) = s := by
  induction s with
  | nil => rfl
  | cons c s ih =>
    rw [List.flatMap_cons]
    obtain ⟨e, escaped, -, -, decoded, -⟩ | ⟨plain, not_escape, -⟩ := @escapedText_cases (byteOf '"') c (.inl rfl)
    · rw [escaped, List.cons_append, List.cons_append, List.nil_append, decodeStringLiteral_escape, decoded, ih]
      rfl
    · rw [plain, List.cons_append, List.nil_append, decodeStringLiteral_plain not_escape, ih]

end Escapes

/-- Without its quotes, a string is the escaped text. -/
theorem stringValue_quoted (s : Text) : stringValue (quotedText s) =
    .string (s.flatMap (escapedText (byteOf '"'))) := by
  have last : (quotedText s).getLast? = some (byteOf '"') := by
    rw [quotedText, ← List.cons_append, List.getLast?_concat]
  have length : (quotedText s).length = (s.flatMap (escapedText (byteOf '"'))).length + 2 := by
    rw [quotedText, List.length_cons, List.length_append, List.length_singleton]
  unfold stringValue
  dsimp only
  rw [if_pos ⟨by omega, last⟩, length, Nat.add_sub_cancel, quotedText, List.tail_cons, List.take_left]

theorem length_le_escaped (s : Text) : s.length ≤ (s.flatMap (escapedText (byteOf '"'))).length := by
  induction s with
  | nil => exact Nat.zero_le _
  | cons c s ih =>
    rw [List.flatMap_cons, List.length_append, List.length_cons]
    obtain ⟨e, escaped, -⟩ | ⟨plain, -⟩ := @escapedText_cases (byteOf '"') c (.inl rfl)
    · rw [escaped, List.length_cons, List.length_singleton]
      omega
    · rw [plain, List.length_singleton]
      omega

section Strings

variable {cur : Cursor} {behind : Text}

/-- The lexer goes on to the quote at the end of the string. -/
theorem eatString_escaped {s : Text} {fuel : ℕ} (enough : s.length < fuel)
    (rest : cur.rest = s.flatMap (escapedText (byteOf '"')) ++ byteOf '"' :: behind) :
    eatString fuel cur = some (cur.skip (s.flatMap (escapedText (byteOf '"'))).length) := by
  induction s generalizing cur fuel with
  | nil =>
    obtain ⟨fuel, rfl⟩ := Nat.exists_eq_add_of_lt enough
    have quote : cur.peekNextChar = byteOf '"' := by
      rw [Cursor.peekNextChar, Cursor.peekChar, rest]
      rfl
    rw [eatString, if_pos (.inl quote)]
    rfl
  | cons c s ih =>
    obtain ⟨fuel, rfl⟩ : ∃ more, fuel = more + 1 := ⟨fuel - 1, by omega⟩
    rw [List.length_cons] at enough
    rw [List.flatMap_cons, List.append_assoc] at rest
    rw [List.flatMap_cons, List.length_append]
    obtain ⟨e, escaped, some_escape, -⟩ | ⟨plain, not_escape, -, some_char, not_quote⟩ :=
      @escapedText_cases (byteOf '"') c (.inl rfl)
    · rw [escaped] at rest ⊢
      have first : cur.peekNextChar = byteOf '\\' := by
        rw [Cursor.peekNextChar, Cursor.peekChar, rest]
        rfl
      have second : cur.peekChar 1 = e := by
        rw [Cursor.peekChar, rest]
        rfl
      have behind_escape : (cur.skip 2).rest = s.flatMap (escapedText (byteOf '"')) ++ byteOf '"' :: behind := by
        rw [Cursor.rest_skip, rest]
        rfl
      rw [eatString, first, if_neg (by decide), second, if_pos ⟨rfl, some_escape⟩, Cursor.eatCharacters_eq ?_]
      · rw [Option.bind_eq_bind, Option.bind_some, ih (by omega) behind_escape, Cursor.skip_skip]
        rfl
      · rw [rest]
        simp
    · rw [plain] at rest ⊢
      have first : cur.peekNextChar = c := by
        rw [Cursor.peekNextChar, Cursor.peekChar, rest]
        rfl
      have behind_char : (cur.skip 1).rest = s.flatMap (escapedText (byteOf '"')) ++ byteOf '"' :: behind := by
        rw [Cursor.rest_skip, rest]
        rfl
      rw [eatString, first, if_neg (not_or.mpr ⟨not_quote, some_char⟩), if_neg (fun escape => not_escape escape.1),
        Cursor.eatCharacter_eq ?_]
      · rw [Option.bind_eq_bind, Option.bind_some, ih (by omega) behind_char, Cursor.skip_skip]
        rfl
      · rw [rest]
        simp

theorem lexStep_string (afterDot : Bool) {s : Text}
    (rest : cur.rest = quotedText s) : ∃ stop : Cursor, stop.rest = [] ∧
      lexStep afterDot cur =
        some ⟨stop, some ⟨.string, cur.pos, stop.pos, .string (s.flatMap (escapedText (byteOf '"')))⟩, []⟩ := by
  have quote : cur.peekNextChar = byteOf '"' := by
    rw [Cursor.peekNextChar, Cursor.peekChar, rest]
    rfl
  have length : cur.rest.length = 1 + (s.flatMap (escapedText (byteOf '"'))).length + 1 := by
    rw [rest, quotedText, List.length_cons, List.length_append, List.length_singleton]
    omega
  have inner : (cur.skip 1).rest = s.flatMap (escapedText (byteOf '"')) ++ byteOf '"' :: [] := by
    rw [Cursor.rest_skip, rest]
    rfl
  have long_enough : s.length < (cur.skip 1).rest.length + 1 := by
    rw [inner, List.length_append]
    have le := length_le_escaped s
    omega
  have last : (cur.skip (1 + (s.flatMap (escapedText (byteOf '"'))).length)).peekNextChar = byteOf '"' := by
    rw [← Cursor.skip_skip, Cursor.peekNextChar_skip, Cursor.peekChar, inner]
    simp
  refine ⟨cur.skip cur.rest.length, ?_, ?_⟩
  · rw [Cursor.rest_skip, List.drop_length]
  · unfold lexStep
    dsimp only
    rw [quote, if_neg (by decide), if_neg (fun comment => absurd comment.1 (by decide)),
      if_neg (fun based => absurd based.1 (by decide)), if_neg (by decide), if_neg (by decide), if_pos rfl]
    unfold lexString
    rw [Cursor.eatCharacter_eq (by omega), Option.bind_eq_bind, Option.bind_some, eatString_escaped long_enough inner,
      Option.bind_some, Cursor.skip_skip, last, if_neg (by decide), Cursor.eatCharacter_eq ?_, Option.bind_some,
      Cursor.skip_skip, ← length, Cursor.upTo_skip le_rfl, List.take_length, rest, stringValue_quoted]
    rw [Cursor.rest_skip, List.length_drop]
    omega

end Strings

section Characters

variable {cur : Cursor} {c : BitVec 8}

/-- A quote of a character is the start of one. -/
theorem lexStep_quote (afterDot : Bool) (rest : cur.rest = quotedChar c) : lexStep afterDot cur = lexCharacter cur := by
  have quote : cur.peekNextChar = byteOf '\'' := by
    rw [Cursor.peekNextChar, Cursor.peekChar, rest]
    rfl
  unfold lexStep
  dsimp only
  rw [quote, if_neg (by decide), if_neg (fun comment => absurd comment.1 (by decide)),
    if_neg (fun based => absurd based.1 (by decide)), if_neg (by decide), if_pos rfl]

/-- The `'` at the end of the text. -/
theorem lexClosing_quote (rest : cur.rest = [byteOf '\'']) : lexClosing cur = some (cur.skip 1, []) := by
  have quote : cur.peekNextChar = byteOf '\'' := by
    rw [Cursor.peekNextChar, Cursor.peekChar, rest]
    rfl
  rw [lexClosing, if_pos quote, Cursor.eatCharacter_eq (by rw [rest]; decide)]
  rfl

/-- A character with its quotes, when the inner one is read without an error. -/
theorem lexCharacter_of_reads {next : Cursor} {value : ℕ} (inside : 0 < cur.rest.length)
    (reads : lexQuoted (cur.skip 1) = some (next, value, [])) (closes : next.rest = [byteOf '\'']) :
    lexCharacter cur =
      some ⟨next.skip 1, some ⟨.integer, cur.pos, (next.skip 1).pos, .character value⟩, []⟩ := by
  unfold lexCharacter
  rw [Cursor.eatCharacter_eq inside]
  change (lexQuoted (cur.skip 1)).bind _ = _
  rw [reads]
  change (lexClosing next).bind _ = _
  rw [lexClosing_quote closes]
  rfl

/-- A character of ASCII is read as its number. -/
theorem lexStep_character (afterDot : Bool) (rest : cur.rest = quotedChar c) (small : c.toNat < 128) :
    ∃ stop : Cursor, stop.rest = [] ∧
      lexStep afterDot cur = some ⟨stop, some ⟨.integer, cur.pos, stop.pos, .character c.toNat⟩, []⟩ := by
  rw [lexStep_quote afterDot rest]
  have inside : 0 < cur.rest.length := by
    rw [rest]
    exact Nat.succ_pos _
  obtain ⟨e, escaped, some_escape, not_hex, -, value, -⟩ | ⟨plain, not_escape, not_newline, some_char, not_quote⟩ :=
    @escapedText_cases (byteOf '\'') c (.inr rfl)
  · have parts : cur.rest = [byteOf '\'', byteOf '\\', e, byteOf '\''] := by
      rw [rest, quotedChar, escaped]
      rfl
    have first : (cur.skip 1).peekNextChar = byteOf '\\' := by
      rw [Cursor.peekNextChar_skip, Cursor.peekChar, parts]
      rfl
    have second : (cur.skip 2).peekNextChar = e := by
      rw [Cursor.peekNextChar_skip, Cursor.peekChar, parts]
      rfl
    have reads : lexQuoted (cur.skip 1) = some (cur.skip 3, c.toNat, []) := by
      unfold lexQuoted
      dsimp only
      rw [first, if_pos rfl, Cursor.eatCharacter_eq (by rw [Cursor.rest_skip, parts]; simp), Option.bind_eq_bind,
        Option.bind_some, Cursor.skip_skip]
      change (lexEscape (cur.skip 2)).bind _ = _
      rw [lexEscape, second, if_neg (fun hex => not_hex hex.1), Option.bind_some, value]
      rw [second, if_pos some_escape, Cursor.eatCharacter_eq (by rw [Cursor.rest_skip, parts]; simp),
        Cursor.skip_skip]
      rfl
    have closes : (cur.skip 3).rest = [byteOf '\''] := by
      rw [Cursor.rest_skip, parts]
      rfl
    exact ⟨_, by rw [Cursor.rest_skip, closes]; rfl, lexCharacter_of_reads inside reads closes⟩
  · have parts : cur.rest = [byteOf '\'', c, byteOf '\''] := by
      rw [rest, quotedChar, plain]
      rfl
    have first : (cur.skip 1).peekNextChar = c := by
      rw [Cursor.peekNextChar_skip, Cursor.peekChar, parts]
      rfl
    have reads : lexQuoted (cur.skip 1) = some (cur.skip 2, c.toNat, []) := by
      unfold lexQuoted
      dsimp only
      rw [first, if_neg not_escape, if_neg (not_or.mpr ⟨not_quote, not_or.mpr ⟨not_newline, some_char⟩⟩),
        if_neg (by omega), Cursor.eatCharacter_eq (by rw [Cursor.rest_skip, parts]; simp), Option.bind_eq_bind,
        Option.bind_some, Cursor.skip_skip]
    have closes : (cur.skip 2).rest = [byteOf '\''] := by
      rw [Cursor.rest_skip, parts]
      rfl
    exact ⟨_, by rw [Cursor.rest_skip, closes]; rfl, lexCharacter_of_reads inside reads closes⟩

/-- A byte that isn't ASCII is an error. -/
theorem errors_of_wide {afterDot : Bool} {step : Step} (rest : cur.rest = quotedChar c) (wide : 128 ≤ c.toNat)
    (steps : lexStep afterDot cur = some step) : step.errors ≠ [] := by
  rw [lexStep_quote afterDot rest] at steps
  obtain ⟨-, -, -, -, -, -, small⟩ | ⟨plain, not_escape, not_newline, some_char, not_quote⟩ :=
    @escapedText_cases (byteOf '\'') c (.inr rfl)
  · omega
  · have first : (cur.skip 1).peekNextChar = c := by
      rw [Cursor.peekNextChar_skip, Cursor.peekChar, rest, quotedChar, plain]
      rfl
    unfold lexCharacter at steps
    rw [Cursor.eatCharacter_eq (by rw [rest]; simp [quotedChar]), Option.bind_eq_bind, Option.bind_some] at steps
    obtain ⟨⟨next, value, errors⟩, reads, steps⟩ := Option.bind_eq_some_iff.mp steps
    obtain ⟨⟨last, closing⟩, -, steps⟩ := Option.bind_eq_some_iff.mp steps
    cases steps
    unfold lexQuoted at reads
    dsimp only at reads
    rw [first, if_neg not_escape, if_neg (not_or.mpr ⟨not_quote, not_or.mpr ⟨not_newline, some_char⟩⟩),
      if_pos wide] at reads
    obtain ⟨stop, -, reads⟩ := Option.bind_eq_some_iff.mp reads
    cases reads
    simp

end Characters

section Files

variable {text : Text} {c : BitVec 8}

/-- A text of one token. -/
theorem lexFile_of_step {token : Token} {stop : Cursor} (some_char : (⟨text, ⟨0, 1, 1⟩⟩ : Cursor).peekNextChar ≠ 0)
    (steps : lexStep false ⟨text, ⟨0, 1, 1⟩⟩ = some ⟨stop, some token, []⟩) (ends : stop.rest = []) :
    lexFile text = some ([token, ⟨.tokenEnd, stop.pos, stop.pos, .none⟩], []) := by
  have positive : 0 < text.length := Cursor.lt_of_peekChar_ne some_char
  obtain ⟨fuel, enough⟩ : ∃ fuel, text.length + 1 = fuel + 1 + 1 := ⟨text.length - 1, by omega⟩
  have nothing : stop.peekNextChar = 0 := by
    rw [Cursor.peekNextChar, Cursor.peekChar, ends]
    rfl
  have turns : lexTurns text = some ([⟨stop, some token, []⟩], stop) := by
    rw [lexTurns, enough, lexSteps, if_neg some_char, steps, Option.bind_eq_bind, Option.bind_some, lexSteps,
      if_pos nothing]
    rfl
  rw [lexFile, turns]
  rfl

/-- The text is one string token, and the compiler takes the string of it. -/
def ReadsString (text s : Text) : Prop := ∃ (stop : Pos) (data : Text),
  lexFile text = some ([⟨.string, ⟨0, 1, 1⟩, stop, .string data⟩, ⟨.tokenEnd, stop, stop, .none⟩], []) ∧
    decodeStringLiteral data = s

/-- The text is one character token of a value. -/
def ReadsCharacter (text : Text) (c : BitVec 8) : Prop := ∃ stop : Pos,
  lexFile text = some ([⟨.integer, ⟨0, 1, 1⟩, stop, .character c.toNat⟩, ⟨.tokenEnd, stop, stop, .none⟩], [])

theorem readsString_quotedText (s : Text) : ReadsString (quotedText s) s := by
  obtain ⟨stop, ends, steps⟩ := @lexStep_string ⟨quotedText s, ⟨0, 1, 1⟩⟩ false s rfl
  refine ⟨stop.pos, s.flatMap (escapedText (byteOf '"')), ?_, decodeStringLiteral_escaped s⟩
  exact lexFile_of_step (by simp [Cursor.peekNextChar, Cursor.peekChar, quotedText]; decide) steps ends

theorem readsCharacter_quotedChar_iff : ReadsCharacter (quotedChar c) c ↔ c.toNat < 128 := by
  have some_char : (⟨quotedChar c, ⟨0, 1, 1⟩⟩ : Cursor).peekNextChar ≠ 0 := by
    change byteOf '\'' ≠ 0
    decide
  constructor
  · rintro ⟨stop, reads⟩
    by_contra wide
    obtain ⟨⟨turns, last⟩, runs, reads⟩ := Option.map_eq_some_iff.mp reads
    have no_errors : turns.flatMap (·.errors) = [] := congrArg Prod.snd reads
    rw [lexTurns, lexSteps, if_neg some_char] at runs
    obtain ⟨step, steps, runs⟩ := Option.bind_eq_some_iff.mp runs
    obtain ⟨⟨others, last'⟩, -, runs⟩ := Option.bind_eq_some_iff.mp runs
    cases runs
    rw [List.flatMap_cons] at no_errors
    exact errors_of_wide rfl (by omega) steps (List.append_eq_nil_iff.mp no_errors).1
  · intro small
    obtain ⟨stop, ends, steps⟩ := @lexStep_character ⟨quotedChar c, ⟨0, 1, 1⟩⟩ c false rfl small
    exact ⟨stop.pos, lexFile_of_step some_char steps ends⟩

end Files

/-- What is written in quotes is read back: every string, and the characters of ASCII. -/
theorem quoted_readsBack_iff (sb : StringBuilder) (s : Text) (c : BitVec 8) :
    (∀ grown, sb.addQuoted s = some grown → ∃ text, grown.text = sb.text ++ text ∧ ReadsString text s) ∧
    ∀ grown, sb.addQuotedChar c = some grown →
      ∃ text, grown.text = sb.text ++ text ∧ (ReadsCharacter text c ↔ c.toNat < 128) := by
  constructor
  · intro grown adds
    exact ⟨quotedText s, StringBuilder.text_addQuoted adds, readsString_quotedText s⟩
  · intro grown adds
    exact ⟨quotedChar c, StringBuilder.text_addQuotedChar adds, readsCharacter_quotedChar_iff⟩

/-- A quote in a string, and a NUL. -/
theorem quoted_readsBack_small : (∃ text, ([34, 97, 92, 34, 34] : Text) = [] ++ text ∧ ReadsString text [97, 34]) ∧
    ∃ text, ([39, 92, 48, 39] : Text) = [] ++ text ∧ (ReadsCharacter text 0 ↔ (0 : BitVec 8).toNat < 128) :=
  ⟨(quoted_readsBack_iff ⟨[], 16⟩ [97, 34] 0).1 ⟨[34, 97, 92, 34, 34], 16⟩ (by decide),
    (quoted_readsBack_iff ⟨[], 16⟩ [97, 34] 0).2 ⟨[39, 92, 48, 39], 16⟩ (by decide)⟩

/-- The byte 195 is the first one of a letter in UTF-8. -/
theorem quoted_not_readsBack : ¬((∀ (sb grown : StringBuilder) (s : Text), sb.addQuoted s = some grown →
      ∃ text, grown.text = sb.text ++ text ∧ ReadsString text s) ∧
    ∀ (sb grown : StringBuilder) (c : BitVec 8), sb.addQuotedChar c = some grown →
      ∃ text, grown.text = sb.text ++ text ∧ ReadsCharacter text c) := by
  rintro ⟨-, all⟩
  obtain ⟨text, same, reads⟩ := all ⟨[], 16⟩ ⟨[39, 195, 39], 16⟩ 195 (by decide)
  have is : text = quotedChar 195 := same.symm
  rw [is, readsCharacter_quotedChar_iff] at reads
  exact absurd reads (by decide)

end Saad.Lexer
