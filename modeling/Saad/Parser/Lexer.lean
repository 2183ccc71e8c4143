import Saad.Std.Text

/-! # The tokens of a source file

`lex_file` on the bytes of a text that ends at its NUL. The values of numbers and strings and the
reported errors are left out: the readers of the start of a file use neither.
-/

namespace Saad

/-- A token by its type: a keyword by its word, an operator or a bracket by its characters. -/
inductive LexToken where
  | keyword (word : Text)
  | boolean (value : Bool)
  | integer
  | float
  | string
  | identifier (name : Text)
  | single (c : BitVec 8)
  | double (first second : BitVec 8)
  | triple (first second third : BitVec 8)
deriving DecidableEq, Repr

section Characters

def startsIdentifier (c : BitVec 8) : Bool := c == byteOf '_' || isLetter c

def proceedsIdentifier (c : BitVec 8) : Bool := c == byteOf '_' || isDigit c || isLetter c

/-- The words that `match_keyword` knows, by their length. -/
def keywords : List Text :=
  ["if", "as", "in", "u8", "i8", "xx",
    "try", "new", "use", "int", "for", "u16", "u32", "u64", "i16", "i32", "i64", "f32", "f64", "any",
    "uint", "null", "char", "bool", "void", "true", "case", "else", "enum",
    "catch", "throw", "defer", "float", "false", "break", "while", "union",
    "struct", "method", "switch", "string", "return", "assert", "typeof", "sizeof", "import", "extern",
    "continue", "namespace"].map asciiBytes

/-- The operators of three characters. -/
def isTripleCharacterToken (first second third : BitVec 8) : Bool :=
  (first == byteOf '.' && second == byteOf '.' && third == byteOf '.') ||
    (first == byteOf '<' && second == byteOf '<' && third == byteOf '=') ||
    (first == byteOf '>' && second == byteOf '>' && third == byteOf '=')

/-- The operators of two characters. -/
def isDoubleCharacterToken (first second : BitVec 8) : Bool :=
  ["<<", ">>", "&&", "||", "<=", ">=", "==", "!=", ":=", "::", "->", "=>", "..", "??", "?.", "+=", "-=", "*=", "/=",
    "%=", "^=", "|=", "&="].any fun token => asciiBytes token == [first, second]

def isSingleCharacterToken (c : BitVec 8) : Bool := (asciiBytes "+-*/%^<>!~=;{}[]()&|,:.#@?").contains c

end Characters

section Lengths

/-- The digits of a number, with `_` between digits. -/
def digitsLength : Text → ℕ
  | [] => 0
  | c :: rest =>
    if isDigit c || (c == byteOf '_' && rest.head?.any isDigit) then 1 + digitsLength rest else 0

/-- The characters of a number after its first digit, and whether it has a fraction. -/
def numberLength (rest : Text) : ℕ × LexToken :=
  let digits := digitsLength rest
  let after := rest.drop digits
  if after.head? = some (byteOf '.') then
    if after.tail.head? = some (byteOf '.') then (digits, .integer)
    else (digits + 1 + digitsLength after.tail, .float)
  else (digits, .integer)

/-- The characters of a number in base 16, 2 or 8 after its prefix. -/
def basedLength (rest : Text) : ℕ := (rest.takeWhile fun c => c == byteOf '_' || isDigit c || isLetter c).length

/-- The characters of a string after its first quote, up to the quote that no escape is in front of. -/
def stringLength : Text → ℕ
  | [] => 0
  | [_] => 1
  | c :: next :: rest =>
    if c = byteOf '"' then 1
    else if c = byteOf '\\' then 2 + stringLength rest
    else 1 + stringLength (next :: rest)

/-- The character between the quotes, or its escape. -/
def characterLength (rest : Text) : ℕ :=
  if rest.head? = some (byteOf '\\') then
    let escape := rest.tail
    let digits := if escape.head? = some (byteOf 'x') ∧ (escape.tail.takeWhile isHexDigit).length ≥ 2 then 2 else 0
    1 + digits + (if (escape.drop digits).isEmpty then 0 else 1)
  else if rest.head? = some (byteOf '\'') ∨ rest.head? = some (byteOf '\n') then 0
  else if rest.head?.any fun c => decide (128 ≤ c.toNat) then (rest.takeWhile fun c => decide (128 ≤ c.toNat)).length
  else min 1 rest.length

/-- The quote that ends a character, with more characters in front of it when there is one on the line. -/
def closingLength (rest : Text) : ℕ :=
  if rest.head? = some (byteOf '\'') then 1
  else
    let ahead := (rest.takeWhile fun c => c != byteOf '\n' && c != byteOf '\'').length
    if (rest.drop ahead).head? = some (byteOf '\'') then ahead + 1 else 0

/-- The bytes of an unknown character of UTF-8 after its first. -/
def unknownLength (c : BitVec 8) : ℕ :=
  if 0xF0 ≤ c.toNat then 3 else if 0xE0 ≤ c.toNat then 2 else if 0xC0 ≤ c.toNat then 1 else 0

end Lengths

/-- The word at a character that a keyword or a name can be. -/
def wordAt (c : BitVec 8) (rest : Text) : Text := (c :: rest).takeWhile fun c => startsIdentifier c || isDigit c

/-- A keyword, unless it is a name: after a `.`, or in front of a `:`. -/
def keywordAt (afterDot : Bool) (c : BitVec 8) (rest : Text) : Option Text :=
  let word := wordAt c rest
  let declared := ((c :: rest).drop word.length |>.dropWhile fun c => c == byteOf ' ' || c == byteOf '\t').head? =
    some (byteOf ':')
  let isConstant := word ∈ [asciiBytes "true", asciiBytes "false", asciiBytes "null"]
  if word ∈ keywords ∧ ¬afterDot ∧ ¬(declared ∧ ¬isConstant) then some word else none

def keywordToken (word : Text) : LexToken :=
  if word = asciiBytes "true" then .boolean true
  else if word = asciiBytes "false" then .boolean false
  else .keyword word

/-- One step of `lex_file` at a character: the token, and how many more characters it takes. -/
def lexStep (afterDot : Bool) (c : BitVec 8) (rest : Text) : Option LexToken × ℕ :=
  if c = byteOf ' ' ∨ c = byteOf '\t' ∨ c = byteOf '\n' then (none, 0)
  else if c = byteOf '/' ∧ rest.head? = some (byteOf '/') then
    (none, 1 + (rest.tail.takeWhile fun c => c != byteOf '\n').length)
  else if c = byteOf '0' ∧ rest.head?.any fun c => (asciiBytes "xXbBoO").contains c then
    (some .integer, 1 + basedLength rest.tail)
  else if isDigit c then (some (numberLength rest).2, (numberLength rest).1)
  else if c = byteOf '\'' then
    let character := characterLength rest
    (some .integer, character + closingLength (rest.drop character))
  else if c = byteOf '"' then (some .string, stringLength rest)
  else
    match keywordAt afterDot c rest with
    | some word => (some (keywordToken word), word.length - 1)
    | none =>
      if startsIdentifier c then
        let name := c :: rest.takeWhile proceedsIdentifier
        (some (.identifier name), name.length - 1)
      else
        let second := rest.headD 0
        let third := rest.tail.headD 0
        if isTripleCharacterToken c second third then (some (.triple c second third), 2)
        else if isDoubleCharacterToken c second then (some (.double c second), 1)
        else if isSingleCharacterToken c then (some (.single c), 0)
        else (none, unknownLength c)

/-- The tokens of a text that has no NUL in it, without the one of the end. -/
def lexFile (afterDot : Bool) : Text → List LexToken
  | [] => []
  | c :: rest =>
    match lexStep afterDot c rest with
    | (some token, more) => token :: lexFile (token == .single (byteOf '.')) (rest.drop more)
    | (none, more) => lexFile afterDot (rest.drop more)
termination_by text => text.length
decreasing_by
  all_goals
    rw [List.length_drop, List.length_cons]
    omega

/-- The text of a file: its bytes without `\r`, up to a NUL. -/
def fileText (raw : Text) : Text := (raw.filter fun c => c != byteOf '\r').takeWhile fun c => c != 0

section Lemmas

variable {afterDot : Bool} {c : BitVec 8} {rest : Text}

theorem lexFile_token {token : LexToken} {more : ℕ} (step : lexStep afterDot c rest = (some token, more)) :
    lexFile afterDot (c :: rest) = token :: lexFile (token == .single (byteOf '.')) (rest.drop more) := by
  rw [lexFile, step]

theorem lexFile_skip {more : ℕ} (step : lexStep afterDot c rest = (none, more)) :
    lexFile afterDot (c :: rest) = lexFile afterDot (rest.drop more) := by
  rw [lexFile, step]

/-- A blank is skipped. -/
theorem lexFile_blank (blank : c = byteOf ' ' ∨ c = byteOf '\t' ∨ c = byteOf '\n') :
    lexFile afterDot (c :: rest) = lexFile afterDot rest := by
  have step : lexStep afterDot c rest = (none, 0) := by rw [lexStep, if_pos blank]
  rw [lexFile_skip step, List.drop_zero]

/-- A comment is skipped up to the end of its line. -/
theorem lexFile_comment {comment : Text} (oneLine : ∀ c ∈ comment, c ≠ byteOf '\n') :
    lexFile afterDot (byteOf '/' :: byteOf '/' :: (comment ++ byteOf '\n' :: rest)) = lexFile afterDot rest := by
  have taken : (comment ++ byteOf '\n' :: rest).takeWhile (fun c => c != byteOf '\n') = comment := by
    rw [List.takeWhile_append_of_pos (by simpa using oneLine)]
    simp
  have step : lexStep afterDot (byteOf '/') (byteOf '/' :: (comment ++ byteOf '\n' :: rest)) =
      (none, 1 + comment.length) := by
    rw [lexStep, if_neg (by decide), if_pos ⟨rfl, rfl⟩, List.tail_cons, taken]
  rw [lexFile_skip step, Nat.add_comm, List.drop_succ_cons, List.drop_left, lexFile_blank (.inr (.inr rfl))]

end Lemmas

end Saad
