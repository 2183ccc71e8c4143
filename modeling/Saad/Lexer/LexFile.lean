import Saad.Lexer.Cursor
import Saad.Parser.Lexer
import Saad.Std.Decimal

/-! # The tokens of the lexer

A token is its type, where it starts and ends, and its value. The errors are those that `lex_file` reports,
each with its message.
-/

namespace Saad.Lexer

/-- The type of a token: a keyword by its word, an operator or a bracket by its characters. -/
inductive TokenType where
  | keyword (word : Text)
  | integer
  | float
  | string
  | boolean
  | identifier
  | single (c : BitVec 8)
  | double (first second : BitVec 8)
  | triple (first second third : BitVec 8)
  | tokenEnd
deriving DecidableEq, Repr

/-- `As_value`. A number of a fraction is the text that `atof` reads. -/
inductive Value where
  | none
  | integer (value : BitVec 64) (isBigger : Bool)
  | character (value : ℕ)
  | floating (digits : Text)
  | string (data : Text)
  | boolean (value : Bool)
  | identifier (name : Text)
deriving DecidableEq, Repr

structure Token where
  type : TokenType
  start : Pos
  stop : Pos
  value : Value := .none
deriving DecidableEq, Repr

/-- The errors that are reported. -/
inductive LexError where
  | noDigits (base : ℕ) (letter : BitVec 8)
  | badDigit (base : ℕ)
  | tooBig
  | unknownEscape
  | emptyCharacter
  | wideCharacter
  | longCharacter
  | openCharacter
  | openString
  | unknownCharacter (text : Text)
deriving DecidableEq, Repr

/-- The text between two places of the cursor. -/
def Cursor.upTo (start stop : Cursor) : Text := start.rest.take (stop.pos.inputIdx - start.pos.inputIdx)

theorem Cursor.upTo_skip {cur : Cursor} {n : ℕ} (inside : n ≤ cur.rest.length) :
    cur.upTo (cur.skip n) = cur.rest.take n := by
  rw [Cursor.upTo, Cursor.inputIdx_skip inside, Nat.add_sub_cancel_left]

section Literals

/-- `make_literal` of a number without a fraction. -/
def integerValue (src : Text) : Value :=
  let val := (strtoull 10 (src.filter (· != byteOf '_'))).1
  .integer (BitVec.ofNat 64 val) (2 ^ 63 - 1 < val)

/-- `make_literal` of a number with a fraction. -/
def floatValue (src : Text) : Value := .floating (src.filter (· != byteOf '_'))

/-- `make_literal` of a string: without its quotes, of which a string that the file ended in has only one. -/
def stringValue (src : Text) : Value :=
  let closed := 2 ≤ src.length ∧ src.getLast? = some (byteOf '"')
  .string (src.tail.take (if closed then src.length - 2 else src.length - 1))

end Literals

end Saad.Lexer

/-! # The lexer

`lex_file` with its cursor, one step for each turn of its loop. A step is none when it reads behind the NUL or
doesn't end.
-/

namespace Saad.Lexer

/-- What a step leaves: the cursor, the token that is pushed, and the errors that are reported. -/
structure Step where
  cursor : Cursor
  token : Option Token := none
  errors : List (Pos × LexError) := []
deriving DecidableEq, Repr

section Loops

/-- Eat as long as the next character is one of some. -/
def eatCharactersWhile (more : BitVec 8 → Bool) (cur : Cursor) : Option Cursor :=
  Cursor.eatWhile (fun cur => cur.peekNextChar != 0 && more cur.peekNextChar) (cur.rest.length + 1) cur

/-- The digits of a number, with `_` between digits. -/
def eatDigits (cur : Cursor) : Option Cursor :=
  Cursor.eatWhile (fun cur => isDigit cur.peekNextChar || (cur.peekNextChar == byteOf '_' && isDigit (cur.peekChar 1)))
    (cur.rest.length + 1) cur

end Loops

section Numbers

/-- The digits of a number in base 16, 2 or 8 that are read so far. -/
structure BasedNumber where
  value : BitVec 64 := 0
  overflow : Bool := false
  badDigit : Bool := false
  digits : ℕ := 0
deriving DecidableEq, Repr

def BasedNumber.add (number : BasedNumber) (base digit : ℕ) : BasedNumber where
  value := number.value * BitVec.ofNat 64 base + BitVec.ofNat 64 digit
  overflow := number.overflow || decide ((2 ^ 64 - 1 - digit) / base < number.value.toNat)
  badDigit := number.badDigit || decide (base ≤ digit)
  digits := number.digits + 1

def readBasedDigits (base : ℕ) : ℕ → Cursor → BasedNumber → Option (Cursor × BasedNumber)
  | 0, _, _ => none
  | fuel + 1, cur, number => do
    let d := cur.peekNextChar
    if d = byteOf '_' then
      let cur ← cur.eatCharacter
      readBasedDigits base fuel cur number
    else if isDigit d ∨ isLetter d then
      let cur ← cur.eatCharacter
      readBasedDigits base fuel cur (number.add base (letterNumber d))
    else some (cur, number)

/-- The error of a number in base 16, 2 or 8. -/
def basedError (base : ℕ) (letter : BitVec 8) (number : BasedNumber) : Option LexError :=
  if number.digits = 0 then some (.noDigits base letter)
  else if number.badDigit then some (.badDigit base)
  else if number.overflow then some .tooBig
  else none

/-- `0xff`, `0b1010` and `0o17`. -/
def lexBased (start : Cursor) : Option Step := do
  let letter := toLower (start.peekChar 1)
  let base := if letter = byteOf 'x' then 16 else if letter = byteOf 'b' then 2 else 8
  let cur ← Cursor.eatCharacters 2 start
  let (cur, number) ← readBasedDigits base (cur.rest.length + 1) cur {}
  some {
    cursor := cur
    token := some ⟨.integer, start.pos, cur.pos, .integer number.value (2 ^ 63 - 1 < number.value.toNat)⟩
    errors := (basedError base letter number).toList.map (cur.pos, ·) }

def lexNumber (start : Cursor) : Option Step := do
  let cur ← start.eatCharacter
  let cur ← eatDigits cur
  if cur.peekNextChar = byteOf '.' ∧ cur.peekChar 1 ≠ byteOf '.' then
    let cur ← cur.eatCharacter
    let cur ← eatDigits cur
    some { cursor := cur, token := some ⟨.float, start.pos, cur.pos, floatValue (start.upTo cur)⟩ }
  else some { cursor := cur, token := some ⟨.integer, start.pos, cur.pos, integerValue (start.upTo cur)⟩ }

end Numbers

section Quotes

/-- The character that an escape of one letter is. -/
def escapedCharacter (escape : BitVec 8) : Option ℕ :=
  if escape = byteOf 'n' then some 10
  else if escape = byteOf 't' then some 9
  else if escape = byteOf 'r' then some 13
  else if escape = byteOf '0' then some 0
  else if escape = byteOf '\\' then some 92
  else if escape = byteOf '\'' then some 39
  else if escape = byteOf '"' then some 34
  else none

/-- The escape behind a `\`: the cursor at its last character, and its value. -/
def lexEscape (cur : Cursor) : Option (Cursor × Option ℕ) :=
  let escape := cur.peekNextChar
  if escape = byteOf 'x' ∧ isHexDigit (cur.peekChar 1) ∧ isHexDigit (cur.peekChar 2) then
    (Cursor.eatCharacters 2 cur).map (·, some (letterNumber (cur.peekChar 1) * 16 + letterNumber (cur.peekChar 2)))
  else some (cur, escapedCharacter escape)

/-- The character between the quotes. -/
def lexQuoted (cur : Cursor) : Option (Cursor × ℕ × List (Pos × LexError)) := do
  let ch := cur.peekNextChar
  if ch = byteOf '\\' then
    let cur ← cur.eatCharacter
    let (cur, value) ← lexEscape cur
    let errors := if value = none then [(cur.pos, LexError.unknownEscape)] else []
    let cur ← if cur.peekNextChar ≠ 0 then cur.eatCharacter else some cur
    some (cur, value.getD 0, errors)
  else if ch = byteOf '\'' ∨ ch = byteOf '\n' ∨ ch = 0 then some (cur, 0, [(cur.pos, .emptyCharacter)])
  else if 0x80 ≤ ch.toNat then
    let next ← eatCharactersWhile (fun c => 0x80 ≤ c.toNat) cur
    some (next, 0, [(cur.pos, .wideCharacter)])
  else
    let next ← cur.eatCharacter
    some (next, ch.toNat, [])

/-- The `'` at the end. More characters in front of it on the line are taken in. -/
def lexClosing (cur : Cursor) : Option (Cursor × List (Pos × LexError)) :=
  if cur.peekNextChar = byteOf '\'' then cur.eatCharacter.map (·, [])
  else
    let ahead := (cur.rest.takeWhile fun c => c != byteOf '\n' && c != byteOf '\'').length
    if cur.peekChar ahead = byteOf '\'' then
      (Cursor.eatCharacters (ahead + 1) cur).map (·, [(cur.pos, .longCharacter)])
    else some (cur, [(cur.pos, .openCharacter)])

def lexCharacter (start : Cursor) : Option Step := do
  let cur ← start.eatCharacter
  let (cur, value, errors) ← lexQuoted cur
  let (cur, closing) ← lexClosing cur
  some { cursor := cur, token := some ⟨.integer, start.pos, cur.pos, .character value⟩, errors := errors ++ closing }

/-- Up to the `"` that no escape is in front of. -/
def eatString : ℕ → Cursor → Option Cursor
  | 0, _ => none
  | fuel + 1, cur => do
    let next := cur.peekNextChar
    if next = byteOf '"' ∨ next = 0 then some cur
    else if next = byteOf '\\' ∧ cur.peekChar 1 ≠ 0 then
      let cur ← Cursor.eatCharacters 2 cur
      eatString fuel cur
    else
      let cur ← cur.eatCharacter
      eatString fuel cur

def lexString (start : Cursor) : Option Step := do
  let cur ← start.eatCharacter
  let cur ← eatString (cur.rest.length + 1) cur
  if cur.peekNextChar = 0 then
    some {
      cursor := cur
      token := some ⟨.string, start.pos, cur.pos, stringValue (start.upTo cur)⟩
      errors := [(cur.pos, .openString)] }
  else
    let cur ← cur.eatCharacter
    some { cursor := cur, token := some ⟨.string, start.pos, cur.pos, stringValue (start.upTo cur)⟩ }

end Quotes

section Words

/-- A keyword. `true` and `false` have a value. -/
def lexKeyword (start : Cursor) (word : Text) : Option Step := do
  let cur ← Cursor.eatCharacters word.length start
  if word = asciiBytes "true" ∨ word = asciiBytes "false" then
    some { cursor := cur, token := some ⟨.boolean, start.pos, cur.pos, .boolean (word = asciiBytes "true")⟩ }
  else some { cursor := cur, token := some ⟨.keyword word, start.pos, cur.pos, .none⟩ }

def lexIdentifier (start : Cursor) : Option Step := do
  let cur ← start.eatCharacter
  let cur ← eatCharactersWhile proceedsIdentifier cur
  some { cursor := cur, token := some ⟨.identifier, start.pos, cur.pos, .identifier (start.upTo cur)⟩ }

/-- A token of one character starts one place before its end. -/
def lexSingle (start : Cursor) : Option Step := do
  let cur ← start.eatCharacter
  let pos : Pos := { cur.pos with inputIdx := cur.pos.inputIdx - 1, col := cur.pos.col - 1 }
  some { cursor := cur, token := some ⟨.single start.peekNextChar, pos, cur.pos, .none⟩ }

/-- An unknown character is skipped, with all the bytes that its first one announces. -/
def lexUnknown (start : Cursor) : Option Step := do
  let length := 1 + unknownLength start.peekNextChar
  let text := start.rest.take length
  let cur ← Cursor.eatCharacters text.length start
  some { cursor := cur, errors := [(start.pos, .unknownCharacter text)] }

def lexOperator (start : Cursor) : Option Step := do
  let first := start.peekNextChar
  let second := start.peekChar 1
  let third := start.peekChar 2
  if isTripleCharacterToken first second third then
    let cur ← Cursor.eatCharacters 3 start
    some { cursor := cur, token := some ⟨.triple first second third, start.pos, cur.pos, .none⟩ }
  else if isDoubleCharacterToken first second then
    let cur ← Cursor.eatCharacters 2 start
    some { cursor := cur, token := some ⟨.double first second, start.pos, cur.pos, .none⟩ }
  else if isSingleCharacterToken first then lexSingle start
  else lexUnknown start

end Words

section Files

/-- A comment goes on to the end of its line. -/
def lexComment (start : Cursor) : Option Step := do
  let cur ← Cursor.eatCharacters 2 start
  let cur ← eatCharactersWhile (fun c => c != byteOf '\n') cur
  some { cursor := cur }

/-- One turn of the loop of `lex_file`. -/
def lexStep (afterDot : Bool) (cur : Cursor) : Option Step :=
  let c := cur.peekNextChar
  if c = byteOf ' ' ∨ c = byteOf '\t' ∨ c = byteOf '\n' then cur.eatCharacter.map ({ cursor := · })
  else if c = byteOf '/' ∧ cur.peekChar 1 = byteOf '/' then lexComment cur
  else if c = byteOf '0' ∧ (asciiBytes "xXbBoO").contains (cur.peekChar 1) then lexBased cur
  else if isDigit c then lexNumber cur
  else if c = byteOf '\'' then lexCharacter cur
  else if c = byteOf '"' then lexString cur
  else
    match keywordAt afterDot c cur.rest.tail with
    | some word => lexKeyword cur word
    | none => if startsIdentifier c then lexIdentifier cur else lexOperator cur

/-- A word right behind a `.` is a name. -/
def isAfterDot (afterDot : Bool) : Option Token → Bool
  | some token => token.type == .single (byteOf '.')
  | none => afterDot

/-- The turns from a place on, and where the file ends. -/
def lexSteps : ℕ → Bool → Cursor → Option (List Step × Cursor)
  | 0, _, _ => none
  | fuel + 1, afterDot, cur =>
    if cur.peekNextChar = 0 then some ([], cur)
    else do
      let step ← lexStep afterDot cur
      let (steps, last) ← lexSteps fuel (isAfterDot afterDot step.token) step.cursor
      some (step :: steps, last)

/-- The turns of `lex_file` on a text. -/
def lexTurns (text : Text) : Option (List Step × Cursor) := lexSteps (text.length + 1) false ⟨text, ⟨0, 1, 1⟩⟩

/-- `lex_file`: the tokens that are pushed, and the errors. -/
def lexFile (text : Text) : Option (List Token × List (Pos × LexError)) :=
  (lexTurns text).map fun (steps, last) =>
    (steps.filterMap (·.token) ++ [⟨.tokenEnd, last.pos, last.pos, .none⟩], steps.flatMap (·.errors))

end Files

end Saad.Lexer
