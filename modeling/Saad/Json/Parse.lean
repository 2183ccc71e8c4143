import Saad.General.Outcomes
import Saad.Json.Grammar

/-! # The parser

What is left of the text stands for the position in it. The functions that call each other take a bound
on their calls, which `parse` gives large enough.
-/

namespace Saad.Json

open General

/-- A message with what is left of the text where it belongs, or the bound was not large enough. -/
inductive Failure where
  | message (text : String) (rest : Text)
  | bound
deriving DecidableEq, Repr

def fail {α : Type} (message : String) (rest : Text) : Except Failure α :=
  .error (.message message rest)

/-- The next character, or 0 at the end. -/
def peek (rest : Text) : BitVec 8 := rest.headD 0

@[simp] theorem peek_cons (ch : BitVec 8) (rest : Text) : peek (ch :: rest) = ch := rfl

def skipSpace (rest : Text) : Text := rest.dropWhile isSpace

def eatWord (rest : Text) (word : String) : Option Text :=
  if startsWith rest (asciiBytes word) then some (rest.drop (asciiBytes word).length) else none

section Strings

/-- -1 is none. -/
def hexDigit (ch : BitVec 8) : Option ℕ :=
  if byteOf '0' ≤ ch ∧ ch ≤ byteOf '9' then some (ch - byteOf '0').toNat
  else if byteOf 'a' ≤ ch ∧ ch ≤ byteOf 'f' then some ((ch - byteOf 'a').toNat + 10)
  else if byteOf 'A' ≤ ch ∧ ch ≤ byteOf 'F' then some ((ch - byteOf 'A').toNat + 10)
  else none

/-- The digits that are left to read, and the value so far. -/
def parseHexDigits : ℕ → ℕ → Text → Except Failure (ℕ × Text)
  | 0, value, rest => .ok (value, rest)
  | count + 1, value, rest =>
    match rest with
    | [] => fail "Expected 4 hex digits after \\u" rest
    | ch :: behind =>
      match hexDigit ch with
      | none => fail "Expected 4 hex digits after \\u" rest
      | some digit => parseHexDigits count (value * 16 + digit) behind

def parseHex4 (rest : Text) : Except Failure (ℕ × Text) :=
  if rest.length < 4 then fail "Expected 4 hex digits after \\u" rest
  else parseHexDigits 4 0 rest

/-- The bytes of a code point in UTF-8. -/
def addUtf8 (code : ℕ) : Text :=
  if code < 128 then [BitVec.ofNat 8 code]
  else if code < 2048 then [BitVec.ofNat 8 (192 ||| code >>> 6), BitVec.ofNat 8 (128 ||| code &&& 63)]
  else if code < 65536 then
    [BitVec.ofNat 8 (224 ||| code >>> 12), BitVec.ofNat 8 (128 ||| code >>> 6 &&& 63),
      BitVec.ofNat 8 (128 ||| code &&& 63)]
  else
    [BitVec.ofNat 8 (240 ||| code >>> 18), BitVec.ofNat 8 (128 ||| code >>> 12 &&& 63),
      BitVec.ofNat 8 (128 ||| code >>> 6 &&& 63), BitVec.ofNat 8 (128 ||| code &&& 63)]

/-- What an escape of a unit adds, with the second one of a pair. -/
def parseUnit (rest : Text) : Except Failure (Text × Text) := do
  let (code, rest) ← parseHex4 rest
  if code ≥ 55296 ∧ code ≤ 56319 then
    match eatWord rest "\\u" with
    | some behind =>
      let (low, rest) ← parseHex4 behind
      if low ≥ 56320 ∧ low ≤ 57343 then
        return (addUtf8 (65536 + ((code - 55296) <<< 10) + (low - 56320)), rest)
      else return (addUtf8 65533 ++ addUtf8 low, rest)
    | none => return (addUtf8 code, rest)
  else return (addUtf8 code, rest)

theorem length_of_parseHexDigits {count value n : ℕ} {rest behind : Text}
    (parses : parseHexDigits count value rest = .ok (n, behind)) : behind.length ≤ rest.length := by
  induction count generalizing value rest with
  | zero =>
    cases parses
    exact Nat.le_refl _
  | succ count ih =>
    cases rest with
    | nil => cases parses
    | cons ch more =>
      rw [parseHexDigits] at parses
      split at parses
      · cases parses
      · have shorter := ih parses
        rw [List.length_cons]
        omega

theorem length_of_parseHex4 {n : ℕ} {rest behind : Text} (parses : parseHex4 rest = .ok (n, behind)) :
    behind.length ≤ rest.length := by
  rw [parseHex4] at parses
  split at parses
  · cases parses
  · exact length_of_parseHexDigits parses

theorem length_of_parseUnit {text rest behind : Text} (parses : parseUnit rest = .ok (text, behind)) :
    behind.length ≤ rest.length := by
  obtain ⟨⟨code, more⟩, first, parses⟩ := bind_eq_ok_iff.mp parses
  have shorter := length_of_parseHex4 first
  dsimp only at parses
  split at parses
  · split at parses
    · next word eaten =>
      obtain ⟨⟨low, last⟩, second, later⟩ := bind_eq_ok_iff.mp parses
      have again := length_of_parseHex4 second
      rw [eatWord] at eaten
      split at eaten
      · obtain rfl := Option.some.inj eaten
        rw [List.length_drop] at again
        dsimp only at later
        split at later
        · obtain ⟨-, rfl⟩ := Prod.mk.inj (Except.ok.inj later)
          omega
        · obtain ⟨-, rfl⟩ := Prod.mk.inj (Except.ok.inj later)
          omega
      · cases eaten
    · obtain ⟨-, rfl⟩ := Prod.mk.inj (Except.ok.inj parses)
      exact shorter
  · obtain ⟨-, rfl⟩ := Prod.mk.inj (Except.ok.inj parses)
    exact shorter

/-- What is behind the first quote of a string. `sb` is what was read of it. -/
def parseString (sb : Text) (rest : Text) : Except Failure (Text × Text) :=
  match rest with
  | [] => fail "The string has no closing '\"'" rest
  | ch :: behind =>
    if ch = byteOf '"' then .ok (sb, behind)
    else if ch < byteOf ' ' then
      fail "A string can't have a control character like a newline. Write it as an escape like \\n" rest
    else if ch ≠ byteOf '\\' then parseString (sb ++ [ch]) behind
    else
      let escape := peek behind
      if escape = byteOf '"' ∨ escape = byteOf '\\' ∨ escape = byteOf '/' then
        parseString (sb ++ [escape]) (behind.drop 1)
      else if escape = byteOf 'b' then parseString (sb ++ [0x08]) (behind.drop 1)
      else if escape = byteOf 'f' then parseString (sb ++ [0x0C]) (behind.drop 1)
      else if escape = byteOf 'n' then parseString (sb ++ [0x0A]) (behind.drop 1)
      else if escape = byteOf 'r' then parseString (sb ++ [0x0D]) (behind.drop 1)
      else if escape = byteOf 't' then parseString (sb ++ [0x09]) (behind.drop 1)
      else if escape = byteOf 'u' then
        match _ : parseUnit (behind.drop 1) with
        | .error failure => .error failure
        | .ok (text, more) => parseString (sb ++ text) more
      else fail "Unknown escape in a string" behind
termination_by rest.length
decreasing_by
  all_goals simp only [List.length_cons, List.length_drop]
  all_goals try omega
  next parses =>
    have shorter := length_of_parseUnit parses
    rw [List.length_drop] at shorter
    omega

end Strings

section Numbers

variable {F : Type}

/-- No leading zeros, e.g 012 -/
def skipInteger (rest : Text) : Except Failure Text :=
  if peek rest = byteOf '0' then .ok (rest.drop 1)
  else if isDigit (peek rest) then .ok (rest.dropWhile isDigit)
  else fail "Expected a digit" rest

def skipFraction (rest : Text) : Except Failure Text :=
  if peek rest = byteOf '.' then
    if !isDigit (peek (rest.drop 1)) then fail "Expected a digit after the '.'" (rest.drop 1)
    else .ok ((rest.drop 1).dropWhile isDigit)
  else .ok rest

def skipExponent (rest : Text) : Except Failure Text :=
  if peek rest = byteOf 'e' ∨ peek rest = byteOf 'E' then
    let rest := rest.drop 1
    let rest := if peek rest = byteOf '+' ∨ peek rest = byteOf '-' then rest.drop 1 else rest
    if !isDigit (peek rest) then fail "Expected a digit in the exponent" rest
    else .ok (rest.dropWhile isDigit)
  else .ok rest

def skipNumber (rest : Text) : Except Failure Text := do
  let rest := if peek rest = byteOf '-' then rest.drop 1 else rest
  let rest ← skipInteger rest
  let rest ← skipFraction rest
  skipExponent rest

/-- The number, with the text that was skipped. -/
def parseNumber (strtod : Text → F) (rest : Text) : Except Failure (Value F × Text) := do
  let behind ← skipNumber rest
  let text := rest.take (rest.length - behind.length)
  return (.number (strtod text) text, behind)

end Numbers

section Values

variable {F : Type} (strtod : Text → F)

def maxDepth : ℕ := 512

def parseArray (items : Text → Except Failure (Value F × Text)) (behind : Text) :
    Except Failure (Value F × Text) :=
  let rest := skipSpace behind
  if peek rest = byteOf ']' then .ok (.array [], rest.drop 1) else items rest

def parseObject (members : Text → Except Failure (Value F × Text)) (behind : Text) :
    Except Failure (Value F × Text) :=
  let rest := skipSpace behind
  if peek rest = byteOf '}' then .ok (.object [], rest.drop 1) else members rest

/-- A literal. -/
def parseWord (rest : Text) : Except Failure (Value F × Text) :=
  match eatWord rest "true", eatWord rest "false", eatWord rest "null" with
  | some behind, _, _ => .ok (.bool true, behind)
  | _, some behind, _ => .ok (.bool false, behind)
  | _, _, some behind => .ok (.null, behind)
  | _, _, _ =>
    if peek rest = 0 then fail "Expected a value, but the text ended" rest
    else fail "Expected a value" rest

mutual

def parseValue : ℕ → ℕ → Text → Except Failure (Value F × Text)
  | 0, _, _ => .error .bound
  | bound + 1, depth, rest =>
    if depth > maxDepth then fail "The values are nested too deep" rest
    else if peek rest = byteOf '{' then parseObject (parseMembers bound depth []) (rest.drop 1)
    else if peek rest = byteOf '[' then parseArray (parseItems bound depth []) (rest.drop 1)
    else if peek rest = byteOf '"' then
      (parseString [] (rest.drop 1)).map fun (text, rest) => (.string text, rest)
    else if peek rest = byteOf '-' ∨ isDigit (peek rest) then parseNumber strtod rest
    else parseWord rest

/-- The loop of `parseArray`, behind the elements in `items`. -/
def parseItems : ℕ → ℕ → List (Value F) → Text → Except Failure (Value F × Text)
  | 0, _, _, _ => .error .bound
  | bound + 1, depth, items, rest => do
    let (element, rest) ← parseValue bound (depth + 1) (skipSpace rest)
    let items := items ++ [element]
    let rest := skipSpace rest
    if peek rest = byteOf ',' then parseItems bound depth items (rest.drop 1)
    else if peek rest = byteOf ']' then return (.array items, rest.drop 1)
    else fail "Expected a ',' or a ']' after the element" rest

/-- The loop of `parseObject`, behind the members in `fields`. -/
def parseMembers : ℕ → ℕ → AssocList Text (Value F) → Text → Except Failure (Value F × Text)
  | 0, _, _, _ => .error .bound
  | bound + 1, depth, fields, rest => do
    let rest := skipSpace rest
    if peek rest ≠ byteOf '"' then fail "Expected the name of a member as a string" rest
    else
      let (key, rest) ← parseString [] (rest.drop 1)
      let rest := skipSpace rest
      if peek rest ≠ byteOf ':' then fail "Expected a ':' after the name of the member" rest
      else
        let (member, rest) ← parseValue bound (depth + 1) (skipSpace (rest.drop 1))
        let fields := fields.insert key member
        let rest := skipSpace rest
        if peek rest = byteOf ',' then parseMembers bound depth fields (rest.drop 1)
        else if peek rest = byteOf '}' then return (.object fields, rest.drop 1)
        else fail "Expected a ',' or a '\x7d' after the member" rest

end

/-- The line and column behind a text, counted from 1. -/
def position (text : Text) : ℕ × ℕ :=
  text.foldl
    (fun (line, column) ch => if ch = byteOf '\n' then (line + 1, 1) else (line, column + 1)) (1, 1)

/-- A text whose positions are ints, and whose strings have room in a buffer that doubles. -/
def FitsInt (text : Text) : Prop := text.length < 2 ^ 30

instance (text : Text) : Decidable (FitsInt text) := inferInstanceAs (Decidable (_ < _))

/-- What is wrong and where, as `DecodeError` tells it. -/
structure ParseError where
  message : String
  line : ℕ
  column : ℕ
deriving DecidableEq, Repr

/-- The whole text, or where it stops being JSON. The outer option is none if the bound was reached. -/
def parse (text : Text) : Option (Except ParseError (Value F)) :=
  let result : Except Failure (Value F) := do
    let (value, rest) ← parseValue strtod (2 * text.length + 1) 0 (skipSpace text)
    let rest := skipSpace rest
    if rest ≠ [] then fail "Expected the end of the text after the value" rest
    else return value
  match result with
  | .ok value => some (.ok value)
  | .error .bound => none
  | .error (.message message rest) =>
    let (line, column) := position (text.take (text.length - rest.length))
    some (.error { message, line, column })

end Values

end Saad.Json
