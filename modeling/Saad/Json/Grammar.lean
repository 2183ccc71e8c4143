import Saad.General.AssocList
import Saad.Std.Text

/-! # JSON values

A value has what its kind uses. The fields of an object are an association list, as the map that holds
them behaves like one. `F` are the numbers of 64 bits.
-/

namespace Saad.Json

open General

inductive Value (F : Type) where
  | null
  | bool (boolean : Bool)
  /-- A number, and how it was written if it was parsed. -/
  | number (number : F) (text : Text)
  | string (text : Text)
  | array (items : List (Value F))
  | object (fields : List (Text × Value F))

variable {F : Type}

def newNull : Value F := .null

def newBool (b : Bool) : Value F := .bool b

def newNumber (n : F) : Value F := .number n []

def newString (s : Text) : Value F := .string s

def newArray : Value F := .array []

def newObject : Value F := .object []

/-- Adds an element to an array. The elements that another kind would hold are never read. -/
def Value.push (v element : Value F) : Value F :=
  match v with
  | .array items => .array (items ++ [element])
  | v => v

/-- Sets a member of an object. -/
def Value.put (v : Value F) (key : Text) (member : Value F) : Value F :=
  match v with
  | .object fields => .object (AssocList.insert key member fields)
  | v => v

/-- The member of an object. -/
def Value.get (v : Value F) (key : Text) : Value F :=
  match v with
  | .object fields => (AssocList.lookup key fields).getD .null
  | _ => .null

def Value.asString (v : Value F) (fallback : Text := []) : Text :=
  match v with
  | .string text => text
  | _ => fallback

end Saad.Json

/-! # JSON texts

The grammar of RFC 8259, as what a text starts with and the rest of it, and what a text means. Bytes
above ASCII are taken as they are inside of strings.
-/

namespace Saad.Json

open General

/-- A part of a string: a byte, or a unit of UTF-16 that is written as an escape. -/
inductive Part where
  | byte (b : BitVec 8)
  | unit (n : ℕ)
deriving DecidableEq, Repr

inductive Tree where
  | null
  | bool (b : Bool)
  | number (text : Text)
  | string (parts : List Part)
  | array (items : List Tree)
  | object (members : List (List Part × Tree))

section Grammar

/-- `ws` -/
def isSpace (ch : BitVec 8) : Bool :=
  ch == byteOf ' ' || ch == byteOf '\n' || ch == byteOf '\r' || ch == byteOf '\t'

inductive Spaces : Text → Text → Prop
  | nil (rest : Text) : Spaces rest rest
  | cons (ch : BitVec 8) (text rest : Text) : isSpace ch = true → Spaces text rest →
      Spaces (ch :: text) rest

/-- `int` -/
inductive Integer : Text → Prop
  | zero : Integer [byteOf '0']
  | digits (ch : BitVec 8) (rest : Text) : isDigit ch = true → ch ≠ byteOf '0' →
      (∀ c ∈ rest, isDigit c = true) → Integer (ch :: rest)

def Digits (text : Text) : Prop := text ≠ [] ∧ ∀ c ∈ text, isDigit c = true

/-- `frac`, which may be left out. -/
inductive Fraction : Text → Prop
  | none : Fraction []
  | digits (text : Text) : Digits text → Fraction (byteOf '.' :: text)

/-- `exp`, which may be left out. -/
inductive Exponent : Text → Prop
  | none : Exponent []
  | digits (e : BitVec 8) (sign text : Text) : e = byteOf 'e' ∨ e = byteOf 'E' →
      sign = [] ∨ sign = [byteOf '+'] ∨ sign = [byteOf '-'] → Digits text →
      Exponent (e :: sign ++ text)

inductive Number : Text → Prop
  | mk (sign integer fraction exponent : Text) : sign = [] ∨ sign = [byteOf '-'] →
      Integer integer → Fraction fraction → Exponent exponent →
      Number (sign ++ integer ++ fraction ++ exponent)

/-- The characters that are written with a backslash and one more character. -/
def escapes : List (BitVec 8 × BitVec 8) :=
  [(byteOf '"', byteOf '"'), (byteOf '\\', byteOf '\\'), (byteOf '/', byteOf '/'),
    (byteOf 'b', 0x08), (byteOf 'f', 0x0C), (byteOf 'n', 0x0A), (byteOf 'r', 0x0D),
    (byteOf 't', 0x09)]

def hexUnit (a b c d : BitVec 8) : ℕ :=
  [a, b, c, d].foldl (fun n ch => n * 16 + (digitValue ch).toNat) 0

/-- What is behind the first quote of a string, up to the second one. -/
inductive StringText : Text → List Part → Text → Prop
  | close (rest : Text) : StringText (byteOf '"' :: rest) [] rest
  | plain (ch : BitVec 8) (text : Text) (parts : List Part) (rest : Text) : byteOf ' ' ≤ ch →
      ch ≠ byteOf '"' → ch ≠ byteOf '\\' → StringText text parts rest →
      StringText (ch :: text) (.byte ch :: parts) rest
  | escape (e ch : BitVec 8) (text : Text) (parts : List Part) (rest : Text) : (e, ch) ∈ escapes →
      StringText text parts rest →
      StringText (byteOf '\\' :: e :: text) (.byte ch :: parts) rest
  | unit (a b c d : BitVec 8) (text : Text) (parts : List Part) (rest : Text) :
      (∀ ch ∈ [a, b, c, d], isHexDigit ch = true) → StringText text parts rest →
      StringText (byteOf '\\' :: byteOf 'u' :: a :: b :: c :: d :: text)
        (.unit (hexUnit a b c d) :: parts) rest

mutual

/-- A text that starts with a value, and the rest of it. -/
inductive ValueText : Text → Tree → Text → Prop
  | null (rest : Text) : ValueText (asciiBytes "null" ++ rest) .null rest
  | isTrue (rest : Text) : ValueText (asciiBytes "true" ++ rest) (.bool true) rest
  | isFalse (rest : Text) : ValueText (asciiBytes "false" ++ rest) (.bool false) rest
  | number (text rest : Text) : Number text → ValueText (text ++ rest) (.number text) rest
  | string (text : Text) (parts : List Part) (rest : Text) : StringText text parts rest →
      ValueText (byteOf '"' :: text) (.string parts) rest
  | emptyArray (text rest : Text) : Spaces text (byteOf ']' :: rest) →
      ValueText (byteOf '[' :: text) (.array []) rest
  | array (text : Text) (items : List Tree) (rest : Text) : ItemsText text items rest →
      ValueText (byteOf '[' :: text) (.array items) rest
  | emptyObject (text rest : Text) : Spaces text (byteOf '}' :: rest) →
      ValueText (byteOf '{' :: text) (.object []) rest
  | object (text : Text) (members : List (List Part × Tree)) (rest : Text) :
      MembersText text members rest → ValueText (byteOf '{' :: text) (.object members) rest

/-- The elements of an array, up to the bracket. -/
inductive ItemsText : Text → List Tree → Text → Prop
  | last (text item_text behind : Text) (item : Tree) (rest : Text) : Spaces text item_text →
      ValueText item_text item behind → Spaces behind (byteOf ']' :: rest) →
      ItemsText text [item] rest
  | cons (text item_text behind more : Text) (item : Tree) (items : List Tree) (rest : Text) :
      Spaces text item_text → ValueText item_text item behind → Spaces behind (byteOf ',' :: more) →
      ItemsText more items rest → ItemsText text (item :: items) rest

/-- The members of an object, up to the brace. -/
inductive MembersText : Text → List (List Part × Tree) → Text → Prop
  | last (text name_text before between value_text behind : Text) (name : List Part) (value : Tree)
      (rest : Text) : Spaces text (byteOf '"' :: name_text) → StringText name_text name before →
      Spaces before (byteOf ':' :: between) → Spaces between value_text →
      ValueText value_text value behind → Spaces behind (byteOf '}' :: rest) →
      MembersText text [(name, value)] rest
  | cons (text name_text before between value_text behind more : Text) (name : List Part)
      (value : Tree) (members : List (List Part × Tree)) (rest : Text) :
      Spaces text (byteOf '"' :: name_text) → StringText name_text name before →
      Spaces before (byteOf ':' :: between) → Spaces between value_text →
      ValueText value_text value behind → Spaces behind (byteOf ',' :: more) →
      MembersText more members rest → MembersText text ((name, value) :: members) rest

end

/-- `JSON-text` -/
def JsonText (text : Text) (tree : Tree) : Prop :=
  ∃ start rest, Spaces text start ∧ ValueText start tree rest ∧ Spaces rest []

mutual

/-- The depth of the innermost value. -/
def Tree.height : Tree → ℕ
  | .array items => highestItem items
  | .object members => highestMember members
  | _ => 0

def highestItem : List Tree → ℕ
  | [] => 0
  | item :: items => max (item.height + 1) (highestItem items)

def highestMember : List (List Part × Tree) → ℕ
  | [] => 0
  | (_, value) :: members => max (value.height + 1) (highestMember members)

end

end Grammar

section Meaning

/-- UTF-8 -/
def utf8 (n : ℕ) : Text :=
  if n < 0x80 then [BitVec.ofNat 8 n]
  else if n < 0x800 then [BitVec.ofNat 8 (0xC0 + n / 0x40), BitVec.ofNat 8 (0x80 + n % 0x40)]
  else if n < 0x10000 then
    [BitVec.ofNat 8 (0xE0 + n / 0x1000), BitVec.ofNat 8 (0x80 + n / 0x40 % 0x40),
      BitVec.ofNat 8 (0x80 + n % 0x40)]
  else
    [BitVec.ofNat 8 (0xF0 + n / 0x40000), BitVec.ofNat 8 (0x80 + n / 0x1000 % 0x40),
      BitVec.ofNat 8 (0x80 + n / 0x40 % 0x40), BitVec.ofNat 8 (0x80 + n % 0x40)]

def IsHigh (n : ℕ) : Prop := 0xD800 ≤ n ∧ n < 0xDC00

def IsLow (n : ℕ) : Prop := 0xDC00 ≤ n ∧ n < 0xE000

instance (n : ℕ) : Decidable (IsHigh n) := inferInstanceAs (Decidable (_ ∧ _))

instance (n : ℕ) : Decidable (IsLow n) := inferInstanceAs (Decidable (_ ∧ _))

/-- The code point of a surrogate pair. -/
def pairCode (high low : ℕ) : ℕ := 0x10000 + (high - 0xD800) * 0x400 + (low - 0xDC00)

/-- The bytes of a string with its escapes replaced. A surrogate that is alone has no code point: the
replacement character stands for it, or its own three bytes. -/
inductive Replaced : List Part → Text → Prop
  | nil : Replaced [] []
  | byte (b : BitVec 8) (parts : List Part) (text : Text) : Replaced parts text →
      Replaced (.byte b :: parts) (b :: text)
  | unit (n : ℕ) (parts : List Part) (text : Text) : ¬IsHigh n → ¬IsLow n → Replaced parts text →
      Replaced (.unit n :: parts) (utf8 n ++ text)
  | pair (high low : ℕ) (parts : List Part) (text : Text) : IsHigh high → IsLow low →
      Replaced parts text →
      Replaced (.unit high :: .unit low :: parts) (utf8 (pairCode high low) ++ text)
  | alone (n : ℕ) (parts : List Part) (replacement text : Text) : IsHigh n ∨ IsLow n →
      (IsHigh n → ∀ low ∈ parts.head?, ∀ m, low = .unit m → ¬IsLow m) →
      replacement = utf8 0xFFFD ∨ replacement = utf8 n → Replaced parts text →
      Replaced (.unit n :: parts) (replacement ++ text)

variable {F : Type}

mutual

/-- What a text means. The first member with a name gives the place and the last one the value. -/
inductive Means (strtod : Text → F) : Tree → Value F → Prop
  | null : Means strtod .null .null
  | bool (b : Bool) : Means strtod (.bool b) (.bool b)
  | number (text : Text) : Means strtod (.number text) (.number (strtod text) text)
  | string (parts : List Part) (text : Text) : Replaced parts text →
      Means strtod (.string parts) (.string text)
  | array (items : List Tree) (values : List (Value F)) : MeanItems strtod items values →
      Means strtod (.array items) (.array values)
  | object (members : List (List Part × Tree)) (fields : AssocList Text (Value F)) :
      MeanMembers strtod [] members fields → Means strtod (.object members) (.object fields)

inductive MeanItems (strtod : Text → F) : List Tree → List (Value F) → Prop
  | nil : MeanItems strtod [] []
  | cons (item : Tree) (value : Value F) (items : List Tree) (values : List (Value F)) :
      Means strtod item value → MeanItems strtod items values →
      MeanItems strtod (item :: items) (value :: values)

/-- The fields behind those that are there. -/
inductive MeanMembers (strtod : Text → F) :
    AssocList Text (Value F) → List (List Part × Tree) → AssocList Text (Value F) → Prop
  | nil (fields : AssocList Text (Value F)) : MeanMembers strtod fields [] fields
  | cons (fields : AssocList Text (Value F)) (name : List Part) (key : Text) (member : Tree)
      (value : Value F) (members : List (List Part × Tree)) (last : AssocList Text (Value F)) :
      Replaced name key → Means strtod member value →
      MeanMembers strtod (fields.insert key value) members last →
      MeanMembers strtod fields ((name, member) :: members) last

end

end Meaning

end Saad.Json
