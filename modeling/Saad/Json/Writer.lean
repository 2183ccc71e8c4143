import Saad.Json.Grammar
import Saad.Std.BuilderSound

/-! # Writing JSON texts

The functions of the C library on numbers of 64 bits are those of `Floats`, with what is known of them.
-/

namespace Saad.Json

open General

/-- The numbers of 64 bits. `finite` is that neither `n != n` nor `n - n != 0.0`, `equal` is `==`, and
`sprintf` writes with `%.*g`. -/
structure Floats (F : Type) where
  strtod : Text → F
  sprintf : ℕ → F → Text
  finite : F → Bool
  equal : F → F → Bool

/-- How names are written. -/
inductive NameStyle where
  | asWritten
  | camelCase
  | pascalCase
  | snakeCase
  | kebabCase
  | upperSnake
deriving DecidableEq, Repr

structure Options where
  indent : ℤ := 0
  names : NameStyle := .asWritten
  enumValues : NameStyle := .asWritten
  enumsAsNumbers : Bool := false
  omitEmpty : Bool := false
  strict : Bool := false
deriving DecidableEq, Repr

structure Writer where
  sb : StringBuilder
  options : Options
  depth : ℤ
deriving DecidableEq, Repr

def newWriter (options : Options) : Option Writer :=
  (newStringBuilder 64).map fun sb => { sb, options, depth := 0 }

namespace Writer

def addChar (c : BitVec 8) (w : Writer) : Option Writer :=
  (w.sb.addChar c).map fun sb => { w with sb }

def addString (s : Text) (w : Writer) : Option Writer :=
  (w.sb.addString s).map fun sb => { w with sb }

def addSpaces : ℕ → Writer → Option Writer
  | 0, w => some w
  | count + 1, w => do
    let w ← w.addChar (byteOf ' ')
    addSpaces count w

/-- A newline and the indentation, when writing over more lines. -/
def newline (w : Writer) : Option Writer :=
  if w.options.indent ≤ 0 then some w
  else do
    let w ← w.addChar (byteOf '\n')
    w.addSpaces (int32 (w.options.indent * w.depth)).toNat

def hexChar (digit : ℕ) : BitVec 8 :=
  if digit < 10 then BitVec.ofNat 8 (48 + digit) else BitVec.ofNat 8 (97 + digit - 10)

/-- The text that a character is written as. -/
def escaped (ch : BitVec 8) : Option Text :=
  if ch = byteOf '"' then some [byteOf '\\', byteOf '"']
  else if ch = byteOf '\\' then some [byteOf '\\', byteOf '\\']
  else if ch = byteOf '\n' then some [byteOf '\\', byteOf 'n']
  else if ch = byteOf '\r' then some [byteOf '\\', byteOf 'r']
  else if ch = byteOf '\t' then some [byteOf '\\', byteOf 't']
  else if ch = 8 then some [byteOf '\\', byteOf 'b']
  else if ch = 12 then some [byteOf '\\', byteOf 'f']
  else none

def writeChar (ch : BitVec 8) (w : Writer) : Option Writer :=
  match escaped ch with
  | some text => w.addString text
  | none =>
    if ch < byteOf ' ' then do
      let w ← w.addString [byteOf '\\', byteOf 'u', byteOf '0', byteOf '0']
      let w ← w.addChar (hexChar (ch.toNat >>> 4))
      w.addChar (hexChar (ch.toNat &&& 15))
    else w.addChar ch

def writeChars : Text → Writer → Option Writer
  | [], w => some w
  | ch :: s, w => do
    let w ← w.writeChar ch
    writeChars s w

def writeString (s : Text) (w : Writer) : Option Writer := do
  let w ← w.addChar (byteOf '"')
  let w ← w.writeChars s
  w.addChar (byteOf '"')

def writeBool (b : Bool) (w : Writer) : Option Writer :=
  if b then w.addString (asciiBytes "true") else w.addString (asciiBytes "false")

def beginList (open_ : BitVec 8) (w : Writer) : Option Writer := do
  let w ← w.addChar open_
  return { w with depth := w.depth + 1 }

def nextElement (index : ℕ) (w : Writer) : Option Writer := do
  let w ← if index > 0 then w.addChar (byteOf ',') else some w
  w.newline

def endList (close : BitVec 8) (count : ℕ) (w : Writer) : Option Writer := do
  let w := { w with depth := w.depth - 1 }
  let w ← if count > 0 then w.newline else some w
  w.addChar close

def writeKey (key : Text) (w : Writer) : Option Writer := do
  let w ← w.writeString key
  let w ← w.addChar (byteOf ':')
  if w.options.indent > 0 then w.addChar (byteOf ' ') else some w

end Writer

section Values

variable {F : Type} (floats : Floats F)

/-- The loop over the precisions, with what is in the buffer. -/
def shortestText (n : F) : List ℕ → Text → Text
  | [], buffer => buffer
  | precision :: more, _ =>
    let buffer := floats.sprintf precision n
    if floats.equal (floats.strtod buffer) n then buffer else shortestText n more buffer

/-- The shortest text that reads back as the same number. -/
def f64Text (n : F) : Text := shortestText floats n [15, 16, 17] []

def writeF64 (n : F) (w : Writer) : Option Writer :=
  if !floats.finite n then w.addString (asciiBytes "null") else w.addString (f64Text floats n)

mutual

def writeValue : Value F → Writer → Option Writer
  | .null, w => w.addString (asciiBytes "null")
  | .bool b, w => w.writeBool b
  | .string text, w => w.writeString text
  | .number n text, w => if text.length > 0 then w.addString text else writeF64 floats n w
  | .array items, w => do
    let w ← w.beginList (byteOf '[')
    let w ← writeItems 0 items w
    w.endList (byteOf ']') items.length
  | .object fields, w => do
    let w ← w.beginList (byteOf '{')
    let w ← writeFields 0 fields w
    w.endList (byteOf '}') fields.length

def writeItems : ℕ → List (Value F) → Writer → Option Writer
  | _, [], w => some w
  | i, item :: items, w => do
    let w ← w.nextElement i
    let w ← writeValue item w
    writeItems (i + 1) items w

def writeFields : ℕ → List (Text × Value F) → Writer → Option Writer
  | _, [], w => some w
  | i, (key, value) :: fields, w => do
    let w ← w.nextElement i
    let w ← w.writeKey key
    let w ← writeValue value w
    writeFields (i + 1) fields w

end

/-- The value as JSON text. -/
def toJson (v : Value F) (options : Options) : Option Text := do
  let w ← newWriter options
  let w ← writeValue floats v w
  return w.sb.text

end Values

end Saad.Json

/-! # Names in a style

`styleName` of options.sd splits a name into words and writes them in a style. None is a builder whose loop doesn't end.
-/

namespace Saad.Json

namespace NameStyle

def separator (style : NameStyle) : Option (BitVec 8) :=
  match style with
  | .snakeCase | .upperSnake => some (byteOf '_')
  | .kebabCase => some (byteOf '-')
  | _ => none

/-- If the first letter of a word is a capital. The words are counted from 1. -/
def capital (style : NameStyle) (word : ℕ) : Bool :=
  style = .pascalCase || style = .upperSnake || style = .camelCase && word > 1

end NameStyle

def isSeparator (ch : BitVec 8) : Bool := ch = byteOf '_' || ch = byteOf '-'

/-- If a character starts a word, from the character in front of it and those behind it. -/
def startsWord (inWord : Bool) (previous : Option (BitVec 8)) (ch : BitVec 8) (rest : Text) : Bool :=
  !inWord || isUpper ch && previous.any fun previous => !isUpper previous || rest.head?.any isLower

/-- The loop over the characters of the name. `word` is the number of words that are written. -/
def addStyledFrom (style : NameStyle) :
    Option (BitVec 8) → ℕ → Bool → Text → StringBuilder → Option StringBuilder
  | _, _, _, [], sb => some sb
  | previous, word, inWord, ch :: rest, sb =>
    if isSeparator ch then addStyledFrom style (some ch) word false rest sb
    else if startsWord inWord previous ch rest then do
      let sb ← match style.separator with
        | some separator => if word > 0 then sb.addChar separator else some sb
        | none => some sb
      let sb ← sb.addChar (if style.capital (word + 1) then toUpper ch else toLower ch)
      addStyledFrom style (some ch) (word + 1) true rest sb
    else do
      let sb ← sb.addChar (if style = .upperSnake then toUpper ch else toLower ch)
      addStyledFrom style (some ch) word true rest sb

def addStyledName (sb : StringBuilder) (name : Text) (style : NameStyle) : Option StringBuilder :=
  if style = .asWritten then sb.addString name
  else addStyledFrom style none 0 false name sb

def styleName (name : Text) (style : NameStyle) : Option Text :=
  if style = .asWritten then some name
  else do
    let sb ← newStringBuilder (int32 (int32 name.length + 8))
    let sb ← addStyledName sb name style
    some sb.text

end Saad.Json
