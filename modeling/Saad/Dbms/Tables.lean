import Saad.Std.StringBuilder
import Saad.Std.Time

/-! # Values as the texts of parameters

`paramText` writes a value for the database, and `readValue` reads the text of a column.
-/

namespace Saad.Dbms

section Types

/-- The kinds of whole numbers. -/
inductive Primitive where
  | char | u8 | u16 | u32 | uint | u64 | i8 | i16 | i32 | int | i64
deriving DecidableEq, Repr

def Primitive.name : Primitive → Text
  | .char => asciiBytes "char"
  | .u8 => asciiBytes "u8"
  | .u16 => asciiBytes "u16"
  | .u32 => asciiBytes "u32"
  | .uint => asciiBytes "uint"
  | .u64 => asciiBytes "u64"
  | .i8 => asciiBytes "i8"
  | .i16 => asciiBytes "i16"
  | .i32 => asciiBytes "i32"
  | .int => asciiBytes "int"
  | .i64 => asciiBytes "i64"

/-- In bytes. -/
def Primitive.size : Primitive → ℕ
  | .char | .u8 | .i8 => 1
  | .u16 | .i16 => 2
  | .u32 | .uint | .i32 | .int => 4
  | .u64 | .i64 => 8

def Primitive.unsigned : Primitive → Bool
  | .char | .u8 | .u16 | .u32 | .uint | .u64 => true
  | _ => false

abbrev Primitive.Bits (kind : Primitive) : Type := BitVec (8 * kind.size)

/-- The number that the bits in memory stand for. -/
def Primitive.valueOf (kind : Primitive) (data : kind.Bits) : ℤ :=
  if kind.unsigned then data.toNat else data.toInt

def Primitive.InRange (kind : Primitive) (n : ℤ) : Prop :=
  if kind.unsigned then 0 ≤ n ∧ n < 2 ^ (8 * kind.size)
  else -2 ^ (8 * kind.size - 1) ≤ n ∧ n < 2 ^ (8 * kind.size - 1)

structure EnumType where
  name : Text
  backingType : Primitive
  values : List (Text × ℤ)
deriving DecidableEq, Repr

/-- The name of an enum value: the first one that has the value. -/
def EnumType.nameOf (type : EnumType) (value : ℤ) : Option Text :=
  (type.values.find? fun option => option.2 = value).map Prod.fst

/-- The value of an enum in memory, whose size is what counts. -/
def EnumType.readValue (type : EnumType) (data : type.backingType.Bits) : ℤ := data.toInt

inductive Ty where
  | bool
  | int (kind : Primitive)
  | enum (type : EnumType)
  | string
  | time
  | optional (item : Ty)
  | pointer (pointerTo : Ty)
deriving DecidableEq, Repr

def Ty.name : Ty → Text
  | .bool => asciiBytes "bool"
  | .int kind => kind.name
  | .enum type => type.name
  | .string => asciiBytes "string"
  | .time => asciiBytes "time.Time"
  | .optional item => byteOf '?' :: item.name
  | .pointer pointerTo => byteOf '*' :: pointerTo.name

/-- The values of a type. A pointer is null or what it points to. -/
def Ty.Val : Ty → Type
  | .bool => Bool
  | .int kind => kind.Bits
  | .enum type => type.backingType.Bits
  | .string => Text
  | .time => Time
  | .optional item => Option item.Val
  | .pointer pointerTo => Option pointerTo.Val

/-- The value whose bytes are 0. -/
def Ty.zero : (t : Ty) → t.Val
  | .bool => false
  | .int kind => (0 : kind.Bits)
  | .enum type => (0 : type.backingType.Bits)
  | .string => ([] : Text)
  | .time => ({} : Time)
  | .optional item => (none : Option item.Val)
  | .pointer pointerTo => (none : Option pointerTo.Val)

/-- An optional is a struct as well. -/
def Ty.isStruct : Ty → Bool
  | .time | .optional _ => true
  | _ => false

def Ty.isPointer : Ty → Bool
  | .pointer _ => true
  | _ => false

end Types

section Writing

/-- The text of a parameter, NULL, or a value that can't be one. -/
inductive Param where
  | text (text : Text)
  | null
  | unsupported
deriving DecidableEq, Repr

/-- What C sees of a text. -/
def toCString (text : Text) : Text := text.takeWhile (· ≠ 0)

def newBuilder : StringBuilder := { text := [], capacity := 0 }

def addUInt64 (sb : StringBuilder) (v : ℕ) : Option StringBuilder := do
  let digits := decimalText v
  let sb ← sb.reserve digits.length
  digits.foldlM StringBuilder.addChar sb

def addInt64 (sb : StringBuilder) (v : ℤ) : Option StringBuilder :=
  if v < 0 then do
    let sb ← sb.addChar (byteOf '-')
    addUInt64 sb v.natAbs
  else addUInt64 sb v.toNat

def addInteger (sb : StringBuilder) (kind : Primitive) (data : kind.Bits) : Option StringBuilder :=
  if kind = .char then sb.addChar (data.setWidth 8)
  else if kind.unsigned then addUInt64 sb (kind.valueOf data).toNat
  else addInt64 sb (kind.valueOf data)

def finish (sb : Option StringBuilder) : Option Param := sb.map fun sb => .text (toCString sb.text)

/-- The value as the text of a parameter. None is a text that a `StringBuilder` can't hold. -/
def paramText : (t : Ty) → t.Val → Option Param
  | .bool, (value : Bool) =>
    finish (newBuilder.addString (if value then asciiBytes "true" else asciiBytes "false"))
  | .int kind, (data : kind.Bits) => finish (addInteger newBuilder kind data)
  | .enum type, (data : type.backingType.Bits) =>
    match type.nameOf (type.readValue data) with
    | none => some .unsupported
    | some name => finish (newBuilder.addString name)
  | .string, (text : Text) => finish (newBuilder.addString text)
  | .time, (time : Time) => some (.text (toCString time.toString))
  | .optional _, none => some .null
  | .optional item, some value => paramText item value
  | .pointer _, none => some .null
  | .pointer pointerTo, some value =>
    if pointerTo.isPointer then some .unsupported else paramText pointerTo value

end Writing

section Names

def lower (c : BitVec 8) : BitVec 8 := if byteOf 'A' ≤ c ∧ c ≤ byteOf 'Z' then c + 32 else c

/-- The same name, where case and `_` don't matter. -/
def sameName : Text → Text → Bool
  | [], b => b.dropWhile (· = byteOf '_') = []
  | c :: a, b =>
    if c = byteOf '_' then sameName a b
    else
      match b.dropWhile (· = byteOf '_') with
      | [] => false
      | d :: b => if lower c ≠ lower d then false else sameName a b

end Names

section Reading

/-- `column: 'text' is not …` -/
def isNot (column text what : Text) : Text :=
  column ++ asciiBytes ": '" ++ text ++ asciiBytes "' is not " ++ what

/-- `column: text doesn't fit in a …` -/
def doesNotFit (column text type : Text) : Text :=
  column ++ asciiBytes ": " ++ text ++ asciiBytes " doesn't fit in a " ++ type

def cannotRead (column type : Text) : Text :=
  column ++ asciiBytes ": Can't read a column into a " ++ type

def readMagnitude (column text : Text) (kind : Primitive) : Text → ℕ → Except Text ℕ
  | [], magnitude => .ok magnitude
  | ch :: rest, magnitude =>
    if !isDigit ch then .error (isNot column text (asciiBytes "a whole number"))
    else if magnitude > (18446744073709551615 - digitNumber ch) / 10 then
      .error (doesNotFit column text kind.name)
    else readMagnitude column text kind rest (magnitude * 10 + digitNumber ch)

def writeBits (kind : Primitive) (bits : BitVec 64) : kind.Bits := bits.setWidth (8 * kind.size)

/-- If a magnitude with its sign is in the range of the type. -/
def fits (kind : Primitive) (negative : Bool) (magnitude : ℕ) : Bool :=
  let bits := 8 * kind.size
  if kind.unsigned then
    let biggest := if bits < 64 then 2 ^ bits - 1 else 18446744073709551615
    !((negative && magnitude ≠ 0) || magnitude > biggest)
  else
    let limit := 2 ^ (bits - 1)
    !((negative && magnitude > limit) || (!negative && magnitude ≥ limit))

/-- The memory afterwards, and an error that is empty when there is none. -/
def readInteger (column text : Text) (kind : Primitive) (data : kind.Bits) : kind.Bits × Text :=
  let negative := text.head? = some (byteOf '-')
  let digits := if negative ∨ text.head? = some (byteOf '+') then text.drop 1 else text
  if digits = [] then (data, isNot column text (asciiBytes "a whole number"))
  else
    match readMagnitude column text kind digits 0 with
    | .error err => (data, err)
    | .ok magnitude =>
      if fits kind negative magnitude then
        (writeBits kind (if negative then 0 - BitVec.ofNat 64 magnitude else BitVec.ofNat 64 magnitude), [])
      else (data, doesNotFit column text kind.name)

/-- An enum from the name of a value, or its number. -/
def readEnum (column text : Text) (type : EnumType) (data : type.backingType.Bits) :
    type.backingType.Bits × Text :=
  match type.values.find? fun option => sameName option.1 text with
  | some option => (writeBits type.backingType (BitVec.ofInt 64 option.2), [])
  | none =>
    let (number, err) := readInteger column text .i64 0
    if err = [] ∧ (type.nameOf (Primitive.valueOf .i64 number)).isSome then
      (writeBits type.backingType number, [])
    else (data, isNot column text (asciiBytes "a value of " ++ type.name))

def readBool (column value : Text) (data : Bool) : Bool × Text :=
  if value = asciiBytes "t" ∨ value = asciiBytes "true" ∨ value = asciiBytes "1" then (true, [])
  else if value = asciiBytes "f" ∨ value = asciiBytes "false" ∨ value = asciiBytes "0" then (false, [])
  else (data, isNot column value (asciiBytes "a bool"))

/-- Reads the text of a value, none for NULL, into memory that holds a value of the type. -/
def readValue (column : Text) : (t : Ty) → Option Text → t.Val → t.Val × Text
  | .optional item, none, _ => ((none : Option item.Val), [])
  | .pointer pointerTo, none, _ => ((none : Option pointerTo.Val), [])
  | .bool, none, data | .int _, none, data | .enum _, none, data | .string, none, data
  | .time, none, data => (data, [])
  | .optional item, some value, _ =>
    let (read, err) := readValue column item (some value) item.zero
    ((some read : Option item.Val), err)
  | .bool, some value, (data : Bool) => readBool column value data
  | .int kind, some value, (data : kind.Bits) => readInteger column value kind data
  | .enum type, some value, (data : type.backingType.Bits) => readEnum column value type data
  | .string, some value, _ => ((value : Text), [])
  | .time, some value, (data : Time) =>
    match Time.parse value with
    | none => (data, isNot column value (asciiBytes "a time"))
    | some t => (t, [])
  | .pointer pointerTo, some value, data =>
    if pointerTo.isStruct then (data, cannotRead column (Ty.pointer pointerTo).name)
    else
      let (read, err) := readValue column pointerTo (some value) pointerTo.zero
      ((some read : Option pointerTo.Val), err)

end Reading

end Saad.Dbms

/-! # Tables and their columns

The columns of a table are the members of the struct of its rows, under their names in the database.
-/

namespace Saad.Dbms

section Columns

/-- `dbms.Column`: what is said about the column at the member itself. -/
structure Column where
  name : Text := []
  skip : Bool := false
  key : Bool := false
  generated : Bool := false
  defaulted : Bool := false
deriving DecidableEq, Repr

structure StructMember where
  name : Text
  type : Ty
  /-- The attribute `dbms.Column` of the member. -/
  column : Option Column := none
  isHidden : Bool := false
deriving DecidableEq, Repr

/-- The column of a member of a row struct. -/
structure TableColumn where
  name : Text
  member : StructMember
  key : Bool := false
  generated : Bool := false
  defaulted : Bool := false
deriving DecidableEq, Repr

/-- Backwards, a name without the `_` at its end. A name of one character is left as it is. -/
def withoutTrailing : Text → Text
  | c :: d :: rest => if c = byteOf '_' then withoutTrailing (d :: rest) else c :: d :: rest
  | short => short

/-- `before` is the character in front of the text. -/
def snakeCase (before : Option (BitVec 8)) : Text → Text
  | [] => []
  | c :: rest =>
    let separated := before.any fun b => b ≠ byteOf '_' ∧ ¬isUpper b
    (if isUpper c then (if separated then [byteOf '_', c + 32] else [c + 32]) else [c]) ++
      snakeCase (some c) rest

/-- The column of a member: its name in snake case, without a `_` at its end. -/
def columnName (member : Text) : Text := snakeCase none (withoutTrailing member.reverse).reverse

def columnOf (generated defaulted : List Text) (key : Text) (member : StructMember) : Option TableColumn :=
  let said := member.column.getD {}
  let name := if said.name = [] then columnName member.name else said.name
  if said.skip ∨ member.isHidden then none
  else some {
    name
    member
    key := said.key || name = key
    generated := said.generated || generated.contains name
    defaulted := said.defaulted || defaulted.contains name }

/-- The columns of the members of a row struct, without the skipped ones. -/
def columnsOf (type : List StructMember) (generated defaulted : List Text) (key : Text) : List TableColumn :=
  type.filterMap (columnOf generated defaulted key)

def keyOf (columns : List TableColumn) : Option TableColumn := columns.find? (·.key)

example : columnName (asciiBytes "createdAt_") = asciiBytes "created_at" := by decide

end Columns

section Tables

/-- A relation of the rows of a table from a foreign key: to one row, or to the rows that refer to a row. -/
structure Relation where
  name : Text := []
  column : Text := []
  table : Text := []
  references : Text := []
  many : Bool := false
deriving DecidableEq, Repr

structure TableInfo where
  name : Text
  schema : Text := []
  key : Text := []
  generated : List Text := []
  defaulted : List Text := []
  /-- The members of the struct of the rows. -/
  type : List StructMember
  relations : List Relation := []
deriving DecidableEq, Repr

/-- The column of a member of the rows of the table. -/
def columnIn (table : TableInfo) (member : Text) : Text :=
  (columnsOf table.type table.generated table.defaulted table.key).foldl
    (fun name column => if column.member.name = member then column.name else name) (columnName member)

def relationNamed (table : TableInfo) (name : Text) : Option Relation :=
  table.relations.find? (·.name = name)

/-- The tables that are registered with a context, each under its name. -/
def tableNamed (tables : List TableInfo) (name : Text) : Option TableInfo := tables.find? (·.name = name)

end Tables

end Saad.Dbms
