import Saad.Std.Memory
import Saad.Std.StringBuilder

/-! # The memory of a StringBuilder

The buffer with its bytes, of which the text and the 0 byte behind it are a part. As long as the text
stays below 1 GiB, the buffer holds the text that the operations describe.
-/

namespace Saad

open General

/-- A `StringBuilder` with the bytes of its buffer, which is none when it is null. -/
structure BuilderMemory where
  buffer : Option Text := none
  cursor : ℤ := 0
  capacity : ℤ := 0
deriving DecidableEq

namespace BuilderMemory

section Definitions

variable (fresh : FreshMemory)

/-- Makes room for the text to grow by at least `extra` bytes. None when the loop doesn't end. -/
def reserve (sb : BuilderMemory) (extra : ℤ) : Option BuilderMemory :=
  let needed := int32 (sb.cursor + extra + 1)
  if needed ≤ sb.capacity then some sb
  else do
    let capacity := int32 (sb.capacity * 2)
    let capacity ← StringBuilder.growUntil needed (if capacity < 16 then 16 else capacity)
    let buffer ← store (resizedBlock fresh (sb.buffer.getD []) capacity.toNat) sb.cursor [0]
    some { sb with buffer := some buffer, capacity }

/-- Writes the bytes behind the text, and the 0 byte behind them. -/
def put (sb : BuilderMemory) (bytes : Text) : Option BuilderMemory := do
  let buffer ← sb.buffer
  let buffer ← store buffer sb.cursor bytes
  let cursor := int32 (sb.cursor + bytes.length)
  let buffer ← store buffer cursor [0]
  some { sb with buffer := some buffer, cursor }

def addBytes (sb : BuilderMemory) (bytes : Text) (count : ℤ) : Option BuilderMemory :=
  if count ≤ 0 then some sb
  else do
    let sb ← sb.reserve fresh count
    sb.put (bytes.take count.toNat)

def addString (sb : BuilderMemory) (s : Text) : Option BuilderMemory := sb.addBytes fresh s (int32 s.length)

/-- The part of the string from `start` to `last`, which is not included. -/
def addStringSlice (sb : BuilderMemory) (s : Text) (start last : ℤ) : Option BuilderMemory :=
  sb.addBytes fresh (s.drop start.toNat) (int32 (last - start))

def addChar (sb : BuilderMemory) (c : BitVec 8) : Option BuilderMemory := do
  let sb ← sb.reserve fresh 1
  sb.put [c]

def addRepeated (sb : BuilderMemory) (c : BitVec 8) (count : ℤ) : Option BuilderMemory :=
  if count ≤ 0 then some sb
  else do
    let sb ← sb.reserve fresh count
    sb.put (List.replicate count.toNat c)

/-- The digits in a buffer with that much room, the last digit first written. None when it is full. -/
def digits : ℕ → ℕ → Option Text
  | 0, _ => none
  | room + 1, v =>
    let digit := BitVec.ofNat 8 (v % 10) + byteOf '0'
    if v / 10 = 0 then some [digit] else (digits room (v / 10)).map (· ++ [digit])

def addUInt64 (sb : BuilderMemory) (v : BitVec 64) : Option BuilderMemory := do
  let written ← digits 20 v.toNat
  let sb ← sb.reserve fresh written.length
  written.foldlM (fun sb c => sb.addChar fresh c) sb

def addInt64 (sb : BuilderMemory) (v : BitVec 64) : Option BuilderMemory :=
  if v.slt 0 then do
    let sb ← sb.addChar fresh (byteOf '-')
    sb.addUInt64 fresh (-(v + 1) + 1)
  else sb.addUInt64 fresh v

/-- Removes the last `count` bytes. -/
def removeLast (sb : BuilderMemory) (count : ℤ) : Option BuilderMemory :=
  let count := if count > sb.cursor then sb.cursor else count
  let cursor := int32 (sb.cursor - count)
  match sb.buffer with
  | none => some { sb with cursor }
  | some buffer => (store buffer cursor [0]).map fun buffer => { sb with buffer := some buffer, cursor }

def clear (sb : BuilderMemory) : Option BuilderMemory :=
  match sb.buffer with
  | none => some { sb with cursor := 0 }
  | some buffer => (store buffer 0 [0]).map fun buffer => { sb with buffer := some buffer, cursor := 0 }

def free (_ : BuilderMemory) : BuilderMemory := {}

def toString (sb : BuilderMemory) : Text := (sb.buffer.getD []).take sb.cursor.toNat

end Definitions

section Operations

inductive Operation where
  | reserve (extra : ℤ)
  | addString (s : Text)
  | addStringSlice (s : Text) (start last : ℤ)
  | addChar (c : BitVec 8)
  | addRepeated (c : BitVec 8) (count : ℤ)
  | addInt64 (v : BitVec 64)
  | addUInt64 (v : BitVec 64)
  | removeLast (count : ℤ)
  | clear
  | free

def step (fresh : FreshMemory) (sb : BuilderMemory) : Operation → Option BuilderMemory
  | .reserve extra => sb.reserve fresh extra
  | .addString s => sb.addString fresh s
  | .addStringSlice s start last => sb.addStringSlice fresh s start last
  | .addChar c => sb.addChar fresh c
  | .addRepeated c count => sb.addRepeated fresh c count
  | .addInt64 v => sb.addInt64 fresh v
  | .addUInt64 v => sb.addUInt64 fresh v
  | .removeLast count => sb.removeLast count
  | .clear => sb.clear
  | .free => some sb.free

/-- The text that an operation describes. -/
def Operation.describe (text : Text) : Operation → Text
  | reserve _ => text
  | addString s => text ++ s
  | addStringSlice s start last => text ++ (s.take last.toNat).drop start.toNat
  | addChar c => text ++ [c]
  | addRepeated c count => text ++ List.replicate count.toNat c
  | addInt64 v => text ++ intText v.toInt
  | addUInt64 v => text ++ decimalText v.toNat
  | removeLast count => text.take (text.length - count.toNat)
  | clear => []
  | free => []

/-- A slice is one of its string. -/
def Operation.Proper : Operation → Prop
  | addStringSlice s start last => 0 ≤ start ∧ start ≤ last ∧ last ≤ s.length
  | reserve extra => -2 ^ 31 ≤ extra ∧ extra < 2 ^ 31
  | addRepeated _ count => -2 ^ 31 ≤ count ∧ count < 2 ^ 31
  | removeLast count => -2 ^ 31 ≤ count ∧ count < 2 ^ 31
  | _ => True

/-- The text, and the room that is asked for, stay below 1 GiB, and nothing else than bytes are removed. -/
def Operation.Small (text : Text) : Operation → Prop
  | reserve extra => text.length + extra < 2 ^ 30
  | removeLast count => 0 ≤ count
  | op => (op.describe text).length < 2 ^ 30

/-- The operations one after the other, each with its unknown memory. -/
def run : List (FreshMemory × Operation) → BuilderMemory → Option BuilderMemory
  | [], sb => some sb
  | (fresh, op) :: ops, sb => (sb.step fresh op).bind (run ops)

/-- The text that the operations describe. -/
def describeAll (text : Text) (ops : List (FreshMemory × Operation)) : Text :=
  ops.foldl (fun text op => op.2.describe text) text

/-- A condition on each operation and the text before it. -/
def Throughout (condition : Text → Operation → Prop) : Text → List (FreshMemory × Operation) → Prop
  | _, [] => True
  | text, op :: ops => condition text op.2 ∧ Throughout condition (op.2.describe text) ops

/-- What is true of a builder of a text. -/
structure Holds (sb : BuilderMemory) (text : Text) : Prop where
  toString : sb.toString = text
  length : sb.cursor = text.length
  room : ∀ buffer, sb.buffer = some buffer → text.length < sb.capacity ∧ sb.capacity = buffer.length
  zero : ∀ buffer, sb.buffer = some buffer → buffer[text.length]? = some 0

end Operations

end BuilderMemory

end Saad
